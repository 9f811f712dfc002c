import Smx.Base.Bytes
import Smx.Lib.Wildcard

/-! `%wcmatch` and its case-sensitive sibling: patterns with `*` and `?`. -/
namespace Smx

/-- `while (*a) { if (f(a++)) return 1; } return 0;` -/
def anyFrom (f : Bytes → Bool) : Bytes → Bool
  | [] => false
  | c::a => f (c::a) || anyFrom f a

/-- The loop of both matchers, with the comparison of two bytes. -/
def wcmLoop (same : Byte → Byte → Bool) (a : Bytes) : Bytes → Bool
  | [] => a.isEmpty
  | c::w =>
    if c = ch '*' then
      let w' := w.dropWhile (· == ch '*')
      if w' = [] then true else anyFrom (fun s => wcmLoop same s w') a
    else
      match a with
      | [] => false
      | d::a => if c = ch '?' then wcmLoop same a w else same d c && wcmLoop same a w
termination_by w => w.length
decreasing_by
  · exact Nat.lt_succ_of_le (List.dropWhile_suffix _).length_le
  · exact Nat.lt_succ_self _
  · exact Nat.lt_succ_self _

def isWcmX (a w : Bytes) : Bool := wcmLoop (· == ·) a w

def isWcm (a w : Bytes) : Bool := wcmLoop (fun d c => tolower d == tolower c) a w

/-- `%wcmatch` -/
def evalWcm (args : List Bytes) : Bytes :=
  match args with
  | a::w::_ => if isWcm (cstr a) (cstr w) then [ch 'T'] else []
  | _ => []

def evalWcmX (args : List Bytes) : Bytes :=
  match args with
  | a::w::_ => if isWcmX (cstr a) (cstr w) then [ch 'T'] else []
  | _ => []

/-- What a byte of a pattern stands for. -/
def symbol (c : Byte) : Wildcard Byte :=
  if c = ch '*' then .star else if c = ch '?' then .any else .lit c

/-- The language of a pattern. -/
def wcmLang (w : Bytes) : Language Byte := Wildcard.lang (w.map symbol)

variable {same : Byte → Byte → Bool} {a w : Bytes} {f : Bytes → Bool} {c d : Byte}

theorem anyFrom_eq_true : anyFrom f a = true ↔ ∃ s, s ≠ [] ∧ s <:+ a ∧ f s = true := by
  induction a with
  | nil => simp [anyFrom]
  | cons c a ih =>
    rw [anyFrom,Bool.or_eq_true,ih]
    constructor
    · rintro (h | ⟨s,hne,hs,h⟩)
      · exact ⟨c::a,List.cons_ne_nil c a,List.suffix_rfl,h⟩
      · exact ⟨s,hne,hs.trans (List.suffix_cons c a),h⟩
    · rintro ⟨s,hne,hs,h⟩
      obtain rfl | hs := List.suffix_cons_iff.mp hs
      · exact .inl h
      · exact .inr ⟨s,hne,hs,h⟩

theorem wcmLoop_nil : wcmLoop same a [] = a.isEmpty := by rw [wcmLoop]

theorem wcmLoop_star : wcmLoop same a (ch '*'::w) =
    if w.dropWhile (· == ch '*') = [] then true
    else anyFrom (fun s => wcmLoop same s (w.dropWhile (· == ch '*'))) a := by
  rw [wcmLoop.eq_def]
  simp

theorem wcmLoop_end (hc : c ≠ ch '*') : wcmLoop same [] (c::w) = false := by
  rw [wcmLoop.eq_def]
  simp [hc]

theorem wcmLoop_any : wcmLoop same (d::a) (ch '?'::w) = wcmLoop same a w := by
  have hmark : ch '?' ≠ ch '*' := by decide
  rw [wcmLoop.eq_def]
  simp [hmark]

theorem wcmLoop_lit (hc : c ≠ ch '*') (hq : c ≠ ch '?') :
    wcmLoop same (d::a) (c::w) = (same d c && wcmLoop same a w) := by
  rw [wcmLoop.eq_def]
  simp [hc,hq]

theorem symbol_star : symbol (ch '*') = .star := if_pos rfl

theorem symbol_any : symbol (ch '?') = .any := by
  rw [symbol,if_neg (by decide),if_pos rfl]

theorem symbol_lit (hs : c ≠ ch '*') (hq : c ≠ ch '?') : symbol c = .lit c := by
  rw [symbol,if_neg hs,if_neg hq]

/-- Stars behind a star change nothing. -/
theorem wcmLang_star (w : Bytes) :
    wcmLang (ch '*'::w) = Wildcard.lang (.star::(w.dropWhile (· == ch '*')).map symbol) := by
  rw [wcmLang,List.map_cons,symbol_star]
  induction w with
  | nil => rfl
  | cons c w ih =>
    by_cases hc : c = ch '*'
    · rw [hc,List.map_cons,symbol_star,Wildcard.lang_star_star,ih]
      rfl
    · rw [List.dropWhile_cons_of_neg (by simpa using hc)]

/-- What is left of a pattern behind its stars takes a byte at least. -/
theorem nil_not_mem_dropWhile (h : w.dropWhile (· == ch '*') ≠ []) :
    [] ∉ Wildcard.lang ((w.dropWhile (· == ch '*')).map symbol) := by
  have hhead := List.head_dropWhile_not (· == ch '*') h
  generalize w.dropWhile (· == ch '*') = w' at h hhead
  obtain ⟨c,v,rfl⟩ := List.exists_cons_of_ne_nil h
  have hc : c ≠ ch '*' := by simpa using hhead
  rw [List.map_cons]
  by_cases hq : c = ch '?'
  · rw [hq,symbol_any]
    exact Wildcard.nil_not_mem_lang_any
  · rw [symbol_lit hc hq]
    exact Wildcard.nil_not_mem_lang_lit

/-- The matcher finds the language of the pattern. -/
theorem wcmLoop_eq_iff (a w : Bytes) : wcmLoop (· == ·) a w = true ↔ a ∈ wcmLang w := by
  induction a, w using wcmLoop.induct with
  | case1 a => simp [wcmLoop_nil,wcmLang,Wildcard.mem_lang_nil]
  | case2 a w w' hw =>
    have hw : w.dropWhile (· == ch '*') = [] := hw
    rw [wcmLoop_star,wcmLang_star,hw,List.map_nil,Wildcard.lang_star]
    exact iff_of_true rfl trivial
  | case3 a w w' hw ih =>
    have hw : w.dropWhile (· == ch '*') ≠ [] := hw
    have ih (s : Bytes) : wcmLoop (· == ·) s (w.dropWhile (· == ch '*')) = true ↔
        s ∈ Wildcard.lang ((w.dropWhile (· == ch '*')).map symbol) := ih s
    rw [wcmLoop_star,wcmLang_star,Wildcard.mem_lang_star,if_neg hw,anyFrom_eq_true]
    constructor
    · rintro ⟨s,-,hs,h⟩
      exact ⟨s,hs,(ih s).mp h⟩
    · rintro ⟨s,hs,h⟩
      refine ⟨s,?_,hs,(ih s).mpr h⟩
      rintro rfl
      exact nil_not_mem_dropWhile hw h
  | case4 c w hc =>
    rw [wcmLoop_end hc,wcmLang,List.map_cons]
    by_cases hq : c = ch '?'
    · simpa [hq,symbol_any] using Wildcard.nil_not_mem_lang_any
    · simpa [symbol_lit hc hq] using Wildcard.nil_not_mem_lang_lit
  | case5 w d a hc ih =>
    rw [wcmLoop_any,wcmLang,List.map_cons,symbol_any,Wildcard.cons_mem_lang_any]
    exact ih
  | case6 c w hc d a hq ih =>
    rw [wcmLoop_lit hc hq,wcmLang,List.map_cons,symbol_lit hc hq,Wildcard.cons_mem_lang_lit,Bool.and_eq_true,
      beq_iff_eq,ih]
    rfl

theorem tolower_eq_mark : ∀ c : Byte, (tolower c = ch '*' ↔ c = ch '*') ∧ (tolower c = ch '?' ↔ c = ch '?') := by
  grind [tolower,ch]

theorem anyFrom_map (g : Byte → Byte) (f : Bytes → Bool) (a : Bytes) :
    anyFrom f (a.map g) = anyFrom (fun s => f (s.map g)) a := by
  induction a with
  | nil => rfl
  | cons c a ih => simp [anyFrom,ih]

theorem dropWhile_map_tolower (w : Bytes) :
    (w.map tolower).dropWhile (· == ch '*') = (w.dropWhile (· == ch '*')).map tolower := by
  have hcomp : ((· == ch '*') ∘ tolower : Byte → Bool) = (· == ch '*') := by
    funext c
    apply Bool.eq_iff_iff.mpr
    simpa using (tolower_eq_mark c).1
  rw [List.dropWhile_map,hcomp]

/-- The comparison without case is the one of the lower-case texts. -/
theorem wcmLoop_tolower (a w : Bytes) :
    wcmLoop (fun d c => tolower d == tolower c) a w = wcmLoop (· == ·) (a.map tolower) (w.map tolower) := by
  have hstar : tolower (ch '*') = ch '*' := rfl
  have hmark : tolower (ch '?') = ch '?' := rfl
  induction a, w using wcmLoop.induct with
  | case1 a => simp [wcmLoop_nil]
  | case2 a w w' hw =>
    have hw : w.dropWhile (· == ch '*') = [] := hw
    rw [List.map_cons,hstar,wcmLoop_star,wcmLoop_star,dropWhile_map_tolower,hw]
    rfl
  | case3 a w w' hw ih =>
    have hw : w.dropWhile (· == ch '*') ≠ [] := hw
    have hw' : (w.dropWhile (· == ch '*')).map tolower ≠ [] := by simpa using hw
    rw [List.map_cons,hstar,wcmLoop_star,wcmLoop_star,dropWhile_map_tolower,if_neg hw,if_neg hw',anyFrom_map]
    congr 1
    funext s
    exact ih s
  | case4 c w hc =>
    rw [wcmLoop_end hc,List.map_cons]
    exact (wcmLoop_end (mt (tolower_eq_mark c).1.mp hc)).symm
  | case5 w d a hc ih =>
    rw [List.map_cons,List.map_cons,hmark,wcmLoop_any,wcmLoop_any]
    exact ih
  | case6 c w hc d a hq ih =>
    rw [List.map_cons,List.map_cons,wcmLoop_lit hc hq,
      wcmLoop_lit (mt (tolower_eq_mark c).1.mp hc) (mt (tolower_eq_mark c).2.mp hq),ih]

theorem evalWcm_eq (a w : Bytes) (args : List Bytes) :
    evalWcm (a::w::args) = [ch 'T'] ↔ (cstr a).map tolower ∈ wcmLang ((cstr w).map tolower) := by
  rw [evalWcm,isWcm,wcmLoop_tolower,← wcmLoop_eq_iff]
  simp

theorem evalWcmX_eq (a w : Bytes) (args : List Bytes) :
    evalWcmX (a::w::args) = [ch 'T'] ↔ cstr a ∈ wcmLang (cstr w) := by
  rw [evalWcmX,isWcmX,← wcmLoop_eq_iff]
  simp

/-- Wildcard matching is exact, and without case it is that of the lower-case texts. -/
theorem wcm_exact : (∀ a w, isWcmX a w = true ↔ a ∈ wcmLang w) ∧
    ∀ a w, isWcm a w = isWcmX (a.map tolower) (w.map tolower) :=
  ⟨wcmLoop_eq_iff,wcmLoop_tolower⟩
end Smx
