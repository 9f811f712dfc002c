import Mathlib
import Smx.Strings.EnumSort

/-! `%getattrvalue`. -/
namespace Smx

/-- The test behind the loop, which puts out the last value. -/
def lastAttr (m n : Bytes) : Option Bytes → Bytes
  | some v => if v ≠ [] ∧ n ≠ [] ∧ stricmp m n = 0 then v else []
  | none => []

/-- The loop of `EvalGetAttrValue`. `n` is what stands between the pointer of that name and `p`; `none` where `p` is
moved over the terminating NUL. -/
def attrLoop (m : Bytes) : ℕ → Bytes → Bytes → Option Bytes → Option Bytes
  | _,[],n,v => some (lastAttr m n v)
  | 0,_::_,_,_ => none
  | k+1,c::p,n,v =>
    let n := n ++ (c::p).takeWhile isspace
    match (c::p).dropWhile isspace with
    | [] => none
    | c::p =>
      if c = ch '=' then
        let p := p.dropWhile isspace
        let val := p.takeWhile (· ≠ ch ';')
        match p.dropWhile (· ≠ ch ';') with
        | [] => none
        | _::p =>
          if stricmp m n = 0 then some val
          else
            match p.dropWhile isspace with
            | [] => none
            | c::p => attrLoop m k p [c] none
      else if c = ch ';' then attrLoop m k p [] v
      else attrLoop m k p (n ++ [c]) v

/-- `EvalGetAttrValue`. -/
def evalGetAttrValue : List Bytes → Option Bytes
  | tmp::m::_ => if tmp ≠ [] ∧ m ≠ [] then attrLoop m (cstr tmp).length (cstr tmp) [] none else some []
  | _ => some []

/-- The name that is seen at the end of `x`, if `n` was read before. -/
def keyOf (n x : Bytes) : Bytes := x.foldl (fun n c => if c = ch ';' then [] else n ++ [c]) n

/-- A text that is scanned without leaving it: attributes that are closed by `;`, up to one with the name `m` or up to
a rest without `=` that does not end in a blank. `n` was read before. -/
inductive AttrSafe (m : Bytes) : Bytes → Bytes → Prop
  | rest {n x : Bytes} (hx : ch '=' ∉ x) (hend : ∀ c ∈ x.getLast?, isspace c = false) : AttrSafe m n x
  | found {n x u z : Bytes} (hx : ch '=' ∉ x) (hu : ch ';' ∉ u) (h : stricmp m (keyOf n x) = 0) :
    AttrSafe m n (x ++ ch '='::(u ++ ch ';'::z))
  | next {n x u z b : Bytes} {c : Byte} (hx : ch '=' ∉ x) (hu : ch ';' ∉ u) (hb : ∀ d ∈ b, isspace d = true)
    (hc : isspace c = false) (h : AttrSafe m [c] z) : AttrSafe m n (x ++ ch '='::(u ++ ch ';'::(b ++ c::z)))

variable {m n x u z p : Bytes} {c : Byte} {k : ℕ}

theorem keyOf_cons : keyOf n (c::x) = keyOf (if c = ch ';' then [] else n ++ [c]) x := rfl

/-- A blank is passed over, unless it is the last character. -/
theorem attrLoop_blank (hc : isspace c = true) (hp : p ≠ []) :
    attrLoop m (k+1) (c::p) n none = attrLoop m (k+1) p (n ++ [c]) none := by
  obtain ⟨d,p,rfl⟩ := List.exists_cons_of_ne_nil hp
  simp only [attrLoop]
  rw [List.dropWhile_cons_of_pos hc,List.takeWhile_cons_of_pos hc]
  simp only [List.append_assoc,List.cons_append,List.nil_append]

theorem attrLoop_name (hc : isspace c = false) (heq : c ≠ ch '=') :
    attrLoop m (k+1) (c::p) n none = attrLoop m k p (if c = ch ';' then [] else n ++ [c]) none := by
  simp only [attrLoop]
  rw [List.dropWhile_cons_of_neg (by simp [hc]),List.takeWhile_cons_of_neg (by simp [hc])]
  split_ifs <;> simp_all

/-- Up to the next `=` only the name is read. -/
theorem attrLoop_key (hx : ch '=' ∉ x) (hk : (x ++ ch '='::p).length ≤ k) :
    ∃ k', (ch '='::p).length ≤ k' ∧ attrLoop m k (x ++ ch '='::p) n none = attrLoop m k' (ch '='::p) (keyOf n x) none := by
  induction x generalizing n k with
  | nil => exact ⟨k,hk,rfl⟩
  | cons c x ih =>
    obtain ⟨k,rfl⟩ : ∃ j, k = j+1 := Nat.exists_eq_succ_of_ne_zero (by simp at hk; omega)
    rw [List.cons_append,keyOf_cons]
    have hne : c ≠ ch '=' := fun h => hx (by simp [h])
    have hx' : ch '=' ∉ x := fun h => hx (List.mem_cons_of_mem c h)
    simp only [List.cons_append,List.length_cons] at hk
    cases hc : isspace c with
    | true =>
      have hsemi : c ≠ ch ';' := by
        rintro rfl
        exact absurd hc (by decide)
      rw [attrLoop_blank hc (by simp),if_neg hsemi]
      exact ih hx' (by omega)
    | false =>
      rw [attrLoop_name hc hne]
      exact ih hx' (by omega)

/-- Without an `=` nothing is found, and only a blank at the end is passed over together with the NUL. -/
theorem attrLoop_rest (hx : ch '=' ∉ x) (hk : x.length ≤ k) :
    attrLoop m k x n none = if ∀ c ∈ x.getLast?, isspace c = false then some [] else none := by
  induction x generalizing n k with
  | nil => simp [attrLoop,lastAttr]
  | cons c x ih =>
    obtain ⟨k,rfl⟩ : ∃ j, k = j+1 := Nat.exists_eq_succ_of_ne_zero (by simp at hk; omega)
    have hne : c ≠ ch '=' := fun h => hx (by simp [h])
    have hx' : ch '=' ∉ x := fun h => hx (List.mem_cons_of_mem c h)
    simp only [List.length_cons] at hk
    cases hc : isspace c with
    | true =>
      cases x with
      | nil => simp [attrLoop,hc]
      | cons d x => rw [attrLoop_blank hc (by simp),ih hx' (by omega),List.getLast?_cons_cons]
    | false =>
      rw [attrLoop_name hc hne,ih hx' (by omega)]
      cases x with
      | nil => simp [hc]
      | cons d x => rw [List.getLast?_cons_cons]

/-- A value that is not closed is read over its end. -/
theorem attrLoop_open (hu : ch ';' ∉ u) : attrLoop m k (ch '='::u) n none = none := by
  cases k with
  | zero => rfl
  | succ k =>
    have heq : isspace (ch '=') = false := by decide
    have hdrop : (u.dropWhile isspace).dropWhile (· ≠ ch ';') = [] := by
      apply List.dropWhile_eq_nil_iff.mpr
      intro c hc
      have hmem := (List.dropWhile_suffix isspace).mem hc
      simpa using ne_of_mem_of_not_mem hmem hu
    simp only [attrLoop]
    rw [List.dropWhile_cons_of_neg (by simp [heq])]
    simp only [if_true,hdrop]

/-- What follows a value that is closed. -/
theorem attrLoop_closed (hu : ch ';' ∉ u) : attrLoop m (k+1) (ch '='::(u ++ ch ';'::z)) n none =
    if stricmp m n = 0 then some (u.dropWhile isspace)
    else
      match z.dropWhile isspace with
      | [] => none
      | c::p => attrLoop m k p [c] none := by
  have heq : isspace (ch '=') = false := by decide
  have hsemi : isspace (ch ';') = false := by decide
  have hvalue : (u ++ ch ';'::z).dropWhile isspace = u.dropWhile isspace ++ ch ';'::z := by
    rw [List.dropWhile_append]
    split_ifs with h
    · rw [List.dropWhile_cons_of_neg (by simp [hsemi]),List.isEmpty_iff.mp h]
      rfl
    · rfl
  have hpos : ∀ c ∈ u.dropWhile isspace, decide (c ≠ ch ';') = true := by
    intro c hc
    have hmem := (List.dropWhile_suffix isspace).mem hc
    simpa using ne_of_mem_of_not_mem hmem hu
  have hdrop : (u.dropWhile isspace ++ ch ';'::z).dropWhile (fun c => decide (c ≠ ch ';')) = ch ';'::z := by
    rw [List.dropWhile_append_of_pos hpos,List.dropWhile_cons_of_neg (by simp)]
  have htake : (u.dropWhile isspace ++ ch ';'::z).takeWhile (fun c => decide (c ≠ ch ';')) = u.dropWhile isspace := by
    rw [List.takeWhile_append_of_pos hpos,List.takeWhile_cons_of_neg (by simp),List.append_nil]
  simp only [attrLoop]
  rw [List.dropWhile_cons_of_neg (by simp [heq]),List.takeWhile_cons_of_neg (by simp [heq])]
  simp only [if_true,hvalue,hdrop,htake,List.append_nil]

theorem exists_of_closed (hu : ch ';' ∉ u) (hk : (ch '='::(u ++ ch ';'::z)).length ≤ k) : ∃ k', z.length ≤ k' ∧
    attrLoop m k (ch '='::(u ++ ch ';'::z)) n none =
      if stricmp m n = 0 then some (u.dropWhile isspace)
      else
        match z.dropWhile isspace with
        | [] => none
        | c::p => attrLoop m k' p [c] none := by
  simp only [List.length_cons,List.length_append] at hk
  obtain ⟨k,rfl⟩ : ∃ j, k = j+1 := Nat.exists_eq_succ_of_ne_zero (by omega)
  exact ⟨k,by omega,attrLoop_closed hu⟩

theorem AttrSafe.defined (h : AttrSafe m n p) (hk : p.length ≤ k) : ∃ out, attrLoop m k p n none = some out := by
  induction h generalizing k with
  | rest hx hend => exact ⟨_,by rw [attrLoop_rest hx hk,if_pos hend]⟩
  | found hx hu h =>
    obtain ⟨k',hk',hkey⟩ := attrLoop_key hx hk
    obtain ⟨k'',-,hclosed⟩ := exists_of_closed hu hk'
    exact ⟨_,by rw [hkey,hclosed,if_pos h]⟩
  | @next n x u z b c hx hu hb hc h ih =>
    obtain ⟨k',hk',hkey⟩ := attrLoop_key hx hk
    obtain ⟨k'',hk'',hclosed⟩ := exists_of_closed hu hk'
    have hdrop : (b ++ c::z).dropWhile isspace = c::z := by
      rw [List.dropWhile_append_of_pos hb,List.dropWhile_cons_of_neg (by simp [hc])]
    rw [hkey,hclosed,hdrop]
    split_ifs
    · exact ⟨_,rfl⟩
    · simp only [List.length_append,List.length_cons] at hk''
      exact ih (by omega)

theorem attrSafe_of_defined {out : Bytes} (hk : p.length ≤ k) (h : attrLoop m k p n none = some out) :
    AttrSafe m n p := by
  induction hlen : p.length using Nat.strong_induction_on generalizing p n k with
  | _ len ih =>
    by_cases heq : ch '=' ∈ p
    · obtain ⟨x,y,rfl,hx⟩ := List.eq_append_cons_of_mem heq
      obtain ⟨k',hk',hkey⟩ := attrLoop_key (m := m) (n := n) hx hk
      rw [hkey] at h
      by_cases hsemi : ch ';' ∈ y
      · obtain ⟨u,z,rfl,hu⟩ := List.eq_append_cons_of_mem hsemi
        obtain ⟨k'',hk'',hclosed⟩ := exists_of_closed (m := m) (n := keyOf n x) hu hk'
        rw [hclosed] at h
        split_ifs at h with hfound
        · exact AttrSafe.found hx hu hfound
        · have hsplit : z.takeWhile isspace ++ z.dropWhile isspace = z := List.takeWhile_append_dropWhile
          have hb : ∀ d ∈ z.takeWhile isspace, isspace d = true := fun d hd => List.mem_takeWhile_imp hd
          have hhead : ∀ c ∈ (z.dropWhile isspace).head?, isspace c = false := fun c => Tokens.head_dropWhile
          cases hz : z.dropWhile isspace with
          | nil =>
            rw [hz] at h
            cases h
          | cons c q =>
            rw [hz] at h hsplit hhead
            have hsize := congrArg List.length hsplit
            simp only [List.length_append,List.length_cons] at hsize hlen
            rw [← hsplit]
            exact AttrSafe.next hx hu hb (hhead c rfl) (ih q.length (by omega) (by omega) h rfl)
      · rw [attrLoop_open hsemi] at h
        cases h
    · rw [attrLoop_rest heq hk] at h
      split_ifs at h with hend
      exact AttrSafe.rest heq hend

/-- A pair of a name and a value, with blanks around both. -/
structure Attr where
  pre : Bytes
  name : Bytes
  post : Bytes
  lead : Bytes
  value : Bytes
  trail : Bytes
  blanks : ∀ c ∈ pre ++ post ++ lead ++ trail, isspace c = true
  name_ne : name ≠ []
  name_free : ∀ c ∈ name, c ≠ ch '=' ∧ c ≠ ch ';' ∧ c ≠ 0 ∧ isspace c = false
  value_free : ∀ c ∈ value, c ≠ ch ';' ∧ c ≠ 0

namespace Attr

def rest (a : Attr) : Bytes := a.lead ++ a.value ++ a.trail

def text (a : Attr) : Bytes := a.pre ++ a.name ++ a.post ++ ch '='::a.rest

/-- What stands behind the first blanks. -/
def read (a : Attr) : Bytes := a.rest.dropWhile isspace

end Attr

/-- What stands behind a pair: the others, and a `;` at the end or not. -/
def attrTail (final : Bool) : List Attr → Bytes
  | [] => if final then [ch ';'] else []
  | a::as => ch ';'::(a.text ++ attrTail final as)

/-- The text of a list of pairs. -/
def attrText (final : Bool) : List Attr → Bytes
  | [] => []
  | a::as => a.text ++ attrTail final as

/-- The value of the first pair with the name. -/
def wantedValue (m : Bytes) (as : List Attr) : Bytes :=
  ((as.find? fun a => stricmp m a.name = 0).map Attr.value).getD []

/-- The pairs that are closed, from one on that is seen under the name `n`. -/
def closedFrom (final : Bool) (n : Bytes) (a : Attr) : List Attr → List (Bytes × Attr)
  | [] => if final then [(n,a)] else []
  | b::as => (n,a)::closedFrom final (b.name ++ b.post) b as

/-- The pairs that are closed by `;`, and the names under which they are seen: with the blanks behind them, and
those in front of the first. -/
def closedAttrs (final : Bool) : List Attr → List (Bytes × Attr)
  | [] => []
  | a::as => closedFrom final (a.pre ++ a.name ++ a.post) a as

theorem keyOf_of_free (hx : ch ';' ∉ x) : keyOf n x = n ++ x := by
  induction x generalizing n with
  | nil => simp [keyOf]
  | cons c x ih =>
    have hne : c ≠ ch ';' := fun h => hx (by simp [h])
    rw [keyOf_cons,if_neg hne,ih fun h => hx (List.mem_cons_of_mem c h),List.append_assoc]
    rfl

section
variable {a b : Attr} {final : Bool}

theorem Attr.isspace_mem (hc : c ∈ a.pre ∨ c ∈ a.post ∨ c ∈ a.lead ∨ c ∈ a.trail) : isspace c = true := by
  apply a.blanks
  simp only [List.mem_append]
  tauto

theorem blank_ne (hc : isspace c = true) : c ≠ ch '=' ∧ c ≠ ch ';' ∧ c ≠ 0 := by
  refine ⟨?_,?_,?_⟩ <;> rintro rfl <;> exact absurd hc (by decide)

theorem Attr.rest_free (a : Attr) : ch ';' ∉ a.rest := by
  intro h
  simp only [Attr.rest,List.mem_append] at h
  rcases h with (h | h) | h
  · exact (blank_ne (a.isspace_mem (by simp [h]))).2.1 rfl
  · exact (a.value_free _ h).1 rfl
  · exact (blank_ne (a.isspace_mem (by simp [h]))).2.1 rfl

/-- Neither a name nor the blanks around it have an `=` or a `;`. -/
theorem Attr.key_free (a : Attr) : ∀ c ∈ a.pre ++ a.name ++ a.post, c ≠ ch '=' ∧ c ≠ ch ';' := by
  intro c hc
  simp only [List.mem_append] at hc
  rcases hc with (hc | hc) | hc
  · have hne := blank_ne (a.isspace_mem (.inl hc))
    exact ⟨hne.1,hne.2.1⟩
  · exact ⟨(a.name_free c hc).1,(a.name_free c hc).2.1⟩
  · have hne := blank_ne (a.isspace_mem (.inr (.inl hc)))
    exact ⟨hne.1,hne.2.1⟩

/-- The scan finds the first of the closed pairs that is seen under the name, and otherwise leaves the text. -/
theorem attrLoop_attrs (hx : ch '=' ∉ x) (as : List Attr) (hk : (x ++ ch '='::(a.rest ++ attrTail final as)).length ≤ k) :
    attrLoop m k (x ++ ch '='::(a.rest ++ attrTail final as)) n none =
      ((closedFrom final (keyOf n x) a as).find? fun q => stricmp m q.1 = 0).map fun q => q.2.read := by
  induction as generalizing a n x k with
  | nil =>
    obtain ⟨k',hk',hkey⟩ := attrLoop_key (m := m) (n := n) hx hk
    rw [hkey]
    cases final with
    | false => simpa [attrTail,closedFrom] using attrLoop_open a.rest_free
    | true =>
      obtain ⟨k'',-,hclosed⟩ := exists_of_closed (m := m) (n := keyOf n x) a.rest_free hk'
      simp only [attrTail,if_true,closedFrom,hclosed]
      split_ifs with h <;> simp [h,Attr.read]
  | cons b as ih =>
    obtain ⟨k',hk',hkey⟩ := attrLoop_key (m := m) (n := n) hx hk
    obtain ⟨k'',hk'',hclosed⟩ := exists_of_closed (m := m) (n := keyOf n x) a.rest_free hk'
    rw [hkey]
    simp only [attrTail,closedFrom,hclosed]
    split_ifs with h
    · simp [h,Attr.read]
    · obtain ⟨c,name,hname⟩ := List.exists_cons_of_ne_nil b.name_ne
      have hc : isspace c = false := (b.name_free c (by simp [hname])).2.2.2
      have hpre : ∀ d ∈ b.pre, isspace d = true := fun d hd => b.isspace_mem (.inl hd)
      have hdrop : (b.text ++ attrTail final as).dropWhile isspace =
          c::((name ++ b.post) ++ ch '='::(b.rest ++ attrTail final as)) := by
        simp only [Attr.text,hname,List.append_assoc,List.cons_append]
        rw [List.dropWhile_append_of_pos hpre,List.dropWhile_cons_of_neg (by simp [hc])]
      have hfree : ∀ d ∈ name ++ b.post, d ≠ ch '=' ∧ d ≠ ch ';' := by
        intro d hd
        apply b.key_free
        rw [hname]
        simp only [List.mem_append,List.mem_cons] at hd ⊢
        tauto
      have hkey : keyOf [c] (name ++ b.post) = b.name ++ b.post := by
        rw [keyOf_of_free fun h => (hfree _ h).2 rfl,hname]
        rfl
      have hsize := congrArg List.length hdrop
      have hle := (List.dropWhile_suffix (l := b.text ++ attrTail final as) isspace).length_le
      rw [hsize,List.length_cons] at hle
      rw [hdrop,List.find?_cons_of_neg (by simpa using h),← hkey]
      exact ih (fun h => (hfree _ h).1 rfl) (by omega)

theorem Attr.nul_not_mem_text (a : Attr) : 0 ∉ a.text := by
  intro h
  simp only [Attr.text,Attr.rest,List.mem_append,List.mem_cons] at h
  rcases h with ((h | h) | h) | h | (h | h) | h
  · exact (blank_ne (a.isspace_mem (by simp [h]))).2.2 rfl
  · exact (a.name_free _ h).2.2.1 rfl
  · exact (blank_ne (a.isspace_mem (by simp [h]))).2.2 rfl
  · exact absurd h (by decide)
  · exact (blank_ne (a.isspace_mem (by simp [h]))).2.2 rfl
  · exact (a.value_free _ h).2 rfl
  · exact (blank_ne (a.isspace_mem (by simp [h]))).2.2 rfl

theorem nul_not_mem_attrTail (as : List Attr) : 0 ∉ attrTail final as := by
  induction as with
  | nil => cases final <;> decide
  | cons a as ih =>
    simp only [attrTail,List.mem_cons,List.mem_append,not_or]
    exact ⟨by decide,a.nul_not_mem_text,ih⟩

theorem evalGetAttrValue_of_ne {tmp : Bytes} (htmp : tmp ≠ []) (hm : m ≠ []) :
    evalGetAttrValue [tmp,m] = attrLoop m (cstr tmp).length (cstr tmp) [] none := by
  rw [evalGetAttrValue,if_pos ⟨htmp,hm⟩]

/-- What is put out for a list of pairs. -/
theorem evalGetAttrValue_attrs (hm : m ≠ []) (a : Attr) (as : List Attr) :
    evalGetAttrValue [attrText final (a::as),m] =
      ((closedAttrs final (a::as)).find? fun q => stricmp m q.1 = 0).map fun q => q.2.read := by
  have hne : attrText final (a::as) ≠ [] := by simp [attrText,Attr.text]
  have hcstr : cstr (attrText final (a::as)) = attrText final (a::as) := by
    apply cstr_of_nul_free
    rw [attrText,List.mem_append,not_or]
    exact ⟨a.nul_not_mem_text,nul_not_mem_attrTail as⟩
  have hkey : keyOf [] (a.pre ++ a.name ++ a.post) = a.pre ++ a.name ++ a.post := by
    rw [keyOf_of_free fun h => (a.key_free _ h).2 rfl]
    rfl
  have htext : attrText final (a::as) = (a.pre ++ a.name ++ a.post) ++ ch '='::(a.rest ++ attrTail final as) := by
    simp [attrText,Attr.text]
  rw [evalGetAttrValue_of_ne hne hm,hcstr,htext,closedAttrs,attrLoop_attrs (fun h => (a.key_free _ h).1 rfl) as le_rfl,hkey]

theorem wantedValue_nil (as : List Attr) : wantedValue [] as = [] := by
  have hnone : (as.find? fun a => stricmp [] a.name = 0) = none := by
    apply List.find?_eq_none.mpr
    intro a _ h
    have hname : 0 ∉ a.name := fun h => (a.name_free 0 h).2.2.1 rfl
    have hsame : SameName (cstr []) (cstr a.name) := stricmp_eq_zero.mp (by simpa using h)
    rw [cstr_of_nul_free hname,SameName] at hsame
    exact a.name_ne (List.map_eq_nil_iff.mp hsame.symm)
  rw [wantedValue,hnone]
  rfl
end

/-- The scan stays in its text iff that is a safe one. The value that is put out for a list of pairs is right iff the
first closed pair that is seen under the name has it. -/
theorem getAttrValue_iff (tmp m : Bytes) (as : List Attr) (final : Bool) :
    ((∃ out, evalGetAttrValue [tmp,m] = some out) ↔ tmp = [] ∨ m = [] ∨ AttrSafe m [] (cstr tmp)) ∧
    (evalGetAttrValue [attrText final as,m] = some (wantedValue m as) ↔
      m = [] ∨ as = [] ∨
        ∃ q ∈ (closedAttrs final as).find? fun q => stricmp m q.1 = 0, q.2.read = wantedValue m as) := by
  constructor
  · by_cases htmp : tmp = []
    · simp [htmp,evalGetAttrValue]
    · by_cases hm : m = []
      · simp [hm,evalGetAttrValue]
      · rw [evalGetAttrValue_of_ne htmp hm]
        simp only [htmp,hm,false_or]
        constructor
        · rintro ⟨out,hout⟩
          exact attrSafe_of_defined le_rfl hout
        · intro h
          exact h.defined le_rfl
  · by_cases hm : m = []
    · simp [hm,evalGetAttrValue,wantedValue_nil]
    · cases as with
      | nil => simp [attrText,evalGetAttrValue,wantedValue]
      | cons a as =>
        rw [evalGetAttrValue_attrs hm]
        simp [hm,Option.map_eq_some_iff]

/-- A value in last place is not found, and its scan leaves the text. -/
theorem last_value_overread : ∃ a : Attr, attrText false [a] = str "a=1" ∧ wantedValue (str "a") [a] = str "1" ∧
    evalGetAttrValue [attrText false [a],str "a"] = none :=
  ⟨⟨[],str "a",[],[],str "1",[],by decide +kernel,by decide +kernel,by decide +kernel,by decide +kernel⟩,by decide +kernel⟩
end Smx
