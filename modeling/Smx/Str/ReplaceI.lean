import Smx.Str.Replace

/-! `ReplaceStrI`, without regard to case. -/
namespace Smx
open Replace

/-- `memicmp`, which is `strncasecmp` and so compares nothing behind a NUL; `none` when it reads outside of
the text. -/
def memicmp : ℕ → Bytes → Bytes → Option Bool
  | 0,_,_ => some true
  | _+1,[],_ => none
  | _+1,_::_,[] => none
  | n+1,a::s,b::t =>
    if tolower a ≠ tolower b then some false
    else if a = 0 then some true
    else memicmp n s t

/-- `stristr`: what stands before the place and what behind it. -/
def stristr (f : Bytes) : Bytes → Option (Option (Bytes × Bytes))
  | [] => some none
  | c::s =>
    if (c::s).length < f.length then some none
    else
      match memicmp f.length (c::s) f with
      | none => none
      | some true => some (some ([],(c::s).drop f.length))
      | some false => (stristr f s).map fun r => r.map fun r => (c::r.1,r.2)

/-- The loop for a string of the same length, which is written into the text; `i` is where the search goes
on. There are not more rounds than bytes. -/
def replaceInPlace (from_ to_ : Bytes) : ℕ → Bytes → ℕ → Option Bytes
  | 0,buf,_ => some buf
  | n+1,buf,i =>
    match stristr from_ (buf.drop i) with
    | none => none
    | some none => some buf
    | some (some (before,_)) =>
      let p := i+before.length
      replaceInPlace from_ to_ n (buf.take p ++ to_ ++ buf.drop (p+to_.length)) (p+from_.length)

/-- The loop for a string of another length: what has been copied, and what is left. -/
def replaceCopyI (from_ to_ : Bytes) : ℕ → Bytes → Option (Bytes × Bytes)
  | 0,s => some ([],s)
  | n+1,s =>
    match stristr from_ s with
    | none => none
    | some none => some ([],s)
    | some (some (before,rest)) => (replaceCopyI from_ to_ n rest).map fun r => (before ++ to_ ++ r.1,r.2)

/-- `ReplaceStrI`; `none` when it reads outside of the text. -/
def replaceStrI (s from_ to_ : Bytes) : Option Bytes :=
  if from_ = [] ∨ s.length < from_.length then some s
  else if from_.length = to_.length then replaceInPlace from_ to_ s.length s 0
  else (replaceCopyI from_ to_ s.length s).map fun r => if r.2.length < s.length then r.1 ++ r.2 else s

/-- What `memicmp` takes for the string. -/
def Passes (from_ m : Bytes) : Prop := m.length = from_.length ∧ memicmp from_.length m from_ = some true

/-- Whatever is put in for them, the pieces that are the string without regard to case are replaced, and
nothing is read outside. -/
def ReplacesAllI (s from_ : Bytes) : Prop :=
  ∀ to_, ∃ r, Becomes (SameName from_) to_ s r ∧ replaceStrI s from_ to_ = some r

section
variable {from_ to_ s u v m : Bytes}

theorem memicmp_append {n : ℕ} (hm : m.length = n) (v f : Bytes) : memicmp n (m ++ v) f = memicmp n m f := by
  induction m generalizing n f with
  | nil =>
    obtain rfl := hm
    rfl
  | cons a m ih =>
    obtain rfl := hm
    cases f with
    | nil => rfl
    | cons b f =>
      rw [List.cons_append,List.length_cons,memicmp,memicmp,ih rfl]

theorem memicmp_isSome {n : ℕ} {f : Bytes} (hm : m.length = n) (hf : f.length = n) : ∃ b, memicmp n m f = some b := by
  induction m generalizing n f with
  | nil =>
    obtain rfl := hm
    exact ⟨true,rfl⟩
  | cons a m ih =>
    obtain rfl := hm
    cases f with
    | nil => cases hf
    | cons b f =>
      obtain ⟨b',hb'⟩ := ih rfl (Nat.succ.inj hf)
      rw [List.length_cons,memicmp]
      split_ifs
      · exact ⟨false,rfl⟩
      · exact ⟨true,rfl⟩
      · exact ⟨b',hb'⟩

theorem memicmp_of_sameName (h : SameName from_ m) : memicmp from_.length m from_ = some true := by
  induction from_ generalizing m with
  | nil => rfl
  | cons b f ih =>
    cases m with
    | nil => cases h
    | cons a m =>
      obtain ⟨hab,hrest⟩ := List.cons.inj (show (b::f).map tolower = (a::m).map tolower from h)
      rw [List.length_cons,memicmp,if_neg (not_not.mpr hab.symm),ih hrest]
      split_ifs
      · rfl
      · rfl

/-- The string passes for itself in any case. -/
theorem passes_of_sameName (m : Bytes) (h : SameName from_ m) : Passes from_ m := by
  have hlen : (from_.map tolower).length = (m.map tolower).length := congrArg List.length h
  rw [List.length_map,List.length_map] at hlen
  exact ⟨hlen.symm,memicmp_of_sameName h⟩

theorem length_of_passes (m : Bytes) (h : Passes from_ m) : m.length = from_.length := h.1

theorem stristr_of_free (h : Free (Passes from_) s) : stristr from_ s = some none := by
  induction s with
  | nil => rfl
  | cons c s ih =>
    rw [stristr]
    by_cases hlen : (c::s).length < from_.length
    · rw [if_pos hlen]
    · rw [if_neg hlen]
      have hm : ((c::s).take from_.length).length = from_.length :=
        List.length_take_of_le (Nat.not_lt.mp hlen)
      have hsplit : c::s = [] ++ (c::s).take from_.length ++ (c::s).drop from_.length :=
        (List.take_append_drop _ _).symm
      have hcmp : memicmp from_.length (c::s) from_ = memicmp from_.length ((c::s).take from_.length) from_ := by
        rw [← memicmp_append hm ((c::s).drop from_.length),List.take_append_drop]
      obtain ⟨b,hb⟩ := memicmp_isSome hm rfl
      rw [hcmp,hb]
      cases b with
      | true => exact absurd ⟨hm,hb⟩ (h _ _ _ hsplit)
      | false =>
        rw [ih h.tail]
        rfl

theorem stristr_of_first (hfrom : from_ ≠ []) (h : First (Passes from_) s u v) :
    stristr from_ s = some (some (u,v)) := by
  induction s generalizing u with
  | nil =>
    obtain ⟨m,hm,heq⟩ := h.hit
    obtain ⟨hum,rfl⟩ := List.append_eq_nil_iff.mp heq.symm
    obtain ⟨rfl,rfl⟩ := List.append_eq_nil_iff.mp hum
    exact absurd (List.eq_nil_of_length_eq_zero hm.1.symm) hfrom
  | cons c s ih =>
    have hlen := h.length length_of_passes
    obtain ⟨m,hm,heq⟩ := h.hit
    have hle : from_.length ≤ (c::s).length := by omega
    rw [stristr,if_neg (Nat.not_lt.mpr hle)]
    have hm0 : ((c::s).take from_.length).length = from_.length := List.length_take_of_le hle
    have hcmp : memicmp from_.length (c::s) from_ = memicmp from_.length ((c::s).take from_.length) from_ := by
      rw [← memicmp_append hm0 ((c::s).drop from_.length),List.take_append_drop]
    obtain ⟨b,hb⟩ := memicmp_isSome hm0 rfl
    rw [hcmp,hb]
    cases b with
    | true =>
      have hnil := h.least [] _ _ (List.take_append_drop from_.length (c::s)).symm ⟨hm0,hb⟩
      obtain rfl := List.eq_nil_of_length_eq_zero (Nat.le_zero.mp hnil)
      rw [List.nil_append] at heq
      rw [heq,← hm.1,List.drop_left]
    | false =>
      cases u with
      | nil =>
        rw [List.nil_append] at heq
        rw [heq,← hm.1,List.take_left,hm.1,hm.2] at hb
        cases hb
      | cons d u =>
        obtain ⟨rfl,htail⟩ := List.cons.inj heq
        have hfirst : First (Passes from_) s u v := by
          refine ⟨⟨m,hm,htail⟩,fun u' m' v' hs' hm' => ?_⟩
          exact Nat.le_of_succ_le_succ (h.least (c::u') m' v' (congrArg (List.cons c) hs') hm')
        rw [ih hfirst]
        rfl

/-- The copying loop replaces what passes. -/
theorem replaceCopyI_spec (to_ : Bytes) (hfrom : from_ ≠ []) {n : ℕ} (hn : s.length ≤ n) : ∃ r,
    replaceCopyI from_ to_ n s = some r ∧ Becomes (Passes from_) to_ s (r.1 ++ r.2) ∧
      (r = ([],s) ∨ r.2.length < s.length) := by
  induction n generalizing s with
  | zero =>
    obtain rfl := List.eq_nil_of_length_eq_zero (Nat.le_zero.mp hn)
    refine ⟨([],[]),rfl,.none ?_,.inl rfl⟩
    intro u m v hs hm
    obtain ⟨hum,-⟩ := List.append_eq_nil_iff.mp hs.symm
    rw [(List.append_eq_nil_iff.mp hum).2] at hm
    exact hfrom (List.eq_nil_of_length_eq_zero hm.1.symm)
  | succ n ih =>
    rw [replaceCopyI]
    obtain ⟨u,v,h⟩ | hfree := first_or_free (Passes from_) s
    · have hlen := h.length length_of_passes
      have hpos : 0 < from_.length := List.length_pos_iff.mpr hfrom
      obtain ⟨r,hr,hrep,hcase⟩ := ih (s := v) (by omega)
      rw [stristr_of_first hfrom h]
      simp only [hr,Option.map_some]
      refine ⟨_,rfl,?_,.inr ?_⟩
      · rw [List.append_assoc]
        exact .some h hrep
      · obtain rfl | hlt := hcase
        · simp only
          omega
        · exact hlt.trans (by omega)
    · rw [stristr_of_free hfree]
      exact ⟨_,rfl,.none hfree,.inl rfl⟩

/-- The loop in place replaces what passes behind `i`. -/
theorem replaceInPlace_spec (hfrom : from_ ≠ []) (hto : from_.length = to_.length) (done : Bytes) {n : ℕ}
    (hn : s.length ≤ n) : ∃ r, Becomes (Passes from_) to_ s r ∧
      replaceInPlace from_ to_ n (done ++ s) done.length = some (done ++ r) := by
  induction n generalizing s done with
  | zero =>
    obtain rfl := List.eq_nil_of_length_eq_zero (Nat.le_zero.mp hn)
    refine ⟨[],.none ?_,rfl⟩
    intro u m v hs hm
    obtain ⟨hum,-⟩ := List.append_eq_nil_iff.mp hs.symm
    rw [(List.append_eq_nil_iff.mp hum).2] at hm
    exact hfrom (List.eq_nil_of_length_eq_zero hm.1.symm)
  | succ n ih =>
    rw [replaceInPlace,List.drop_left]
    obtain ⟨u,v,h⟩ | hfree := first_or_free (Passes from_) s
    · have hlen := h.length length_of_passes
      have hpos : 0 < from_.length := List.length_pos_iff.mpr hfrom
      obtain ⟨m,hm,rfl⟩ := h.hit
      obtain ⟨r,hrep,hrun⟩ := ih (s := v) (done ++ u ++ to_) (by omega)
      rw [stristr_of_first hfrom h]
      simp only
      refine ⟨u ++ to_ ++ r,.some h hrep,?_⟩
      have hfront : (done ++ (u ++ m ++ v)).take (done.length+u.length) = done ++ u := by
        rw [← List.length_append,← List.append_assoc,← List.append_assoc,List.append_assoc,List.take_left]
      have hbehind : (done ++ (u ++ m ++ v)).drop (done.length+u.length+to_.length) = v := by
        rw [← hto,← hm.1,← List.length_append,← List.length_append,← List.append_assoc,← List.append_assoc,
          List.drop_left]
      have hi : done.length+u.length+from_.length = (done ++ u ++ to_).length := by
        rw [List.length_append,List.length_append,hto]
      rw [hfront,hbehind,hi,hrun]
      simp only [List.append_assoc]
    · rw [stristr_of_free hfree]
      exact ⟨s,.none hfree,rfl⟩

/-- What passes is replaced, in place or in a copy. -/
theorem replaceStrI_spec (hfrom : from_ ≠ []) (s to_ : Bytes) :
    ∃ r, Becomes (Passes from_) to_ s r ∧ replaceStrI s from_ to_ = some r := by
  rw [replaceStrI]
  by_cases hlt : s.length < from_.length
  · rw [if_pos (.inr hlt)]
    refine ⟨s,.none ?_,rfl⟩
    intro u m v hs hm
    rw [hs,List.length_append,List.length_append,hm.1] at hlt
    omega
  · rw [if_neg (not_or.mpr ⟨hfrom,hlt⟩)]
    by_cases hto : from_.length = to_.length
    · rw [if_pos hto]
      exact replaceInPlace_spec hfrom hto [] (Nat.le_refl s.length)
    · rw [if_neg hto]
      obtain ⟨r,hr,hrep,hcase⟩ := replaceCopyI_spec to_ hfrom (Nat.le_refl s.length)
      refine ⟨_,hrep,?_⟩
      rw [hr,Option.map_some]
      obtain rfl | hshort := hcase
      · rw [if_neg (Nat.lt_irrefl _)]
        rfl
      · rw [if_pos hshort]

theorem exists_ne (c : Byte) : ∃ d : Byte, d ≠ c :=
  ⟨c+1,by grind⟩

/-- Where both replacements agree whatever is put in, the first piece that passes is the string. -/
theorem sameName_of_first (hfrom : from_ ≠ [])
    (hboth : ∀ to_, ∃ r, Becomes (SameName from_) to_ s r ∧ Becomes (Passes from_) to_ s r)
    (h : First (Passes from_) s u v) (hm : Passes from_ m) (hs : s = u ++ m ++ v) : SameName from_ m := by
  by_contra hnot
  cases m with
  | nil => exact hfrom (List.eq_nil_of_length_eq_zero hm.1.symm)
  | cons c m =>
    -- another byte in its place would be seen
    obtain ⟨d,hd⟩ := exists_ne c
    obtain ⟨r,hr,hr'⟩ := hboth [d]
    obtain ⟨w,hw⟩ := hr.stays passes_of_sameName length_of_passes h hm hnot hs
    cases hr' with
    | none hfree => exact h.not_free hfree
    | some hfirst _ =>
      obtain ⟨rfl,rfl⟩ := h.unique length_of_passes hfirst
      rw [List.append_assoc,List.append_assoc] at hw
      have hcd := (List.cons.inj (List.append_cancel_left hw)).1
      exact hd hcd.symm

theorem sameName_of_place (hfrom : from_ ≠ [])
    (hboth : ∀ to_, ∃ r, Becomes (SameName from_) to_ s r ∧ Becomes (Passes from_) to_ s r)
    (hplace : Place (Passes from_) s m) : SameName from_ m := by
  induction hplace with
  | here h hm hs => exact sameName_of_first hfrom hboth h hm hs
  | @next s u v m h hv ih =>
    apply ih
    intro to_
    obtain ⟨r,hr,hr'⟩ := hboth to_
    obtain ⟨m',hm',hs'⟩ := h.hit
    have hfirst := h.of_loose passes_of_sameName (sameName_of_first hfrom hboth h hm' hs') hs'
    have hlen (m : Bytes) (hm : SameName from_ m) : m.length = from_.length := (passes_of_sameName m hm).1
    cases hr with
    | none hfree => exact absurd hfree hfirst.not_free
    | some hfirst1 hv1 =>
      obtain ⟨rfl,rfl⟩ := hfirst.unique hlen hfirst1
      generalize hr : u ++ to_ ++ _ = r at hr'
      cases hr' with
      | none hfree => exact absurd hfree h.not_free
      | some hfirst2 hv2 =>
        obtain ⟨rfl,rfl⟩ := h.unique length_of_passes hfirst2
        obtain rfl := List.append_cancel_left hr
        exact ⟨_,hv1,hv2⟩

/-- `ReplaceStrI` is right where each piece that `memicmp` lets pass, from left to right, is the string in
whole. -/
theorem replacesAllI_iff (s from_ : Bytes) (hfrom : from_ ≠ []) :
    ReplacesAllI s from_ ↔ ∀ m, Place (Passes from_) s m → SameName from_ m := by
  constructor
  · intro h
    have hboth (to_ : Bytes) : ∃ r, Becomes (SameName from_) to_ s r ∧ Becomes (Passes from_) to_ s r := by
      obtain ⟨r,hr,hrun⟩ := h to_
      obtain ⟨r',hr',hrun'⟩ := replaceStrI_spec hfrom s to_
      obtain rfl := Option.some.inj (hrun.symm.trans hrun')
      exact ⟨r,hr,hr'⟩
    exact fun m hplace => sameName_of_place hfrom hboth hplace
  · intro h to_
    obtain ⟨r,hr,hrun⟩ := replaceStrI_spec hfrom s to_
    exact ⟨r,hr.of_loose passes_of_sameName h,hrun⟩

theorem replacesAllI_iff_letter : ReplacesAllI (str "aXa") (str "x") ↔
    ∀ m, Place (Passes (str "x")) (str "aXa") m → SameName (str "x") m :=
  replacesAllI_iff _ _ (by decide)

/-- Behind a NUL nothing is compared. -/
theorem replaceStrI_nul : replaceStrI [ch 'a',0,ch 'b'] [ch 'A',0,ch 'c'] [] = some [] ∧
    ¬ReplacesAllI [ch 'a',0,ch 'b'] [ch 'A',0,ch 'c'] := by
  have hrun : replaceStrI [ch 'a',0,ch 'b'] [ch 'A',0,ch 'c'] [] = some [] := by decide
  refine ⟨hrun,fun h => ?_⟩
  obtain ⟨r,hr,hrun'⟩ := h []
  obtain rfl := Option.some.inj (hrun.symm.trans hrun')
  have hfree : Free (SameName [ch 'A',0,ch 'c']) [ch 'a',0,ch 'b'] := by
    intro u m v hs hm
    have hlen := congrArg List.length hs
    rw [List.length_append,List.length_append,(passes_of_sameName m hm).1] at hlen
    have hlen : 3 = u.length+3+v.length := hlen
    obtain rfl := List.eq_nil_of_length_eq_zero (show u.length = 0 by omega)
    obtain rfl := List.eq_nil_of_length_eq_zero (show v.length = 0 by omega)
    rw [List.nil_append,List.append_nil] at hs
    rw [← hs] at hm
    exact absurd hm (by decide)
  cases hr.unique (fun m hm => (passes_of_sameName m hm).1) (.none hfree)

end
end Smx
