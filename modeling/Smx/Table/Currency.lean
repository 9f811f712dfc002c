import Smx.Base.Bytes

/-! `strtodx` and `strtolx`: the text that is left of an amount of money. -/
namespace Smx

/-- `*p == '$' || *p == ','`. -/
def isSep (c : Byte) : Bool := c == ch '$' || c == ch ','

/-- `strcln`: what is written from `t` on when `e - t` is `room`. After a byte that is copied the pointer
moves twice, so the next byte is left out; `none` when the loop then reads behind the NUL. -/
def strcln : Bytes → ℕ → Option Bytes
  | [],_ => some []
  | _::_,0 => some []
  | c::p,room+1 =>
    if isSep c then strcln p (room+1)
    else
      match p with
      | [] => none
      | _::p => (strcln p room).map (c::·)

/-- What `strtod` or `strtol` gets: the text itself if it has no separator, or else a buffer of `size` bytes
with at most `cut` bytes from before the first separator. Nothing writes a NUL behind them; `none` where the
buffer has none. -/
def cleanText (cut size : ℕ) (stack : ℕ → Byte) (s : Bytes) : Option Bytes :=
  match s.findIdx? isSep with
  | none => some s
  | some k =>
    let len := min cut k
    (strcln (s.drop (k+1)) (size-len)).bind fun t =>
      let used := s.take len ++ t
      let buf := used ++ (List.range (size-used.length)).map fun i => stack (used.length+i)
      if 0 ∈ buf then some (cstr buf) else none

/-- The text that `strtodx` passes to `strtod`; `stack` is what its buffer holds before. -/
def strtodxText (stack : ℕ → Byte) (s : Bytes) : Option Bytes := cleanText 128 256 stack (cstr s)

/-- The text that `strtolx` passes to `strtol`. -/
def strtolxText (stack : ℕ → Byte) (s : Bytes) : Option Bytes := cleanText 64 128 stack (cstr s)

/-- The text without its separators. -/
def unseparated (s : Bytes) : Bytes := s.filter fun c => !isSep c

/-- Each byte stands in front of a separator. -/
def Spaced : Bytes → Prop
  | [] => True
  | c::p => if isSep c then Spaced p else
    match p with
    | [] => False
    | d::p => isSep d = true ∧ Spaced p

section
variable {s t p : Bytes} {c : Byte} {cut size room : ℕ}

/-- What is copied is part of the text. -/
theorem strcln_subset (h : strcln p room = some t) : t ⊆ p := by
  fun_induction strcln p room generalizing t with
  | case1 room => simp_all
  | case2 c p => simp_all
  | case3 c p room hc ih => exact List.subset_cons_of_subset c (ih h)
  | case4 c room hc => cases h
  | case5 c room hc d p ih =>
    obtain ⟨u,hu,rfl⟩ := Option.map_eq_some_iff.mp h
    exact List.cons_subset_cons c (List.subset_cons_of_subset d (ih hu))

theorem unseparated_of_sep (h : isSep c = true) (p : Bytes) : unseparated (c::p) = unseparated p := by
  simp [unseparated,h]

theorem unseparated_of_not_sep (h : isSep c = false) (p : Bytes) : unseparated (c::p) = c::unseparated p := by
  simp [unseparated,h]

theorem length_unseparated_le_cons (c : Byte) (p : Bytes) :
    (unseparated p).length ≤ (unseparated (c::p)).length := by
  cases h : isSep c with
  | true => rw [unseparated_of_sep h]
  | false =>
    rw [unseparated_of_not_sep h,List.length_cons]
    exact Nat.le_succ _

/-- Never more is written than should be. -/
theorem strcln_length (h : strcln p room = some t) : t.length ≤ (unseparated p).length ∧ t.length ≤ room := by
  fun_induction strcln p room generalizing t with
  | case1 room => simp_all
  | case2 c p => simp_all
  | case3 c p room hc ih =>
    rw [unseparated_of_sep hc]
    exact ih h
  | case4 c room hc => cases h
  | case5 c room hc d p ih =>
    obtain ⟨u,hu,rfl⟩ := Option.map_eq_some_iff.mp h
    obtain ⟨hlen,hroom⟩ := ih hu
    have hmore := length_unseparated_le_cons d p
    rw [unseparated_of_not_sep (Bool.eq_false_iff.mpr hc),List.length_cons,List.length_cons]
    omega

/-- The loop leaves out the separators and nothing else only where each other byte stands before one. -/
theorem strcln_iff (hroom : p.length ≤ room) : strcln p room = some (unseparated p) ↔ Spaced p := by
  fun_induction strcln p room with
  | case1 room => exact iff_of_true rfl trivial
  | case2 c p => simp at hroom
  | case3 c p room hc ih =>
    rw [unseparated_of_sep hc,Spaced.eq_def]
    simp only [hc,if_true]
    exact ih (by simp at hroom; omega)
  | case4 c room hc => simp [Spaced,hc]
  | case5 c room hc d p ih =>
    rw [unseparated_of_not_sep (Bool.eq_false_iff.mpr hc),Option.map_eq_some_iff]
    simp only [List.cons.injEq,true_and,exists_eq_right,Spaced,if_neg hc]
    cases hd : isSep d with
    | true =>
      rw [unseparated_of_sep hd,and_iff_right rfl]
      exact ih (by simp at hroom; omega)
    | false =>
      refine iff_of_false (fun h => ?_) nofun
      have hlen := (strcln_length h).1
      rw [unseparated_of_not_sep hd,List.length_cons] at hlen
      omega

theorem unseparated_of_plain (h : ∀ c ∈ s, isSep c = false) : unseparated s = s :=
  List.filter_eq_self.mpr fun c hc => by simp [h c hc]

/-- A buffer that holds no NUL before is never a C string afterwards. -/
theorem cleanText_of_sep (hnul : 0 ∉ s) (hsep : ∃ c ∈ s, isSep c = true) :
    cleanText cut size (fun _ => 1) s = none := by
  obtain ⟨k,hk⟩ := Option.isSome_iff_exists.mp (List.findIdx?_isSome.trans (List.any_eq_true.mpr hsep))
  simp only [cleanText,hk]
  refine Option.bind_eq_none_iff.mpr fun t ht => if_neg ?_
  have hsub := strcln_subset ht
  simp only [List.mem_append,List.mem_map,not_or]
  refine ⟨⟨fun h => hnul (List.mem_of_mem_take h),fun h => hnul (List.mem_of_mem_drop (hsub h))⟩,?_⟩
  rintro ⟨i,-,hi⟩
  cases hi

/-- Whatever the buffer holds before, the right text is passed on if and only if it has no separators. -/
theorem cleanText_iff (hnul : 0 ∉ s) :
    (∀ stack, cleanText cut size stack s = some (unseparated s)) ↔ ∀ c ∈ s, isSep c = false := by
  constructor
  · intro h
    by_contra hsep
    push Not at hsep
    have hnone : cleanText cut size (fun _ => 1) s = none := cleanText_of_sep hnul (by simpa using hsep)
    rw [h] at hnone
    cases hnone
  · intro h stack
    have hfind : s.findIdx? isSep = none := List.findIdx?_eq_none_iff.mpr h
    rw [cleanText,hfind,unseparated_of_plain h]

/-- The amounts that are cleaned right, and what the helper does to a text it has room for. -/
theorem strtodx_iff (s : Bytes) :
    ((∀ stack, strtodxText stack s = some (unseparated (cstr s))) ↔ ∀ c ∈ cstr s, isSep c = false) ∧
    ((∀ stack, strtolxText stack s = some (unseparated (cstr s))) ↔ ∀ c ∈ cstr s, isSep c = false) ∧
    ∀ more, strcln (cstr s) ((cstr s).length+more) = some (unseparated (cstr s)) ↔ Spaced (cstr s) :=
  ⟨cleanText_iff (nul_not_mem_cstr s),cleanText_iff (nul_not_mem_cstr s),
    fun more => strcln_iff (Nat.le_add_right _ more)⟩

end

/-- Of `1,234` the loop copies 2, leaves 3 out, copies 4 and reads on behind the end, whatever is in the
buffer. -/
theorem not_cleaned : ¬∀ s : Bytes, 0 ∉ s → s.length < 100 → ∃ stack, strtodxText stack s = some (unseparated s) := by
  intro h
  obtain ⟨stack,hstack⟩ := h (str "1,234") (by decide) (by decide)
  have hnone : strtodxText stack (str "1,234") = none := rfl
  rw [hnone] at hstack
  cases hstack

end Smx
