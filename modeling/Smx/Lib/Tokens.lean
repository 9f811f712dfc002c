import Mathlib.Data.List.TakeWhile

/-! A list taken apart at separators: its runs of other letters. -/

namespace Tokens
variable {α : Type}

/-- `toks` are the longest runs of letters that are no separators, in order. -/
inductive Runs (sep : α → Bool) : List α → List (List α) → Prop
  | done {s : List α} (h : ∀ a ∈ s, sep a = true) : Runs sep s []
  | run {gap tok rest : List α} {toks : List (List α)} (hgap : ∀ a ∈ gap, sep a = true) (hne : tok ≠ [])
    (htok : ∀ a ∈ tok, sep a = false) (hrest : ∀ a ∈ rest.head?, sep a = true) (h : Runs sep rest toks) :
    Runs sep (gap ++ (tok ++ rest)) (tok::toks)

variable {sep : α → Bool} {s p : List α} {toks : List (List α)}

/-- The letters in front of the first separator. -/
def front (sep : α → Bool) (p : List α) : List α := p.takeWhile fun a => !sep a

/-- The text from the first separator on. -/
def leftover (sep : α → Bool) (p : List α) : List α := p.dropWhile fun a => !sep a

theorem front_append_leftover (p : List α) : front sep p ++ leftover sep p = p := List.takeWhile_append_dropWhile

theorem mem_front {a : α} (h : a ∈ front sep p) : sep a = false := by
  simpa using List.mem_takeWhile_imp h

theorem head_leftover {a : α} (h : a ∈ (leftover sep p).head?) : sep a = true := by
  have hne : leftover sep p ≠ [] := by
    rintro hnil
    rw [hnil] at h
    cases h
  have hhead : (!sep ((leftover sep p).head hne)) = false := List.head_dropWhile_not (fun a => !sep a) hne
  have ha : (leftover sep p).head hne = a := by
    rw [Option.mem_def,List.head?_eq_some_head hne] at h
    exact Option.some.inj h
  rw [ha] at hhead
  simpa using hhead

/-- A text that does not begin with a separator has a run in front. -/
theorem front_ne_nil {a : α} (h : sep a = false) : front sep (a::p) ≠ [] := by
  rw [front,List.takeWhile_cons_of_pos (by simp [h])]
  exact List.cons_ne_nil _ _

theorem leftover_length_lt {a : α} (h : sep a = false) : (leftover sep (a::p)).length < (a::p).length := by
  rw [leftover,List.dropWhile_cons_of_pos (by simp [h])]
  exact Nat.lt_succ_of_le (List.dropWhile_suffix _).length_le

theorem Runs.sep_cons {a : α} (ha : sep a = true) (h : Runs sep s toks) : Runs sep (a::s) toks := by
  cases h with
  | done hall => exact Runs.done (List.forall_mem_cons.mpr ⟨ha,hall⟩)
  | @run gap tok rest toks hgap hne htok hrest h =>
    have hgap' : ∀ b ∈ a::gap, sep b = true := List.forall_mem_cons.mpr ⟨ha,hgap⟩
    exact Runs.run hgap' hne htok hrest h

/-- Separators in front do not matter. -/
theorem Runs.of_dropWhile (h : Runs sep (s.dropWhile sep) toks) : Runs sep s toks := by
  induction s with
  | nil => exact h
  | cons a s ih =>
    cases ha : sep a with
    | true =>
      rw [List.dropWhile_cons_of_pos ha] at h
      exact (ih h).sep_cons ha
    | false => rwa [List.dropWhile_cons_of_neg (by simp [ha])] at h

theorem front_append {rest : List α} (htok : ∀ a ∈ p, sep a = false) (hrest : ∀ a ∈ rest.head?, sep a = true) :
    front sep (p ++ rest) = p ∧ leftover sep (p ++ rest) = rest := by
  have hpos : ∀ a ∈ p, (!sep a) = true := fun a ha => by simp [htok a ha]
  rw [front,leftover,List.takeWhile_append_of_pos hpos,List.dropWhile_append_of_pos hpos]
  cases rest with
  | nil => simp
  | cons a rest =>
    have ha : sep a = true := hrest a rfl
    simp [ha]

theorem dropWhile_gap {gap tok rest : List α} (hgap : ∀ a ∈ gap, sep a = true) (hne : tok ≠ [])
    (htok : ∀ a ∈ tok, sep a = false) : (gap ++ (tok ++ rest)).dropWhile sep = tok ++ rest := by
  obtain ⟨a,tok,rfl⟩ := List.exists_cons_of_ne_nil hne
  have ha : sep a = false := htok a List.mem_cons_self
  rw [List.dropWhile_append_of_pos hgap,List.cons_append,List.dropWhile_cons_of_neg (by simp [ha])]

/-- What is left behind a run and the separators there is shorter. -/
theorem next_length_lt (h : p ≠ []) (hp : ∀ a ∈ p.head?, sep a = false) :
    ((leftover sep p).tail.dropWhile sep).length < p.length := by
  obtain ⟨a,p,rfl⟩ := List.exists_cons_of_ne_nil h
  have ha : sep a = false := hp a rfl
  have hle := ((List.dropWhile_suffix sep).trans (List.tail_suffix (leftover sep (a::p)))).length_le
  exact hle.trans_lt (leftover_length_lt ha)

theorem head_dropWhile {a : α} (h : a ∈ (s.dropWhile sep).head?) : sep a = false := by
  have hne : s.dropWhile sep ≠ [] := by
    rintro hnil
    rw [hnil] at h
    cases h
  have hhead := List.head_dropWhile_not sep hne
  rw [Option.mem_def,List.head?_eq_some_head hne] at h
  rwa [Option.some.inj h] at hhead

/-- A run, the separator behind it, and what is left. -/
theorem Runs.cons (h : p ≠ []) (hp : ∀ a ∈ p.head?, sep a = false) (hnext : Runs sep (leftover sep p).tail toks) :
    Runs sep p (front sep p::toks) := by
  have hne : front sep p ≠ [] := by
    obtain ⟨a,p,rfl⟩ := List.exists_cons_of_ne_nil h
    exact front_ne_nil (hp a rfl)
  have hbehind : Runs sep (leftover sep p) toks := by
    generalize hb : leftover sep p = b at hnext
    cases b with
    | nil => exact hnext
    | cons a b => exact hnext.sep_cons (head_leftover (p := p) (by rw [hb]; rfl))
  have hrun : Runs sep ([] ++ (front sep p ++ leftover sep p)) (front sep p::toks) :=
    Runs.run (by simp) hne (fun a => mem_front) (fun a => head_leftover) hbehind
  rwa [List.nil_append,front_append_leftover] at hrun

/-- There is one way to take a list apart. -/
theorem Runs.unique {toks' : List (List α)} (h : Runs sep s toks) (h' : Runs sep s toks') : toks = toks' := by
  induction h generalizing toks' with
  | done hall =>
    cases h' with
    | done => rfl
    | @run gap tok rest toks' hgap hne htok hrest h' =>
      obtain ⟨a,ha⟩ := List.exists_mem_of_ne_nil tok hne
      have hsep := hall a (by simp [ha])
      exact absurd (hsep.symm.trans (htok a ha)) (by decide)
  | @run gap tok rest toks hgap hne htok hrest h ih =>
    generalize hs : gap ++ (tok ++ rest) = s at h'
    cases h' with
    | done hall =>
      obtain ⟨a,ha⟩ := List.exists_mem_of_ne_nil tok hne
      have hsep := hall a (by simp [← hs,ha])
      exact absurd (hsep.symm.trans (htok a ha)) (by decide)
    | @run gap' tok' rest' toks' hgap' hne' htok' hrest' h' =>
      have hdrop : (gap ++ (tok ++ rest)).dropWhile sep = tok ++ rest := dropWhile_gap hgap hne htok
      rw [hs,dropWhile_gap hgap' hne' htok'] at hdrop
      obtain ⟨hfront,hbehind⟩ := front_append htok hrest
      obtain ⟨hfront',hbehind'⟩ := front_append htok' hrest'
      rw [← hdrop,hfront'] at hfront
      rw [← hdrop,hbehind'] at hbehind
      subst hfront hbehind
      rw [ih h']

theorem Runs.not_sep (h : Runs sep s toks) : ∀ tok ∈ toks, tok ≠ [] ∧ ∀ a ∈ tok, sep a = false := by
  induction h with
  | done => simp
  | run _ hne htok _ _ ih => exact List.forall_mem_cons.mpr ⟨⟨hne,htok⟩,ih⟩

theorem Runs.of_sep_cons {a : α} (ha : sep a = true) (h : Runs sep (a::s) toks) : Runs sep s toks := by
  generalize hs : a::s = q at h
  cases h with
  | done hall =>
    rw [← hs] at hall
    exact Runs.done fun b hb => hall b (List.mem_cons_of_mem a hb)
  | @run gap tok rest toks hgap hne htok hrest h =>
    cases gap with
    | nil =>
      obtain ⟨b,tok,rfl⟩ := List.exists_cons_of_ne_nil hne
      have hb := htok b List.mem_cons_self
      rw [← (List.cons.inj hs).1,ha] at hb
      cases hb
    | cons b gap =>
      rw [(List.cons.inj hs).2]
      exact Runs.run (fun b hb => hgap b (List.mem_cons_of_mem _ hb)) hne htok hrest h

/-- A run with a separator behind it is taken off in front. -/
theorem Runs.append_iff {a : α} {o tok : List α} (ho : o ≠ []) (hsep : ∀ b ∈ o, sep b = false) (ha : sep a = true) :
    Runs sep (o ++ a::s) (tok::toks) ↔ tok = o ∧ Runs sep s toks := by
  have hhead : ∀ b ∈ (a::s).head?, sep b = true := fun b hb => by rwa [← Option.some.inj hb]
  constructor
  · intro h
    generalize hq : o ++ a::s = q at h
    cases h with
    | @run gap _ rest _ hgap hne htok hrest h =>
      have hdrop := congrArg (List.dropWhile sep) hq
      rw [dropWhile_gap hgap hne htok] at hdrop
      have hself : (o ++ a::s).dropWhile sep = o ++ a::s := dropWhile_gap (List.forall_mem_nil _) ho hsep
      rw [hself] at hdrop
      obtain ⟨hfront,hbehind⟩ := front_append hsep hhead
      obtain ⟨hfront',hbehind'⟩ := front_append htok hrest
      rw [hdrop,hfront'] at hfront
      rw [hdrop,hbehind'] at hbehind
      exact ⟨hfront,(hbehind ▸ h).of_sep_cons ha⟩
  · rintro ⟨rfl,h⟩
    have hrun : Runs sep ([] ++ (tok ++ a::s)) (tok::toks) :=
      Runs.run (List.forall_mem_nil _) ho hsep hhead (h.sep_cons ha)
    simpa using hrun
end Tokens
