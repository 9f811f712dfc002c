import Mathlib.Computability.Language

/-! Patterns with stars: each symbol stands for a letter, for any letter or for any word. -/

inductive Wildcard (α : Type)
  | star
  | any
  | lit (a : α)

namespace Wildcard
variable {α : Type} {a b : α} {s : List α} {p : List (Wildcard α)}

/-- The words a symbol stands for. -/
def words : Wildcard α → Language α
  | star => ⊤
  | any => {s | ∃ a, s = [a]}
  | lit a => {[a]}

/-- The language of a pattern. -/
def lang (p : List (Wildcard α)) : Language α := (p.map words).prod

theorem lang_cons (w : Wildcard α) (p : List (Wildcard α)) : lang (w::p) = words w*lang p := by
  simp [lang]

theorem mem_lang_nil : s ∈ lang ([] : List (Wildcard α)) ↔ s = [] := by
  simp [lang,Language.mem_one]

theorem cons_mem_lang_any : a::s ∈ lang (any::p) ↔ s ∈ lang p := by
  rw [lang_cons,Language.mem_mul]
  constructor
  · rintro ⟨u,⟨b,rfl⟩,v,hv,heq⟩
    obtain ⟨-,rfl⟩ := List.cons.inj heq
    exact hv
  · intro h
    exact ⟨[a],⟨a,rfl⟩,s,h,rfl⟩

theorem cons_mem_lang_lit : a::s ∈ lang (lit b::p) ↔ a = b ∧ s ∈ lang p := by
  rw [lang_cons,Language.mem_mul]
  constructor
  · rintro ⟨u,rfl,v,hv,heq⟩
    obtain ⟨rfl,rfl⟩ := List.cons.inj heq
    exact ⟨rfl,hv⟩
  · rintro ⟨rfl,h⟩
    exact ⟨[a],rfl,s,h,rfl⟩

theorem nil_not_mem_lang_any : [] ∉ lang (any::p) := by
  rw [lang_cons,Language.mem_mul]
  rintro ⟨u,⟨b,rfl⟩,v,-,heq⟩
  cases heq

theorem nil_not_mem_lang_lit : [] ∉ lang (lit b::p) := by
  rw [lang_cons,Language.mem_mul]
  rintro ⟨u,rfl,v,-,heq⟩
  cases heq

/-- A star takes the word up to where the rest of it fits. -/
theorem mem_lang_star : s ∈ lang (star::p) ↔ ∃ t, t <:+ s ∧ t ∈ lang p := by
  rw [lang_cons,Language.mem_mul]
  constructor
  · rintro ⟨u,-,t,ht,rfl⟩
    exact ⟨t,List.suffix_append u t,ht⟩
  · rintro ⟨t,⟨u,rfl⟩,ht⟩
    exact ⟨u,trivial,t,ht,rfl⟩

theorem lang_star : lang [star] = (⊤ : Language α) := by
  simp [lang,words]

/-- Two stars are one. -/
theorem lang_star_star (p : List (Wildcard α)) : lang (star::star::p) = lang (star::p) := by
  ext s
  rw [mem_lang_star]
  constructor
  · rintro ⟨t,ht,h⟩
    obtain ⟨u,hu,h⟩ := mem_lang_star.mp h
    exact mem_lang_star.mpr ⟨u,hu.trans ht,h⟩
  · intro h
    exact ⟨s,List.suffix_rfl,h⟩

end Wildcard
