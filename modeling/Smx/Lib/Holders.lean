import Mathlib.Data.Set.Card
import Mathlib.Logic.Function.Basic

/-! Handles of which any number may refer to a thing, as long as it is finite. -/
namespace Holders
variable {κ α : Type} [DecidableEq κ] [DecidableEq α] {handle : κ → Option α} {k : κ} {a : α} {x : Option α}

omit [DecidableEq κ] [DecidableEq α]

/-- The handles that refer to `a`. -/
def holders (handle : κ → Option α) (a : α) : Set κ := {k | handle k = some a}

/-- How many there are. -/
noncomputable def count (handle : κ → Option α) (a : α) : ℕ := (holders handle a).ncard

theorem mem_holders : k ∈ holders handle a ↔ handle k = some a := Iff.rfl

variable [DecidableEq κ]

theorem holders_update_of_eq (hx : x = some a) :
    holders (Function.update handle k x) a = insert k (holders handle a) := by
  ext j
  rw [mem_holders,Set.mem_insert_iff,mem_holders]
  by_cases hj : j = k
  · rw [hj,Function.update_self]
    simp [hx]
  · rw [Function.update_of_ne hj]
    simp [hj]

theorem holders_update_of_ne (hx : x ≠ some a) : holders (Function.update handle k x) a = holders handle a \ {k} := by
  ext j
  rw [mem_holders,Set.mem_sdiff,mem_holders,Set.mem_singleton_iff]
  by_cases hj : j = k
  · rw [hj,Function.update_self]
    simp [hx]
  · rw [Function.update_of_ne hj]
    simp [hj]

theorem finite_update (h : (holders handle a).Finite) : (holders (Function.update handle k x) a).Finite := by
  by_cases hx : x = some a
  · rw [holders_update_of_eq hx]
    exact h.insert k
  · rw [holders_update_of_ne hx]
    exact h.sdiff

variable [DecidableEq α]

/-- What becomes of the count when one handle is set to something else. -/
theorem count_update (h : (holders handle a).Finite) (k : κ) (x : Option α) :
    count (Function.update handle k x) a + (if handle k = some a then 1 else 0) =
      count handle a + if x = some a then 1 else 0 := by
  unfold count
  by_cases hx : x = some a
  · rw [holders_update_of_eq hx,if_pos hx]
    by_cases hk : handle k = some a
    · rw [if_pos hk,Set.insert_eq_of_mem (mem_holders.mpr hk)]
    · rw [if_neg hk,Set.ncard_insert_of_notMem (mt mem_holders.mp hk) h]
  · rw [holders_update_of_ne hx,if_neg hx]
    by_cases hk : handle k = some a
    · rw [if_pos hk,Set.ncard_sdiff_singleton_add_one (mem_holders.mpr hk) h]
      rfl
    · rw [if_neg hk,Set.sdiff_singleton_eq_self (mt mem_holders.mp hk)]

omit [DecidableEq κ] [DecidableEq α]

/-- Something that a handle refers to is counted. -/
theorem count_pos (h : (holders handle a).Finite) (hk : handle k = some a) : 0 < count handle a :=
  (Set.ncard_pos h).mpr ⟨k,hk⟩

/-- With a count of 1 no other handle refers to the same. -/
theorem eq_of_count_eq_one (h : count handle a = 1) {j : κ} (hj : handle j = some a) (hk : handle k = some a) :
    j = k := by
  obtain ⟨i,hi⟩ := Set.ncard_eq_one.mp h
  have hji : j ∈ holders handle a := hj
  have hki : k ∈ holders handle a := hk
  rw [hi] at hji hki
  exact hji.trans hki.symm

theorem count_eq_zero (h : ∀ k, handle k ≠ some a) : count handle a = 0 := by
  have hempty : holders handle a = ∅ := Set.eq_empty_of_forall_notMem h
  rw [count,hempty,Set.ncard_empty]

end Holders
