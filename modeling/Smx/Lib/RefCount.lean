import Mathlib.Data.Fintype.BigOperators
import Mathlib.Logic.Function.Basic

/-! Handles that may share what they refer to. -/
namespace RefCount
variable {ι κ : Type} [Fintype ι] [DecidableEq ι] [DecidableEq κ]

/-- How many handles refer to `a`. -/
def refs (handle : ι → Option κ) (a : κ) : ℕ := ∑ k, if handle k = some a then 1 else 0

/-- What becomes of the counts when one handle is set to something else. -/
theorem refs_update (handle : ι → Option κ) (i : ι) (x : Option κ) (a : κ) :
    refs (Function.update handle i x) a + (if handle i = some a then 1 else 0) =
      refs handle a + if x = some a then 1 else 0 := by
  unfold refs
  rw [← Finset.add_sum_erase _ _ (Finset.mem_univ i),← Finset.add_sum_erase _ _ (Finset.mem_univ i)]
  have hrest : ∑ k ∈ Finset.univ.erase i, (if Function.update handle i x k = some a then 1 else 0) =
      ∑ k ∈ Finset.univ.erase i, if handle k = some a then 1 else 0 := by
    apply Finset.sum_congr rfl
    intro k hk
    rw [Function.update_of_ne (Finset.ne_of_mem_erase hk)]
  rw [hrest,Function.update_self]
  omega

/-- A count of 1 means that no other handle refers to the same. -/
theorem refs_eq_one_iff {handle : ι → Option κ} {i : ι} {a : κ} (h : handle i = some a) :
    refs handle a = 1 ↔ ∀ k, k ≠ i → handle k ≠ some a := by
  unfold refs
  rw [← Finset.add_sum_erase _ _ (Finset.mem_univ i),if_pos h]
  constructor
  · intro hone k hk hka
    have hzero : ∑ k ∈ Finset.univ.erase i, (if handle k = some a then 1 else 0) = 0 := by omega
    have hterm := Finset.sum_eq_zero_iff.mp hzero k (Finset.mem_erase.mpr ⟨hk,Finset.mem_univ k⟩)
    rw [if_pos hka] at hterm
    cases hterm
  · intro halone
    have hzero : ∑ k ∈ Finset.univ.erase i, (if handle k = some a then 1 else 0) = 0 :=
      Finset.sum_eq_zero fun k hk => if_neg (halone k (Finset.ne_of_mem_erase hk))
    omega

end RefCount
