import Mathlib.Logic.Function.Basic
import Mathlib.Data.Set.Basic

/-! Maps that are kept under other keys than those they are asked for. -/
namespace KeyMap
variable {κ κ' ν : Type*}

/-- For the keys of `K` the map `stored`, which is kept under the keys `f k`, tells what `m` does. -/
def Tells (K : Set κ) (f : κ → κ') (stored : κ' → Option ν) (m : κ → Option ν) : Prop :=
  ∀ k ∈ K, stored (f k) = m k

variable {K : Set κ} {f : κ → κ'} {stored : κ' → Option ν} {m : κ → Option ν} {k : κ}
  [DecidableEq κ] [DecidableEq κ']

/-- A key whose stored form is its own can be set, or removed, in both. -/
theorem Tells.update (h : Tells K f stored m) (hk : ∀ k' ∈ K, f k' = f k → k' = k) (v : Option ν) :
    Tells K f (Function.update stored (f k) v) (Function.update m k v) := by
  intro k' hk'
  by_cases heq : k' = k
  · rw [heq,Function.update_self,Function.update_self]
  · rw [Function.update_of_ne heq,Function.update_of_ne fun hf => heq (hk k' hk' hf)]
    exact h k' hk'

/-- Any key can be removed from maps that have nothing for the keys of `K`. -/
theorem Tells.erase_of_none (h : Tells K f stored m) (hm : ∀ k, m k = none) :
    Tells K f (Function.update stored (f k) none) (Function.update m k none) := by
  have hnone : Function.update m k none = m := by
    apply Function.update_eq_self_iff.mpr
    exact (hm k).symm
  intro k' hk'
  rw [hnone,Function.update_apply]
  split_ifs
  · exact (hm k').symm
  · exact h k' hk'

end KeyMap
