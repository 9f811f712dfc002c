import Mathlib.Algebra.BigOperators.Group.Finset.Piecewise
import Mathlib.Algebra.BigOperators.Intervals
import Mathlib.Algebra.Order.Group.Multiset
import Mathlib.Order.Interval.Finset.Nat
import Mathlib.Tactic.Common

/-! Binary max-heaps on the positions 1, 2, …, `n` of an array, where position `k` has its parent
at `k/2`, and a value on its way up or down through a hole. -/
namespace Smx.MaxHeap
variable {α γ : Type*} [LinearOrder γ]

/-- No position holds more than its parent. -/
def IsHeap (key : ℕ → γ) (n : ℕ) : Prop := ∀ k, 2 ≤ k → k ≤ n → key k ≤ key (k/2)

theorem IsHeap.le_root {key : ℕ → γ} {n k : ℕ} (h : IsHeap key n) (hk : 1 ≤ k) (hn : k ≤ n) :
    key k ≤ key 1 := by
  induction k using Nat.strong_induction_on with
  | _ k ih =>
    by_cases h1 : k = 1
    · rw [h1]
    · have hparent : k/2 < k := by omega
      exact (h k (by omega) hn).trans (ih (k/2) hparent (by omega) (by omega))

theorem isHeap_zero (key : ℕ → γ) : IsHeap key 0 := by
  intro k h2 hn
  omega

/-- The order off the hole at `k`, and of the hole's children against its parent. -/
structure Around (key : ℕ → γ) (n k : ℕ) : Prop where
  off : ∀ j, 2 ≤ j → j ≤ n → j ≠ k → j/2 ≠ k → key j ≤ key (j/2)
  across : 2 ≤ k → ∀ j, j ≤ n → j/2 = k → key j ≤ key (k/2)

theorem IsHeap.around {key : ℕ → γ} {n : ℕ} (h : IsHeap key n) (k : ℕ) : Around key n k where
  off j h2 hn _ _ := h j h2 hn
  across h2 j hn hj := (h j (by omega) hn).trans (by
    rw [hj]
    exact h k h2 (by omega))

theorem Around.congr {key key' : ℕ → γ} {n k : ℕ} (h : Around key n k)
    (heq : ∀ j, 1 ≤ j → j ≤ n → key j = key' j) (hkn : k ≤ n+1) : Around key' n k where
  off j h2 hn hj hp := by
    rw [← heq j (by omega) hn,← heq (j/2) (by omega) (by omega)]
    exact h.off j h2 hn hj hp
  across h2 j hn hj := by
    rw [← heq j (by omega) hn,← heq (k/2) (by omega) (by omega)]
    exact h.across h2 j hn hj

/-- A value that is no less than the hole's children and no more than its parent fills it. -/
theorem Around.fill {key : ℕ → γ} {n k : ℕ} {v : γ} (h : Around key n k)
    (habove : 2 ≤ k → v ≤ key (k/2)) (hbelow : ∀ j, 2 ≤ j → j ≤ n → j/2 = k → key j ≤ v) :
    IsHeap (Function.update key k v) n := by
  intro j h2 hn
  have hne : j/2 ≠ j := by omega
  by_cases hj : j = k
  · subst hj
    rw [Function.update_self,Function.update_of_ne hne]
    exact habove h2
  · rw [Function.update_of_ne hj]
    by_cases hp : j/2 = k
    · rw [hp,Function.update_self]
      exact hbelow j h2 hn hp
    · rw [Function.update_of_ne hp]
      exact h.off j h2 hn hj hp

/-- The parent's value moves down and the hole moves up. -/
theorem Around.up {key : ℕ → γ} {n k : ℕ} (h : Around key n k) (hk : 2 ≤ k) :
    Around (Function.update key k (key (k/2))) n (k/2) where
  off j h2 hn hj hp := by
    by_cases hjk : j = k
    · exact absurd (congrArg (·/2) hjk) hp
    · rw [Function.update_of_ne hjk]
      by_cases hpk : j/2 = k
      · rw [hpk,Function.update_self]
        exact h.across hk j hn hpk
      · rw [Function.update_of_ne hpk]
        exact h.off j h2 hn hjk hpk
  across h2 j hn hj := by
    have hpp : k/2/2 ≠ k := by omega
    have hparent : key (k/2) ≤ key (k/2/2) := h.off (k/2) h2 (by omega) (by omega) hpp
    rw [Function.update_of_ne hpp]
    by_cases hjk : j = k
    · rw [hjk,Function.update_self]
      exact hparent
    · rw [Function.update_of_ne hjk]
      have hsibling := h.off j (by omega) hn hjk (by omega)
      rw [hj] at hsibling
      exact hsibling.trans hparent

/-- The greater child's value moves up and the hole moves down. -/
theorem Around.down {key : ℕ → γ} {n k j : ℕ} (h : Around key n k) (hk : 1 ≤ k) (hj : j/2 = k)
    (hn : j ≤ n) (hmax : ∀ i, 2 ≤ i → i ≤ n → i/2 = k → key i ≤ key j) :
    Around (Function.update key k (key j)) n j where
  off i h2 hi hij hip := by
    by_cases hik : i = k
    · subst hik
      have hp : i/2 ≠ i := by omega
      rw [Function.update_self,Function.update_of_ne hp]
      exact h.across h2 j hn hj
    · rw [Function.update_of_ne hik]
      by_cases hp : i/2 = k
      · rw [hp,Function.update_self]
        exact hmax i h2 hi hp
      · rw [Function.update_of_ne hp]
        exact h.off i h2 hi hik hp
  across h2 i hi hip := by
    have hik : i ≠ k := by omega
    rw [hj,Function.update_self,Function.update_of_ne hik]
    have hchild := h.off i (by omega) hi hik (by omega)
    rwa [hip] at hchild

/-- What the positions 1 to `n` hold. -/
def contents (p : ℕ → α) (n : ℕ) : Multiset α := ∑ k ∈ Finset.Icc 1 n, {p k}

theorem contents_succ (p : ℕ → α) (n : ℕ) : contents p (n+1) = p (n+1)::ₘcontents p n := by
  rw [contents,Finset.sum_Icc_succ_top (by omega),add_comm]
  rfl

theorem contents_congr {p q : ℕ → α} {n : ℕ} (h : ∀ k, 1 ≤ k → k ≤ n → p k = q k) :
    contents p n = contents q n :=
  Finset.sum_congr rfl fun k hk => by rw [h k (Finset.mem_Icc.mp hk).1 (Finset.mem_Icc.mp hk).2]

theorem mem_contents {p : ℕ → α} {n : ℕ} {a : α} :
    a ∈ contents p n ↔ ∃ k, 1 ≤ k ∧ k ≤ n ∧ p k = a := by
  simp only [contents,Multiset.mem_sum,Finset.mem_Icc,Multiset.mem_singleton]
  constructor
  · rintro ⟨k,⟨h1,hn⟩,rfl⟩
    exact ⟨k,h1,hn,rfl⟩
  · rintro ⟨k,h1,hn,rfl⟩
    exact ⟨k,⟨h1,hn⟩,rfl⟩

/-- What is held besides position `k`. -/
theorem contents_eq_cons {p : ℕ → α} {n k : ℕ} (hk : k ∈ Finset.Icc 1 n) :
    contents p n = p k::ₘ∑ j ∈ Finset.Icc 1 n \ {k}, {p j} := by
  rw [contents,Finset.sum_eq_add_sum_sdiff_singleton_of_mem hk]
  rfl

theorem contents_update {p : ℕ → α} {n k : ℕ} (hk : k ∈ Finset.Icc 1 n) (v : α) :
    contents (Function.update p k v) n = v::ₘ∑ j ∈ Finset.Icc 1 n \ {k}, {p j} := by
  rw [contents_eq_cons hk,Function.update_self]
  congr 1
  refine Finset.sum_congr rfl fun j hj => ?_
  rw [Function.update_of_ne]
  rintro rfl
  exact (Finset.mem_sdiff.mp hj).2 (Finset.mem_singleton_self _)

/-- Moving a value into the hole moves the hole and loses nothing. -/
theorem contents_move {p : ℕ → α} {n k j : ℕ} (hk : k ∈ Finset.Icc 1 n) (hj : j ∈ Finset.Icc 1 n)
    (v : α) : contents (Function.update (Function.update p k (p j)) j v) n =
      contents (Function.update p k v) n := by
  by_cases hjk : j = k
  · subst hjk
    rw [Function.update_eq_self]
  · have hswap : contents (Function.update p k (p j)) n = p j::ₘ∑ i ∈ Finset.Icc 1 n \ {k}, {p i} :=
      contents_update hk (p j)
    have hother : Function.update p k (p j) j = p j := Function.update_of_ne hjk _ _
    have hcons := contents_eq_cons (p := Function.update p k (p j)) hj
    rw [hswap,hother,Multiset.cons_inj_right] at hcons
    rw [contents_update hj,← hcons,contents_update hk]

end Smx.MaxHeap
