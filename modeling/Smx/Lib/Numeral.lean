import Mathlib.Data.Nat.Digits.Lemmas

/-! Numerals: the digits of a number, the first one in front. -/
namespace Numeral
variable {b n d k : ℕ}

/-- The digits of a number in a base of two or more; zero has one digit. -/
def digits (b n : ℕ) : List ℕ := if n = 0 then [0] else (Nat.digits b n).reverse

/-- The number that digits stand for. -/
def value (b : ℕ) (ds : List ℕ) : ℕ := ds.foldl (fun n d => b*n+d) 0

@[simp] theorem digits_zero (b : ℕ) : digits b 0 = [0] := rfl

theorem digits_of_ne (h : n ≠ 0) : digits b n = (Nat.digits b n).reverse := if_neg h

@[simp] theorem value_nil (b : ℕ) : value b [] = 0 := rfl

theorem value_concat (b : ℕ) (ds : List ℕ) (d : ℕ) : value b (ds ++ [d]) = b*value b ds+d := by
  rw [value,List.foldl_append]
  rfl

/-- The last digit first, as Mathlib has them. -/
theorem value_reverse (b : ℕ) (ds : List ℕ) : value b ds.reverse = Nat.ofDigits b ds := by
  induction ds with
  | nil => rfl
  | cons d ds ih =>
    rw [List.reverse_cons,value_concat,ih,Nat.ofDigits_cons,add_comm]

@[simp] theorem value_digits (b n : ℕ) : value b (digits b n) = n := by
  by_cases h : n = 0
  · rw [h]
    simp [value]
  · rw [digits_of_ne h,value_reverse,Nat.ofDigits_digits]

theorem digits_ne_nil (b n : ℕ) : digits b n ≠ [] := by
  intro h
  by_cases hn : n = 0
  · rw [hn] at h
    cases h
  · rw [digits_of_ne hn,List.reverse_eq_nil_iff] at h
    exact hn (Nat.digits_eq_nil_iff_eq_zero.mp h)

theorem digits_lt (hb : 2 ≤ b) (h : d ∈ digits b n) : d < b := by
  by_cases hn : n = 0
  · rw [hn,digits_zero,List.mem_singleton] at h
    omega
  · rw [digits_of_ne hn,List.mem_reverse] at h
    exact Nat.digits_lt_base hb h

theorem length_digits_le (hb : 2 ≤ b) (hk : 0 < k) (h : n < b^k) : (digits b n).length ≤ k := by
  by_cases hn : n = 0
  · rw [hn]
    exact hk
  · rw [digits_of_ne hn,List.length_reverse]
    exact (Nat.digits_length_le_iff hb n).mpr h

end Numeral
