import Mathlib.Algebra.Order.Ring.Int
import Mathlib.Tactic.Common

/-! Numbers as bytes, least significant first. -/
namespace LittleEndian

/-- The low `k` bytes of a number. -/
def toLE : ℕ → ℕ → List UInt8
  | 0,_ => []
  | k+1,n => UInt8.ofNat n::toLE k (n/256)

def ofLE : List UInt8 → ℕ
  | [] => 0
  | b::bs => b.toNat+256*ofLE bs

@[simp] theorem length_toLE (k n : ℕ) : (toLE k n).length = k := by
  induction k generalizing n with
  | zero => rfl
  | succ k ih => simp [toLE,ih]

theorem ofLE_toLE (k n : ℕ) : ofLE (toLE k n) = n % 256^k := by
  induction k generalizing n with
  | zero => simp [toLE,ofLE,Nat.mod_one]
  | succ k ih =>
    rw [toLE,ofLE,ih,Nat.pow_succ',Nat.mod_mul]
    simp

theorem ofLE_lt (bs : List UInt8) : ofLE bs < 256^bs.length := by
  induction bs with
  | nil => exact Nat.one_pos
  | cons b bs ih =>
    have hb : b.toNat < 256 := b.toNat_lt
    rw [ofLE,List.length_cons,Nat.pow_succ]
    omega

theorem ofLE_toLE_of_lt {k n : ℕ} (h : n < 256^k) : ofLE (toLE k n) = n := by
  rw [ofLE_toLE,Nat.mod_eq_of_lt h]

/-- The two's complement reading of an unsigned number of `bits` bits. -/
def signed (bits v : ℕ) : ℤ := if v < 2^(bits-1) then v else (v : ℤ)-2^bits

theorem signed_of_lt (bits : ℕ) {v : ℕ} (h : v < 2^(bits-1)) : signed bits v = v := if_pos h

end LittleEndian
