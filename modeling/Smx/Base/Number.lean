import Smx.Base.Bytes
import Mathlib.Algebra.Order.Ring.Int
import Mathlib.Tactic.IntervalCases

/-! Machine integers and their decimal texts. -/
namespace Smx

/-- What an `int` keeps of a value. -/
def int32 (x : ℤ) : ℤ := x.bmod (2^32)

theorem int32_of_mem {x : ℤ} (h : -2^31 ≤ x ∧ x < 2^31) : int32 x = x := by
  unfold int32
  exact Int.bmod_eq_of_le (by omega) (by omega)

theorem int32_mem (x : ℤ) : -2^31 ≤ int32 x ∧ int32 x < 2^31 := by
  have hlow := Int.le_bmod (x := x) (m := 2^32) (by decide)
  have hhigh := Int.bmod_lt (x := x) (m := 2^32) (by decide)
  unfold int32
  constructor <;> omega

/-- The next number is not more than one higher, also when the `int` overflows. -/
theorem int32_add (x y : ℤ) : int32 (int32 x+y) = int32 (x+y) := by
  unfold int32
  rw [Int.bmod_add_bmod]

theorem int32_sub (x y : ℤ) : int32 (int32 x-int32 y) = int32 (x-y) := by
  unfold int32
  rw [Int.bmod_sub_bmod,Int.sub_bmod_bmod]

theorem int32_succ_le {x : ℤ} (h : -2^31 ≤ x ∧ x < 2^31) : int32 (x+1) ≤ x+1 := by
  by_cases hlt : x+1 < 2^31
  · rw [int32_of_mem ⟨by omega,hlt⟩]
  · have hhigh := (int32_mem (x+1)).2
    omega

def isdigit (c : Byte) : Bool := 48 ≤ c && c ≤ 57

/-- The loop of `itoa`, which writes the digits from the last one on; a negative number has
negative remainders. -/
def itoaLoop : ℕ → ℤ → Bytes → Bytes
  | 0,_,text => text
  | fuel+1,num,text =>
    if num = 0 then text else itoaLoop fuel (num.tdiv 10) (UInt8.ofInt (48 + num.tmod 10)::text)

/-- `itoa(num, buf, 10)`. -/
def itoa (num : ℤ) : Bytes :=
  let num := int32 num
  if num < 0 then ch '-'::itoaLoop 10 (int32 (-num)) []
  else if num = 0 then [ch '0']
  else itoaLoop 10 num []

/-- The value of a row of digits. -/
def digitsValue (start : ℕ) (text : Bytes) : ℕ :=
  text.foldl (fun n c => 10*n + (c.toNat-48)) start

/-- `strtol(s, &e, 10)`, which stops at the ends of a `long`. -/
def strtol (s : Bytes) : ℤ :=
  match s.dropWhile isspace with
  | [] => 0
  | c::rest =>
    let value (digits : Bytes) : ℤ := digitsValue 0 (digits.takeWhile isdigit)
    if c = ch '-' then max (-2^63) (-value rest)
    else if c = ch '+' then min (2^63-1) (value rest)
    else min (2^63-1) (value (c::rest))

/-- `atoi`, and `ParseInt`. -/
def atoi (s : Bytes) : ℤ := int32 (strtol s)

theorem digit_toNat {d : ℤ} (h0 : 0 ≤ d) (h9 : d < 10) : (UInt8.ofInt (48+d)).toNat = 48+d.toNat := by
  obtain ⟨n,rfl⟩ := Int.eq_ofNat_of_zero_le h0
  have hn : n < 10 := by omega
  interval_cases n <;> rfl

theorem isdigit_digit {d : ℤ} (h0 : 0 ≤ d) (h9 : d < 10) : isdigit (UInt8.ofInt (48+d)) = true := by
  obtain ⟨n,rfl⟩ := Int.eq_ofNat_of_zero_le h0
  have hn : n < 10 := by omega
  interval_cases n <;> rfl

/-- The digits written have the value of the number. -/
theorem itoaLoop_spec {fuel : ℕ} {num : ℤ} (h0 : 0 ≤ num) (hfuel : num < 10^fuel) {text : Bytes}
    (htext : ∀ c ∈ text, isdigit c = true) :
    (∀ c ∈ itoaLoop fuel num text, isdigit c = true) ∧
      digitsValue 0 (itoaLoop fuel num text) = digitsValue num.toNat text := by
  induction fuel generalizing num text with
  | zero =>
    obtain rfl : num = 0 := by
      rw [pow_zero] at hfuel
      omega
    exact ⟨htext,rfl⟩
  | succ fuel ih =>
    rw [itoaLoop]
    by_cases hz : num = 0
    · subst hz
      exact ⟨htext,rfl⟩
    · rw [if_neg hz,Int.tdiv_eq_ediv_of_nonneg h0,Int.tmod_eq_emod_of_nonneg h0]
      have hr0 : 0 ≤ num % 10 := Int.emod_nonneg num (by decide)
      have hr9 : num % 10 < 10 := Int.emod_lt_of_pos num (by decide)
      have hq : num/10 < 10^fuel := by
        rw [pow_succ] at hfuel
        omega
      have hmore : ∀ c ∈ UInt8.ofInt (48 + num % 10)::text, isdigit c = true := by
        intro c hc
        obtain rfl | hc := List.mem_cons.mp hc
        · exact isdigit_digit hr0 hr9
        · exact htext c hc
      obtain ⟨hdigits,hvalue⟩ := ih (by omega) hq hmore
      have hstep : 10*(num/10).toNat + (48 + (num % 10).toNat - 48) = num.toNat := by omega
      refine ⟨hdigits,?_⟩
      rw [hvalue,digitsValue,List.foldl_cons,digit_toNat hr0 hr9,hstep]
      rfl

theorem digits_plain {c : Byte} (h : isdigit c = true) :
    isspace c = false ∧ c ≠ ch '-' ∧ c ≠ ch '+' := by
  simp only [isdigit,Bool.and_eq_true,decide_eq_true_eq] at h
  refine ⟨?_,?_,?_⟩
  · have h32 : c ≠ 32 := by
      rintro rfl
      exact absurd h.1 (by decide)
    have h13 : ¬ c ≤ 13 := fun hc => absurd (UInt8.le_trans h.1 hc) (by decide)
    simp [isspace,h32,h13]
  · rintro rfl
    exact absurd h.1 (by decide)
  · rintro rfl
    exact absurd h.1 (by decide)

theorem strtol_digits {text : Bytes} (h : ∀ c ∈ text, isdigit c = true)
    (hlt : digitsValue 0 text < 2^63) :
    strtol text = digitsValue 0 text ∧ strtol (ch '-'::text) = -digitsValue 0 text := by
  have hall : text.takeWhile isdigit = text := List.takeWhile_eq_self_iff.mpr h
  have hminus : isspace (ch '-') = false := by decide
  constructor
  · cases text with
    | nil => rfl
    | cons c rest =>
      obtain ⟨hspace,hm,hp⟩ := digits_plain (h c List.mem_cons_self)
      rw [strtol,List.dropWhile_cons_of_neg (by simp [hspace])]
      simp only [if_neg hm,if_neg hp,hall]
      omega
  · rw [strtol,List.dropWhile_cons_of_neg (by simp [hminus])]
    simp only [if_true,hall]
    omega

/-- The digits of a number that is not negative. -/
theorem itoa_digits {n : ℕ} (h : n < 2^31) :
    itoa n ≠ [] ∧ (∀ d ∈ itoa n, isdigit d = true) ∧ digitsValue 0 (itoa n) = n := by
  have hself : int32 n = n := int32_of_mem ⟨by omega,by omega⟩
  have hitoa : itoa n = if (n : ℤ) = 0 then [ch '0'] else itoaLoop 10 n [] := by
    rw [itoa,hself]
    exact if_neg (by omega)
  rw [hitoa]
  split_ifs with hz
  · refine ⟨List.cons_ne_nil _ _,List.forall_mem_singleton.mpr (by decide),?_⟩
    exact (Int.natCast_eq_zero.mp hz).symm
  · obtain ⟨hdigits,hvalue⟩ := itoaLoop_spec (Int.natCast_nonneg n) (show (n : ℤ) < 10^10 by omega) fun _ h =>
      absurd h List.not_mem_nil
    rw [Int.toNat_natCast] at hvalue
    refine ⟨?_,hdigits,hvalue⟩
    intro hnil
    rw [hnil] at hvalue
    have hzero : 0 = n := hvalue
    omega

/-- What `itoa` writes is read back by `atoi`, the least `int` apart. -/
theorem atoi_itoa {num : ℤ} (h : -2^31 < num ∧ num < 2^31) : atoi (itoa num) = num := by
  have hself : int32 num = num := int32_of_mem ⟨h.1.le,h.2⟩
  have hneg : int32 (-num) = -num := int32_of_mem ⟨by omega,by omega⟩
  have hloop {n : ℤ} (h0 : 0 ≤ n) (hn : n < 2^31) :
      strtol (itoaLoop 10 n []) = n ∧ strtol (ch '-'::itoaLoop 10 n []) = -n := by
    have hfuel : n < 10^10 := by omega
    have hnil : ∀ c ∈ ([] : Bytes), isdigit c = true := nofun
    obtain ⟨hdigits,hvalue⟩ := itoaLoop_spec h0 hfuel hnil
    have hval : digitsValue 0 (itoaLoop 10 n []) = n.toNat := hvalue
    have hstr := strtol_digits hdigits (by rw [hval]; omega)
    rw [hval,Int.toNat_of_nonneg h0] at hstr
    exact hstr
  unfold itoa atoi
  simp only [hself,hneg]
  split_ifs with hlt hz
  · rw [(hloop (n := -num) (by omega) (by omega)).2,neg_neg,hself]
  · rw [hz]
    rfl
  · rw [(hloop (n := num) (by omega) h.2).1,hself]

theorem itoa_inj {a b : ℤ} (ha : -2^31 < a ∧ a < 2^31) (hb : -2^31 < b ∧ b < 2^31)
    (h : itoa a = itoa b) : a = b := by
  rw [← atoi_itoa ha,h,atoi_itoa hb]

end Smx
