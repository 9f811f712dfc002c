import Smx.Base.Error
import Smx.Math.Itoa

/-! `%rand`: random numbers from a range. -/
namespace Smx

/-- `((unsigned int) rand() << 16) | (unsigned int) rand()`. -/
def randWord (r r' : Int32) : UInt32 := (r.toUInt32 <<< 16) ||| r'.toUInt32

/-- `1 + (unsigned int) (b-a)`. -/
def randRange (a b : ℤ) : ℕ := ((1+int32 (b-a)) % 2^32).toNat

/-- `%rand` with two numbers and a random word. -/
def randTwo (a b : ℤ) (word : UInt32) : Except Fault Bytes :=
  if a ≤ b then
    let range := randRange a b
    if range = 0 then .error .divZero else putInt (Int32.ofInt (a+int32 (word.toNat % range : ℕ)))
  else .ok []

/-- `%rand` with one number, which is taken as an `unsigned int`. -/
def randOne (w : LongSize) (n : ℤ) (word : UInt32) : Except Fault Bytes :=
  let range := (n % 2^32).toNat
  if 0 < range then putUInt w (UInt32.ofNat (word.toNat % range)) else .ok []

/-- `EvalRand`, with what `rand()` returns the first time and the second time. -/
def evalRand (w : LongSize) (args : List Bytes) (r r' : Int32) : Except Fault (Except CtxEx Bytes) :=
  match validArgc "rand" 0 2 args.length with
  | some ex => .ok (.error ex)
  | none =>
    match args with
    | [] => (putInt r).map .ok
    | [n] => (randOne w (atoi n) (randWord r r')).map .ok
    | a::b::_ => (randTwo (atoi a) (atoi b) (randWord r r')).map .ok

section
variable {a b n x : ℤ} {word : UInt32}

theorem atoi_mem (s : Bytes) : -2^31 ≤ atoi s ∧ atoi s < 2^31 := int32_mem _

/-- The range wraps around to zero for all the numbers of an `int`, and only for these. -/
theorem randRange_eq (ha : -2^31 ≤ a) (hb : b < 2^31) (hab : a ≤ b) :
    randRange a b = if a = -2^31 ∧ b = 2^31-1 then 0 else (b-a+1).toNat := by
  have hmod : (1+int32 (b-a)) % 2^32 = (b-a+1) % 2^32 := by
    have hbmod : (b-a).bmod (2^32) % 2^32 = (b-a) % 2^32 := by
      exact_mod_cast Int.bmod_emod (x := b-a) (m := 2^32)
    rw [int32]
    omega
  rw [randRange,hmod]
  split_ifs with h
  · rw [h.1,h.2]
    rfl
  · rw [Int.emod_eq_of_lt (by omega) (by omega)]

theorem putInt_ofInt (hmin : -2^31 < x) (hmax : x < 2^31) : putInt (Int32.ofInt x) = .ok (numeral 10 x) := by
  have hx : (Int32.ofInt x).toInt = x := Int32.toInt_ofInt_of_le (by omega) (by omega)
  have h : Printed 10 (itoaIn 10 33 (Int32.ofInt x)) (Int32.ofInt x).toInt :=
    (itoaIn_iff (by decide) (by decide) (Int32.ofInt x)).mpr ⟨by omega,decimal_numeral (by omega)⟩
  rw [hx] at h
  exact h.1

theorem ofInt_add_int32 (a x : ℤ) : Int32.ofInt (a+int32 x) = Int32.ofInt (a+x) := by
  apply Int32.toInt_inj.mp
  rw [Int32.toInt_ofInt,Int32.toInt_ofInt]
  exact Int.add_bmod_bmod

/-- With a range that is not zero the sum of `a` and the remainder is printed. -/
theorem randTwo_eq (ha : -2^31 ≤ a) (hb : b < 2^31) (hab : a ≤ b) (hfull : ¬(a = -2^31 ∧ b = 2^31-1))
    (word : UInt32) : randTwo a b word = putInt (Int32.ofInt (a+word.toNat % (b-a+1))) := by
  have hrange := randRange_eq ha hb hab
  rw [if_neg hfull] at hrange
  have hne : (b-a+1).toNat ≠ 0 := by omega
  have hrem : ((word.toNat % (b-a+1).toNat : ℕ) : ℤ) = word.toNat % (b-a+1) := by
    rw [Int.natCast_mod,Int.toNat_of_nonneg (by omega)]
  rw [randTwo,if_pos hab]
  simp only [hrange,if_neg hne]
  rw [ofInt_add_int32,hrem]

theorem randTwo_full (word : UInt32) : randTwo (-2^31) (2^31-1) word = .error .divZero := rfl

/-- The least `int` is printed as the numeral of no number. -/
theorem putInt_min_ne (hx : -2^31 ≤ x ∧ x < 2^31) : putInt (Int32.ofInt (-2^31)) ≠ .ok (numeral 10 x) := by
  intro h
  have hmin : putInt (Int32.ofInt (-2^31)) = .ok (str "-./,),(-*,(") := put_min.1
  have hread : strtolIn .eight 10 (numeral 10 x) = x :=
    strtolIn_numeral (by decide) (by decide) ⟨by omega,by omega⟩
  have htext := Except.ok.inj (hmin.symm.trans h)
  rw [← htext,strtolIn_min.1] at hread
  rw [← hread] at htext
  exact absurd htext (by decide)

/-- One number that is above zero. -/
theorem randOne_eq (hn : 0 < n) (hmax : n < 2^31) (word : UInt32) :
    randOne .eight n word = .ok (numeral 10 (word.toNat % n)) := by
  have hmod : n % 2^32 = n := Int.emod_eq_of_lt (by omega) (by omega)
  have hlt := Int.emod_lt_of_pos word.toNat hn
  have hnonneg := Int.emod_nonneg word.toNat hn.ne'
  have hrem : ((word.toNat % n.toNat : ℕ) : ℤ) = word.toNat % n := by
    rw [Int.natCast_mod,Int.toNat_of_nonneg hn.le]
  have hsmall : word.toNat % n.toNat < UInt32.size := by
    have hsize : UInt32.size = 2^32 := rfl
    omega
  have hprint := (putUInt_printed (UInt32.ofNat (word.toNat % n.toNat))).1
  rw [UInt32.toNat_ofNat_of_lt' hsmall,hrem] at hprint
  simp only [randOne,hmod]
  rw [if_pos (by omega)]
  exact hprint

/-- The range of two numbers: a number from it is printed whatever `rand()` returns, and each of its numbers
for some random word. -/
structure RandRight (sa sb : Bytes) : Prop where
  within : ∀ r r', ∃ x, atoi sa ≤ x ∧ x ≤ atoi sb ∧ evalRand .eight [sa,sb] r r' = .ok (.ok (numeral 10 x))
  reach : ∀ x, atoi sa ≤ x → x ≤ atoi sb → ∃ word, randTwo (atoi sa) (atoi sb) word = .ok (numeral 10 x)

theorem evalRand_two (sa sb : Bytes) (r r' : Int32) :
    evalRand .eight [sa,sb] r r' = (randTwo (atoi sa) (atoi sb) (randWord r r')).map .ok := rfl

theorem evalRand_one (sn : Bytes) (r r' : Int32) :
    evalRand .eight [sn] r r' = (randOne .eight (atoi sn) (randWord r r')).map .ok := rfl

theorem randRight_iff {sa sb : Bytes} (hab : atoi sa ≤ atoi sb) : RandRight sa sb ↔ atoi sa ≠ -2^31 := by
  have ha := atoi_mem sa
  have hb := atoi_mem sb
  constructor
  · rintro ⟨hwithin,-⟩ hmin
    -- the random word zero gives the least number itself
    obtain ⟨x,hax,hxb,hx⟩ := hwithin 0 0
    rw [evalRand_two] at hx
    by_cases hfull : atoi sb = 2^31-1
    · rw [hmin,hfull,randTwo_full] at hx
      cases hx
    · rw [randTwo_eq ha.1 hb.2 hab fun h => hfull h.2,hmin] at hx
      have hzero : ((randWord 0 0).toNat : ℤ) % (atoi sb- -2^31+1) = 0 := Int.zero_emod _
      rw [hzero,add_zero] at hx
      exact putInt_min_ne ⟨by omega,by omega⟩ ((map_eq_ok fun _ _ => Except.ok.inj).mp hx)
  · intro hmin
    have hfull : ¬(atoi sa = -2^31 ∧ atoi sb = 2^31-1) := fun h => hmin h.1
    have hprint (word : UInt32) : randTwo (atoi sa) (atoi sb) word =
        .ok (numeral 10 (atoi sa+word.toNat % (atoi sb-atoi sa+1))) := by
      have hlt := Int.emod_lt_of_pos word.toNat (b := atoi sb-atoi sa+1) (by omega)
      have hnonneg := Int.emod_nonneg word.toNat (b := atoi sb-atoi sa+1) (by omega)
      rw [randTwo_eq ha.1 hb.2 hab hfull,putInt_ofInt (by omega) (by omega)]
    refine ⟨fun r r' => ?_,fun x hax hxb => ?_⟩
    · have hlt := Int.emod_lt_of_pos (randWord r r').toNat (b := atoi sb-atoi sa+1) (by omega)
      have hnonneg := Int.emod_nonneg (randWord r r').toNat (b := atoi sb-atoi sa+1) (by omega)
      refine ⟨_,?_,?_,(evalRand_two sa sb r r').trans (by rw [hprint]; rfl)⟩ <;> omega
    · have hsize : UInt32.size = 2^32 := rfl
      refine ⟨UInt32.ofNat (x-atoi sa).toNat,?_⟩
      rw [hprint,UInt32.toNat_ofNat_of_lt' (by omega),Int.toNat_of_nonneg (by omega),
        Int.emod_eq_of_lt (by omega) (by omega),add_sub_cancel]

/-- `%rand` with two numbers and with one. -/
theorem evalRand_iff (sa sb sn : Bytes) (hab : atoi sa ≤ atoi sb) (hn : 0 < atoi sn) :
    (RandRight sa sb ↔ atoi sa ≠ -2^31) ∧
    ∀ r r', ∃ x, 0 ≤ x ∧ x ≤ atoi sn-1 ∧ evalRand .eight [sn] r r' = .ok (.ok (numeral 10 x)) := by
  refine ⟨randRight_iff hab,fun r r' => ?_⟩
  have hlt := Int.emod_lt_of_pos (randWord r r').toNat hn
  refine ⟨_,Int.emod_nonneg (randWord r r').toNat hn.ne',by omega,?_⟩
  rw [evalRand_one,randOne_eq hn (atoi_mem sn).2]
  rfl

end

theorem evalRand_die : RandRight (str "-6") (str "6") :=
  (evalRand_iff (str "-6") (str "6") (str "6") (by decide) (by decide)).1.mpr (by decide)

/-- The range of all the numbers is taken as zero. -/
theorem not_randRight : ¬∀ sa sb : Bytes, atoi sa ≤ atoi sb → RandRight sa sb := by
  intro h
  obtain ⟨x,-,-,hx⟩ := (h (str "-2147483648") (str "2147483647") (by decide)).within 0 0
  have hfault : evalRand .eight [str "-2147483648",str "2147483647"] 0 0 = .error .divZero := rfl
  rw [hfault] at hx
  cases hx

end Smx
