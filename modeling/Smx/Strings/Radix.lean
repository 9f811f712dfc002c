import Smx.Base.Number

/-! `strtol` and `strtoul` with base 0, which take the base from the text. -/
namespace Smx

/-- The size of a `long`. -/
inductive LongSize
  | four
  | eight
  deriving DecidableEq

def LongSize.bytes : LongSize → ℕ
  | four => 4
  | eight => 8

def LongSize.bits (w : LongSize) : ℕ := 8*w.bytes

/-- The value of a digit or letter; 36 for any other character. -/
def digitOf (c : Byte) : ℕ :=
  if isdigit c then c.toNat-48
  else if ch 'a' ≤ c ∧ c ≤ ch 'z' then c.toNat-87
  else if ch 'A' ≤ c ∧ c ≤ ch 'Z' then c.toNat-55
  else 36

/-- The base of a number, and the text behind `0x`. -/
def baseOf (s : Bytes) : ℕ × Bytes :=
  match s with
  | c::x::h::rest =>
    if c = ch '0' then
      if (x = ch 'x' ∨ x = ch 'X') ∧ digitOf h < 16 then (16,h::rest) else (8,s)
    else (10,s)
  | c::_ => if c = ch '0' then (8,s) else (10,s)
  | [] => (10,s)

/-- The digits in front as a number, and what is behind them. -/
def readDigits (s : Bytes) : ℕ × Bytes :=
  let (base,s) := baseOf s
  ((s.takeWhile fun c => digitOf c < base).foldl (fun n c => base*n+digitOf c) 0,s.dropWhile fun c => digitOf c < base)

/-- The sign, the digits, and what is behind them. -/
def readNumber (s : Bytes) : Bool × ℕ × Bytes :=
  match s.dropWhile isspace with
  | [] => (false,0,[])
  | c::rest =>
    if c = ch '-' then (true,readDigits rest)
    else if c = ch '+' then (false,readDigits rest)
    else (false,readDigits (c::rest))

/-- `strtol(s, &e, 0)`, which stops at the ends of a `long`. -/
def strtol0 (w : LongSize) (s : Bytes) : ℤ :=
  let (neg,n,_) := readNumber s
  if neg then max (-2^(w.bits-1)) (-n) else min (2^(w.bits-1)-1) n

/-- `strtoul(s, &e, 0)`, which negates modulo the size of a `long`. -/
def strtoul0 (w : LongSize) (s : Bytes) : ℕ :=
  let (neg,n,_) := readNumber s
  if 2^w.bits ≤ n then 2^w.bits-1
  else if neg then (2^w.bits-n) % 2^w.bits
  else n

/-- The digits of a number that is not negative. -/
def decDigits (n : ℕ) : Bytes := if n = 0 then [ch '0'] else itoaLoop (n+1) n []

/-- A number in decimal. -/
def decText (x : ℤ) : Bytes := if x < 0 then ch '-'::decDigits (-x).toNat else decDigits x.toNat

variable {n : ℕ} {s rest : Bytes} {c : Byte}

theorem digitOf_of_isdigit (h : isdigit c = true) : digitOf c = c.toNat-48 ∧ digitOf c < 10 := by
  have hmem : 48 ≤ c.toNat ∧ c.toNat ≤ 57 := by simpa [isdigit,UInt8.le_iff_toNat_le] using h
  rw [digitOf,if_pos h]
  omega

theorem isdigit_of_digitOf (h : digitOf c < 10) : isdigit c = true := by
  rw [digitOf] at h
  split_ifs at h with hd hlow hup
  · exact hd
  · simp [ch,UInt8.le_iff_toNat_le] at hlow
    omega
  · simp [ch,UInt8.le_iff_toNat_le] at hup
    omega
  · omega

/-- A number does not begin with a zero, unless it is none. -/
theorem itoaLoop_head {fuel : ℕ} {num : ℤ} (h0 : 0 < num) (hfuel : num < 10^fuel) (text : Bytes) :
    ∃ c rest, itoaLoop fuel num text = c::rest ∧ c ≠ ch '0' := by
  induction fuel generalizing num text with
  | zero =>
    rw [pow_zero] at hfuel
    omega
  | succ fuel ih =>
    rw [itoaLoop,if_neg h0.ne',Int.tdiv_eq_ediv_of_nonneg h0.le,Int.tmod_eq_emod_of_nonneg h0.le]
    have hq : num/10 < 10^fuel := by
      rw [pow_succ] at hfuel
      omega
    by_cases hz : num/10 = 0
    · have hnext : itoaLoop fuel 0 (UInt8.ofInt (48+num % 10)::text) = UInt8.ofInt (48+num % 10)::text := by
        cases fuel <;> simp [itoaLoop]
      rw [hz,hnext]
      refine ⟨_,_,rfl,?_⟩
      intro h
      have hr : (UInt8.ofInt (48+num % 10)).toNat = 48+(num % 10).toNat :=
        digit_toNat (Int.emod_nonneg num (by decide)) (Int.emod_lt_of_pos num (by decide))
      rw [h] at hr
      have hzero : (ch '0').toNat = 48 := rfl
      omega
    · exact ih (by omega) hq _

theorem decDigits_spec (n : ℕ) : (∀ c ∈ decDigits n, isdigit c = true) ∧ digitsValue 0 (decDigits n) = n := by
  rw [decDigits]
  split_ifs with hz
  · rw [hz]
    decide +kernel
  · have hlt : (n : ℤ) < 10^(n+1) := by
      have h : n < 10^(n+1) := (Nat.lt_pow_self (by decide)).trans (Nat.pow_lt_pow_right (by decide) n.lt_succ_self)
      exact_mod_cast h
    exact itoaLoop_spec (Int.natCast_nonneg n) hlt (List.forall_mem_nil _)

theorem decDigits_ne_nil (n : ℕ) : decDigits n ≠ [] := by
  intro hnil
  have hvalue := (decDigits_spec n).2
  rw [hnil] at hvalue
  have hz : n = 0 := hvalue.symm
  rw [hz] at hnil
  exact absurd hnil (by decide)

theorem baseOf_of_ne (h : c ≠ ch '0') (p : Bytes) : baseOf (c::p) = (10,c::p) := by
  match p with
  | [] => simp [baseOf,h]
  | [x] => simp [baseOf,h]
  | x::y::p => simp [baseOf,h]

theorem foldl_digits {m : ℕ} (h : ∀ c ∈ s, isdigit c = true) :
    s.foldl (fun n c => 10*n+digitOf c) m = digitsValue m s := by
  induction s generalizing m with
  | nil => rfl
  | cons c s ih =>
    rw [List.foldl_cons,ih fun d hd => h d (List.mem_cons_of_mem c hd),digitsValue,digitsValue,List.foldl_cons,
      (digitOf_of_isdigit (h c List.mem_cons_self)).1]

theorem takeWhile_stop {p : Byte → Bool} (hs : ∀ c ∈ s, p c = true) (hrest : ∀ c ∈ rest.head?, p c = false) :
    (s ++ rest).takeWhile p = s ∧ (s ++ rest).dropWhile p = rest := by
  rw [List.takeWhile_append_of_pos hs,List.dropWhile_append_of_pos hs]
  cases rest with
  | nil => simp
  | cons c rest => simp [hrest c rfl]

/-- The digits of a number are read up to what is behind them. -/
theorem readDigits_decDigits (hrest : ∀ c ∈ rest.head?, isdigit c = false ∧ c ≠ ch 'x' ∧ c ≠ ch 'X') :
    readDigits (decDigits n ++ rest) = (n,rest) := by
  have hstop : ∀ b, b ≤ 10 → ∀ c ∈ rest.head?, decide (digitOf c < b) = false := by
    intro b hb c hc
    apply decide_eq_false
    intro hlt
    have hdigit := isdigit_of_digitOf (hlt.trans_le hb)
    rw [(hrest c hc).1] at hdigit
    cases hdigit
  obtain ⟨hdigits,hvalue⟩ := decDigits_spec n
  by_cases hz : n = 0
  · have hbase : baseOf (ch '0'::rest) = (8,ch '0'::rest) := by
      match rest with
      | [] => rfl
      | [x] => rfl
      | x::h::rest =>
        have hx := (hrest x rfl).2
        simp [baseOf,hx]
    obtain ⟨htake,hdrop⟩ := takeWhile_stop (s := [ch '0']) (by decide +kernel) (hstop 8 (by decide))
    rw [List.singleton_append] at htake hdrop
    rw [hz,decDigits,if_pos rfl,List.singleton_append,readDigits,hbase]
    simp only [htake,hdrop]
    rfl
  · have hlt : (n : ℤ) < 10^(n+1) := by
      have h : n < 10^(n+1) := (Nat.lt_pow_self (by decide)).trans (Nat.pow_lt_pow_right (by decide) n.lt_succ_self)
      exact_mod_cast h
    obtain ⟨c,r,hcons,hc⟩ := itoaLoop_head (by omega) hlt []
    have hdec : decDigits n = c::r := by rw [decDigits,if_neg hz,hcons]
    have hbase : baseOf (decDigits n ++ rest) = (10,decDigits n ++ rest) := by
      rw [hdec]
      exact baseOf_of_ne hc _
    obtain ⟨htake,hdrop⟩ := takeWhile_stop (s := decDigits n)
      (fun d hd => decide_eq_true (digitOf_of_isdigit (hdigits d hd)).2) (hstop 10 le_rfl)
    rw [readDigits,hbase]
    simp only [htake,hdrop]
    rw [foldl_digits hdigits,hvalue]

/-- A number that is not negative is read with its sign. -/
theorem readNumber_decDigits (hrest : ∀ c ∈ rest.head?, isdigit c = false ∧ c ≠ ch 'x' ∧ c ≠ ch 'X') :
    readNumber (decDigits n ++ rest) = (false,n,rest) := by
  have hread := readDigits_decDigits (n := n) hrest
  have hdigits := (decDigits_spec n).1
  obtain ⟨c,r,hcons⟩ := List.exists_cons_of_ne_nil (decDigits_ne_nil n)
  obtain ⟨hspace,hminus,hplus⟩ := digits_plain (hdigits c (by simp [hcons]))
  rw [hcons,List.cons_append] at hread ⊢
  rw [readNumber,List.dropWhile_cons_of_neg (by simp [hspace])]
  simp only [hminus,hplus,if_false,hread]
end Smx
