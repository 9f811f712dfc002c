import Smx.Base.Number
import Smx.Lib.Numeral
import Smx.Strings.Radix

/-! `itoa`, `ltoa` and `ultoa`: numbers written into a buffer in any radix, and `strtol` and `strtoul`
with a base of their own. -/
namespace Smx

/-- What stops a C program. -/
inductive Fault
  | divZero
  | overrun
  | null
  deriving DecidableEq, Repr

/-- A character of the loop of `strrev` changes places with the one across. -/
def swapEnds (s : Bytes) (i : ℕ) : Bytes :=
  (s.set i (s.getD (s.length-1-i) 0)).set (s.length-1-i) (s.getD i 0)

/-- `strrev`. -/
def strrev (s : Bytes) : Bytes := (List.range (s.length/2)).foldl swapEnds s

/-- `while (num != 0) { *p++ = digit(num % radix); num /= radix; } *p = 0;` where there is room for so many
characters at `p`, and `text` has been written. -/
def toaLoop (digit : ℤ → Byte) (radix : ℤ) : ℕ → ℤ → Bytes → Except Fault Bytes
  | 0,num,_ => .error (if num ≠ 0 ∧ radix = 0 then .divZero else .overrun)
  | room+1,num,text =>
    if num = 0 then .ok text
    else if radix = 0 then .error .divZero
    else toaLoop digit radix room (num.tdiv radix) (text ++ [digit (num.tmod radix)])

/-- What the three functions do from `p` on, behind the sign. -/
def toaBody (digit : ℤ → Byte) (radix : ℤ) (room : ℕ) (num : ℤ) : Except Fault Bytes :=
  if num = 0 then if 2 ≤ room then .ok [ch '0'] else .error .overrun
  else (toaLoop digit radix room num []).map strrev

/-- What the functions on signed numbers do; `neg` is the negation of their type. -/
def toa (digit : ℤ → Byte) (neg : ℤ → ℤ) (radix : ℤ) (room : ℕ) (num : ℤ) : Except Fault Bytes :=
  if num < 0 then
    match room with
    | 0 => .error .overrun
    | room+1 => (toaBody digit radix room (neg num)).map (ch '-'::·)
  else toaBody digit radix room num

/-- `'0' + d`. -/
def decChar (d : ℤ) : Byte := UInt8.ofInt (48+d)

/-- The digits of `ultoa`, which has letters. -/
def anyChar (d : ℤ) : Byte := if 9 < d then UInt8.ofInt (97+d-10) else UInt8.ofInt (48+d)

/-- `itoa`, with a buffer of `room` bytes. -/
def itoaIn (radix : ℤ) (room : ℕ) (num : Int32) : Except Fault Bytes :=
  toa decChar (fun x => (-x).bmod (2^32)) radix room num.toInt

/-- `ltoa`. -/
def ltoaIn (radix : ℤ) (room : ℕ) (num : Int64) : Except Fault Bytes :=
  toa decChar (fun x => (-x).bmod (2^64)) radix room num.toInt

/-- `ultoa`: the number is never below zero, and the radix is made an `unsigned long` too. -/
def ultoaIn (w : LongSize) (radix : ℤ) (room num : ℕ) : Except Fault Bytes :=
  toaBody anyChar (radix.emod (2^w.bits)) room num

/-- `PutN(int)`, with `char tmp[33]`. -/
def putInt (i : Int32) : Except Fault Bytes := itoaIn 10 33 i

/-- `PutN(long int)`. -/
def putLong (i : Int64) : Except Fault Bytes := ltoaIn 10 33 i

/-- `PutN(unsigned int)`. -/
def putUInt (w : LongSize) (i : UInt32) : Except Fault Bytes := ultoaIn w 10 33 i.toNat

/-- `0x` in front of a hexadecimal number. -/
def skip0x (base : ℕ) (s : Bytes) : Bytes :=
  match s with
  | z::x::h::rest =>
    if base = 16 ∧ z = ch '0' ∧ (x = ch 'x' ∨ x = ch 'X') ∧ digitOf h < 16 then h::rest else s
  | _ => s

/-- The digits in front as a number. -/
def readIn (base : ℕ) (s : Bytes) : ℕ :=
  Numeral.value base (((skip0x base s).takeWhile fun c => digitOf c < base).map digitOf)

/-- The sign and the digits. -/
def readSigned (base : ℕ) (s : Bytes) : Bool × ℕ :=
  match s.dropWhile isspace with
  | [] => (false,0)
  | c::rest =>
    if c = ch '-' then (true,readIn base rest)
    else if c = ch '+' then (false,readIn base rest)
    else (false,readIn base (c::rest))

/-- `strtol(s, &e, base)` for a base above zero; no number is read in a base that has no digits for it. -/
def strtolIn (w : LongSize) (base : ℕ) (s : Bytes) : ℤ :=
  if base < 2 ∨ 36 < base then 0
  else
    let (neg,n) := readSigned base s
    if neg then max (-2^(w.bits-1)) (-n) else min (2^(w.bits-1)-1) n

/-- `strtoul(s, &e, base)`. -/
def strtoulIn (w : LongSize) (base : ℕ) (s : Bytes) : ℕ :=
  if base < 2 ∨ 36 < base then 0
  else
    let (neg,n) := readSigned base s
    if 2^w.bits ≤ n then 2^w.bits-1
    else if neg then (2^w.bits-n) % 2^w.bits
    else n

/-- A digit of a numeral. -/
def digitChar (d : ℕ) : Byte := UInt8.ofNat (if d < 10 then 48+d else 87+d)

/-- The conventional numeral of a number. -/
def numeral (radix : ℕ) (x : ℤ) : Bytes :=
  (if x < 0 then [ch '-'] else []) ++ (Numeral.digits radix x.natAbs).map digitChar

section
variable {s : Bytes} {i k : ℕ}

@[simp] theorem length_swapEnds (s : Bytes) (i : ℕ) : (swapEnds s i).length = s.length := by
  simp [swapEnds]

/-- The ends that have changed places. -/
theorem getElem?_swaps (s : Bytes) (hk : k ≤ s.length/2) :
    ((List.range k).foldl swapEnds s).length = s.length ∧ ∀ j < s.length,
      ((List.range k).foldl swapEnds s)[j]? = s[if j < k ∨ s.length-k ≤ j then s.length-1-j else j]? := by
  induction k with
  | zero =>
    refine ⟨rfl,fun j hj => ?_⟩
    have h : ¬(j < 0 ∨ s.length-0 ≤ j) := by omega
    rw [if_neg h]
    rfl
  | succ k ih =>
    obtain ⟨hlen,hget⟩ := ih (by omega)
    rw [List.range_succ,List.foldl_append,List.foldl_cons,List.foldl_nil]
    refine ⟨(length_swapEnds _ _).trans hlen,fun j hj => ?_⟩
    have hfirst := hget k (by omega)
    have hlast := hget (s.length-1-k) (by omega)
    rw [if_neg (by omega)] at hfirst hlast
    rw [swapEnds,hlen,List.getD_eq_getElem?_getD,List.getD_eq_getElem?_getD,hfirst,hlast]
    by_cases hlow : j = k
    · subst hlow
      rw [if_pos (by omega),List.getElem?_set_ne (by omega),List.getElem?_set_self (by omega),
        List.getElem?_eq_getElem (by omega)]
      rfl
    · by_cases hhigh : j = s.length-1-k
      · subst hhigh
        have hback : s.length-1-(s.length-1-k) = k := by omega
        rw [if_pos (by omega),hback,List.getElem?_set_self (by rw [List.length_set]; omega),
          List.getElem?_eq_getElem (by omega)]
        rfl
      · rw [List.getElem?_set_ne (Ne.symm hhigh),List.getElem?_set_ne (Ne.symm hlow),hget j hj]
        have hiff : (j < k ∨ s.length-k ≤ j) ↔ (j < k+1 ∨ s.length-(k+1) ≤ j) := by omega
        simp only [hiff]

/-- `strrev` turns a text around. -/
@[simp] theorem strrev_eq (s : Bytes) : strrev s = s.reverse := by
  obtain ⟨hlen,hget⟩ := getElem?_swaps s le_rfl
  apply List.ext_getElem?
  intro j
  rw [strrev]
  by_cases hj : j < s.length
  · rw [hget j hj,List.getElem?_reverse hj]
    split_ifs with h
    · rfl
    · have hmid : s.length-1-j = j := by omega
      rw [hmid]
  · rw [List.getElem?_eq_none (by omega),List.getElem?_eq_none (by rw [List.length_reverse]; omega)]

end

section
variable {digit : ℤ → Byte} {radix room n : ℕ} {sign : ℤ} {text : Bytes}

theorem toNat_ofInt (x : ℤ) : (UInt8.ofInt x).toNat = (x % 256).toNat := by
  have h : (x % 2^8).toNat < UInt8.size := by
    have hsize : UInt8.size = 256 := rfl
    omega
  rw [UInt8.ofInt,UInt8.toNat_ofNat_of_lt' h]
  rfl

/-- A signed division goes on with the sign. -/
theorem sign_div_mod (hsign : sign = 1 ∨ sign = -1) (n radix : ℕ) :
    (sign*n).tdiv radix = sign*(n/radix : ℕ) ∧ (sign*n).tmod radix = sign*(n % radix : ℕ) := by
  obtain rfl | rfl := hsign
  · rw [one_mul,one_mul,one_mul,Int.ofNat_tdiv,Int.ofNat_tmod]
    exact ⟨rfl,rfl⟩
  · rw [neg_one_mul,neg_one_mul,neg_one_mul,Int.neg_tdiv,Int.neg_tmod,Int.ofNat_tdiv,Int.ofNat_tmod]
    exact ⟨rfl,rfl⟩

/-- The loop writes the digits with the sign of the number, the last one first. -/
theorem toaLoop_eq (hr : 2 ≤ radix) (hsign : sign = 1 ∨ sign = -1) : toaLoop digit radix room (sign*n) text =
    if (Nat.digits radix n).length < room then
      .ok (text ++ (Nat.digits radix n).map fun d : ℕ => digit (sign*d))
    else .error .overrun := by
  induction room generalizing n text with
  | zero =>
    have hne : ¬(sign*n ≠ 0 ∧ (radix : ℤ) = 0) := by omega
    rw [toaLoop,if_neg hne,if_neg (Nat.not_lt_zero _)]
  | succ room ih =>
    have hne : (radix : ℤ) ≠ 0 := by omega
    by_cases hn : n = 0
    · subst hn
      simp [toaLoop]
    · have hz : sign*n ≠ 0 := by
        obtain rfl | rfl := hsign <;> omega
      obtain ⟨hquot,hrem⟩ := sign_div_mod hsign n radix
      have hdigits : Nat.digits radix n = n % radix::Nat.digits radix (n/radix) :=
        Nat.digits_def' hr (Nat.pos_of_ne_zero hn)
      rw [toaLoop,if_neg hz,if_neg hne,hquot,hrem,ih,hdigits,List.length_cons,List.map_cons,List.append_assoc]
      simp only [Nat.add_lt_add_iff_right,List.singleton_append]

/-- From `p` on the digits are written, if there is room for them and the NUL. -/
theorem toaBody_eq (digit : ℤ → Byte) (room n : ℕ) (hr : 2 ≤ radix) (hsign : sign = 1 ∨ sign = -1)
    (hzero : digit 0 = ch '0') :
    toaBody digit radix room (sign*n) =
      if (Numeral.digits radix n).length < room then
        .ok ((Numeral.digits radix n).map fun d : ℕ => digit (sign*d))
      else .error .overrun := by
  by_cases hn : n = 0
  · subst hn
    simp [toaBody,hzero]
    rfl
  · have hz : sign*n ≠ 0 := by
      obtain rfl | rfl := hsign <;> omega
    rw [toaBody,if_neg hz,toaLoop_eq hr hsign,Numeral.digits_of_ne hn,List.length_reverse]
    split_ifs
    · simp [Except.map,List.map_reverse]
    · rfl

end

section
variable {base d : ℕ} {c : Byte} {text : Bytes} {ds : List ℕ} {x : ℤ}

theorem toNat_digitChar (hd : d < 36) : (digitChar d).toNat = if d < 10 then 48+d else 87+d := by
  rw [digitChar,UInt8.toNat_ofNat_of_lt']
  have hsize : UInt8.size = 256 := rfl
  split_ifs <;> omega

theorem anyChar_eq (hd : d < 36) : anyChar d = digitChar d := by
  apply UInt8.toNat_inj.mp
  rw [toNat_digitChar hd,anyChar]
  split_ifs <;> rw [toNat_ofInt] <;> omega

/-- Without letters a digit is right only below ten, and the negative ones never are. -/
theorem decChar_eq_iff (hd : d < 36) : decChar d = digitChar d ↔ d < 10 := by
  rw [← UInt8.toNat_inj,toNat_digitChar hd,decChar,toNat_ofInt]
  split_ifs <;> omega

theorem decChar_neg_eq_iff (hd : d < 36) : decChar (-d) = digitChar d ↔ d = 0 := by
  rw [← UInt8.toNat_inj,toNat_digitChar hd,decChar,toNat_ofInt]
  split_ifs <;> omega

theorem digitOf_digitChar (hd : d < 36) : digitOf (digitChar d) = d := by
  interval_cases d <;> rfl

/-- What stands for a digit is no blank and no sign. -/
theorem plain_of_digitOf (h : digitOf c < 36) : isspace c = false ∧ c ≠ ch '-' ∧ c ≠ ch '+' := by
  grind [digitOf,isdigit,isspace,ch]

theorem skip0x_digits (h : ∀ c ∈ text, digitOf c < base) : skip0x base text = text := by
  unfold skip0x
  split
  · next z y g rest =>
    have hy := h y (by simp)
    refine if_neg ?_
    rintro ⟨rfl,-,hx | hx,-⟩
    · rw [hx] at hy
      exact absurd hy (by decide)
    · rw [hx] at hy
      exact absurd hy (by decide)
  · rfl

/-- Digits are read as the number they stand for. -/
theorem readIn_digits (hb : base ≤ 36) (h : ∀ d ∈ ds, d < base) :
    readIn base (ds.map digitChar) = Numeral.value base ds := by
  have hdigit : ∀ d ∈ ds, digitOf (digitChar d) = d := fun d hd => digitOf_digitChar ((h d hd).trans_le hb)
  have hlt : ∀ c ∈ ds.map digitChar, digitOf c < base := by
    intro c hc
    obtain ⟨d,hd,rfl⟩ := List.mem_map.mp hc
    rw [hdigit d hd]
    exact h d hd
  have hall : (ds.map digitChar).takeWhile (fun c => digitOf c < base) = ds.map digitChar :=
    List.takeWhile_eq_self_iff.mpr fun c hc => decide_eq_true (hlt c hc)
  rw [readIn,skip0x_digits hlt,hall,List.map_map]
  congr 1
  calc
    ds.map (digitOf ∘ digitChar) = ds.map id := List.map_congr_left hdigit
    _ = ds := List.map_id ds

theorem readSigned_numeral (hb : 2 ≤ base) (hb36 : base ≤ 36) (x : ℤ) :
    readSigned base (numeral base x) = (decide (x < 0),x.natAbs) := by
  have hlt : ∀ d ∈ Numeral.digits base x.natAbs, d < base := fun d hd => Numeral.digits_lt hb hd
  have hread := readIn_digits hb36 hlt
  rw [Numeral.value_digits] at hread
  rw [readSigned,numeral]
  split_ifs with hx
  · have hminus : isspace (ch '-') = false := rfl
    rw [List.singleton_append,List.dropWhile_cons_of_neg (by simp [hminus])]
    simp [hread,hx]
  · obtain ⟨d,ds,hcons⟩ := List.exists_cons_of_ne_nil (Numeral.digits_ne_nil base x.natAbs)
    rw [hcons,List.map_cons] at hread ⊢
    have hd : d < 36 := (hlt d (by simp [hcons])).trans_le hb36
    obtain ⟨hspace,hm,hp⟩ := plain_of_digitOf (c := digitChar d) (by rw [digitOf_digitChar hd]; exact hd)
    rw [List.nil_append,List.dropWhile_cons_of_neg (by simp [hspace])]
    simp [hread,hx,hm,hp]

/-- `strtol` reads a numeral back. -/
theorem strtolIn_numeral (hb : 2 ≤ base) (hb36 : base ≤ 36) (hx : -2^63 ≤ x ∧ x < 2^63) :
    strtolIn .eight base (numeral base x) = x := by
  have hbase : ¬(base < 2 ∨ 36 < base) := by omega
  have hbits : LongSize.eight.bits = 64 := rfl
  simp only [strtolIn,if_neg hbase,readSigned_numeral hb hb36,hbits,decide_eq_true_eq]
  split_ifs <;> omega

theorem strtoulIn_numeral (w : LongSize) (hb : 2 ≤ base) (hb36 : base ≤ 36) {n : ℕ} (hn : n < 2^w.bits) :
    strtoulIn w base (numeral base n) = n := by
  have hbase : ¬(base < 2 ∨ 36 < base) := by omega
  have hneg : ¬(n : ℤ) < 0 := by omega
  have hlt : ¬2^w.bits ≤ n := not_le.mpr hn
  simp only [strtoulIn,if_neg hbase,readSigned_numeral hb hb36,if_neg hlt,hneg,decide_false,Int.natAbs_natCast]
  rfl

end

/-- A call writes the numeral of a number, which `strtol` reads back. -/
def Printed (radix : ℕ) (r : Except Fault Bytes) (x : ℤ) : Prop :=
  r = .ok (numeral radix x) ∧ strtolIn .eight radix (numeral radix x) = x

/-- What is printed is read back. -/
def ParsesBack (r : Except Fault Bytes) (x : ℤ) : Prop := ∃ text, r = .ok text ∧ strtolIn .eight 10 text = x

/-- The numeral needs no letters. -/
def Lettered (radix : ℕ) (x : ℤ) : Prop := ∃ d ∈ Numeral.digits radix x.natAbs, 10 ≤ d

section
variable {radix room : ℕ} {neg : ℤ → ℤ} {x : ℤ}

theorem Printed.parsesBack {r : Except Fault Bytes} (h : Printed 10 r x) : ParsesBack r x := ⟨_,h⟩

theorem toaBody_iff (hr : 2 ≤ radix) (hr36 : radix ≤ 36) (n : ℕ) :
    toaBody decChar radix room n = .ok ((Numeral.digits radix n).map digitChar) ↔
      ¬Lettered radix n ∧ (Numeral.digits radix n).length < room := by
  have hbody := toaBody_eq decChar room n hr (.inl rfl) rfl
  simp only [one_mul] at hbody
  have hdigit : (∀ d ∈ Numeral.digits radix n, decChar d = digitChar d) ↔ ¬Lettered radix n := by
    rw [Lettered,Int.natAbs_natCast]
    push Not
    exact forall₂_congr fun d hd => decChar_eq_iff ((Numeral.digits_lt hr hd).trans_le hr36)
  rw [hbody,← hdigit]
  split_ifs with h
  · simp [h]
  · simp [h]

/-- The least number of its type stays negative, and its digits do too. -/
theorem toaBody_neg_ne (hr : 2 ≤ radix) (hr36 : radix ≤ 36) {n : ℕ} (hn : n ≠ 0) :
    toaBody decChar radix room (-n) ≠ .ok ((Numeral.digits radix n).map digitChar) := by
  have hbody := toaBody_eq decChar room n hr (.inr rfl) rfl
  simp only [neg_one_mul] at hbody
  rw [hbody]
  split_ifs with h
  · intro heq
    have hmap := List.map_inj_left.mp (Except.ok.inj heq)
    have hzero : ∀ d ∈ Nat.digits radix n, d = 0 := by
      intro d hd
      have hmem : d ∈ Numeral.digits radix n := by
        rw [Numeral.digits_of_ne hn]
        exact List.mem_reverse.mpr hd
      exact (decChar_neg_eq_iff ((Numeral.digits_lt hr hmem).trans_le hr36)).mp (hmap d hmem)
    exact Nat.getLast_digit_ne_zero radix hn (hzero _ (List.getLast_mem _))
  · exact nofun

theorem map_eq_ok {α β : Type} {f : α → β} (hf : Function.Injective f) {r : Except Fault α} {t : α} :
    r.map f = .ok (f t) ↔ r = .ok t := by
  cases r with
  | error e => exact iff_of_false nofun nofun
  | ok t' => simp [Except.map,hf.eq_iff]

theorem map_cons_eq_ok {r : Except Fault Bytes} {c : Byte} {text : Bytes} :
    r.map (c::·) = .ok (c::text) ↔ r = .ok text := map_eq_ok (List.cons_injective)

/-- A signed number is printed if its negation is right, it needs no letters and there is room. -/
theorem toa_iff (hr : 2 ≤ radix) (hr36 : radix ≤ 36) (hneg : x < 0 → neg x = -x ∨ neg x = x) :
    toa decChar neg radix room x = .ok (numeral radix x) ↔
      (x < 0 → neg x = -x) ∧ ¬Lettered radix x ∧ (numeral radix x).length < room := by
  have habs : ¬Lettered radix x.natAbs ↔ ¬Lettered radix x := by rw [Lettered,Int.natAbs_natCast,Lettered]
  by_cases hx : x < 0
  · have hnum : numeral radix x = ch '-'::(Numeral.digits radix x.natAbs).map digitChar := by
      rw [numeral,if_pos hx]
      rfl
    cases room with
    | zero => simp [toa,hx]
    | succ room =>
      simp only [toa,hx,if_true,hnum,map_cons_eq_ok,List.length_cons,List.length_map,Nat.add_lt_add_iff_right,
        forall_const]
      obtain h | h := hneg hx
      · have hn : neg x = x.natAbs := by omega
        rw [hn,toaBody_iff hr hr36,habs]
        have hn : (x.natAbs : ℤ) = -x := by omega
        simp [hn]
      · have hn : neg x = -x.natAbs := by omega
        have hne : ¬(-(x.natAbs : ℤ) = -x) := by omega
        rw [hn]
        exact iff_of_false (toaBody_neg_ne hr hr36 (by omega)) fun h => hne h.1
  · have hnum : numeral radix x = (Numeral.digits radix x.natAbs).map digitChar := by
      rw [numeral,if_neg hx]
      rfl
    have hn : x = x.natAbs := by omega
    unfold toa
    rw [if_neg hx,hnum,List.length_map]
    conv_lhs => rw [hn]
    rw [Int.natAbs_natCast,toaBody_iff hr hr36,habs]
    simp [hx]

theorem emod_radix (w : LongSize) (hr36 : radix ≤ 36) : (radix : ℤ).emod (2^w.bits) = radix := by
  apply Int.emod_eq_of_lt (Int.natCast_nonneg _)
  cases w <;> norm_num [LongSize.bits,LongSize.bytes] <;> omega

/-- An unsigned number is printed if there is room. -/
theorem ultoaIn_iff (hr : 2 ≤ radix) (hr36 : radix ≤ 36) (w : LongSize) (n : ℕ) :
    ultoaIn w radix room n = .ok (numeral radix n) ↔ (numeral radix n).length < room := by
  have hbody := toaBody_eq anyChar room n hr (.inl rfl) rfl
  have hdigits : ((Numeral.digits radix n).map fun d : ℕ => anyChar d) = (Numeral.digits radix n).map digitChar :=
    List.map_congr_left fun d hd => anyChar_eq ((Numeral.digits_lt hr hd).trans_le hr36)
  have hnum : numeral radix n = (Numeral.digits radix n).map digitChar := by
    rw [numeral,if_neg (by omega),Int.natAbs_natCast]
    rfl
  simp only [one_mul] at hbody
  rw [ultoaIn,emod_radix w hr36,hbody,hdigits,hnum,List.length_map]
  split_ifs with h
  · simp [h]
  · simp [h]

/-- The negation of a signed type is right for all of its numbers but the least. -/
theorem neg_bmod {m M : ℕ} (hM : M = 2*m) (hx : -m ≤ x ∧ x < m) :
    ((-x).bmod M = -x ∨ (-x).bmod M = x) ∧ ((-x).bmod M = -x ↔ x ≠ -m) := by
  by_cases hmin : x = -m
  · have hself : (-x).bmod M = x := by
      rw [Int.bmod_def,hmin,neg_neg,Int.emod_eq_of_lt (by omega) (by omega)]
      split_ifs <;> omega
    rw [hself]
    omega
  · have hneg : (-x).bmod M = -x := Int.bmod_eq_of_le (by omega) (by omega)
    exact ⟨.inl hneg,iff_of_true hneg hmin⟩

/-- A number of a signed type is printed unless it is the least, needs letters or has no room. -/
theorem printed_toa {m M : ℕ} (hr : 2 ≤ radix) (hr36 : radix ≤ 36) (hM : M = 2*m) (hm : m ≤ 2^63)
    (hx : -m ≤ x ∧ x < m) : Printed radix (toa decChar (fun x => (-x).bmod M) radix room x) x ↔
      x ≠ -m ∧ ¬Lettered radix x ∧ (numeral radix x).length < room := by
  obtain ⟨hcases,hiff⟩ := neg_bmod hM hx
  have hread := strtolIn_numeral (x := x) hr hr36 ⟨by omega,by omega⟩
  rw [Printed,and_iff_left hread,toa_iff hr hr36 fun _ => hcases,hiff]
  refine and_congr_left fun _ => ⟨fun h => ?_,fun h _ => h⟩
  by_cases hneg : x < 0
  · exact h hneg
  · omega

theorem itoaIn_iff (hr : 2 ≤ radix) (hr36 : radix ≤ 36) (i : Int32) :
    Printed radix (itoaIn radix room i) i.toInt ↔
      i.toInt ≠ -2^31 ∧ ¬Lettered radix i.toInt ∧ (numeral radix i.toInt).length < room :=
  printed_toa (m := 2^31) hr hr36 rfl (by decide) ⟨i.le_toInt,i.toInt_lt⟩

theorem ltoaIn_iff (hr : 2 ≤ radix) (hr36 : radix ≤ 36) (l : Int64) :
    Printed radix (ltoaIn radix room l) l.toInt ↔
      l.toInt ≠ -2^63 ∧ ¬Lettered radix l.toInt ∧ (numeral radix l.toInt).length < room :=
  printed_toa (m := 2^63) hr hr36 rfl le_rfl ⟨l.le_toInt,l.toInt_lt⟩

/-- Decimal numerals of a `long` are short, and have no letters. -/
theorem decimal_numeral (hx : -2^64 < x ∧ x < 2^64) : ¬Lettered 10 x ∧ (numeral 10 x).length < 33 := by
  constructor
  · rintro ⟨d,hd,hten⟩
    have hlt : d < 10 := Numeral.digits_lt (by decide) hd
    omega
  · have hlen : (Numeral.digits 10 x.natAbs).length ≤ 20 :=
      Numeral.length_digits_le (by decide) (by decide) (by omega)
    rw [numeral,List.length_append,List.length_map]
    split_ifs <;> simp <;> omega

theorem putUInt_printed (k : UInt32) : Printed 10 (putUInt .eight k) k.toNat := by
  have hk : k.toNat < 2^32 := k.toNat_lt
  obtain ⟨-,hlen⟩ := decimal_numeral (x := k.toNat) ⟨by omega,by omega⟩
  exact ⟨(ultoaIn_iff (by decide) (by decide) .eight k.toNat).mpr hlen,
    strtolIn_numeral (by decide) (by decide) ⟨by omega,by omega⟩⟩

/-- The least numbers are printed without a digit, which is read as zero. -/
theorem put_min : putInt Int32.minValue = .ok (str "-./,),(-*,(") ∧
    putLong Int64.minValue = .ok (str "-'..--).0-*(+,))+(0(") := ⟨rfl,rfl⟩

theorem strtolIn_min : strtolIn .eight 10 (str "-./,),(-*,(") = 0 ∧
    strtolIn .eight 10 (str "-'..--).0-*(+,))+(0(") = 0 := ⟨rfl,rfl⟩

theorem putInt_iff (i : Int32) : ParsesBack (putInt i) i.toInt ↔ i.toInt ≠ -2^31 := by
  have hmem : -2^31 ≤ i.toInt ∧ i.toInt < 2^31 := ⟨i.le_toInt,i.toInt_lt⟩
  constructor
  · rintro ⟨text,htext,hread⟩ hmin
    have hi : i = Int32.minValue := Int32.toInt_inj.mp hmin
    rw [hi,put_min.1] at htext
    rw [← Except.ok.inj htext,strtolIn_min.1] at hread
    omega
  · intro hmin
    have h := decimal_numeral (x := i.toInt) ⟨by omega,by omega⟩
    exact Printed.parsesBack ((itoaIn_iff (by decide) (by decide) i).mpr ⟨hmin,h⟩)

/-- The digits in decimal, as the loop of `itoa` puts them in front. -/
theorem itoaLoop_eq {sign : ℤ} (hsign : sign = 1 ∨ sign = -1) {fuel n : ℕ} (hn : n < 10^fuel) (text : Bytes) :
    itoaLoop fuel (sign*n) text = ((Nat.digits 10 n).reverse.map fun d : ℕ => decChar (sign*d)) ++ text := by
  induction fuel generalizing n text with
  | zero =>
    obtain rfl : n = 0 := by
      rw [pow_zero] at hn
      omega
    rfl
  | succ fuel ih =>
    by_cases hz : n = 0
    · subst hz
      simp [itoaLoop]
    · have hne : sign*n ≠ 0 := by
        obtain rfl | rfl := hsign <;> omega
      obtain ⟨hquot,hrem⟩ := sign_div_mod hsign n 10
      have hq : n/10 < 10^fuel := by
        rw [pow_succ] at hn
        omega
      have hdigits : Nat.digits 10 n = n % 10::Nat.digits 10 (n/10) :=
        Nat.digits_def' (by decide) (Nat.pos_of_ne_zero hz)
      rw [itoaLoop,if_neg hne]
      change itoaLoop fuel ((sign*n).tdiv (10 : ℕ)) (decChar ((sign*n).tmod (10 : ℕ))::text) = _
      rw [hquot,hrem,ih hq,hdigits,List.reverse_cons,List.map_append,List.append_assoc]
      rfl

/-- `PutN(int)` prints what `itoa` was taken to print in decimal. -/
theorem putInt_eq (i : Int32) : putInt i = .ok (itoa i.toInt) := by
  have hmem : -2^31 ≤ i.toInt ∧ i.toInt < 2^31 := ⟨i.le_toInt,i.toInt_lt⟩
  have hself : int32 i.toInt = i.toInt := int32_of_mem hmem
  by_cases hmin : i.toInt = -2^31
  · have hi : i = Int32.minValue := Int32.toInt_inj.mp hmin
    rw [hi,put_min.1]
    rfl
  · have hloop {n : ℕ} (hn : n < 10^10) (hz : n ≠ 0) :
        itoaLoop 10 n [] = (Numeral.digits 10 n).map digitChar := by
      have h := itoaLoop_eq (.inl rfl) hn []
      simp only [one_mul] at h
      rw [h,List.append_nil,Numeral.digits_of_ne hz]
      exact List.map_congr_left fun d hd => by
        have hlt : d < 10 := Nat.digits_lt_base (by decide) (List.mem_reverse.mp hd)
        exact (decChar_eq_iff (by omega)).mpr hlt
    have hprint := ((itoaIn_iff (by decide) (by decide) i).mpr
      ⟨hmin,decimal_numeral (x := i.toInt) ⟨by omega,by omega⟩⟩).1
    have hneg : int32 (-i.toInt) = -i.toInt := int32_of_mem ⟨by omega,by omega⟩
    rw [putInt]
    refine hprint.trans (congrArg Except.ok ?_)
    unfold itoa
    simp only [hself,hneg,numeral]
    split_ifs with hlt hz
    · have hn : -i.toInt = i.toInt.natAbs := by omega
      rw [hn,hloop (by omega) (by omega)]
      rfl
    · rw [hz]
      rfl
    · have hn : i.toInt = i.toInt.natAbs := by omega
      conv_rhs => rw [hn]
      rw [hloop (by omega) (by omega)]
      rfl

theorem putLong_iff (l : Int64) : ParsesBack (putLong l) l.toInt ↔ l.toInt ≠ -2^63 := by
  have hmem : -2^63 ≤ l.toInt ∧ l.toInt < 2^63 := ⟨l.le_toInt,l.toInt_lt⟩
  constructor
  · rintro ⟨text,htext,hread⟩ hmin
    have hl : l = Int64.minValue := Int64.toInt_inj.mp hmin
    rw [hl,put_min.2] at htext
    rw [← Except.ok.inj htext,strtolIn_min.2] at hread
    omega
  · intro hmin
    have h := decimal_numeral (x := l.toInt) ⟨by omega,by omega⟩
    exact Printed.parsesBack ((ltoaIn_iff (by decide) (by decide) l).mpr ⟨hmin,h⟩)

/-- `strtol` reads an unsigned number back if it is a `long`. -/
theorem strtolIn_unsigned_iff (hr : 2 ≤ radix) (hr36 : radix ≤ 36) (n : ℕ) :
    strtolIn .eight radix (numeral radix n) = n ↔ n < 2^63 := by
  constructor
  · intro h
    have hbase : ¬(radix < 2 ∨ 36 < radix) := by omega
    have hneg : ¬(n : ℤ) < 0 := by omega
    have hbits : LongSize.eight.bits = 64 := rfl
    simp only [strtolIn,if_neg hbase,readSigned_numeral hr hr36,hbits,hneg,decide_false] at h
    by_contra hn
    simp at h
    omega
  · intro hn
    exact strtolIn_numeral hr hr36 ⟨by omega,by omega⟩

/-- The number printers, each with the numbers that it prints right. -/
theorem printed_iff (hr : 2 ≤ radix) (hr36 : radix ≤ 36) (room : ℕ) (i : Int32) (l : Int64) (u : UInt64)
    (k : UInt32) :
    (Printed radix (itoaIn radix room i) i.toInt ↔
      i.toInt ≠ -2^31 ∧ ¬Lettered radix i.toInt ∧ (numeral radix i.toInt).length < room) ∧
    (Printed radix (ltoaIn radix room l) l.toInt ↔
      l.toInt ≠ -2^63 ∧ ¬Lettered radix l.toInt ∧ (numeral radix l.toInt).length < room) ∧
    (ultoaIn .eight radix room u.toNat = .ok (numeral radix u.toNat) ↔ (numeral radix u.toNat).length < room) ∧
    strtoulIn .eight radix (numeral radix u.toNat) = u.toNat ∧
    (strtolIn .eight radix (numeral radix u.toNat) = u.toNat ↔ u.toNat < 2^63) ∧
    (ParsesBack (putInt i) i.toInt ↔ i.toInt ≠ -2^31) ∧
    (ParsesBack (putLong l) l.toInt ↔ l.toInt ≠ -2^63) ∧
    ParsesBack (putUInt .eight k) k.toNat := by
  refine ⟨itoaIn_iff hr hr36 i,ltoaIn_iff hr hr36 l,ultoaIn_iff hr hr36 .eight _,?_,?_,?_,?_,?_⟩
  · exact strtoulIn_numeral .eight hr hr36 u.toNat_lt
  · exact strtolIn_unsigned_iff hr hr36 u.toNat
  · exact putInt_iff i
  · exact putLong_iff l
  · exact (putUInt_printed k).parsesBack

end

theorem printed_hex : Printed 16 (itoaIn 16 66 4660) 4660 := by
  have hdigits : Numeral.digits 16 4660 = [1,2,3,4] := by
    rw [Numeral.digits_of_ne (by decide)]
    norm_num
  refine (printed_iff (by decide) (by decide) 66 4660 0 0 0).1.mpr ⟨by decide,?_,?_⟩
  · rintro ⟨d,hd,hten⟩
    change d ∈ Numeral.digits 16 4660 at hd
    simp only [hdigits,List.mem_cons,List.not_mem_nil,or_false] at hd
    omega
  · change ((Numeral.digits 16 4660).map digitChar).length < 66
    rw [hdigits]
    decide

/-- 255 in radix 16 comes out as `??`, and the least `int` is not read back. -/
theorem not_printed : ¬∀ radix : ℕ, 2 ≤ radix → radix ≤ 36 → ∀ i : Int32,
    Printed radix (itoaIn radix 66 i) i.toInt ∧ ParsesBack (putInt i) i.toInt := by
  intro h
  have hex := (h 16 (by decide) (by decide) 255).1.1
  exact absurd hex (by decide)

end Smx
