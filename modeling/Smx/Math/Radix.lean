import Smx.Base.Error
import Smx.Math.Itoa

/-! `%radix`, `%hex`, `%oct` and `%bin`: numbers in another radix. -/
namespace Smx
open Numeral

/-- `EvalRadix` on a text, a radix and a base, with `char tmp[sizeof(long) + 2]`; an empty argument is a
null pointer for `strtoul`. -/
def evalRadix (w : LongSize) (s : Bytes) (r b : ℤ) : Except Fault (Except CtxEx Bytes) :=
  if b ≤ 0 then .ok (.error ⟨649,str "Radix base must be > 0"⟩)
  else
    match getBuffer s with
    | none => .error .null
    | some s => (ultoaIn w r (w.bytes+2) (strtoulIn w b.toNat s)).map .ok

/-- `%radix`. -/
def evalRadixArgs (w : LongSize) (args : List Bytes) : Except Fault (Except CtxEx Bytes) :=
  match validArgc "radix" 3 3 args.length with
  | some ex => .ok (.error ex)
  | none => evalRadix w (args.getD 0 []) (atoi (args.getD 1 [])) (atoi (args.getD 2 []))

/-- `%hex`. -/
def evalHex (w : LongSize) (args : List Bytes) : Except Fault (Except CtxEx Bytes) :=
  evalRadix w (args.getD 0 []) 16 (atoi (args.getD 1 []))

/-- `%oct`. -/
def evalOct (w : LongSize) (args : List Bytes) : Except Fault (Except CtxEx Bytes) :=
  evalRadix w (args.getD 0 []) 8 (atoi (args.getD 1 []))

/-- `%bin`. -/
def evalBin (w : LongSize) (args : List Bytes) : Except Fault (Except CtxEx Bytes) :=
  evalRadix w (args.getD 0 []) 2 (atoi (args.getD 1 []))

/-- There is a numeral for the number: zero always has one, any other number needs a radix of two or more,
and digits for which there are characters. -/
def HasNumeral (r : ℤ) (n : ℕ) : Prop := n = 0 ∨ 2 ≤ r ∧ ∀ d ∈ digits r.toNat n, d < 36

/-- An error is thrown, or the numeral of the value that `strtoul` reads is printed. -/
def Converted (w : LongSize) (s : Bytes) (r b : ℤ) (res : Except Fault (Except CtxEx Bytes)) : Prop :=
  (∃ ex, res = .ok (.error ex)) ∨
    HasNumeral r (strtoulIn w b.toNat s) ∧ res = .ok (.ok (numeral r.toNat (strtoulIn w b.toNat s)))

/-- The base is refused, or there is a text, and its numeral fits into the buffer. -/
def Convertible (w : LongSize) (s : Bytes) (r b : ℤ) : Prop :=
  b ≤ 0 ∨ s ≠ [] ∧ HasNumeral r (strtoulIn w b.toNat s) ∧
    (digits r.toNat (strtoulIn w b.toNat s)).length ≤ w.bytes+1

section
variable {w : LongSize} {s : Bytes} {r b : ℤ} {room n : ℕ}

theorem emod_int (w : LongSize) (h0 : 0 ≤ r) (hr : r < 2^31) : r.emod (2^w.bits) = r := by
  apply Int.emod_eq_of_lt h0
  cases w <;> norm_num [LongSize.bits,LongSize.bytes] <;> omega

/-- `ultoa` prints a number that has a numeral if there is room. -/
theorem ultoaIn_numeral (hr : r < 2^31) (h : HasNumeral r n) (hroom : 2 ≤ room) :
    ultoaIn w r room n = .ok (numeral r.toNat n) ↔ (digits r.toNat n).length < room := by
  obtain rfl | ⟨h2,h36⟩ := h
  · simp only [ultoaIn,toaBody,Nat.cast_zero,if_true,if_pos hroom,digits_zero,List.length_singleton]
    exact iff_of_true rfl hroom
  · obtain ⟨k,rfl⟩ := Int.eq_ofNat_of_zero_le (le_trans (by decide) h2)
    have hbody := @toaBody_eq k 1 anyChar room n (by omega) (.inl rfl) rfl
    have hdigits : ((digits k n).map fun d : ℕ => anyChar d) = (digits k n).map digitChar :=
      List.map_congr_left fun d hd => anyChar_eq (h36 d hd)
    have hnum : numeral k n = (digits k n).map digitChar := by
      rw [numeral,if_neg (by omega),Int.natAbs_natCast]
      rfl
    simp only [one_mul] at hbody
    rw [ultoaIn,emod_int w (Int.natCast_nonneg k) hr,hbody,hdigits,Int.toNat_natCast,hnum]
    split_ifs with h
    · simp [h]
    · simp [h]

/-- A conversion is right if and only if the text is convertible. -/
theorem converted_iff (hr : r < 2^31) : Converted w s r b (evalRadix w s r b) ↔ Convertible w s r b := by
  by_cases hb : b ≤ 0
  · exact iff_of_true (.inl ⟨_,if_pos hb⟩) (.inl hb)
  · by_cases hs : s = []
    · have hnull : evalRadix w s r b = .error .null := by rw [evalRadix,if_neg hb,getBuffer,if_pos hs]
      rw [Converted,Convertible,hnull]
      simp [hb,hs]
    · have heval : evalRadix w s r b = (ultoaIn w r (w.bytes+2) (strtoulIn w b.toNat s)).map .ok := by
        rw [evalRadix,if_neg hb,getBuffer,if_neg hs]
      rw [Converted,Convertible,heval,or_iff_right hb,and_iff_right hs]
      generalize strtoulIn w b.toNat s = n
      constructor
      · rintro (⟨ex,hex⟩ | ⟨hnum,htext⟩)
        · cases h : ultoaIn w r (w.bytes+2) n <;> simp [h,Except.map] at hex
        · have hok := (map_eq_ok fun _ _ => Except.ok.inj).mp htext
          exact ⟨hnum,Nat.lt_succ_iff.mp ((ultoaIn_numeral (w := w) hr hnum (by omega)).mp hok)⟩
      · rintro ⟨hnum,hlen⟩
        refine .inr ⟨hnum,?_⟩
        rw [(ultoaIn_numeral hr hnum (by omega)).mpr (Nat.lt_succ_iff.mpr hlen)]
        rfl

theorem atoi_lt (s : Bytes) : atoi s < 2^31 := (int32_mem _).2

/-- The built-ins, each with the arguments for which it is right. -/
theorem evalRadix_iff (w : LongSize) (args : List Bytes) :
    (Converted w (args.getD 0 []) (atoi (args.getD 1 [])) (atoi (args.getD 2 [])) (evalRadixArgs w args) ↔
      args.length ≠ 3 ∨
        Convertible w (args.getD 0 []) (atoi (args.getD 1 [])) (atoi (args.getD 2 []))) ∧
    (Converted w (args.getD 0 []) 16 (atoi (args.getD 1 [])) (evalHex w args) ↔
      Convertible w (args.getD 0 []) 16 (atoi (args.getD 1 []))) ∧
    (Converted w (args.getD 0 []) 8 (atoi (args.getD 1 [])) (evalOct w args) ↔
      Convertible w (args.getD 0 []) 8 (atoi (args.getD 1 []))) ∧
    (Converted w (args.getD 0 []) 2 (atoi (args.getD 1 [])) (evalBin w args) ↔
      Convertible w (args.getD 0 []) 2 (atoi (args.getD 1 []))) := by
  refine ⟨?_,converted_iff (by decide),converted_iff (by decide),converted_iff (by decide)⟩
  rw [evalRadixArgs]
  cases hargc : validArgc "radix" 3 3 args.length with
  | some ex =>
    refine iff_of_true (.inl ⟨ex,rfl⟩) (.inl fun hlen => ?_)
    rw [hlen] at hargc
    cases hargc
  | none =>
    have hlen : args.length = 3 := by
      have h := (validArgc_eq_none ..).mp hargc
      omega
    rw [or_iff_right (not_not.mpr hlen)]
    exact converted_iff (atoi_lt _)

end

/-- Ten binary digits do not fit, radix zero divides by zero, radix one does not end within the buffer, and
an empty text is a null pointer. -/
theorem evalRadix_faults :
    evalRadixArgs .eight [str "1023",str "2",str "10"] = .error .overrun ∧
    evalRadixArgs .eight [str "5",str "0",str "10"] = .error .divZero ∧
    evalRadixArgs .eight [str "5",str "1",str "10"] = .error .overrun ∧
    evalHex .eight [[],str "10"] = .error .null := ⟨rfl,rfl,rfl,rfl⟩

theorem not_converted : ¬∀ args : List Bytes, Converted .eight (args.getD 0 []) (atoi (args.getD 1 []))
    (atoi (args.getD 2 [])) (evalRadixArgs .eight args) := by
  intro h
  have hbin := h [str "1023",str "2",str "10"]
  rw [evalRadix_faults.1] at hbin
  obtain ⟨ex,hex⟩ | ⟨-,htext⟩ := hbin
  · cases hex
  · cases htext

end Smx
