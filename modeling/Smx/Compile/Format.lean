import Smx.Lib.LittleEndian
import Smx.Parse.Host

/-! The records of compiled code: `C_BASE`, `C_ARGS` and `C_ARG` as they lie in memory. The
two padding bytes of `C_BASE` are written as 0. -/
namespace Smx
open LittleEndian

/-- `CMAGIC_V1`, which `%compile` puts before the code. -/
def CMAGIC_V1 : Bytes := [0xF2,0x1A,0x08,0xE2]

def BC_FUNC : Byte := 1
def BC_OUT : Byte := 2

def ArgType.code : ArgType → ℕ
  | .str => 0
  | .qstr => 1
  | .cmp => 2

def ArgType.ofCode (n : ℕ) : ArgType := if n = 1 then .qstr else if n = 2 then .cmp else .str

@[simp] theorem ArgType.ofCode_code (t : ArgType) : ofCode t.code = t := by cases t <;> rfl

theorem ArgType.code_lt (t : ArgType) : t.code < 4 := by cases t <;> decide

/-- `if (b.rn) … p[j] ^ b.rn`. -/
def mask (rn : Byte) (bs : Bytes) : Bytes := if rn = 0 then bs else bs.map (· ^^^ rn)

@[simp] theorem length_mask (rn : Byte) (bs : Bytes) : (mask rn bs).length = bs.length := by
  unfold mask
  split_ifs <;> simp

@[simp] theorem mask_mask (rn : Byte) (bs : Bytes) : mask rn (mask rn bs) = bs := by
  unfold mask
  split_ifs with h
  · rfl
  · simp [Function.comp_def,UInt8.xor_assoc]

/-- A `C_BASE` record in front of `ln` bytes. -/
def baseBytes (bc rn : Byte) (ln : ℕ) : Bytes := bc::rn::0::0::toLE 4 ln

def countBytes (cnt : ℕ) : Bytes := toLE 2 cnt

/-- A `C_ARG` record: two bits of kind and thirty of length. -/
def argBytes (at' : ArgType) (ln : ℕ) : Bytes := toLE 4 (at'.code+4*(ln % 2^30))

structure Base where
  bc : Byte
  rn : Byte
  ln : ℤ

def readBase : Bytes → Option (Base × Bytes)
  | bc::rn::_::_::l0::l1::l2::l3::rest => some (⟨bc,rn,signed 32 (ofLE [l0,l1,l2,l3])⟩,rest)
  | _ => none

def readCount : Bytes → Option (ℤ × Bytes)
  | c0::c1::rest => some (signed 16 (ofLE [c0,c1]),rest)
  | _ => none

/-- An argument with its record; `none` when the input is too short for it. -/
def readArg (rn : Byte) : Bytes → Option (ArgType × Bytes × Bytes)
  | a0::a1::a2::a3::rest =>
    let a := ofLE [a0,a1,a2,a3]
    if rest.length < a/4 then none
    else some (.ofCode (a % 4),mask rn (rest.take (a/4)),rest.drop (a/4))
  | _ => none

theorem readBase_baseBytes (bc rn : Byte) {ln : ℕ} (h : ln < 2^31) (rest : Bytes) :
    readBase (baseBytes bc rn ln ++ rest) = some (⟨bc,rn,ln⟩,rest) := by
  have hle := ofLE_toLE_of_lt (k := 4) (n := ln) (by omega)
  simp only [toLE] at hle
  simp [baseBytes,toLE,readBase,hle,signed_of_lt 32 h]

theorem readCount_countBytes {cnt : ℕ} (h : cnt < 2^15) (rest : Bytes) :
    readCount (countBytes cnt ++ rest) = some ((cnt : ℤ),rest) := by
  have hle := ofLE_toLE_of_lt (k := 2) (n := cnt) (by omega)
  simp only [toLE] at hle
  simp [countBytes,toLE,readCount,hle,signed_of_lt 16 h]

theorem readArg_argBytes (rn : Byte) (at' : ArgType) {code : Bytes} (h : code.length < 2^30)
    (rest : Bytes) :
    readArg rn (argBytes at' code.length ++ mask rn code ++ rest) = some (at',code,rest) := by
  have hcode := at'.code_lt
  have hmod : code.length % 2^30 = code.length := Nat.mod_eq_of_lt h
  have hle := ofLE_toLE_of_lt (k := 4) (n := at'.code+4*code.length) (by omega)
  have hdiv : (at'.code+4*code.length)/4 = code.length := by omega
  have hkind : (at'.code+4*code.length) % 4 = at'.code := by omega
  simp only [toLE] at hle
  simp only [argBytes,hmod,toLE,List.cons_append,List.nil_append,readArg,hle,hdiv,hkind]
  have hlen : (mask rn code).length = code.length := length_mask rn code
  rw [if_neg (by simp),List.take_left' hlen,List.drop_left' hlen,mask_mask,ArgType.ofCode_code]

end Smx
