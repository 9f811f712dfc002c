import Mathlib.Data.List.DropRight
import Mathlib.Tactic.Common

/-! Byte strings and the character classes of the C source. `char` is signed, so the
byte 0xFF and the end of input are one value: `GetC` returns -1 for both. -/
namespace Smx

abbrev Byte := UInt8
/-- The contents of a `CStr`: any bytes, NUL included. -/
abbrev Bytes := List UInt8

def ch (c : Char) : Byte := UInt8.ofNat c.toNat
def str (s : String) : Bytes := s.toList.map ch

/-- What `GetC` returns at the end of the input, and for the byte 0xFF. -/
def EOF : Byte := 0xFF

def T_PCT : Byte := ch '%'
def T_ESC : Byte := ch '\\'
def T_SQ : Byte := ch '\''
def T_DQ : Byte := ch '"'
def T_LP : Byte := ch '('
def T_RP : Byte := ch ')'
def T_LC : Byte := ch '{'
def T_RC : Byte := ch '}'
def T_COMMA : Byte := ch ','

/-- `isspace` in the C locale: blank, tab, line feed, vertical tab, form feed, return. -/
def isspace (c : Byte) : Bool := c == 32 || (9 ≤ c && c ≤ 13)

/-- `tolower` in the C locale. -/
def tolower (c : Byte) : Byte := if 65 ≤ c ∧ c ≤ 90 then c + 32 else c

/-- First character of a macro name. -/
def isqsymf (c : Byte) : Bool := (T_RP < c && c < ch ';') || (ch '?' < c && c < T_LC)
/-- Any later character of a macro name. -/
def isqsym (c : Byte) : Bool := T_RP < c && c < 127

/-- One `GetC` on a read buffer: the character and what is left. -/
def getC : Bytes → Byte × Bytes
  | [] => (EOF,[])
  | c::inp => (c,inp)

@[simp] theorem getC_nil : getC [] = (EOF,[]) := rfl
@[simp] theorem getC_cons (c : Byte) (inp : Bytes) : getC (c::inp) = (c,inp) := rfl

theorem getC_length_le (inp : Bytes) : (getC inp).2.length ≤ inp.length := by
  cases inp <;> simp

/-- A character other than the end of input was really taken from it. -/
theorem getC_length_lt {inp : Bytes} (h : (getC inp).1 ≠ EOF) :
    (getC inp).2.length < inp.length := by
  cases inp with
  | nil => simp at h
  | cons c inp => simp

/-- `while (isspace(c = GetC()));`: the first character that is not a blank. -/
def skipSpace : Bytes → Byte × Bytes
  | [] => (EOF,[])
  | c::inp => if isspace c then skipSpace inp else (c,inp)

theorem skipSpace_length_le (inp : Bytes) : (skipSpace inp).2.length ≤ inp.length := by
  induction inp with
  | nil => simp [skipSpace]
  | cons c inp ih =>
    simp only [skipSpace]
    split
    · exact Nat.le_succ_of_le ih
    · exact Nat.le_succ _

theorem skipSpace_of_not_isspace {c : Byte} (h : isspace c = false) (inp : Bytes) :
    skipSpace (c::inp) = (c,inp) := by simp [skipSpace,h]

/-- A fact about all bytes can be checked number by number. -/
theorem forall_byte {P : Byte → Prop} (h : ∀ n : Fin 256, P (UInt8.ofNat n)) (u : Byte) : P u := by
  have hu := h ⟨u.toNat,u.toNat_lt⟩
  rwa [UInt8.ofNat_toNat] at hu

/-- The C string a `char *` shows: the bytes before the first NUL. -/
def cstr (s : Bytes) : Bytes := s.takeWhile (· != 0)

theorem cstr_of_nul_free {s : Bytes} (h : 0 ∉ s) : cstr s = s := by
  apply List.takeWhile_eq_self_iff.mpr
  intro c hc
  simpa using ne_of_mem_of_not_mem hc h

theorem nul_not_mem_cstr (s : Bytes) : 0 ∉ cstr s := by
  intro h
  simpa using List.mem_takeWhile_imp h

/-- A text with a NUL is the C string, the NUL and what stands behind it. -/
theorem exists_of_nul_mem {s : Bytes} (h : 0 ∈ s) : ∃ r, s = cstr s ++ 0::r := by
  induction s with
  | nil => cases h
  | cons c s ih =>
    by_cases hc : c = 0
    · exact ⟨s,by rw [hc]; rfl⟩
    · obtain ⟨r,hr⟩ := ih ((List.mem_cons.mp h).resolve_left (Ne.symm hc))
      refine ⟨r,?_⟩
      have hcstr : cstr (c::s) = c::cstr s := List.takeWhile_cons_of_pos (by simpa using hc)
      rw [hcstr,List.cons_append]
      exact congrArg (c::·) hr

/-- `GetBuffer` of a string that has only been assigned or appended to: an empty one has no buffer. -/
def getBuffer (s : Bytes) : Option Bytes := if s = [] then none else some s

/-- `p - b` for `p = strchr(b, c)`, where `c` is no NUL; `none` is the null pointer. -/
def strchrAt (b : Bytes) (c : Byte) : Option ℕ := (cstr b).findIdx? (· == c)

theorem strchrAt_eq_none {b : Bytes} {c : Byte} (h : 0 ∉ b) : strchrAt b c = none ↔ c ∉ b := by
  rw [strchrAt,cstr_of_nul_free h,List.findIdx?_eq_none_iff]
  constructor
  · intro hall hc
    simpa using hall c hc
  · intro hc d hd
    simpa using ne_of_mem_of_not_mem hd hc

/-- `stricmp(a, b) == 0`, by which `CMapStr` compares its keys. -/
def SameName (a b : Bytes) : Prop := a.map tolower = b.map tolower

instance (a b : Bytes) : Decidable (SameName a b) := inferInstanceAs (Decidable (_ = _))

theorem SameName.symm {a b : Bytes} (h : SameName a b) : SameName b a := Eq.symm h

theorem SameName.trans {a b c : Bytes} (h : SameName a b) (h' : SameName b c) : SameName a c :=
  Eq.trans h h'

/-- `CStr::RTrim`: blanks cut off at the end. -/
def rtrim (s : Bytes) : Bytes := s.rdropWhile isspace

theorem length_rtrim_le (s : Bytes) : (rtrim s).length ≤ s.length := (List.rdropWhile_prefix _ _).length_le

/-- Behind the blanks in front there is none. -/
theorem isspace_of_dropWhile {s t : Bytes} {c : Byte} (h : s.dropWhile isspace = c::t) : isspace c = false := by
  have hne := List.head_dropWhile_not isspace (l := s) (by rw [h]; exact List.cons_ne_nil _ _)
  simpa only [h,List.head_cons,Bool.not_eq_true] using hne

theorem length_blanks (s : Bytes) : (s.takeWhile isspace).length+(s.dropWhile isspace).length = s.length := by
  rw [← List.length_append,List.takeWhile_append_dropWhile]

/-- `CStr::Trim`. -/
def trim (s : Bytes) : Bytes := rtrim (s.dropWhile isspace)

theorem dropWhile_trim (s : Bytes) : (trim s).dropWhile isspace = trim s := by
  cases ht : trim s with
  | nil => rfl
  | cons c t =>
    obtain ⟨r,hr⟩ : trim s <+: s.dropWhile isspace := List.rdropWhile_prefix _ _
    have hhead : s.dropWhile isspace = c::(t ++ r) := by rw [← hr,ht,List.cons_append]
    apply List.dropWhile_cons_of_neg
    rw [isspace_of_dropWhile hhead]
    exact Bool.false_ne_true

theorem trim_trim (s : Bytes) : trim (trim s) = trim s := by
  rw [trim,dropWhile_trim]
  exact List.rdropWhile_idempotent isspace _

/-- `fslash`. -/
def fslash (s : Bytes) : Bytes := s.map fun c => if c = ch '\\' then ch '/' else c

/-- `ParseBool`: a non-empty C string. -/
def parseBool (s : Bytes) : Bool :=
  match s with
  | [] => false
  | c::_ => c != 0

end Smx
