import Smx.Base.Bytes

/-! Script errors and the argument-count checks every built-in starts with. -/
namespace Smx

/-- `qCtxEx`: the number and the message of a script error. -/
structure CtxEx where
  id : ℤ
  msg : Bytes
  deriving DecidableEq, Repr

/-- What leaves a C++ evaluation early: a script error, `qCtxExAbort`, or anything else. -/
inductive Exn
  | error (ex : CtxEx)
  | abort
  | unknown
  deriving DecidableEq, Repr

/-- `%d` of a count. -/
def decimal (n : ℕ) : Bytes := str (toString n)

/-- `VALID_ARGM(name, min)`: the error it throws, if any. -/
def validArgm (name : String) (min count : ℕ) : Option CtxEx :=
  if count < min then
    some ⟨1000,str "Too few arguments (" ++ decimal count ++ str ") to function %" ++ str name ++
      str "(), must be at least " ++ decimal min⟩
  else none

/-- `VALID_ARGC(name, min, max)`. -/
def validArgc (name : String) (min max count : ℕ) : Option CtxEx :=
  if max < count then
    some ⟨1000,str "Too many arguments (" ++ decimal count ++ str ") to function %" ++ str name ++
      str "(), the maximum is " ++ decimal max⟩
  else validArgm name min count

@[simp] theorem validArgm_eq_none (name : String) (min count : ℕ) :
    validArgm name min count = none ↔ min ≤ count := by
  simp [validArgm]

@[simp] theorem validArgc_eq_none (name : String) (min max count : ℕ) :
    validArgc name min max count = none ↔ min ≤ count ∧ count ≤ max := by
  unfold validArgc
  split_ifs with h
  · simp; omega
  · simp; omega

end Smx
