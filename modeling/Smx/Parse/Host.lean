import Smx.Base.Error
import Smx.Lib.EmitM
import Smx.Parse.Scan

/-! What the parser needs of the context it runs in. The objects themselves are left open:
any interpretation of names and evaluations can stand behind it. -/
namespace Smx

/-- `ARG_STR`, `ARG_QSTR` and `ARG_CMP`: how an argument was written. -/
inductive ArgType
  | str
  | qstr
  | cmp
  deriving DecidableEq, Repr

/-- One entry of a `qArgAry`. -/
structure Arg where
  text : Bytes
  quot : ArgType
  deriving DecidableEq, Repr

/-- Evaluation over a state `σ` into an output buffer. -/
abbrev SmxM (σ : Type) := EmitM Exn Byte σ

/-- A context as `Parse` and `RunCompiled` see it. -/
structure Host (σ ο : Type) where
  /-- `Find` -/
  find : σ → Bytes → Option ο
  getQmap : ο → Option Bytes
  eval : ο → Option (List Arg) → SmxM σ Unit
  /-- `myTry` is not 0 -/
  inTry : σ → Bool
  strict : σ → Bool
  /-- `GetLevel() > myEnv->GetMaxLevels()` -/
  tooDeep : σ → Bool

/-- The error of an undefined name; `%s` prints a C string. -/
def notFound (name : Bytes) : CtxEx :=
  ⟨98,str "Function '" ++ name.takeWhile (· != 0) ++ str "' was not found."⟩

def invalidSyntax (c : Byte) : CtxEx := ⟨98,str "Invalid syntax '%" ++ [c] ++ str "'."⟩

def nestingReached : CtxEx := ⟨99,str "Maximum nesting level reached."⟩

/-- What `Throw` prints when no `%try` is active. -/
def CtxEx.printed (ex : CtxEx) : Bytes := ch '[' :: ex.msg ++ [ch ']']

namespace Host
variable {σ ο : Type} (H : Host σ ο)

/-- `qCtx::Throw`. -/
def throwEx (ex : CtxEx) : SmxM σ Unit := do
  let s ← EmitM.get
  if H.inTry s then EmitM.throw (.error ex) else EmitM.emit ex.printed

/-- The evaluation of `%name(...)`: outside of `%try` the exceptions are caught and printed. -/
def evalCall (obj : ο) (args : List Arg) : SmxM σ Unit := do
  let s ← EmitM.get
  if H.inTry s then H.eval obj (some args)
  else EmitM.tryCatch (H.eval obj (some args)) fun
    | .error ex => H.throwEx ex
    | .abort => EmitM.throw .abort
    | .unknown => H.throwEx ⟨999,str "Ctx Unhandled exception."⟩

end Host

/-- A context that defines nothing. -/
def emptyHost (strict : Bool) : Host Unit Empty where
  find _ _ := none
  getQmap _ := none
  eval _ _ := pure ()
  inTry _ := false
  strict _ := strict
  tooDeep _ := false

/-- A context where every name is a macro that prints its arguments one after the other. -/
def echoHost (qmapOf : Bytes → Option Bytes) : Host Unit Bytes where
  find _ name := some name
  getQmap := qmapOf
  eval _ args := EmitM.emit ((args.getD []).flatMap Arg.text)
  inTry _ := false
  strict _ := false
  tooDeep _ := false

/-- The characters that `ParseFunc` puts back after a percent sign. -/
def isPunct (c : Byte) : Bool := c == T_RP || c == T_COMMA || c == T_LP || c == T_DQ

end Smx
