import Smx.Base.Bytes

/-! The objects names are bound to: the subclasses of `qObj` that the core module uses. -/
namespace Smx

abbrev CtxId := ℕ

/-- `qObjDef::qObjDefArg`: how a formal parameter takes its argument. -/
inductive ArgKind
  | dNormal
  | dQuoted
  | dParsed
  | dObjRef
  deriving DecidableEq, Repr

/-- The built-ins of the core module, named after their `Eval` functions. -/
inductive Builtin
  | null
  | for
  | while
  | do
  | if
  | or
  | and
  | not
  | set
  | let
  | gset
  | define
  | defined
  | invoke
  | expand
  | safeExpand
  | try
  | throw
  | abort
  | smxQuote
  deriving DecidableEq, Repr

inductive Obj
  /-- `qObjStr` -/
  | str (s : Bytes)
  /-- `qObjIntP` on a local counter of `EvalFor` -/
  | intP (cell : ℕ)
  /-- `qObjFunc` with `EvalBreak` and the address of a loop's `ok` -/
  | brk (ok : ℕ)
  /-- `qObjFunc` of a built-in, with its quote map -/
  | func (f : Builtin) (qmap : Option Bytes)
  /-- `qObjDef`: byte code, formal parameters and quote map -/
  | defn (body : Bytes) (argNames : List (Bytes × ArgKind)) (qmap : Option Bytes)
  /-- `qObjParsed`: a text that is parsed whenever it is read -/
  | parsed (s : Bytes)
  /-- `qObjByRef` -/
  | byRef (obj : Obj)
  /-- `qObjDefArgs`: the arguments of a running macro, by position -/
  | defArgs (argNames : List (Bytes × ArgKind)) (args : List Bytes)
  /-- `qObjSafe`: an object that is always evaluated in one fixed context -/
  | safe (obj : Obj) (ctx : CtxId)

end Smx
