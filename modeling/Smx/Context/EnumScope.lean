import Mathlib.Logic.Relation
import Smx.Base.Error
import Smx.Base.Number
import Smx.Context.Names
import Smx.Core.Object
import Smx.Lib.Run
import Smx.Lib.WriteLog

/-! The enumerations, and the names by which they show their local variables to scripts: in a temporary context or in
the one they are called in. What they enumerate, and so how many turns they take, is left to the events of a run. -/
namespace Smx

/-- The variables that the enumerations show to scripts. -/
inductive EnumVar
  | key
  | val
  | n
  | p
  | ok
  | skip
  | rx
  | cnt
  | myOK
  deriving DecidableEq

/-- What a name is bound to: a string, something else that a script can make, or a variable of a call of an
enumeration. -/
inductive Held (ο : Type)
  | str (s : Bytes)
  | other (obj : ο)
  | shown (call : ℕ) (var : EnumVar)

def Held.isShown {ο : Type} : Held ο → Bool
  | .shown _ _ => true
  | _ => false

inductive EnumKind
  /-- `qObjHCtx::HEnum` -/
  | hEnum
  /-- `EvalEnumToken` -/
  | enumToken
  /-- `EvalRxSplit` -/
  | rxSplit
  /-- `qObjSqlite::Execute` -/
  | sqlite
  /-- anything else that evaluates in a `qCtxTmp` -/
  | other
  deriving DecidableEq

/-- A call that is being evaluated: its number, the context that it was made in with its parents, its `qCtxTmp` and its
`cnt`. -/
structure EnumFrame where
  call : ℕ
  kind : EnumKind
  this : CtxId
  up : List CtxId
  tmp : Option CtxId
  cnt : ℕ

/-- The contexts of a running evaluation, the current one with its parents, the calls under way, the innermost first,
and the flags of the calls. The log says which call has written a name, or none if it was the script. -/
structure EnumState (ο : Type) where
  map : Bindings CtxId (Held ο)
  this : CtxId
  up : List CtxId
  nextCtx : CtxId
  nextCall : ℕ
  frames : List EnumFrame
  ok : ℕ → Bool
  log : List (LogEntry (Option ℕ) (CtxId × Bytes) (Option (Held ο)))

variable {ο : Type}

namespace EnumState

/-- `MapObj`, or `DelObj` where there is no object. -/
def put (s : EnumState ο) (author : Option ℕ) (c : CtxId) (name : Bytes) (obj : Option (Held ο)) : EnumState ο :=
  { s with map := setKey s.map c (mapKey name) obj, log := ⟨author,(c,mapKey name),obj⟩::s.log }

/-- `MapObj` of a variable of a call. -/
def expose (s : EnumState ο) (call : ℕ) (c : CtxId) (var : EnumVar) (name : Bytes) : EnumState ο :=
  s.put (some call) c name (some (.shown call var))

/-- A call that returns before it has bound anything. -/
def returned (s : EnumState ο) : EnumState ο := { s with nextCall := s.nextCall+1 }

/-- A call that goes on in the context it is made in. -/
def enter (s : EnumState ο) (kind : EnumKind) : EnumState ο :=
  { s with
    nextCall := s.nextCall+1
    frames := ⟨s.nextCall,kind,s.this,s.up,none,0⟩::s.frames
    ok := Function.update s.ok s.nextCall true }

/-- A call that begins with `qCtxTmp tmpCtx(ctx)` and goes on there. -/
def enterTmp (s : EnumState ο) (kind : EnumKind) : EnumState ο :=
  { s with
    map := Function.update s.map s.nextCtx fun _ => none
    this := s.nextCtx
    up := s.this::s.up
    nextCtx := s.nextCtx+1
    nextCall := s.nextCall+1
    frames := ⟨s.nextCall,kind,s.this,s.up,some s.nextCtx,0⟩::s.frames
    ok := Function.update s.ok s.nextCall true }

/-- `qObjHCtx::HEnum`, up to the enumeration. -/
def hEnum (argc : ℕ) (s : EnumState ο) : EnumState ο :=
  if argc < 1 then s.returned
  else
    let loop := s.nextCall
    let tmpCtx := s.nextCtx
    let t := (s.enterTmp .hEnum).expose loop tmpCtx .key (str "key")
    let t := t.expose loop tmpCtx .val (str "value")
    t.expose loop s.this .n (str "num")

/-- `EvalEnumToken`, up to the loop. -/
def evalEnumToken (argc : ℕ) (s : EnumState ο) : EnumState ο :=
  if 3 ≤ argc then
    let call := s.nextCall
    let sub := s.nextCtx
    let t := (s.enterTmp .enumToken).expose call sub .p (str "token")
    let t := t.expose call sub .ok (str "break")
    t.expose call sub .skip (str "skip-tokens")
  else s.returned

/-- `EvalRxSplit`, up to the loop. -/
def evalRxSplit (argc : ℕ) (compiles : Bool) (s : EnumState ο) : EnumState ο :=
  if validArgc "rxsplit" 2 4 argc = none ∧ compiles = true then
    let call := s.nextCall
    let tmpCtx := s.nextCtx
    let t := (s.enterTmp .rxSplit).expose call tmpCtx .rx (str "subx")
    let t := t.put (some call) tmpCtx (str "last") (some (.str []))
    t.expose call tmpCtx .cnt (str "rxnum")
  else s.returned

/-- `qObjSqlite::Execute`, up to `sqlite3_exec`. -/
def execute (dbOpen : Bool) (s : EnumState ο) : EnumState ο :=
  if dbOpen then (s.enter .sqlite).expose s.nextCall s.this .myOK (str "break") else s.returned

end EnumState

/-- The calls, with what decides whether they get to their loop. -/
inductive Enumeration
  | hEnum (argc : ℕ)
  | enumToken (argc : ℕ)
  | rxSplit (argc : ℕ) (compiles : Bool)
  | sqlite (dbOpen : Bool)

def Enumeration.start : Enumeration → EnumState ο → EnumState ο
  | .hEnum argc => EnumState.hEnum argc
  | .enumToken argc => EnumState.evalEnumToken argc
  | .rxSplit argc compiles => EnumState.evalRxSplit argc compiles
  | .sqlite dbOpen => EnumState.execute dbOpen

namespace EnumState

/-- The loop of the running call gets to another turn; the elements of `EvalRxSplit` are strings of their own. -/
def turn (s : EnumState ο) (elem : Bytes) (last : Bool) : Option (EnumState ο) :=
  match s.frames with
  | [] => none
  | f::fs =>
    match f.kind,f.tmp with
    | .hEnum,_ => some s
    | .enumToken,_ => if s.ok f.call then some s else none
    | .sqlite,_ => if s.ok f.call then some s else none
    | .rxSplit,some tmpCtx =>
      let s := { s with frames := { f with cnt := f.cnt+1 }::fs }
      let s := s.put (some f.call) tmpCtx (str "elem") (some (.str elem))
      let s := s.put (some f.call) tmpCtx (str "token") (some (.str elem))
      some (if last then s.put (some f.call) tmpCtx (str "last") (some (.str (str "T"))) else s)
    | _,_ => none

/-- `~qCtxTmp`. -/
def freeTmp (m : Bindings CtxId (Held ο)) : Option CtxId → Bindings CtxId (Held ο)
  | some c => Function.update m c fun _ => none
  | none => m

/-- The running call is left. -/
def pop (s : EnumState ο) (f : EnumFrame) (fs : List EnumFrame) : EnumState ο :=
  { s with map := freeTmp s.map f.tmp, this := f.this, up := f.up, frames := fs }

/-- The running call ends, at its end or because an error is thrown. -/
def leave (s : EnumState ο) (thrown : Bool) : Option (EnumState ο) :=
  match s.frames with
  | [] => none
  | f::fs =>
    if f.kind = .rxSplit ∧ thrown = false then
      let rxcount := if f.cnt ≠ 0 then itoa f.cnt else []
      some ((s.put (some f.call) f.this (str "rxcount") (some (.str rxcount))).pop f fs)
    else some (s.pop f fs)

/-- `ctx->Find` in the current context. -/
def lookup (m : Bindings CtxId (Held ο)) (this : CtxId) (up : List CtxId) (name : Bytes) :
    Option (Held ο × CtxId) :=
  find (plain m fun _ => false) name none (this::up)

/-- A parameter of a macro that takes its argument by reference: it stands for what the argument names. -/
def bindRef (s : EnumState ο) (param arg : Bytes) : EnumState ο :=
  match s.frames with
  | [] => s
  | f::_ =>
    match f.tmp,lookup s.map f.this f.up arg with
    | some tmpCtx,some (obj,_) => s.put (some f.call) tmpCtx param (some obj)
    | _,_ => s

/-- `%break%`: `EvalBreak` on the flag that the name stands for. -/
def evalBreak (s : EnumState ο) : EnumState ο :=
  match lookup s.map s.this s.up (str "break") with
  | some (.shown call .ok,_) => { s with ok := Function.update s.ok call false }
  | some (.shown call .myOK,_) => { s with ok := Function.update s.ok call false }
  | _ => s

end EnumState

inductive EnumEv (ο : Type)
  /-- an enumeration is called in the current context -/
  | start (b : Enumeration)
  /-- the running enumeration gets to another turn -/
  | turn (elem : Bytes) (last : Bool)
  /-- the running call ends -/
  | leave (thrown : Bool)
  /-- a macro is called, with the arguments that its parameters take by reference -/
  | callMacro (refs : List (Bytes × Bytes))
  /-- the script binds a name in some context, or deletes it -/
  | bind (c : CtxId) (name : Bytes) (obj : Option (Held ο))
  /-- `%break%` -/
  | evalBreak

namespace EnumState

def step (s : EnumState ο) : EnumEv ο → Option (EnumState ο)
  | .start b => some (b.start s)
  | .turn elem last => s.turn elem last
  | .leave thrown => s.leave thrown
  | .callMacro refs => some (refs.foldl (fun t r => t.bindRef r.1 r.2) (s.enterTmp .other))
  | .bind c name obj =>
    if c < s.nextCtx ∧ obj.any Held.isShown = false then some (s.put none c name obj) else none
  | .evalBreak => some s.evalBreak

/-- A step during which a call stays under way, `n` being the number of calls around it. -/
def stepInside (n : ℕ) (s : EnumState ο) (ev : EnumEv ο) : Option (EnumState ο) :=
  (s.step ev).filter fun t => n < t.frames.length

/-- Before anything is called, every name stands for something that a script can make. -/
structure Initial (s : EnumState ο) : Prop where
  frames : s.frames = []
  this : s.this < s.nextCtx
  map : ∀ c k obj, s.map c k = some obj → obj.isShown = false

def Reachable (s : EnumState ο) : Prop := ∃ t evs, Initial t ∧ runFrom step t evs = some s

end EnumState

/-- The evaluation of a call: it returns at once, or its loop evaluates the body until it ends. -/
def Enumeration.evaluate (b : Enumeration) (s : EnumState ο) (body : List (EnumEv ο)) (thrown : Bool) :
    Option (EnumState ο) :=
  let t := b.start s
  if t.frames.length = s.frames.length then some t
  else (runFrom (EnumState.stepInside s.frames.length) t body).bind fun u =>
    if u.frames.length = s.frames.length+1 then u.leave thrown else none

/-- The names that a call is documented to leave behind. -/
def Enumeration.documented : Enumeration → List Bytes
  | .rxSplit _ _ => [str "rxcount"]
  | _ => []

/-- What others have written while a call was evaluated. -/
def EnumState.bodyLog (s s' : EnumState ο) : List (LogEntry (Option ℕ) (CtxId × Bytes) (Option (Held ο))) :=
  (s'.log.take (s'.log.length-s.log.length)).filter fun w => w.author ≠ some s.nextCall

/-- A call that was made in `s` and has ended in `s'` has bound nothing outside its own scope: its context holds what
the body has made of it, and from then on no name stands for one of its variables. -/
structure Enumeration.Scoped (b : Enumeration) (s s' : EnumState ο) : Prop where
  bindings : ∀ k, k ∉ b.documented.map mapKey →
    s'.map s.this k = replay (Function.uncurry s.map) (s.bodyLog s') (s.this,k)
  locals : ∀ evs t, runFrom EnumState.step s' evs = some t → ∀ safeMode chain name top c var,
    find (plain t.map safeMode) name top chain ≠ some (.shown s.nextCall var,c)

/-- The name that a call binds in the context it is called in. -/
def Enumeration.exposes : Enumeration → Option Bytes
  | .hEnum argc => if argc < 1 then none else some (str "num")
  | .sqlite dbOpen => if dbOpen then some (str "break") else none
  | _ => none

/-- The body has bound a name itself in the context of the call, or deleted it there. -/
def EnumState.Rebinds (s s' : EnumState ο) (name : Bytes) : Prop :=
  ∃ w ∈ s.bodyLog s', w.cell = (s.this,mapKey name)

end Smx
