import Smx.Compile.Format

/-! `qCtxComp`: the compiler reads the source once, with the grammar of the parser, and
writes records. Random keys are drawn from a given sequence, one for each `rand()`. -/
namespace Smx

/-- What the compiler looks up: quote maps by name, and the modes of its parent context. -/
structure CompEnv where
  /-- `GetQmap` of the object that `Find` gives; no map when there is no such object -/
  qmapOf : Bytes → Option Bytes
  strict : Bool
  inTry : Bool
  /-- the numbers `rand()%256` will give, when `myRn` is set -/
  rand : Option (ℕ → Byte)

/-- `myOutBuf`, and how many random numbers were drawn. -/
structure CompSt where
  outBuf : Bytes
  drawn : ℕ

/-- Compiling changes the buffer and may throw. -/
abbrev CompM := StateT CompSt (Except CtxEx)

namespace CompEnv
variable (E : CompEnv)

/-- `myRn ? rand()%256 : 0`. -/
def drawKey : CompM Byte := fun st =>
  match E.rand with
  | none => .ok (0,st)
  | some keys => .ok (keys st.drawn,{ st with drawn := st.drawn+1 })

/-- `OutC` and `OutS`. -/
def outS (s : Bytes) : CompM Unit := modify fun st => { st with outBuf := st.outBuf ++ s }

/-- `OutFlush`: the record of the text buffered so far. -/
def outFlush : CompM Bytes := fun st =>
  .ok (if st.outBuf = [] then [] else baseBytes BC_OUT 0 st.outBuf.length ++ st.outBuf,
    { st with outBuf := [] })

/-- The literal records of `ParseCompArg`; their key is drawn and not used. -/
def outText (s : Bytes) : CompM Bytes :=
  if s = [] then pure []
  else do
    let rn ← E.drawKey
    pure (baseBytes BC_OUT rn s.length ++ s)

/-- The arguments in a function record. -/
def outArgs (rn : Byte) (ary : List Arg) : Bytes :=
  ary.flatMap fun a => argBytes a.quot a.text.length ++ mask rn a.text

/-- `OutFunc`. -/
def outFunc (name : Bytes) (ary : List Arg) : CompM Bytes := do
  let rn ← E.drawKey
  pure (baseBytes BC_FUNC rn name.length ++ mask rn name ++ countBytes ary.length ++
    outArgs rn ary)

/-- `ThrowF` into the code that is being written. -/
def rejectPunct (c : Byte) : CompM Bytes :=
  if E.strict then
    if E.inTry then throw (invalidSyntax c) else pure (invalidSyntax c).printed
  else pure []

mutual

/-- `qCtxComp::ParseFunc`. Gives the code written and the input left. -/
def compFunc : ℕ → Bytes → CompM (Bytes × Bytes)
  | 0,inp => pure ([],inp)
  | n+1,inp =>
    let r := getC inp
    if isqsymf r.1 then compName n r.1 r.2
    else if r.1 = EOF ∨ r.1 = T_PCT then do
      outS [T_PCT]
      pure ([],r.2)
    else if isPunct r.1 then do
      outS [T_PCT]
      let code ← E.rejectPunct r.1
      pure (code,r.1::r.2)
    else do
      outS [T_PCT,r.1]
      pure ([],r.2)

/-- The name loop of `ParseFunc`, whose first character is `c`, and what follows it. -/
def compName : ℕ → Byte → Bytes → CompM (Bytes × Bytes)
  | 0,_,inp => pure ([],inp)
  | n+1,c,inp =>
    let s := scanName [c] inp
    if s.2.1 = T_LP then do
      let flushed ← outFlush
      let q := argsStart (E.qmapOf s.1)
      let a ← compArgs n q.1 q.2 s.2.2
      let code ← E.outFunc s.1 a.1
      pure (flushed ++ code,a.2)
    else if s.2.1 = T_PCT then do
      let flushed ← outFlush
      let code ← E.outFunc s.1 []
      pure (flushed ++ code,s.2.2)
    else do
      -- the name is not put back
      outS (T_PCT::if s.2.1 = EOF then [] else [s.2.1])
      pure ([],s.2.2)

/-- `ParseCompArgs`. -/
def compArgs : ℕ → Bool → Bytes → Bytes → CompM (List Arg × Bytes)
  | 0,qmode,_,inp => pure ([⟨[],if qmode then .str else .cmp⟩],inp)
  | n+1,qmode,map,inp => do
    let h := argHead inp
    let a ← (if qmode || h.1 then
        let r := parseArgQuoted h.2.1 h.2.2
        pure (⟨r.1,if h.1 then .qstr else .str⟩,r.2)
      else do
        let r ← compArg n h.2.1 h.2.2
        pure (⟨r.1,.cmp⟩,r.2))
    if a.2.1 ∧ h.2.1 ≠ EOF then do
      let q := qmapNext qmode map
      let r ← compArgs n q.1 q.2 a.2.2
      pure (a.1::r.1,r.2)
    else pure ([a.1],a.2.2)

/-- `ParseCompArg`. -/
def compArg : ℕ → Byte → Bytes → CompM (Bytes × Bool × Bytes)
  | 0,_,inp => pure ([],false,inp)
  | n+1,c,inp =>
    let o := argOpen c inp
    compTurn n o.1 [] [] o.2.1 o.2.2

/-- One turn of the loop of `ParseCompArg`: `cur` is the code and `tmp` the literal text that
is not in it yet. -/
def compTurn : ℕ → ArgSt → Bytes → Bytes → Byte → Bytes → CompM (Bytes × Bool × Bytes)
  | 0,_,cur,tmp,_,inp => do
    let text ← E.outText tmp
    pure (cur ++ text,false,inp)
  | n+1,st,cur,tmp,c,inp =>
    if c = T_ESC then
      let e := getC inp
      compLoop n { st with numsp := 0 } cur (if e.1 = EOF then tmp else tmp ++ [e.1]) e.2
    else if c = T_PCT then do
      let text ← E.outText tmp
      let f ← compFunc n inp
      let flushed ← outFlush
      compLoop n { st with numsp := 0 } (cur ++ text ++ f.1 ++ flushed) [] f.2
    else
      match argAct st c with
      | .put st' => compLoop n st' cur (tmp ++ [c]) inp
      | .skip st' => compLoop n st' cur tmp inp
      | .stop more => do
        let text ← E.outText (cutSpaces tmp st.numsp)
        pure (cur ++ text,more,inp)

def compLoop : ℕ → ArgSt → Bytes → Bytes → Bytes → CompM (Bytes × Bool × Bytes)
  | 0,_,cur,tmp,inp => do
    let text ← E.outText tmp
    pure (cur ++ text,false,inp)
  | n+1,st,cur,tmp,inp =>
    let r := getC inp
    if r.1 = EOF then do
      let text ← E.outText tmp
      pure (cur ++ text,false,r.2)
    else compTurn n st cur tmp r.1 r.2

end

/-- The loop of `qCtxComp::Parse`, with the flush at its end. -/
def compParse : ℕ → Bytes → CompM Bytes
  | 0,_ => outFlush
  | n+1,inp =>
    let r := getC inp
    if r.1 = EOF then outFlush
    else if r.1 = T_PCT then do
      let f ← E.compFunc n r.2
      let rest ← compParse n f.2
      pure (f.1 ++ rest)
    else do
      outS [r.1]
      compParse n r.2

/-- `qCtxComp::Parse` of a fresh compiler: the code, or the error it throws. -/
def compile (inp : Bytes) : Except CtxEx Bytes := do
  let r ← E.compParse (4*inp.length+4) inp ⟨[],0⟩
  pure r.1

end CompEnv
end Smx
