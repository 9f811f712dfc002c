import Smx.Parse.Host

/-! `qCtx::Parse` and the functions under it. Each call takes one unit of fuel; four units for
each character of the input are enough. -/
namespace Smx
namespace Host
variable {σ ο : Type} (H : Host σ ο)
open EmitM (emit capture)

/-- What `ParseFunc` says to a percent sign before a character it puts back. -/
def rejectPunct (c : Byte) : SmxM σ Unit := do
  let s ← EmitM.get
  if H.strict s then H.throwEx (invalidSyntax c) else pure ()

/-- `%name(` of an undefined macro, copied with its parenthesis. -/
def copyCall (name inp : Bytes) : SmxM σ Bytes := do
  let t := parseArgsLPar true .blank 0 inp
  emit (T_PCT::name ++ [T_LP])
  emit t.1
  pure t.2.2

/-- `%name%` of an undefined macro. -/
def copyVar (name : Bytes) : SmxM σ Unit := do
  let s ← EmitM.get
  if H.strict s then H.throwEx (notFound name) else pure ()
  emit (T_PCT::name ++ [T_PCT])

/-- A name that is no call after all, with the character that ended it. -/
def copyName (name : Bytes) (c : Byte) : SmxM σ Unit :=
  emit (T_PCT::name ++ if c = EOF then [] else [c])

mutual

/-- `ParseFunc`, after the percent sign. Gives the input left. -/
def parseFunc : ℕ → Bytes → SmxM σ Bytes
  | 0,inp => pure inp
  | n+1,inp =>
    let r := getC inp
    if isqsymf r.1 then parseName n [r.1] r.2
    else if r.1 = EOF ∨ r.1 = T_PCT then do
      emit [T_PCT]
      pure r.2
    else if isPunct r.1 then do
      emit [T_PCT]
      H.rejectPunct r.1
      pure (r.1::r.2)
    else do
      emit [T_PCT,r.1]
      pure r.2

/-- The name loop of `ParseFunc` and what follows it. -/
def parseName : ℕ → Bytes → Bytes → SmxM σ Bytes
  | 0,_,inp => pure inp
  | n+1,name,inp => do
    let r := scanName name inp
    let s ← EmitM.get
    if r.2.1 = T_LP then
      match H.find s r.1 with
      | some obj => do
        let q := argsStart (H.getQmap obj)
        let a ← parseArgsQmap n q.1 q.2 r.2.2
        H.evalCall obj a.1
        pure a.2
      | none =>
        if H.strict s then do
          H.throwEx (notFound r.1)
          -- without `%try` the loop goes on to collect the name
          parseName n r.1 r.2.2
        else copyCall r.1 r.2.2
    else if r.2.1 = T_PCT then do
      (match H.find s r.1 with
        | some obj => H.eval obj none
        | none => H.copyVar r.1)
      pure r.2.2
    else do
      copyName r.1 r.2.1
      pure r.2.2

/-- The loop of `ParseArgsQmap`; with the empty map that of `ParseArgs`. -/
def parseArgsQmap : ℕ → Bool → Bytes → Bytes → SmxM σ (List Arg × Bytes)
  | 0,_,_,inp => pure ([⟨[],.str⟩],inp)
  | n+1,qmode,map,inp => do
    let h := argHead inp
    let a ← (if qmode || h.1 then pure (parseArgQuoted h.2.1 h.2.2) else parseArg n h.2.1 h.2.2)
    let arg : Arg := ⟨a.1,if h.1 then .qstr else .str⟩
    if a.2.1 ∧ h.2.1 ≠ EOF then do
      let q := qmapNext qmode map
      let r ← parseArgsQmap n q.1 q.2 a.2.2
      pure (arg::r.1,r.2)
    else pure ([arg],a.2.2)

/-- `ParseArg`: an argument whose macros are evaluated on the way. -/
def parseArg : ℕ → Byte → Bytes → SmxM σ (Bytes × Bool × Bytes)
  | 0,_,inp => pure ([],false,inp)
  | n+1,c,inp =>
    let o := argOpen c inp
    argTurn n o.1 [] o.2.1 o.2.2

/-- One turn of the loop of `ParseArg`, on the character `c`. -/
def argTurn : ℕ → ArgSt → Bytes → Byte → Bytes → SmxM σ (Bytes × Bool × Bytes)
  | 0,_,cur,_,inp => pure (cur,false,inp)
  | n+1,st,cur,c,inp =>
    if c = T_ESC then
      let e := getC inp
      argLoop n { st with numsp := 0 } (if e.1 = EOF then cur else cur ++ [e.1]) e.2
    else if c = T_PCT then do
      let f ← capture (parseFunc n inp)
      argLoop n { st with numsp := 0 } (cur ++ f.1) f.2
    else
      match argAct st c with
      | .put st' => argLoop n st' (cur ++ [c]) inp
      | .skip st' => argLoop n st' cur inp
      | .stop more => pure (cutSpaces cur st.numsp,more,inp)

/-- `while (EOF != (c = in->GetC()))`. -/
def argLoop : ℕ → ArgSt → Bytes → Bytes → SmxM σ (Bytes × Bool × Bytes)
  | 0,_,cur,inp => pure (cur,false,inp)
  | n+1,st,cur,inp =>
    let r := getC inp
    if r.1 = EOF then pure (cur,false,r.2) else argTurn n st cur r.1 r.2

end

/-- The loop of `Parse`. -/
def parseLoop : ℕ → Bytes → SmxM σ Unit
  | 0,_ => pure ()
  | n+1,inp =>
    let r := getC inp
    if r.1 = EOF then pure ()
    else if r.1 = T_PCT then do
      let rest ← H.parseFunc n r.2
      parseLoop n rest
    else do
      emit [r.1]
      parseLoop n r.2

def fuelFor (inp : Bytes) : ℕ := 4*inp.length+4

/-- `qCtx::Parse`. -/
def parse (inp : Bytes) : SmxM σ Unit := do
  let s ← EmitM.get
  if H.tooDeep s then do
    emit inp
    H.throwEx nestingReached
  else H.parseLoop (fuelFor inp) inp

/-- `qCtx::ParseArgs`. -/
def parseArgs (inp : Bytes) : SmxM σ (List Arg × Bytes) :=
  H.parseArgsQmap (fuelFor inp) false [] inp

section
variable {n : ℕ} {st st' : ArgSt} {cur inp : Bytes} {c : Byte}

theorem argLoop_put (heof : c ≠ EOF) (hesc : c ≠ T_ESC) (hpct : c ≠ T_PCT)
    (hact : argAct st c = .put st') :
    H.argLoop (n+2) st cur (c::inp) = H.argLoop n st' (cur ++ [c]) inp := by
  simp [argLoop,argTurn,heof,hesc,hpct,hact]

theorem argLoop_skip (heof : c ≠ EOF) (hesc : c ≠ T_ESC) (hpct : c ≠ T_PCT)
    (hact : argAct st c = .skip st') :
    H.argLoop (n+2) st cur (c::inp) = H.argLoop n st' cur inp := by
  simp [argLoop,argTurn,heof,hesc,hpct,hact]

theorem argLoop_stop (heof : c ≠ EOF) (hesc : c ≠ T_ESC) (hpct : c ≠ T_PCT) {more : Bool}
    (hact : argAct st c = .stop more) :
    H.argLoop (n+2) st cur (c::inp) = pure (cutSpaces cur st.numsp,more,inp) := by
  simp [argLoop,argTurn,heof,hesc,hpct,hact]

theorem argLoop_esc (heof : c ≠ EOF) :
    H.argLoop (n+2) st cur (T_ESC::c::inp) =
      H.argLoop n { st with numsp := 0 } (cur ++ [c]) inp := by
  have hesc : T_ESC ≠ EOF := by decide
  simp [argLoop,argTurn,heof,hesc]

/-- Two percent signs are read as one. -/
theorem argLoop_pct :
    H.argLoop (n+3) st cur (T_PCT::T_PCT::inp) =
      H.argLoop (n+1) { st with numsp := 0 } (cur ++ [T_PCT]) inp := by
  have hfunc : H.parseFunc (n+1) (T_PCT::inp) = emit [T_PCT] >>= fun _ => pure inp := by
    have hsym : isqsymf T_PCT = false := by decide
    simp [parseFunc,hsym]
  have heof : T_PCT ≠ EOF := by decide
  have hesc : T_PCT ≠ T_ESC := by decide
  simp only [argLoop,argTurn,getC_cons,if_neg heof,if_neg hesc,if_true,hfunc,
    EmitM.capture_emit_pure,pure_bind]

theorem argLoop_eof {rest : Bytes} (hinp : getC inp = (EOF,rest)) :
    H.argLoop (n+1) st cur inp = pure (cur,false,rest) := by
  simp [argLoop,hinp]

end

end Host
end Smx
