import Smx.Regx.Compile
import Smx.Regx.Tree

/-! The tree of a pattern: what the parser reads, without the code it writes. -/
namespace Smx.Regx

/-- A tree, its flags, the pattern that is left and the number of the next group. -/
abbrev ReadTree := Except Fail (Rx × Flags × Bytes × ℕ)

/-- The tree of an atom that is repeated, a simple one by a node of its own. -/
def repTree (plus simple isLazy : Bool) (r : Rx) : Rx :=
  match simple with
  | true =>
    match r with
    | .leaf l => .rep plus isLazy l
    | r => r
  | false => if plus then .loop1 r else .loop r

/-- The tree of an atom with a `*`, `+` or `?` behind it. -/
def multTree (op : Byte) (simple isLazy : Bool) (r : Rx) : Rx :=
  if op = ch '*' then repTree false simple isLazy r
  else if op = ch '+' then repTree true simple isLazy r
  else .opt r

/-- The reading of a `*`, `+` or `?` behind an atom. -/
def readMult (op : Byte) (r : Rx) (flags : Flags) (text : Bytes) (n : ℕ) : ReadTree :=
  if flags.hasWidth = false ∧ op ≠ ch '?' then .error (.error (str "*+ operand could be empty"))
  else if ismult ((behindMult op flags.simple text).headD 0) then .error (.error (str "nested *?+"))
  else pure (multTree op flags.simple (text.head? == some (ch '?')) r,
    if op = ch '+' then ⟨true,false,false⟩ else ⟨false,false,true⟩,behindMult op flags.simple text,n)

mutual

/-- A list of alternatives, with the parenthesis that may end it. -/
def read (sensitive : Bool) : ℕ → Bool → Bytes → ℕ → ReadTree
  | 0,_,_,_ => .error .fuel
  | fuel+1,paren,text,n =>
    if paren ∧ MAX_SUBX ≤ n then .error (.error (str "too many ()"))
    else do
      let (b,flags,text,n) ← readBranch sensitive fuel text (if paren then n+1 else n)
      let (a,flags,text,n) ← readAlts sensitive fuel b ⟨flags.hasWidth,false,flags.spStart⟩ text n
      let left ← ending paren text
      pure (a,flags,left,n)

/-- The list of alternatives that begins with `b`. -/
def readAlts (sensitive : Bool) : ℕ → Rx → Flags → Bytes → ℕ → ReadTree
  | 0,_,_,_,_ => .error .fuel
  | fuel+1,b,flagp,text,n =>
    match text with
    | [] => pure (.last b,flagp,[],n)
    | c::left =>
      if c = ch '|' ∨ c = ch '\n' then do
        let (b',flags,text,n) ← readBranch sensitive fuel left n
        let (a,flags,text,n) ← readAlts sensitive fuel b'
          ⟨flagp.hasWidth && flags.hasWidth,false,flagp.spStart || flags.spStart⟩ text n
        pure (.alt b a,flags,text,n)
      else pure (.last b,flagp,c::left,n)

def readBranch (sensitive : Bool) : ℕ → Bytes → ℕ → ReadTree
  | 0,_,_ => .error .fuel
  | fuel+1,text,n => readPieces sensitive fuel none WORST text n

/-- The pieces from `a` on, or all of them. -/
def readPieces (sensitive : Bool) : ℕ → Option Rx → Flags → Bytes → ℕ → ReadTree
  | 0,_,_,_,_ => .error .fuel
  | fuel+1,a,flagp,text,n =>
    match text with
    | [] => pure (a.getD (.leaf .nothing),flagp,[],n)
    | c::left =>
      if c = ch ')' ∨ c = ch '\n' ∨ c = ch '|' then pure (a.getD (.leaf .nothing),flagp,c::left,n)
      else do
        let (b,flags,text,n) ← readPiece sensitive fuel (c::left) n
        match a with
        | none =>
          readPieces sensitive fuel (some b)
            ⟨flagp.hasWidth || flags.hasWidth,false,flagp.spStart || flags.spStart⟩ text n
        | some a => do
          let (r,flags,text,n) ← readPieces sensitive fuel (some b)
            ⟨flagp.hasWidth || flags.hasWidth,false,flagp.spStart⟩ text n
          pure (.seq a r,flags,text,n)

def readPiece (sensitive : Bool) : ℕ → Bytes → ℕ → ReadTree
  | 0,_,_ => .error .fuel
  | fuel+1,text,n => do
    let (r,flags,text,n) ← readAtom sensitive fuel text n
    match text with
    | op::left => if ismult op then readMult op r flags left n else pure (r,flags,op::left,n)
    | [] => pure (r,flags,[],n)

def readAtom (sensitive : Bool) : ℕ → Bytes → ℕ → ReadTree
  | 0,_,_ => .error .fuel
  | fuel+1,text,n =>
    match text with
    | [] => .error (.error (str "internal urp"))
    | c::left =>
      if c = ch '^' then pure (.leaf .bol,WORST,left,n)
      else if c = ch '$' then pure (.leaf .eol,WORST,left,n)
      else if c = ch '.' then pure (.leaf .any,⟨true,true,false⟩,left,n)
      else if c = ch '[' then do
        let (neg,cs,left) ← parseClass sensitive left
        pure (.leaf (if neg then .anybut cs else .anyof cs),⟨true,true,false⟩,left,n)
      else if c = ch '(' then do
        let (a,flags,text,n') ← read sensitive fuel true left n
        pure (.group n a,⟨flags.hasWidth,false,flags.spStart⟩,text,n')
      else if c = ch '|' ∨ c = ch '\n' ∨ c = ch ')' then .error (.error (str "internal urp"))
      else if ismult c then .error (.error (str "?+* follows nothing"))
      else if c = ch '\\' then
        match left with
        | [] => .error (.error (str "trailing \\"))
        | d::rest =>
          if d = ch '<' then pure (.leaf .worda,WORST,rest,n)
          else if d = ch '>' then pure (.leaf .wordz,WORST,rest,n)
          else
            let (cs,left,one) := exactLoop none (d::rest)
            pure (.leaf (.exactly cs),⟨true,one,false⟩,left,n)
      else
        let (cs,left,one) := exactLoop none (c::left)
        pure (.leaf (.exactly cs),⟨true,one,false⟩,left,n)

end

end Smx.Regx
