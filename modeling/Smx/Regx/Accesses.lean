import Smx.Regx.Compile
import Smx.Lib.Logged

/-! What `Compile` does to its memory. Where the parser goes depends on the pattern alone, so that its accesses can be
listed before they are made. -/
namespace Smx.Regx
open Logging

/-- An access to the code. The pointers that the functions of the parser hold come from `ParseNode`: each is given by
the number of the call. -/
inductive Access
  /-- `ParseC`, for each of the bytes -/
  | chars (bs : Bytes)
  | node (op : Op)
  | insert (op : Op) (opnd : ℕ)
  | tail (p val : ℕ)
  | opTail (p val : ℕ)
  /-- the loop of `Parse` over the branches -/
  | hook (ret ender : ℕ)
  /-- `ParseGrowBuf` -/
  | grow (n : ℕ)
  deriving DecidableEq

/-- What the parser keeps besides the code: the pattern that is left, the number of the next group and how many nodes
there have been. -/
structure Scan where
  parse : Bytes
  subx_count : ℕ
  nodes : ℕ

namespace Accesses

abbrev Listed (α : Type) := Logged Access Fail α

def access (a : Access) : Listed Unit := .tell [a]

/-- `FAIL` -/
def error {α : Type} (msg : String) : Listed α := .fail (.error (str msg))

/-- `ParseNode`: the node gets the next number. -/
def node (sc : Scan) (op : Op) : Listed (ℕ × Scan) := do
  access (.node op)
  pure (sc.nodes,{ sc with nodes := sc.nodes+1 })

/-- What a function of the parser gives: the number of its node, its flags, and the parser. -/
abbrev Parsed := Listed (ℕ × Flags × Scan)

/-- The loop over a bracket: the characters emitted, and the pattern from the `]` or its end, if the ranges are
valid. `prev` is the character in front. -/
def classChars (sensitive : Bool) : Byte → Bytes → Bytes × Option Bytes
  | _,[] => ([],some [])
  | prev,c::rest =>
    if c = ch ']' then ([],some (c::rest))
    else if c = ch '-' then
      match rest with
      | [] => ([c],some [])
      | d::rest =>
        if d = ch ']' then ([c],some (d::rest))
        else if d.toNat+1 < prev.toNat+1 then ([],none)
        else
          let (cs,left) := classChars sensitive d rest
          (classRange sensitive (prev.toNat+1) d.toNat ++ cs,left)
    else
      let (cs,left) := classChars sensitive c rest
      (c::cs,left)

/-- The characters of a bracket, of which the first may be a `]` or `-`. -/
def classBody (sensitive : Bool) : Bytes → Bytes × Option Bytes
  | [] => ([],some [])
  | c::rest =>
    if c = ch ']' ∨ c = ch '-' then
      let (cs,left) := classChars sensitive c rest
      (c::cs,left)
    else classChars sensitive (ch '[') (c::rest)

/-- The case `[` of `ParseAtom`. -/
def parseClass (sensitive : Bool) (sc : Scan) (text : Bytes) : Parsed := do
  let neg := text.head? = some (ch '^')
  let (ret,sc) ← node sc (if neg then .ANYBUT else .ANYOF)
  let (cs,left) := classBody sensitive (if neg then text.tail else text)
  match left with
  | none =>
    access (.chars cs)
    error "invalid [] range"
  | some left =>
    access (.chars (cs ++ [0]))
    match left with
    | [] => error "unmatched []"
    | _::left => pure (ret,⟨true,true,false⟩,{ sc with parse := left })

/-- The part of `ParseAtom` for ordinary characters. -/
def parseExact (sc : Scan) (text : Bytes) : Parsed := do
  let (cs,left,one) := exactLoop none text
  let (ret,sc) ← node sc .EXACTLY
  access (.chars (cs ++ [0]))
  pure (ret,⟨true,one,false⟩,{ sc with parse := left })

/-- A node without an operand. -/
def parseLeaf (sc : Scan) (op : Op) (flags : Flags) (text : Bytes) : Parsed := do
  let (ret,sc) ← node sc op
  pure (ret,flags,{ sc with parse := text })

/-- `x*` as `(x&|)`, where `&` means "self". -/
def star (ret : ℕ) (sc : Scan) : Listed Scan := do
  access (.insert .BRANCH ret)
  let (back,sc) ← node sc .BACK
  access (.opTail ret back)
  access (.opTail ret ret)
  let (br,sc) ← node sc .BRANCH
  access (.tail ret br)
  let (nothing,sc) ← node sc .NOTHING
  access (.tail ret nothing)
  pure sc

/-- `x+` as `x(&|)`. -/
def plus (ret : ℕ) (sc : Scan) : Listed Scan := do
  let (next,sc) ← node sc .BRANCH
  access (.tail ret next)
  let (back,sc) ← node sc .BACK
  access (.tail back ret)
  let (br,sc) ← node sc .BRANCH
  access (.tail next br)
  let (nothing,sc) ← node sc .NOTHING
  access (.tail ret nothing)
  pure sc

/-- `x?` as `(x|)`. -/
def quest (ret : ℕ) (sc : Scan) : Listed Scan := do
  access (.insert .BRANCH ret)
  let (br,sc) ← node sc .BRANCH
  access (.tail ret br)
  let (next,sc) ← node sc .NOTHING
  access (.tail ret next)
  access (.opTail ret next)
  pure sc

/-- The code of a `*`, `+` or `?` behind an atom at `ret`. -/
def emitMult (op : Byte) (simple isLazy : Bool) (ret : ℕ) (sc : Scan) : Listed Scan :=
  if op = ch '*' then
    if simple then do
      access (.insert (if isLazy then .STARX else .STAR) ret)
      pure sc
    else star ret sc
  else if op = ch '+' then
    if simple then do
      access (.insert (if isLazy then .PLUSX else .PLUS) ret)
      pure sc
    else plus ret sc
  else quest ret sc

/-- What `ParsePiece` does with a `*`, `+` or `?` behind an atom at `ret`; `text` is what follows it. -/
def parseMult (op : Byte) (ret : ℕ) (flags : Flags) (sc : Scan) (text : Bytes) : Parsed :=
  if flags.hasWidth = false ∧ op ≠ ch '?' then error "*+ operand could be empty"
  else do
    let sc ← emitMult op flags.simple (text.head? == some (ch '?')) ret sc
    let text := behindMult op flags.simple text
    if ismult (text.headD 0) then error "nested *?+"
    else pure (ret,if op = ch '+' then ⟨true,false,false⟩ else ⟨false,false,true⟩,{ sc with parse := text })

/-- The end of `Parse`: a closing node, to which the branches are hooked, and the check for proper termination. -/
def close (paren : Bool) (ret : ℕ) (op : Op) (flags : Flags) (sc : Scan) : Parsed := do
  let (ender,sc) ← node sc op
  access (.tail ret ender)
  access (.hook ret ender)
  match ending paren sc.parse with
  | .error e => .fail e
  | .ok left => pure (ret,flags,{ sc with parse := left })

mutual

/-- `Parse`: the main body, or what stands in parentheses. -/
def parse (sensitive : Bool) : ℕ → Bool → Scan → Parsed
  | 0,_,_ => .fail .fuel
  | fuel+1,true,sc =>
    let parno := sc.subx_count
    if MAX_SUBX ≤ parno then error "too many ()"
    else do
      let (ret,sc) ← node { sc with subx_count := parno+1 } (.OPEN parno)
      let (br,flags,sc) ← parseBranch sensitive fuel sc
      access (.tail ret br)
      let (flags,sc) ← parseAlts sensitive fuel ret ⟨flags.hasWidth,false,flags.spStart⟩ sc
      close true ret (.CLOSE parno) flags sc
  | fuel+1,false,sc => do
    let (ret,flags,sc) ← parseBranch sensitive fuel sc
    let (flags,sc) ← parseAlts sensitive fuel ret ⟨flags.hasWidth,false,flags.spStart⟩ sc
    close false ret .END flags sc

/-- The loop of `Parse` over the other alternatives. -/
def parseAlts (sensitive : Bool) : ℕ → ℕ → Flags → Scan → Listed (Flags × Scan)
  | 0,_,_,_ => .fail .fuel
  | fuel+1,ret,flagp,sc =>
    match sc.parse with
    | [] => pure (flagp,sc)
    | c::left =>
      if c = ch '|' ∨ c = ch '\n' then do
        let (br,flags,sc) ← parseBranch sensitive fuel { sc with parse := left }
        access (.tail ret br)
        parseAlts sensitive fuel ret
          ⟨flagp.hasWidth && flags.hasWidth,false,flagp.spStart || flags.spStart⟩ sc
      else pure (flagp,sc)

/-- `ParseBranch`: one alternative. -/
def parseBranch (sensitive : Bool) : ℕ → Scan → Parsed
  | 0,_ => .fail .fuel
  | fuel+1,sc => do
    let (ret,sc) ← node sc .BRANCH
    let (chain,flags,sc) ← parsePieces sensitive fuel none WORST sc
    if chain = none then do
      let (_,sc) ← node sc .NOTHING
      pure (ret,flags,sc)
    else pure (ret,flags,sc)

/-- The loop of `ParseBranch`; `chain` is the piece in front. -/
def parsePieces (sensitive : Bool) :
    ℕ → Option ℕ → Flags → Scan → Listed (Option ℕ × Flags × Scan)
  | 0,_,_,_ => .fail .fuel
  | fuel+1,chain,flagp,sc =>
    match sc.parse with
    | [] => pure (chain,flagp,sc)
    | c::_ =>
      if c = ch ')' ∨ c = ch '\n' ∨ c = ch '|' then pure (chain,flagp,sc)
      else do
        let (latest,flags,sc) ← parsePiece sensitive fuel sc
        match chain with
        | none =>
          parsePieces sensitive fuel (some latest)
            ⟨flagp.hasWidth || flags.hasWidth,false,flagp.spStart || flags.spStart⟩ sc
        | some chain => do
          access (.tail chain latest)
          parsePieces sensitive fuel (some latest)
            ⟨flagp.hasWidth || flags.hasWidth,false,flagp.spStart⟩ sc

/-- `ParsePiece`: an atom, and what may follow it. -/
def parsePiece (sensitive : Bool) : ℕ → Scan → Parsed
  | 0,_ => .fail .fuel
  | fuel+1,sc => do
    access (.grow 255)
    let (ret,flags,sc) ← parseAtom sensitive fuel sc
    match sc.parse with
    | op::left => if ismult op then parseMult op ret flags sc left else pure (ret,flags,sc)
    | [] => pure (ret,flags,sc)

/-- `ParseAtom`. -/
def parseAtom (sensitive : Bool) : ℕ → Scan → Parsed
  | 0,_ => .fail .fuel
  | fuel+1,sc =>
    match sc.parse with
    | [] => error "internal urp"
    | c::left =>
      if c = ch '^' then parseLeaf sc .BOL WORST left
      else if c = ch '$' then parseLeaf sc .EOL WORST left
      else if c = ch '.' then parseLeaf sc .ANY ⟨true,true,false⟩ left
      else if c = ch '[' then parseClass sensitive sc left
      else if c = ch '(' then do
        let (ret,flags,sc) ← parse sensitive fuel true { sc with parse := left }
        pure (ret,⟨flags.hasWidth,false,flags.spStart⟩,sc)
      else if c = ch '|' ∨ c = ch '\n' ∨ c = ch ')' then error "internal urp"
      else if ismult c then error "?+* follows nothing"
      else if c = ch '\\' then
        match left with
        | [] => error "trailing \\"
        | d::rest =>
          if d = ch '<' then parseLeaf sc .WORDA WORST rest
          else if d = ch '>' then parseLeaf sc .WORDZ WORST rest
          else parseExact sc left
      else parseExact sc sc.parse

end

end Accesses
end Smx.Regx
