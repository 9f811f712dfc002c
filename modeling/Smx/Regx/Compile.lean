import Smx.Regx.Code

/-! Compilation of a pattern, by recursive descent. -/
namespace Smx.Regx

/-- A sequence has a result when each of its steps has. -/
theorem ok_of_bind {ε α β : Type} {x : Except ε α} {f : α → Except ε β} {b : β} (h : x >>= f = .ok b) :
    ∃ a, x = .ok a ∧ f a = .ok b := by
  cases x with
  | error e => cases h
  | ok a => exact ⟨a,rfl,h⟩

/-- Why a compilation ends early. -/
inductive Fail
  /-- the message that `GetError` shows -/
  | error (msg : Bytes)
  /-- the buffer would have to grow, and with it the nodes would move away from the pointers to them -/
  | moved
  /-- something is written behind the end of the buffer -/
  | overrun
  /-- the fuel does not last -/
  | fuel
  deriving DecidableEq

/-- The code that has been emitted, the pattern that is left, and the number of the next group. -/
structure Parser where
  code : Bytes
  parse : Bytes
  subx_count : ℕ
  deriving DecidableEq

structure Flags where
  /-- known never to match the empty string -/
  hasWidth : Bool
  /-- simple enough for the operand of a `STAR` or `PLUS` -/
  simple : Bool
  /-- starts with `*` or `+` -/
  spStart : Bool
  deriving DecidableEq

def WORST : Flags := ⟨false,false,false⟩

/-- What a function of the parser gives: the position of its node, its flags, and the parser. -/
abbrev Parsed := Except Fail (ℕ × Flags × Parser)

/-- Bytes written at `m_code_ptr`. -/
def Parser.emit (ps : Parser) (b : Bytes) : Except Fail Parser :=
  if ps.code.length+b.length ≤ codeGrow then .ok { ps with code := ps.code ++ b } else .error .overrun

/-- `ParseNode`. -/
def Parser.node (ps : Parser) (op : Op) : Except Fail Parser := ps.emit (Regx.node op)

/-- `ParseTail`. -/
def Parser.tail (ps : Parser) (p val : ℕ) : Parser := { ps with code := parseTail ps.code p val }

/-- `ParseOpTail`. -/
def Parser.opTail (ps : Parser) (p val : ℕ) : Parser := { ps with code := parseOpTail ps.code p val }

/-- `ParseInsert`. -/
def Parser.insert (ps : Parser) (op : Op) (opnd : ℕ) : Except Fail Parser :=
  if ps.code.length+3 ≤ codeGrow then .ok { ps with code := parseInsert ps.code op opnd }
  else .error .overrun

/-- `ISMULT`. -/
def ismult (c : Byte) : Bool := c == ch '*' || c == ch '+' || c == ch '?'

/-- `toupper` in the C locale. -/
def toupper (c : Byte) : Byte := if 97 ≤ c ∧ c ≤ 122 then c-32 else c

/-- The characters `iclass` to `classend`, each in both cases unless case matters. -/
def classRange (sensitive : Bool) (iclass classend : ℕ) : Bytes :=
  (List.range' iclass (classend+1-iclass)).flatMap fun n =>
    let c := UInt8.ofNat n
    if sensitive then [c]
    else if 65 ≤ c ∧ c ≤ 90 ∨ 97 ≤ c ∧ c ≤ 122 then [tolower c,toupper c]
    else [c]

/-- The loop over a bracket: the characters emitted, and the pattern from the `]` or its end. `prev` is the
character in front. -/
def classLoop (sensitive : Bool) : Byte → Bytes → Except Fail (Bytes × Bytes)
  | _,[] => .ok ([],[])
  | prev,c::rest =>
    if c = ch ']' then .ok ([],c::rest)
    else if c = ch '-' then
      match rest with
      | [] => .ok ([c],[])
      | d::rest =>
        if d = ch ']' then .ok ([c],d::rest)
        else if d.toNat+1 < prev.toNat+1 then .error (.error (str "invalid [] range"))
        else do
          let (cs,left) ← classLoop sensitive d rest
          pure (classRange sensitive (prev.toNat+1) d.toNat ++ cs,left)
    else do
      let (cs,left) ← classLoop sensitive c rest
      pure (c::cs,left)

/-- The bracket has to end. -/
def closeClass (cs : Bytes) : Bytes → Except Fail (Bytes × Bytes)
  | [] => .error (.error (str "unmatched []"))
  | _::parse => .ok (cs,parse)

/-- The characters of a bracket, of which the first may be a `]` or `-`. -/
def classBody (sensitive : Bool) : Bytes → Except Fail (Bytes × Bytes)
  | [] => closeClass [] []
  | c::rest =>
    if c = ch ']' ∨ c = ch '-' then do
      let (cs,parse) ← classLoop sensitive c rest
      closeClass (c::cs) parse
    else do
      let (cs,parse) ← classLoop sensitive (ch '[') (c::rest)
      closeClass cs parse

/-- What stands behind a `[`: whether it is a complement, the characters, and what is left. -/
def parseClass (sensitive : Bool) (parse : Bytes) : Except Fail (Bool × Bytes × Bytes) :=
  if parse.head? = some (ch '^') then do
    let (cs,parse) ← classBody sensitive parse.tail
    pure (true,cs,parse)
  else do
    let (cs,parse) ← classBody sensitive parse
    pure (false,cs,parse)

/-- A character that ends a string of ordinary ones. -/
def ismagic (c : Byte) : Bool :=
  [ch '.',ch '[',ch '(',ch ')',ch '|',ch '\n',ch '$',ch '^'].contains c

/-- The loop over ordinary characters: the string, what is left, and whether it is one character.
`regprev` is where to go back to when a `*`, `+` or `?` takes the last character. -/
def exactLoop : Option Bytes → Bytes → Bytes × Bytes × Bool
  | regprev,[] => ([],[],regprev.isNone)
  | regprev,[c] => ([c],[],regprev.isNone)
  | regprev,c::d::rest =>
    if ismagic d then ([c],d::rest,regprev.isNone)
    else if ismult d then
      match regprev with
      | none => ([c],d::rest,true)
      | some parse => ([],parse,false)
    else if d = ch '\\' then
      match rest with
      | [] => ([c],d::rest,regprev.isNone)
      | e::rest =>
        if e = ch '<' ∨ e = ch '>' then ([c],d::e::rest,regprev.isNone)
        else
          let (cs,left,one) := exactLoop (some (d::e::rest)) (e::rest)
          (c::cs,left,one)
    else
      let (cs,left,one) := exactLoop (some (d::rest)) (d::rest)
      (c::cs,left,one)

theorem exactLoop_cons (regprev : Option Bytes) (c d : Byte) (rest : Bytes) :
    exactLoop regprev (c::d::rest) =
      if ismagic d then ([c],d::rest,regprev.isNone)
      else if ismult d then
        match regprev with
        | none => ([c],d::rest,true)
        | some parse => ([],parse,false)
      else if d = ch '\\' then
        match rest with
        | [] => ([c],d::rest,regprev.isNone)
        | e::rest =>
          if e = ch '<' ∨ e = ch '>' then ([c],d::e::rest,regprev.isNone)
          else
            let (cs,left,one) := exactLoop (some (d::e::rest)) (e::rest)
            (c::cs,left,one)
      else
        let (cs,left,one) := exactLoop (some (d::rest)) (d::rest)
        (c::cs,left,one) := by
  cases rest with
  | nil => rfl
  | cons e rest => rfl

/-- The part of `ParseAtom` for ordinary characters. -/
def parseExact (ps : Parser) (parse : Bytes) : Parsed := do
  let (cs,left,one) := exactLoop none parse
  let ps' ← ps.node .EXACTLY
  let ps' ← ps'.emit (cs ++ [0])
  pure (ps.code.length,⟨true,one,false⟩,{ ps' with parse := left })

/-- A node without an operand. -/
def parseLeaf (ps : Parser) (op : Op) (flags : Flags) (parse : Bytes) : Parsed := do
  let ps' ← ps.node op
  pure (ps.code.length,flags,{ ps' with parse := parse })

/-- `x*` as `(x&|)`, where `&` means "self". -/
def Parser.star (ps : Parser) (ret : ℕ) : Except Fail Parser := do
  let ps ← ps.insert .BRANCH ret
  let back := ps.code.length
  let ps ← ps.node .BACK
  let ps := (ps.opTail ret back).opTail ret ret
  let br := ps.code.length
  let ps ← ps.node .BRANCH
  let ps := ps.tail ret br
  let nothing := ps.code.length
  let ps ← ps.node .NOTHING
  pure (ps.tail ret nothing)

/-- `x+` as `x(&|)`. -/
def Parser.plus (ps : Parser) (ret : ℕ) : Except Fail Parser := do
  let next := ps.code.length
  let ps ← ps.node .BRANCH
  let ps := ps.tail ret next
  let back := ps.code.length
  let ps ← ps.node .BACK
  let ps := ps.tail back ret
  let br := ps.code.length
  let ps ← ps.node .BRANCH
  let ps := ps.tail next br
  let nothing := ps.code.length
  let ps ← ps.node .NOTHING
  pure (ps.tail ret nothing)

/-- `x?` as `(x|)`. -/
def Parser.quest (ps : Parser) (ret : ℕ) : Except Fail Parser := do
  let ps ← ps.insert .BRANCH ret
  let br := ps.code.length
  let ps ← ps.node .BRANCH
  let ps := ps.tail ret br
  let next := ps.code.length
  let ps ← ps.node .NOTHING
  pure ((ps.tail ret next).opTail ret next)

/-- The code of a `*`, `+` or `?` behind an atom at `ret`. -/
def emitMult (op : Byte) (simple isLazy : Bool) (ret : ℕ) (ps : Parser) : Except Fail Parser :=
  if op = ch '*' then
    if simple then ps.insert (if isLazy then .STARX else .STAR) ret else ps.star ret
  else if op = ch '+' then
    if simple then ps.insert (if isLazy then .PLUSX else .PLUS) ret else ps.plus ret
  else ps.quest ret

/-- The pattern behind a `*`, `+` or `?`, of which a `?` after a simple operand is a part. -/
def behindMult (op : Byte) (simple : Bool) (parse : Bytes) : Bytes :=
  if op ≠ ch '?' ∧ simple ∧ parse.head? = some (ch '?') then parse.tail else parse

/-- What `ParsePiece` does with a `*`, `+` or `?` behind an atom at `ret`; `parse` is what follows it. -/
def parseMult (op : Byte) (ret : ℕ) (flags : Flags) (ps : Parser) (parse : Bytes) : Parsed :=
  if flags.hasWidth = false ∧ op ≠ ch '?' then .error (.error (str "*+ operand could be empty"))
  else do
    let ps ← emitMult op flags.simple (parse.head? == some (ch '?')) ret ps
    let parse := behindMult op flags.simple parse
    if ismult (parse.headD 0) then .error (.error (str "nested *?+"))
    else pure (ret,if op = ch '+' then ⟨true,false,false⟩ else ⟨false,false,true⟩,{ ps with parse := parse })

/-- The check for proper termination, and the pattern behind it. -/
def ending (paren : Bool) (parse : Bytes) : Except Fail Bytes :=
  match paren,parse with
  | true,c::left => if c = ch ')' then .ok left else .error (.error (str "unmatched ()"))
  | true,[] => .error (.error (str "unmatched ()"))
  | false,[] => .ok []
  | false,c::_ => .error (.error (if c = ch ')' then str "unmatched ()" else str "junk on end"))

/-- The tails of the alternatives from `ret` on are hooked to a node at the end. -/
def Parser.close (ps : Parser) (ret ender : ℕ) : Parser :=
  let code := parseTail ps.code ret ender
  { ps with code := closeBranches ender code.length ret code }

mutual

/-- `Parse`: the main body, or what stands in parentheses. -/
def parse (sensitive : Bool) : ℕ → Bool → Parser → Parsed
  | 0,_,_ => .error .fuel
  | fuel+1,paren,ps =>
    let parno := ps.subx_count
    let ret := ps.code.length
    if paren ∧ MAX_SUBX ≤ parno then .error (.error (str "too many ()"))
    else do
      let ps ← if paren then Parser.node { ps with subx_count := parno+1 } (.OPEN parno) else pure ps
      let (br,flags,ps) ← parseBranch sensitive fuel ps
      let (flags,ps) ← parseAlts sensitive fuel ret ⟨flags.hasWidth,false,flags.spStart⟩
        (if paren then ps.tail ret br else ps)
      let ender := ps.code.length
      let ps ← ps.node (if paren then .CLOSE parno else .END)
      let left ← ending paren ps.parse
      pure (ret,flags,{ ps.close ret ender with parse := left })

/-- The loop of `Parse` over the other alternatives. -/
def parseAlts (sensitive : Bool) : ℕ → ℕ → Flags → Parser → Except Fail (Flags × Parser)
  | 0,_,_,_ => .error .fuel
  | fuel+1,ret,flagp,ps =>
    match ps.parse with
    | [] => pure (flagp,ps)
    | c::left =>
      if c = ch '|' ∨ c = ch '\n' then do
        let (br,flags,ps) ← parseBranch sensitive fuel { ps with parse := left }
        let ps := ps.tail ret br
        parseAlts sensitive fuel ret
          ⟨flagp.hasWidth && flags.hasWidth,false,flagp.spStart || flags.spStart⟩ ps
      else pure (flagp,ps)

/-- `ParseBranch`: one alternative. -/
def parseBranch (sensitive : Bool) : ℕ → Parser → Parsed
  | 0,_ => .error .fuel
  | fuel+1,ps => do
    let ret := ps.code.length
    let ps ← ps.node .BRANCH
    let (chain,flags,ps) ← parsePieces sensitive fuel none WORST ps
    let ps ← if chain = none then ps.node .NOTHING else pure ps
    pure (ret,flags,ps)

/-- The loop of `ParseBranch`; `chain` is the piece in front. -/
def parsePieces (sensitive : Bool) :
    ℕ → Option ℕ → Flags → Parser → Except Fail (Option ℕ × Flags × Parser)
  | 0,_,_,_ => .error .fuel
  | fuel+1,chain,flagp,ps =>
    match ps.parse with
    | [] => pure (chain,flagp,ps)
    | c::_ =>
      if c = ch ')' ∨ c = ch '\n' ∨ c = ch '|' then pure (chain,flagp,ps)
      else do
        let (latest,flags,ps) ← parsePiece sensitive fuel ps
        match chain with
        | none =>
          parsePieces sensitive fuel (some latest)
            ⟨flagp.hasWidth || flags.hasWidth,false,flagp.spStart || flags.spStart⟩ ps
        | some chain =>
          parsePieces sensitive fuel (some latest)
            ⟨flagp.hasWidth || flags.hasWidth,false,flagp.spStart⟩ (ps.tail chain latest)

/-- `ParsePiece`: an atom, and what may follow it. -/
def parsePiece (sensitive : Bool) : ℕ → Parser → Parsed
  | 0,_ => .error .fuel
  | fuel+1,ps =>
    if codeGrow < ps.code.length+255 then .error .moved
    else do
      let (ret,flags,ps) ← parseAtom sensitive fuel ps
      match ps.parse with
      | op::left => if ismult op then parseMult op ret flags ps left else pure (ret,flags,ps)
      | [] => pure (ret,flags,ps)

/-- `ParseAtom`. -/
def parseAtom (sensitive : Bool) : ℕ → Parser → Parsed
  | 0,_ => .error .fuel
  | fuel+1,ps =>
    match ps.parse with
    | [] => .error (.error (str "internal urp"))
    | c::left =>
      if c = ch '^' then parseLeaf ps .BOL WORST left
      else if c = ch '$' then parseLeaf ps .EOL WORST left
      else if c = ch '.' then parseLeaf ps .ANY ⟨true,true,false⟩ left
      else if c = ch '[' then do
        let (neg,cs,left) ← parseClass sensitive left
        let ps' ← ps.node (if neg then .ANYBUT else .ANYOF)
        let ps' ← ps'.emit (cs ++ [0])
        pure (ps.code.length,⟨true,true,false⟩,{ ps' with parse := left })
      else if c = ch '(' then do
        let (ret,flags,ps) ← parse sensitive fuel true { ps with parse := left }
        pure (ret,⟨flags.hasWidth,false,flags.spStart⟩,ps)
      else if c = ch '|' ∨ c = ch '\n' ∨ c = ch ')' then .error (.error (str "internal urp"))
      else if ismult c then .error (.error (str "?+* follows nothing"))
      else if c = ch '\\' then
        match left with
        | [] => .error (.error (str "trailing \\"))
        | d::rest =>
          if d = ch '<' then parseLeaf ps .WORDA WORST rest
          else if d = ch '>' then parseLeaf ps .WORDZ WORST rest
          else parseExact ps left
      else parseExact ps ps.parse

end

/-- A pattern that has been compiled. -/
structure Program where
  code : Bytes
  /-- the character every match starts with, zero if none is known -/
  start : Byte
  anchor : Bool
  /-- a string every match contains -/
  must : Option Bytes
  deriving DecidableEq

/-- The longest string among the nodes of a chain, the last of them where several are longest. -/
def longest (code : Bytes) : ℕ → ℕ → Option Bytes → Option Bytes
  | 0,_,best => best
  | fuel+1,scan,best =>
    let best :=
      if opAt code scan = .EXACTLY ∧ (best.getD []).length ≤ (operand code scan).length then
        some (operand code scan)
      else best
    match parseNext code scan with
    | none => best
    | some scan => longest code fuel scan best

/-- `Compile`, on an object without code. -/
def compile (sensitive : Bool) (exp : Bytes) : Except Fail Program := do
  let (_,flags,ps) ← parse sensitive (5*exp.length+5) false ⟨[MAGIC],exp,1⟩
  let code := ps.code
  match parseNext code 1 with
  | some ender =>
    if opAt code ender = .END then
      pure ⟨code,if opAt code 4 = .EXACTLY then (operand code 4).headD 0 else 0,opAt code 4 = .BOL,
        if flags.spStart then longest code code.length 4 none else none⟩
    else pure ⟨code,0,false,none⟩
  | none => pure ⟨code,0,false,none⟩

end Smx.Regx
