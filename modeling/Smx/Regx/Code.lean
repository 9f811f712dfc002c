import Smx.Base.Bytes

/-! The programs that patterns are compiled to: nodes of an opcode and two bytes that lead to the next
node, followed by an operand. -/
namespace Smx.Regx

def MAX_SUBX : ℕ := 35
/-- `s_code_grow`: the buffer grows by so much. -/
def codeGrow : ℕ := 2048

/-- The opcodes that `MatchX` knows. -/
inductive Op
  | END
  | BOL
  | EOL
  | ANY
  | ANYOF
  | ANYBUT
  | BRANCH
  | BACK
  | EXACTLY
  | NOTHING
  | STAR
  | PLUS
  | WORDA
  | WORDZ
  | STARX
  | PLUSX
  | OPEN (n : ℕ)
  | CLOSE (n : ℕ)
  | invalid
  deriving DecidableEq, Repr

/-- The byte of an opcode; `CLOSE` stands behind all of the `OPEN`. -/
def Op.byte : Op → Byte
  | END => 0
  | BOL => 1
  | EOL => 2
  | ANY => 3
  | ANYOF => 4
  | ANYBUT => 5
  | BRANCH => 6
  | BACK => 7
  | EXACTLY => 8
  | NOTHING => 9
  | STAR => 10
  | PLUS => 11
  | WORDA => 12
  | WORDZ => 13
  | STARX => 14
  | PLUSX => 15
  | OPEN n => UInt8.ofNat (20+n)
  | CLOSE n => UInt8.ofNat (20+MAX_SUBX+1+n)
  | invalid => 255

def MAGIC : Byte := UInt8.ofNat (20+MAX_SUBX+1+MAX_SUBX+1)

/-- The cases of the `switch` in `MatchX`, of which nine are for `OPEN` and nine for `CLOSE`. -/
def decode (b : Byte) : Op :=
  match b.toNat with
  | 0 => .END
  | 1 => .BOL
  | 2 => .EOL
  | 3 => .ANY
  | 4 => .ANYOF
  | 5 => .ANYBUT
  | 6 => .BRANCH
  | 7 => .BACK
  | 8 => .EXACTLY
  | 9 => .NOTHING
  | 10 => .STAR
  | 11 => .PLUS
  | 12 => .WORDA
  | 13 => .WORDZ
  | 14 => .STARX
  | 15 => .PLUSX
  | n =>
    if 21 ≤ n ∧ n ≤ 29 then .OPEN (n-20)
    else if 57 ≤ n ∧ n ≤ 65 then .CLOSE (n-56)
    else .invalid

/-- `OP`. -/
def opAt (code : Bytes) (p : ℕ) : Op := decode (code.getD p 0)

/-- `NEXT`: high byte first. -/
def offsetAt (code : Bytes) (p : ℕ) : ℕ := (code.getD (p+1) 0).toNat*256+(code.getD (p+2) 0).toNat

/-- The string at `OPERAND`. -/
def operand (code : Bytes) (p : ℕ) : Bytes := cstr (code.drop (p+3))

/-- `ParseNext`. -/
def parseNext (code : Bytes) (p : ℕ) : Option ℕ :=
  if offsetAt code p = 0 then none
  else if opAt code p = .BACK then some (p-offsetAt code p)
  else some (p+offsetAt code p)

/-- The last node of the chain from `scan`; a chain has at most one node for each byte. -/
def lastOf (code : Bytes) : ℕ → ℕ → ℕ
  | 0,scan => scan
  | fuel+1,scan =>
    match parseNext code scan with
    | none => scan
    | some temp => lastOf code fuel temp

/-- The two bytes that `ParseTail` writes. -/
def setOffset (code : Bytes) (p offset : ℕ) : Bytes :=
  (code.set (p+1) (UInt8.ofNat (offset/256%256))).set (p+2) (UInt8.ofNat (offset%256))

/-- `ParseTail`. -/
def parseTail (code : Bytes) (p val : ℕ) : Bytes :=
  let scan := lastOf code code.length p
  setOffset code scan (if opAt code scan = .BACK then scan-val else val-scan)

/-- `ParseOpTail`. -/
def parseOpTail (code : Bytes) (p val : ℕ) : Bytes :=
  if opAt code p = .BRANCH then parseTail code (p+3) val else code

/-- `ParseOpTail` on each node of the chain from `br`. -/
def closeBranches (val : ℕ) : ℕ → ℕ → Bytes → Bytes
  | 0,_,code => code
  | fuel+1,br,code =>
    let code := parseOpTail code br val
    match parseNext code br with
    | none => code
    | some br => closeBranches val fuel br code

/-- The bytes of `ParseNode`. -/
def node (op : Op) : Bytes := [op.byte,0,0]

/-- `ParseInsert`: a node in front of an operand that is there. -/
def parseInsert (code : Bytes) (op : Op) (opnd : ℕ) : Bytes :=
  code.take opnd ++ node op ++ code.drop opnd

end Smx.Regx
