import Smx.Compile.Compiler
import Smx.Compile.Run

/-! What compiled code says, apart from its bytes: literal texts and calls, nested as deep as
the calls are. A reader with the structure of the compiler gives the tree of a source text. -/
namespace Smx
open EmitM (emit capture liftExn)

/-- A piece of literal text. Of a call that breaks off the compiler keeps the percent sign
and loses the name. -/
inductive Piece
  | byte (c : Byte)
  | broken (name : Bytes) (ne : name ≠ [])

mutual

inductive Code
  | nil
  | out (text : List Piece) (rest : Code)
  | func (name : Bytes) (args : CodeArgs) (rest : Code)
  /-- the error message of a strict context, in the middle of the code -/
  | junk (c : Byte) (rest : Code)

inductive CodeArgs
  | nil
  | raw (quoted : Bool) (text : Bytes) (rest : CodeArgs)
  | code (body : Code) (rest : CodeArgs)

end

/-- The literal text as the compiler writes it. -/
def compText (text : List Piece) : Bytes :=
  text.map fun
    | .byte c => c
    | .broken _ _ => T_PCT

/-- The literal text as the source has it. -/
def sourceText (text : List Piece) : Bytes :=
  text.flatMap fun
    | .byte c => [c]
    | .broken name _ => T_PCT::name

def lit (s : Bytes) : List Piece := s.map .byte

@[simp] theorem compText_lit (s : Bytes) : compText (lit s) = s := by
  simp [compText,lit,Function.comp_def]

@[simp] theorem sourceText_nil : sourceText [] = [] := rfl

@[simp] theorem sourceText_broken (name : Bytes) (ne : name ≠ []) (text : List Piece) :
    sourceText (.broken name ne::text) = T_PCT::name ++ sourceText text := rfl

@[simp] theorem sourceText_lit (s : Bytes) : sourceText (lit s) = s := by
  induction s with
  | nil => rfl
  | cons c s ih => simpa [lit,sourceText] using ih

@[simp] theorem compText_append (a b : List Piece) :
    compText (a ++ b) = compText a ++ compText b := List.map_append

@[simp] theorem sourceText_append (a b : List Piece) :
    sourceText (a ++ b) = sourceText a ++ sourceText b := List.flatMap_append

@[simp] theorem compText_eq_nil_iff (text : List Piece) : compText text = [] ↔ text = [] :=
  List.map_eq_nil_iff

@[simp] theorem lit_eq_nil_iff (s : Bytes) : lit s = [] ↔ s = [] := List.map_eq_nil_iff

namespace Code

def append : Code → Code → Code
  | .nil,d => d
  | .out text rest,d => .out text (rest.append d)
  | .func name args rest,d => .func name args (rest.append d)
  | .junk c rest,d => .junk c (rest.append d)

/-- A literal record, unless there is nothing to write. -/
def flush (text : List Piece) (rest : Code) : Code := if text = [] then rest else .out text rest

@[simp] theorem flush_nil (rest : Code) : flush [] rest = rest := rfl

end Code

def CodeArgs.length : CodeArgs → ℕ
  | .nil => 0
  | .raw _ _ rest => rest.length+1
  | .code _ rest => rest.length+1

/-- The grammar of the parser and the compiler, without their effects. -/
structure Grammar where
  qmapOf : Bytes → Option Bytes
  strict : Bool

namespace Grammar
variable (G : Grammar)

mutual

/-- What `ParseFunc` reads after the percent sign, with the text that was waiting to be
written: the records, the input left and the text waiting afterwards. -/
def readFunc : ℕ → Bytes → List Piece → Code × Bytes × List Piece
  | 0,inp,buf => (.nil,inp,buf)
  | n+1,inp,buf =>
    let r := getC inp
    if isqsymf r.1 then readName n r.1 r.2 buf
    else if r.1 = EOF ∨ r.1 = T_PCT then (.nil,r.2,buf ++ lit [T_PCT])
    else if isPunct r.1 then
      (if G.strict then .junk r.1 .nil else .nil,r.1::r.2,buf ++ lit [T_PCT])
    else (.nil,r.2,buf ++ lit [T_PCT,r.1])

def readName : ℕ → Byte → Bytes → List Piece → Code × Bytes × List Piece
  | 0,_,inp,buf => (.nil,inp,buf)
  | n+1,c,inp,buf =>
    let s := scanName [c] inp
    if s.2.1 = T_LP then
      let q := argsStart (G.qmapOf s.1)
      let a := readArgs n q.1 q.2 s.2.2
      (.flush buf (.func s.1 a.1 .nil),a.2,[])
    else if s.2.1 = T_PCT then (.flush buf (.func s.1 .nil .nil),s.2.2,[])
    else (.nil,s.2.2,
      buf ++ .broken s.1 (scanName_ne_nil (by simp) _)::lit (if s.2.1 = EOF then [] else [s.2.1]))

def readArgs : ℕ → Bool → Bytes → Bytes → CodeArgs × Bytes
  | 0,qmode,_,inp => (if qmode then .raw false [] .nil else .code .nil .nil,inp)
  | n+1,qmode,map,inp =>
    let h := argHead inp
    if qmode || h.1 then
      let a := parseArgQuoted h.2.1 h.2.2
      if a.2.1 ∧ h.2.1 ≠ EOF then
        let q := qmapNext qmode map
        let r := readArgs n q.1 q.2 a.2.2
        (.raw h.1 a.1 r.1,r.2)
      else (.raw h.1 a.1 .nil,a.2.2)
    else
      let a := readArg n h.2.1 h.2.2
      if a.2.1 ∧ h.2.1 ≠ EOF then
        let q := qmapNext qmode map
        let r := readArgs n q.1 q.2 a.2.2
        (.code a.1 r.1,r.2)
      else (.code a.1 .nil,a.2.2)

def readArg : ℕ → Byte → Bytes → Code × Bool × Bytes
  | 0,_,inp => (.nil,false,inp)
  | n+1,c,inp =>
    let o := argOpen c inp
    readTurn n o.1 [] o.2.1 o.2.2

/-- The rest of an argument, from the character `c` on. -/
def readTurn : ℕ → ArgSt → Bytes → Byte → Bytes → Code × Bool × Bytes
  | 0,_,tmp,_,inp => (.flush (lit tmp) .nil,false,inp)
  | n+1,st,tmp,c,inp =>
    if c = T_ESC then
      let e := getC inp
      readLoop n { st with numsp := 0 } (if e.1 = EOF then tmp else tmp ++ [e.1]) e.2
    else if c = T_PCT then
      let f := readFunc n inp []
      let r := readLoop n { st with numsp := 0 } [] f.2.1
      (.flush (lit tmp) (f.1.append (.flush f.2.2 r.1)),r.2)
    else
      match argAct st c with
      | .put st' => readLoop n st' (tmp ++ [c]) inp
      | .skip st' => readLoop n st' tmp inp
      | .stop more => (.flush (lit (cutSpaces tmp st.numsp)) .nil,more,inp)

def readLoop : ℕ → ArgSt → Bytes → Bytes → Code × Bool × Bytes
  | 0,_,tmp,inp => (.flush (lit tmp) .nil,false,inp)
  | n+1,st,tmp,inp =>
    let r := getC inp
    if r.1 = EOF then (.flush (lit tmp) .nil,false,r.2) else readTurn n st tmp r.1 r.2

end

/-- What `Parse` reads, with the text waiting to be written. -/
def readParse : ℕ → Bytes → List Piece → Code
  | 0,_,buf => .flush buf .nil
  | n+1,inp,buf =>
    let r := getC inp
    if r.1 = EOF then .flush buf .nil
    else if r.1 = T_PCT then
      let f := G.readFunc n r.2 buf
      f.1.append (readParse n f.2.1 f.2.2)
    else readParse n r.2 (buf ++ lit [r.1])

/-- The tree of a source text. -/
def read (inp : Bytes) : Code := G.readParse (4*inp.length+4) inp []

end Grammar

mutual

/-- The bytes say what the tree says, with any keys. -/
def Encodes : Code → Bytes → Prop
  | .nil,bs => bs = []
  | .out text rest,bs => text ≠ [] ∧ ∃ rn bs',
      bs = baseBytes BC_OUT rn text.length ++ compText text ++ bs' ∧ Encodes rest bs'
  | .func name args rest,bs => name ≠ [] ∧ ∃ rn ary bs',
      bs = baseBytes BC_FUNC rn name.length ++ mask rn name ++ countBytes ary.length ++
        CompEnv.outArgs rn ary ++ bs' ∧ EncodesArgs args ary ∧ Encodes rest bs'
  | .junk c rest,bs => ∃ bs', bs = (invalidSyntax c).printed ++ bs' ∧ Encodes rest bs'

def EncodesArgs : CodeArgs → List Arg → Prop
  | .nil,ary => ary = []
  | .raw quoted text rest,ary => ∃ ary',
      ary = ⟨text,if quoted then .qstr else .str⟩::ary' ∧ EncodesArgs rest ary'
  | .code body rest,ary => ∃ bs ary', ary = ⟨bs,.cmp⟩::ary' ∧ Encodes body bs ∧ EncodesArgs rest ary'

end

mutual

/-- The length of any code for the tree. -/
def Code.size : Code → ℕ
  | .nil => 0
  | .out text rest => 8+text.length+rest.size
  | .func name args rest => 10+name.length+args.size+rest.size
  | .junk c rest => (invalidSyntax c).printed.length+rest.size

def CodeArgs.size : CodeArgs → ℕ
  | .nil => 0
  | .raw _ text rest => 4+text.length+rest.size
  | .code body rest => 4+body.size+rest.size

end

mutual

/-- Every length and count fits the field it is written to. -/
def Code.Fits : Code → Prop
  | .nil => True
  | .out text rest => text.length < 2^31 ∧ rest.Fits
  | .func name args rest =>
      name.length < 2^31 ∧ args.length ≤ 100 ∧ args.Fits ∧ rest.Fits
  | .junk _ rest => rest.size < 2^30

def CodeArgs.Fits : CodeArgs → Prop
  | .nil => True
  | .raw _ text rest => text.length < 2^30 ∧ rest.Fits
  | .code body rest => body.size < 2^30 ∧ body.Fits ∧ rest.Fits

end

mutual

/-- The text `Decompile` prints. It gives up at an error message. -/
def Code.print : Code → Bytes
  | .nil => []
  | .out text rest => compText text ++ rest.print
  | .func name args rest =>
      T_PCT::name ++
        (if args.length = 0 then [T_PCT] else T_LP::args.print ++ [T_RP]) ++ rest.print
  | .junk _ _ => []

def CodeArgs.print : CodeArgs → Bytes
  | .nil => []
  | .raw quoted text rest =>
      (if quoted then T_SQ::text else text) ++ (if rest.length = 0 then [] else [T_COMMA]) ++ rest.print
  | .code body rest =>
      body.print ++ (if rest.length = 0 then [] else [T_COMMA]) ++ rest.print

end

namespace Host
variable {σ ο : Type} (H : Host σ ο)

mutual

/-- Running a tree. `none` is thrown where `RunCompiled` goes on to read bytes as something
that they are not, or hands out code as an argument. -/
def runCode : Code → EmitM (Option Exn) Byte σ Unit
  | .nil => pure ()
  | .out text rest => do
    emit (compText text)
    runCode rest
  | .func name args rest => do
    let s ← EmitM.get
    match H.find s name with
    | some obj => do
      let ary ← runCodeArgs (runStart (H.getQmap obj)) args
      liftExn (H.eval obj (if args.length ≠ 0 then some ary else none))
      runCode rest
    | none =>
      if H.strict s then do
        liftExn (H.throwEx (notFound name))
        EmitM.throw none
      else do
        emit (T_PCT::name)
        emit (if args.length ≠ 0 then str "(...)" else [T_PCT])
        runCode rest
  | .junk _ _ => pure ()

def runCodeArgs : Byte × Option Bytes → CodeArgs → EmitM (Option Exn) Byte σ (List Arg)
  | _,.nil => pure []
  | q,.raw quoted text rest => do
    let arg ← (if ¬ quoted ∧ q.1 = ch '0' then do
        let r ← capture (liftExn (H.parse text))
        pure ⟨r.1,.str⟩
      else pure ⟨text,if quoted then .qstr else .str⟩)
    let ary ← runCodeArgs (runNext q.1 q.2) rest
    pure (arg::ary)
  | q,.code body rest => do
    let arg ← (if q.1 = ch '0' then do
        let r ← capture (runCode body)
        pure ⟨r.1,.str⟩
      else if q.1 ≠ ch '2' then pure ⟨body.print,.str⟩
      else EmitM.throw none)
    let ary ← runCodeArgs (runNext q.1 q.2) rest
    pure (arg::ary)

end

end Host
end Smx
