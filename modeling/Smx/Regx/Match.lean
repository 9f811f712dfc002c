import Smx.Regx.Code

/-! Matching: the search through a program, and what the object keeps of it for the next call. -/
namespace Smx.Regx

/-- `isalnum`, or `_`. -/
def isword (c : Byte) : Bool :=
  (48 ≤ c && c ≤ 57) || (65 ≤ c && c ≤ 90) || (97 ≤ c && c ≤ 122) || c == ch '_'

/-- The characters `a` and `b` are one, or one without regard to case. -/
def sameChar (sensitive : Bool) (a b : Byte) : Bool :=
  if sensitive then a == b else tolower a == tolower b

/-- `strncmp` or `strnicmp` of a text with an operand says that they begin alike. -/
def beginsWith (sensitive : Bool) : Bytes → Bytes → Bool
  | [],_ => true
  | _::_,[] => false
  | a::opnd,b::text => sameChar sensitive a b && beginsWith sensitive opnd text

/-- What is recorded of the groups: the highest number met, and for each group the addresses of its start
and end. -/
@[ext] structure Slots where
  subx_count : ℤ
  startp : ℕ → Option ℕ
  endp : ℕ → Option ℕ

/-- What `OPEN` does before it goes on. -/
def Slots.open (sl : Slots) (no : ℕ) : Slots :=
  if sl.subx_count < no then
    ⟨no,Function.update sl.startp no none,Function.update sl.endp no none⟩
  else sl

/-- What `OPEN` does after a success. -/
def Slots.setStart (sl : Slots) (no save : ℕ) : Slots :=
  { sl with startp := Function.update sl.startp no (some save) }

/-- What `CLOSE` does after a success. -/
def Slots.setEnd (sl : Slots) (no save : ℕ) : Slots :=
  if sl.endp no = none then { sl with endp := Function.update sl.endp no (some save) } else sl

/-- A call of `MatchX` that has returned: success or failure, the input pointer and the groups. -/
abbrev Return := Bool × ℕ × Slots

/-- Try, and otherwise go on. -/
def attempt (x : Option Return) (otherwise : Slots → Option Return) : Option Return :=
  match x with
  | none => none
  | some (true,r) => some (true,r)
  | some (false,_,sl) => otherwise sl

/-- Record something after a success. -/
def onSuccess (x : Option Return) (record : Slots → Slots) : Option Return :=
  match x with
  | some (true,j,sl) => some (true,j,record sl)
  | r => r

/-- What is searched: the text `subj`, which stands at the address `input` and is followed by a zero byte. -/
structure Subject where
  sensitive : Bool
  input : ℕ
  subj : Bytes

namespace Subject
variable (T : Subject) (code : Bytes)

/-- `*m_input_ptr`. -/
def at_ (i : ℕ) : Byte := T.subj.getD i 0

/-- `MatchRepeat`: how many characters a simple node takes. -/
def matchRepeat (p i : ℕ) : ℕ :=
  let scan := T.subj.drop i
  let opnd := operand code p
  match opAt code p with
  | .ANY => scan.length
  | .EXACTLY => (scan.takeWhile fun c => sameChar T.sensitive (opnd.headD 0) c).length
  | .ANYOF => (scan.takeWhile fun c => opnd.contains c).length
  | .ANYBUT => (scan.takeWhile fun c => !opnd.contains c).length
  | _ => 0

/-- The test that saves useless attempts: where the next node is a string, its first character. -/
def lookahead (next : Option ℕ) (i : ℕ) : Bool :=
  let nextch :=
    match next with
    | some n => if opAt code n = .EXACTLY then (operand code n).headD 0 else 0
    | none => 0
  nextch == 0 || sameChar T.sensitive (T.at_ i) nextch

/-- The loop of `STAR` and `PLUS`: from `no` down to `min`. -/
def greedy (go : ℕ → Slots → Option Return) (look : ℕ → Bool) (save min : ℕ) :
    ℕ → Slots → Option Return
  | 0,sl =>
    if 0 < min then some (false,save,sl)
    else attempt (if look save then go save sl else some (false,save,sl)) fun sl =>
      some (false,save-1,sl)
  | no+1,sl =>
    if no+1 < min then some (false,save+(no+1),sl)
    else attempt (if look (save+(no+1)) then go (save+(no+1)) sl else some (false,save+(no+1),sl)) fun sl =>
      greedy go look save min no sl

/-- The loop of `STARX` and `PLUSX`: `left` more numbers from `no` upwards. -/
def lazy (go : ℕ → Slots → Option Return) (look : ℕ → Bool) (save : ℕ) :
    ℕ → ℕ → Slots → Option Return
  | 0,no,sl => some (false,save+no,sl)
  | left+1,no,sl =>
    attempt (if look (save+no) then go (save+no) sl else some (false,save+no,sl)) fun sl =>
      lazy go look save left (no+1) sl

/-- The loop over a chain of `BRANCH`. -/
def branches (go : ℕ → Slots → Option Return) (i : ℕ) : ℕ → ℕ → Slots → Option Return
  | 0,_,_ => none
  | fuel+1,scan,sl =>
    attempt (go (scan+3) sl) fun sl =>
      match parseNext code scan with
      | some n => if opAt code n = .BRANCH then branches go i fuel n sl else some (false,i,sl)
      | none => some (false,i,sl)

/-- `MatchX`, where a call on a null pointer fails; `none` when the fuel does not last. -/
def matchX : ℕ → Option ℕ → ℕ → Slots → Option Return
  | 0,_,_,_ => none
  | _+1,none,i,sl => some (false,i,sl)
  | fuel+1,some scan,i,sl =>
    let next := parseNext code scan
    let opnd := operand code scan
    match opAt code scan with
    | .BOL => if i ≠ 0 then some (false,i,sl) else matchX fuel next i sl
    | .EOL => if T.at_ i ≠ 0 then some (false,i,sl) else matchX fuel next i sl
    | .WORDA =>
      if ¬isword (T.at_ i) then some (false,i,sl)
      else if 0 < i ∧ isword (T.at_ (i-1)) then some (false,i,sl)
      else matchX fuel next i sl
    | .WORDZ => if isword (T.at_ i) then some (false,i,sl) else matchX fuel next i sl
    | .ANY => if T.at_ i = 0 then some (false,i,sl) else matchX fuel next (i+1) sl
    | .EXACTLY =>
      if opnd.headD 0 ≠ T.at_ i then some (false,i,sl)
      else if 1 < opnd.length ∧ ¬beginsWith T.sensitive opnd (T.subj.drop i) then some (false,i,sl)
      else matchX fuel next (i+opnd.length) sl
    | .ANYOF =>
      if T.at_ i = 0 ∨ T.at_ i ∉ opnd then some (false,i,sl) else matchX fuel next (i+1) sl
    | .ANYBUT =>
      if T.at_ i = 0 ∨ T.at_ i ∈ opnd then some (false,i,sl) else matchX fuel next (i+1) sl
    | .NOTHING | .BACK => matchX fuel next i sl
    | .OPEN no => onSuccess (matchX fuel next i (sl.open no)) (·.setStart no (T.input+i))
    | .CLOSE no => onSuccess (matchX fuel next i sl) (·.setEnd no (T.input+i))
    | .BRANCH =>
      match next with
      | some n =>
        if opAt code n = .BRANCH then
          branches code (fun p sl => matchX fuel (some p) i sl) i code.length scan sl
        else matchX fuel (some (scan+3)) i sl
      | none => matchX fuel (some (scan+3)) i sl
    | .STAR =>
      greedy (matchX fuel next) (T.lookahead code next) i 0 (T.matchRepeat code (scan+3) i) sl
    | .PLUS =>
      greedy (matchX fuel next) (T.lookahead code next) i 1 (T.matchRepeat code (scan+3) i) sl
    | .STARX => lazy (matchX fuel next) (T.lookahead code next) i (T.matchRepeat code (scan+3) i+1) 0 sl
    | .PLUSX => lazy (matchX fuel next) (T.lookahead code next) i (T.matchRepeat code (scan+3) i) 1 sl
    | .END => some (true,i,sl)
    | .invalid => some (false,i,sl)

end Subject
end Smx.Regx
