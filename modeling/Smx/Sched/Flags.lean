import Smx.Lib.Tokens
import Smx.Sched.Elem

/-! The flags of an event: the days, months and times that its flag strings list. -/
namespace Smx

/-- An event, and the errors that were found in its flag strings. -/
structure FlagElem where
  e : SchedElem
  errs : Bytes

namespace FlagElem

/-- `ErrAdd` -/
def errAdd (s : FlagElem) (p t : Bytes) : FlagElem :=
  { s with errs := s.errs ++ (str "Bad " ++ t ++ str " at " ++ p.take 3 ++ str "...\n") }

/-- `Field |= (0x1 << Index)` on an `int`. -/
def orBit (field : ℤ) (i : ℕ) : ℤ := (BitVec.ofInt 32 field ||| BitVec.twoPow 32 i).toInt

/-- `BitSet`: its result, and the field. -/
def bitSet (field : ℤ) (bits i : ℤ) : Bool × ℤ :=
  if 0 ≤ i ∧ i < bits then (orBit field i.toNat != 0,orBit field i.toNat) else (false,field)

/-- `BitSetX` -/
def bitSetX (field1 field2 bits i : ℤ) : Bool × ℤ × ℤ :=
  if i < 32 then
    if 0 ≤ i then (orBit field1 i.toNat != 0,orBit field1 i.toNat,field2) else (false,field1,field2)
  else if i < bits-32 then (orBit field2 i.toNat != 0,field1,orBit field2 i.toNat)
  else (false,field1,field2)

/-- `SetMonth(int)` -/
def setMonth (s : FlagElem) (i : ℤ) : Bool × FlagElem :=
  let (ok,month) := bitSet s.e.month 12 i
  (ok,{ s with e := { s.e with month := month } })

/-- `SetDayW(int)` -/
def setDayW (s : FlagElem) (i : ℤ) : Bool × FlagElem :=
  let (ok,dayW) := bitSet s.e.dayW 7 i
  (ok,{ s with e := { s.e with dayW := dayW } })

/-- `SetDayM(int)` -/
def setDayM (s : FlagElem) (i : ℤ) : Bool × FlagElem :=
  let (ok,dayM) := bitSet s.e.dayM 31 i
  (ok,{ s with e := { s.e with dayM := dayM } })

/-- `SetMin(int)`, which sets the field of the hours. -/
def setMin (s : FlagElem) (i : ℤ) : Bool × FlagElem :=
  let (ok,hour) := bitSet s.e.hour 24 i
  (ok,{ s with e := { s.e with hour := hour } })

/-- `SetHour(int)`, which sets the fields of the minutes. -/
def setHour (s : FlagElem) (i : ℤ) : Bool × FlagElem :=
  let (ok,min1,min2) := bitSetX s.e.min1 s.e.min2 60 i
  (ok,{ s with e := { s.e with min1 := min1,min2 := min2 } })

/-- `SetSec(int)` -/
def setSec (s : FlagElem) (i : ℤ) : Bool × FlagElem :=
  let (ok,sec1,sec2) := bitSetX s.e.sec1 s.e.sec2 60 i
  (ok,{ s with e := { s.e with sec1 := sec1,sec2 := sec2 } })

/-- The loop of `SetNumeric`: whether there was an error, and the event. -/
def setNumeric (setBit : FlagElem → ℤ → Bool × FlagElem) (t : Bytes) :
    ℕ → Bool → FlagElem → Bytes → Option (Bool × FlagElem)
  | 0,_,_,_ => none
  | _+1,err,s,[] => some (err,s)
  | fuel+1,err,s,c::p =>
    let p := (c::p).dropWhile fun c => !isdigit c
    if p = [] then setNumeric setBit t fuel err s p
    else
      -- `e` is where the number ends, but the pointer stays in front of it
      let (ok,s) := setBit s (atoi p)
      if ok then setNumeric setBit t fuel err s p else setNumeric setBit t fuel true (s.errAdd p t) p

/-- What the loops of `SetDayW` and `SetMonth` keep. -/
structure Scan where
  err : Bool
  s : FlagElem
  p : Bytes

/-- `err = ErrAdd(p, t)` -/
def fails (t : Bytes) (x : Scan) : Scan := { x with err := true,s := x.s.errAdd x.p t }

/-- A value is set, and `p` moves on. -/
def sets (set : FlagElem → ℤ → Bool × FlagElem) (i : ℤ) (n : ℕ) (x : Scan) : Scan :=
  { x with s := (set x.s i).2,p := x.p.drop n }

/-- Two spellings of what stands behind a character, and the values of them. -/
def two (set : FlagElem → ℤ → Bool × FlagElem) (t : Bytes) (a : Byte) (i : ℤ) (b : Byte) (j : ℤ) (x : Scan) : Scan :=
  if x.p.getD 1 0 = a then sets set i 1 x
  else if x.p.getD 1 0 = b then sets set j 1 x
  else fails t x

/-- The cases of the `switch` in `SetDayW`. Each falls through to the next one, and the last to `default`; three of them
set a month. -/
def dayWF (x : Scan) : Scan := fails (str "dw") (sets setMonth 5 0 x)
def dayWW (x : Scan) : Scan := dayWF (sets setMonth 3 0 x)
def dayWM (x : Scan) : Scan := dayWW (sets setMonth 1 0 x)
def dayWT (x : Scan) : Scan := dayWM (two setDayW (str "dw") (ch 'u') 2 (ch 'h') 4 x)
def dayWS (x : Scan) : Scan := dayWT (two setDayW (str "dw") (ch 'u') 0 (ch 'a') 6 x)

/-- The `switch` in `SetDayW`. -/
def dayWTurn (x : Scan) : Scan :=
  let c := x.p.getD 0 0
  if c = ch 'S' then dayWS x
  else if c = ch 'T' then dayWT x
  else if c = ch 'M' then dayWM x
  else if c = ch 'W' then dayWW x
  else if c = ch 'F' then dayWF x
  else fails (str "dw") x

/-- The cases of the `switch` in `SetMonth`. -/
def monthS (x : Scan) : Scan := fails (str "mm") (sets setMonth 8 0 x)
def monthO (x : Scan) : Scan := monthS (sets setMonth 9 0 x)
def monthN (x : Scan) : Scan := monthO (sets setMonth 10 0 x)
def monthD (x : Scan) : Scan := monthN (sets setMonth 11 0 x)
def monthF (x : Scan) : Scan := monthD (sets setMonth 1 0 x)
def monthA (x : Scan) : Scan := monthF (two setMonth (str "mm") (ch 'u') 7 (ch 'p') 3 x)

def monthM (x : Scan) : Scan :=
  monthA
    (if x.p.getD 1 0 = ch 'y' then sets setMonth 4 1 x
    else if x.p.getD 1 0 = ch 'r' then sets setMonth 2 1 x
    else if x.p.getD 1 0 = ch 'a' then if x.p.getD 2 0 = ch 'y' then sets setMonth 4 2 x else sets setMonth 2 1 x
    else fails (str "mm") x)

def monthJ (x : Scan) : Scan :=
  monthM
    (if x.p.getD 1 0 = ch 'a' then sets setMonth 0 1 x
    else if x.p.getD 1 0 = ch 'u' then
      if x.p.getD 2 0 = ch 'n' then sets setMonth 5 2 x
      else if x.p.getD 2 0 = ch 'l' then sets setMonth 6 2 x
      -- the tests of `p[1]` for `e` and `y` hang on this `if`, behind its test for `u`
      else if x.p.getD 1 0 = ch 'e' then sets setMonth 5 1 x
      else if x.p.getD 1 0 = ch 'y' then sets setMonth 6 1 x
      else fails (str "mm") x
    else x)

/-- The `switch` in `SetMonth`. -/
def monthTurn (x : Scan) : Scan :=
  let c := x.p.getD 0 0
  if c = ch 'J' then monthJ x
  else if c = ch 'M' then monthM x
  else if c = ch 'A' then monthA x
  else if c = ch 'F' then monthF x
  else if c = ch 'D' then monthD x
  else if c = ch 'N' then monthN x
  else if c = ch 'O' then monthO x
  else if c = ch 'S' then monthS x
  else fails (str "mm") x

/-- The loops of `SetDayW` and `SetMonth`. -/
def setNames (turn : Scan → Scan) : ℕ → Scan → Option (Bool × FlagElem)
  | 0,_ => none
  | fuel+1,x =>
    if x.p = [] then some (x.err,x.s)
    else
      let x := turn x
      setNames turn fuel { x with p := x.p.drop 1 }

end FlagElem

/-- The fields of flags, which hold a bit for each value up to a bound. -/
inductive FlagField
  | month
  | dayM
  | dayW
  | hour
  | min
  | sec
  deriving DecidableEq

def FlagField.size : FlagField → ℕ
  | .month => 12
  | .dayM => 31
  | .dayW => 7
  | .hour => 24
  | .min | .sec => 60

/-- A bit of a field; the minutes and the seconds take two words each. -/
def SchedElem.flag (e : SchedElem) (f : FlagField) (i : ℕ) : Bool :=
  let bit (word : ℤ) (i : ℕ) := (BitVec.ofInt 32 word).getLsbD i
  match f with
  | .month => bit e.month i
  | .dayM => bit e.dayM i
  | .dayW => bit e.dayW i
  | .hour => bit e.hour i
  | .min => if i < 32 then bit e.min1 i else bit e.min2 (i-32)
  | .sec => if i < 32 then bit e.sec1 i else bit e.sec2 (i-32)

/-- An event without its flags. -/
def SchedElem.unflagged (e : SchedElem) : SchedElem :=
  { e with sec1 := 0,sec2 := 0,min1 := 0,min2 := 0,hour := 0,dayW := 0,dayM := 0,month := 0 }

def dayNames : List (Bytes × ℕ) :=
  [(str "Su",0),(str "M",1),(str "Tu",2),(str "W",3),(str "Th",4),(str "F",5),(str "Sa",6)]

/-- The abbreviations that `SetMonth` looks for. -/
def monthNames : List (Bytes × ℕ) :=
  [(str "Ja",0),(str "F",1),(str "Mr",2),(str "Ma",2),(str "Ap",3),(str "My",4),(str "May",4),(str "Jun",5),
    (str "Je",5),(str "Jul",6),(str "Jy",6),(str "Au",7),(str "S",8),(str "O",9),(str "N",10),(str "D",11)]

/-- A name from a list, with the value that it stands for. -/
structure FlagName (known : List (Bytes × ℕ)) where
  text : Bytes
  value : ℕ
  mem : (text,value) ∈ known

/-- A call that sets flags from a string: a list of numbers, or the names of days or months one after the other. -/
inductive FlagCall
  | dayM (p : Bytes)
  | hour (p : Bytes)
  | min (p : Bytes)
  | sec (p : Bytes)
  | dayW (names : List (FlagName dayNames))
  | month (names : List (FlagName monthNames))

namespace FlagCall

def field : FlagCall → FlagField
  | dayM _ => .dayM
  | hour _ => .hour
  | min _ => .min
  | sec _ => .sec
  | dayW _ => .dayW
  | month _ => .month

/-- A number is one of the rows of digits in a text. -/
def Numbers (p : Bytes) (n : ℕ) : Prop :=
  ∃ rows, Tokens.Runs (fun c => !isdigit c) p rows ∧ ∃ row ∈ rows, digitsValue 0 row = n

/-- The values that the string of a call lists. -/
def Listed : FlagCall → ℕ → Prop
  | dayM p | hour p | min p | sec p => Numbers (cstr p)
  | dayW names => fun n => ∃ name ∈ names, name.value = n
  | month names => fun n => ∃ name ∈ names, name.value = n

/-- The call: whether it reports an error, and the event. -/
def run (s : FlagElem) (fuel : ℕ) : FlagCall → Option (Bool × FlagElem)
  | dayM p => FlagElem.setNumeric FlagElem.setDayM (str "mm") fuel false s (cstr p)
  | hour p => FlagElem.setNumeric FlagElem.setHour (str "hh") fuel false s (cstr p)
  | min p => FlagElem.setNumeric FlagElem.setMin (str "nn") fuel false s (cstr p)
  | sec p => FlagElem.setNumeric FlagElem.setSec (str "ss") fuel false s (cstr p)
  | dayW names => FlagElem.setNames FlagElem.dayWTurn fuel ⟨false,s,names.flatMap (·.text)⟩
  | month names => FlagElem.setNames FlagElem.monthTurn fuel ⟨false,s,names.flatMap (·.text)⟩

/-- What a call is to do to an event. -/
structure Sets (call : FlagCall) (s : FlagElem) (r : Bool × FlagElem) : Prop where
  flags : ∀ f i, r.2.e.flag f i = true ↔
    s.e.flag f i = true ∨ f = call.field ∧ i < f.size ∧ call.Listed i
  others : r.2.e.unflagged = s.e.unflagged
  error : r.1 = true ↔ ∃ n, call.Listed n ∧ call.field.size ≤ n

/-- The call ends, and sets the bits that are listed. -/
def SetsListed (call : FlagCall) (s : FlagElem) : Prop := ∃ fuel r, call.run s fuel = some r ∧ call.Sets s r

/-- No number or name is listed. -/
def Empty : FlagCall → Prop
  | dayM p | hour p | min p | sec p => ∀ c ∈ cstr p, isdigit c = false
  | dayW names => names = []
  | month names => names = []

end FlagCall

/-- A name is not empty, and its value is one of its field. -/
theorem dayName_spec (name : FlagName dayNames) : name.text ≠ [] ∧ name.value < FlagField.dayW.size := by
  have hall : ∀ k ∈ dayNames, k.1 ≠ [] ∧ k.2 < 7 := by simp [dayNames,str]
  exact hall _ name.mem

theorem monthName_spec (name : FlagName monthNames) : name.text ≠ [] ∧ name.value < FlagField.month.size := by
  have hall : ∀ k ∈ monthNames, k.1 ≠ [] ∧ k.2 < 12 := by simp [monthNames,str]
  exact hall _ name.mem

namespace FlagElem
variable {setBit : FlagElem → ℤ → Bool × FlagElem} {t p : Bytes} {err : Bool} {s : FlagElem} {fuel : ℕ}

/-- A text with a number in it is never left. -/
theorem setNumeric_digit (hp : ∃ c ∈ p, isdigit c = true) : setNumeric setBit t fuel err s p = none := by
  induction fuel generalizing err s p with
  | zero => rfl
  | succ fuel ih =>
    cases p with
    | nil => simp at hp
    | cons c p =>
      have hne : (c::p).dropWhile (fun c => !isdigit c) ≠ [] := by
        obtain ⟨d,hd,hdigit⟩ := hp
        intro hnil
        have := List.dropWhile_eq_nil_iff.mp hnil d hd
        simp [hdigit] at this
      have hdigit : ∃ d ∈ (c::p).dropWhile (fun d => !isdigit d), isdigit d = true := by
        refine ⟨((c::p).dropWhile fun d => !isdigit d).head hne,List.head_mem hne,?_⟩
        have hhead := List.head_dropWhile_not (fun d => !isdigit d) hne
        simpa using hhead
      rw [setNumeric]
      simp only [if_neg hne]
      split
      · exact ih hdigit
      · exact ih hdigit

/-- A text without one is left at once. -/
theorem setNumeric_plain (hp : ∀ c ∈ p, isdigit c = false) : setNumeric setBit t 2 err s p = some (err,s) := by
  cases p with
  | nil => rfl
  | cons c p =>
    have hnil : (c::p).dropWhile (fun c => !isdigit c) = [] :=
      List.dropWhile_eq_nil_iff.mpr fun d hd => by simp [hp d hd]
    rw [setNumeric]
    simp only [hnil,if_true]
    rfl

theorem dayWTurn_err (x : Scan) : (dayWTurn x).err = true := by
  unfold dayWTurn
  simp only
  split_ifs <;> rfl

theorem monthTurn_err (x : Scan) : (monthTurn x).err = true := by
  unfold monthTurn
  simp only
  split_ifs <;> rfl

/-- An error is not forgotten. -/
theorem setNames_err {turn : Scan → Scan} (hturn : ∀ x, (turn x).err = true) {x : Scan} (hx : x.err = true)
    {r : Bool × FlagElem} (h : setNames turn fuel x = some r) : r.1 = true := by
  induction fuel generalizing x with
  | zero => cases h
  | succ fuel ih =>
    rw [setNames] at h
    split_ifs at h with hp
    · rw [← Option.some.inj h]
      exact hx
    · exact ih (x := { turn x with p := (turn x).p.drop 1 }) (hturn x) h

/-- In every turn there is one. -/
theorem setNames_error {turn : Scan → Scan} (hturn : ∀ x, (turn x).err = true) {x : Scan} (hx : x.p ≠ [])
    {r : Bool × FlagElem} (h : setNames turn fuel x = some r) : r.1 = true := by
  cases fuel with
  | zero => cases h
  | succ fuel =>
    rw [setNames,if_neg hx] at h
    exact setNames_err hturn (x := { turn x with p := (turn x).p.drop 1 }) (hturn x) h

end FlagElem

namespace FlagCall
variable {call : FlagCall} {s : FlagElem} {p : Bytes}

theorem numbers_digit {n : ℕ} (h : Numbers p n) : ∃ c ∈ p, isdigit c = true := by
  obtain ⟨rows,hruns,row,hrow,-⟩ := h
  cases hruns with
  | done => cases hrow
  | run hgap hne htok hrest hruns =>
    obtain ⟨c,tok,rfl⟩ := List.exists_cons_of_ne_nil hne
    exact ⟨c,by simp,by simpa using htok c List.mem_cons_self⟩

theorem not_listed (h : call.Empty) (n : ℕ) : ¬call.Listed n := by
  have hnumbers {p : Bytes} (hp : ∀ c ∈ p, isdigit c = false) : ¬Numbers p n := by
    intro hn
    obtain ⟨c,hc,hdigit⟩ := numbers_digit hn
    rw [hp c hc] at hdigit
    cases hdigit
  cases call with
  | dayM p => exact hnumbers h
  | hour p => exact hnumbers h
  | min p => exact hnumbers h
  | sec p => exact hnumbers h
  | dayW names => simp [Listed,show names = [] from h]
  | month names => simp [Listed,show names = [] from h]

/-- With nothing listed nothing is set. -/
theorem sets_empty (h : call.Empty) : call.Sets s (false,s) := by
  refine ⟨fun f i => ?_,rfl,?_⟩
  · simp [not_listed h]
  · simp [not_listed h]

theorem run_empty (h : call.Empty) : call.run s 2 = some (false,s) := by
  cases call with
  | dayM p => exact FlagElem.setNumeric_plain h
  | hour p => exact FlagElem.setNumeric_plain h
  | min p => exact FlagElem.setNumeric_plain h
  | sec p => exact FlagElem.setNumeric_plain h
  | dayW names =>
    obtain rfl : names = [] := h
    rfl
  | month names =>
    obtain rfl : names = [] := h
    rfl

theorem not_sets_numeric {setBit : FlagElem → ℤ → Bool × FlagElem} {t : Bytes} {fuel : ℕ} {r : Bool × FlagElem}
    (h : FlagElem.setNumeric setBit t fuel false s p = some r) : ∀ c ∈ p, isdigit c = false := by
  by_contra hdigit
  push Not at hdigit
  rw [FlagElem.setNumeric_digit (by simpa using hdigit)] at h
  cases h

/-- The flags that are listed are set when there are none: a list with a number never ends, and every name is taken
for an error. -/
theorem setsListed_iff (call : FlagCall) (s : FlagElem) : call.SetsListed s ↔ call.Empty := by
  refine ⟨?_,fun h => ⟨2,_,run_empty h,sets_empty h⟩⟩
  rintro ⟨fuel,r,hrun,hsets⟩
  cases call with
  | dayM p => exact not_sets_numeric hrun
  | hour p => exact not_sets_numeric hrun
  | min p => exact not_sets_numeric hrun
  | sec p => exact not_sets_numeric hrun
  | dayW names =>
    by_contra hne
    obtain ⟨name,names,rfl⟩ := List.exists_cons_of_ne_nil hne
    have herr := FlagElem.setNames_error FlagElem.dayWTurn_err (by simp [dayName_spec]) hrun
    obtain ⟨_,⟨name,-,rfl⟩,hsize⟩ := hsets.error.mp herr
    exact absurd (dayName_spec name).2 (not_lt.mpr hsize)
  | month names =>
    by_contra hne
    obtain ⟨name,names,rfl⟩ := List.exists_cons_of_ne_nil hne
    have herr := FlagElem.setNames_error FlagElem.monthTurn_err (by simp [monthName_spec]) hrun
    obtain ⟨_,⟨name,-,rfl⟩,hsize⟩ := hsets.error.mp herr
    exact absurd (monthName_spec name).2 (not_lt.mpr hsize)

/-- `SetDayM` does not come to an end on `"1"`. -/
theorem not_setsListed : ¬(dayM (str "1")).SetsListed ⟨{},[]⟩ := by
  rintro ⟨fuel,r,hrun,-⟩
  have hdigit : ∃ c ∈ cstr (str "1"), isdigit c = true := ⟨ch '1',by decide,rfl⟩
  cases (FlagElem.setNumeric_digit hdigit).symm.trans hrun

end FlagCall
end Smx
