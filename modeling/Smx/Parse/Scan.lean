import Smx.Base.Bytes

/-! The parts of the macro parser that never evaluate anything: quoted arguments, the names
of calls, and what the reader of an evaluated argument does with one character. -/
namespace Smx

/-- Where `ParseArgsLPar` is: skipping blanks, after a backslash, or in the text. -/
inductive LParMode
  | blank
  | escaped
  | text
  deriving DecidableEq, Repr

/-- `ParseArgsLPar`: the rest of a parenthesis with its nested ones. Gives the text, the
last character read and the input left. At the end of input the blank mode still puts EOF. -/
def parseArgsLPar (quoted : Bool) : LParMode → ℕ → Bytes → Bytes × Byte × Bytes
  | .text,_,[] => ([],EOF,[])
  | _,_,[] => ([EOF],EOF,[])
  | .escaped,lpc,c::inp =>
    let r := parseArgsLPar quoted .text lpc inp
    (c::r.1,r.2)
  | mode,lpc,c::inp =>
    if mode = .blank ∧ isspace c then parseArgsLPar quoted .blank lpc inp
    else if mode = .text ∧ c = EOF then ([],EOF,inp)
    else if c = T_ESC then
      let r := parseArgsLPar quoted .escaped lpc inp
      if quoted then (c::r.1,r.2) else r
    else if c = T_LP then
      let r := parseArgsLPar quoted .blank (lpc+1) inp
      (c::r.1,r.2)
    else if c = T_RP then
      if lpc = 0 then ([c],c,inp)
      else
        let r := parseArgsLPar quoted .text (lpc-1) inp
        (c::r.1,r.2)
    else
      let r := parseArgsLPar quoted .text lpc inp
      (c::r.1,r.2)

theorem parseArgsLPar_length_le (quoted : Bool) (mode : LParMode) (lpc : ℕ) (inp : Bytes) :
    (parseArgsLPar quoted mode lpc inp).2.2.length ≤ inp.length := by
  induction inp generalizing mode lpc with
  | nil => cases mode <;> simp [parseArgsLPar]
  | cons c inp ih =>
    have hle (mode : LParMode) (lpc : ℕ) :
        (parseArgsLPar quoted mode lpc inp).2.2.length ≤ (c::inp).length :=
      Nat.le_succ_of_le (ih mode lpc)
    cases mode with
    | escaped => exact hle _ _
    | blank =>
      simp only [parseArgsLPar]
      split_ifs <;> first | exact hle _ _ | exact Nat.le_succ _
    | text =>
      simp only [parseArgsLPar]
      split_ifs <;> first | exact hle _ _ | exact Nat.le_succ _

/-- `ParseArgEscaped`: up to the closing `eq`; the text, the last character and the rest.
After an odd number of percent signs a parenthesis is taken whole. -/
def parseArgEscaped (eq : Byte) (pct : Bool) (inp : Bytes) : Bytes × Byte × Bytes :=
  match inp with
  | [] => ([],EOF,[])
  | c::inp =>
    if c = EOF then ([],EOF,inp)
    else if c = T_ESC then
      match inp with
      | [] => ([],EOF,[])
      | c'::inp' =>
        let r := parseArgEscaped eq pct inp'
        (if c' = EOF then r else (c'::r.1,r.2))
    else if c = T_PCT then
      let r := parseArgEscaped eq (!pct) inp
      (c::r.1,r.2)
    else if c = eq then ([],c,inp)
    else if c = T_LP ∧ pct then
      let t := parseArgsLPar true .blank 0 inp
      if t.2.1 = EOF then (c::t.1,EOF,t.2.2)
      else
        let r := parseArgEscaped eq false t.2.2
        (c::(t.1 ++ r.1),r.2)
    else
      let r := parseArgEscaped eq pct inp
      (c::r.1,r.2)
termination_by inp.length
decreasing_by
  all_goals simp only [List.length_cons]
  all_goals first
    | omega
    | exact Nat.lt_succ_of_le (parseArgsLPar_length_le true .blank 0 _)

/-- One turn of the loop of `ParseArgQuoted`: the argument ends and more follow or not, or
it goes on. -/
def quotedStep (cur : Bytes) (c : Byte) (inp : Bytes) : Option Bool × Bytes × Bytes :=
  if c = T_ESC then
    match inp with
    | [] => (none,cur,[])
    | c'::inp => (none,if c' = EOF then cur else cur ++ [c'],inp)
  else if c = T_COMMA then (some true,cur,inp)
  else if c = T_LP then
    let t := parseArgsLPar true .blank 0 inp
    (if t.2.1 = EOF then some false else none,cur ++ c::t.1,t.2.2)
  else if c = T_RP then (some false,cur,inp)
  else (none,cur ++ [c],inp)

theorem quotedStep_length_le (cur : Bytes) (c : Byte) (inp : Bytes) :
    (quotedStep cur c inp).2.2.length ≤ inp.length := by
  unfold quotedStep
  split_ifs
  · cases inp <;> simp
  · exact le_refl _
  · exact parseArgsLPar_length_le true .blank 0 inp
  · exact le_refl _
  · exact le_refl _

/-- The loop of `ParseArgQuoted` from the character `c` on: the argument, whether more
follow, and the rest. -/
def quotedLoop (trim : Bool) (cur : Bytes) (c : Byte) (inp : Bytes) : Bytes × Bool × Bytes :=
  let close := fun cur : Bytes => if trim then rtrim cur else cur
  match _hs : quotedStep cur c inp with
  | (some more,cur',rest) => (close cur',more,rest)
  | (none,cur',[]) => (close cur',false,[])
  | (none,cur',d::rest) => if d = EOF then (close cur',false,rest) else quotedLoop trim cur' d rest
termination_by inp.length
decreasing_by
  have hlen := congrArg (fun r => r.2.2.length) _hs
  have hle := quotedStep_length_le cur c inp
  simp only [List.length_cons] at hlen
  omega

theorem quotedLoop_of_more {trim : Bool} {cur cur' : Bytes} {c d : Byte} {inp rest : Bytes}
    (h : quotedStep cur c inp = (none,cur',d::rest)) (hd : d ≠ EOF) :
    quotedLoop trim cur c inp = quotedLoop trim cur' d rest := by
  rw [quotedLoop]
  split <;> simp_all

theorem quotedLoop_of_end {trim more : Bool} {cur cur' : Bytes} {c : Byte} {inp rest : Bytes}
    (h : quotedStep cur c inp = (some more,cur',rest)) :
    quotedLoop trim cur c inp = (if trim then rtrim cur' else cur',more,rest) := by
  rw [quotedLoop]
  split <;> simp_all

/-- `ParseArgQuoted`: an argument that is passed on as it stands. -/
def parseArgQuoted (c : Byte) (inp : Bytes) : Bytes × Bool × Bytes :=
  if c = T_DQ ∨ c = T_LC then
    let r := parseArgEscaped (if c = T_DQ then T_DQ else T_RC) false inp
    if r.2.1 = EOF then (r.1,false,r.2.2)
    else
      let s := skipSpace r.2.2
      quotedLoop false r.1 s.1 s.2
  else quotedLoop true [] c inp

/-- The name loop of `ParseFunc`: the name, the character that ends it and the rest. -/
def scanName : Bytes → Bytes → Bytes × Byte × Bytes
  | name,[] => (name,EOF,[])
  | name,c::inp => if isqsym c then scanName (name ++ [c]) inp else (name,c,inp)

theorem scanName_ne_nil {name : Bytes} (h : name ≠ []) (inp : Bytes) :
    (scanName name inp).1 ≠ [] := by
  induction inp generalizing name with
  | nil => exact h
  | cons c inp ih =>
    simp only [scanName]
    split_ifs
    · exact ih (by simp)
    · exact h

/-- The names of calls. -/
def IsName (name : Bytes) : Prop :=
  ∃ c t, name = c::t ∧ isqsymf c = true ∧ ∀ d ∈ t, isqsym d = true

theorem scanName_eq_append (name inp : Bytes) :
    ∃ t, (scanName name inp).1 = name ++ t ∧ ∀ d ∈ t, isqsym d = true := by
  induction inp generalizing name with
  | nil => exact ⟨[],(List.append_nil _).symm,List.forall_mem_nil _⟩
  | cons c inp ih =>
    simp only [scanName]
    split_ifs with hc
    · obtain ⟨t,ht,hsym⟩ := ih (name ++ [c])
      refine ⟨c::t,by rw [ht,List.append_assoc,List.singleton_append],?_⟩
      rintro d hd
      obtain rfl | hd := List.mem_cons.mp hd
      · exact hc
      · exact hsym d hd
    · exact ⟨[],(List.append_nil _).symm,List.forall_mem_nil _⟩

theorem scanName_all {text : Bytes} (h : ∀ c ∈ text, isqsym c = true) (name tail : Bytes) :
    scanName name (text ++ tail) = scanName (name ++ text) tail := by
  induction text generalizing name with
  | nil => rw [List.append_nil,List.nil_append]
  | cons c text ih =>
    rw [List.cons_append,scanName,if_pos (h c List.mem_cons_self),
      ih (fun d hd => h d (List.mem_cons_of_mem _ hd)),List.append_assoc,List.singleton_append]

theorem isName_scanName {c : Byte} (hc : isqsymf c = true) (inp : Bytes) :
    IsName (scanName [c] inp).1 := by
  obtain ⟨t,ht,hsym⟩ := scanName_eq_append [c] inp
  exact ⟨c,t,ht,hc,hsym⟩

/-- The modes of `ParseArg`: the quote that is open or 0, the depth of braces and of
parentheses, and the blanks at the end of what was copied. -/
structure ArgSt where
  quoted : Byte := 0
  qcnt : ℕ := 0
  lpc : ℕ := 0
  numsp : ℕ := 0
  deriving DecidableEq, Repr

/-- What `ParseArg` does with one character that is no backslash and no percent sign. -/
inductive ArgAct
  /-- append the character -/
  | put (st : ArgSt)
  | skip (st : ArgSt)
  /-- the argument ends here; another one follows or not -/
  | stop (more : Bool)
  deriving DecidableEq, Repr

def argAct (st : ArgSt) (c : Byte) : ArgAct :=
  if st.quoted ≠ 0 then
    if c = T_LC ∧ st.quoted = T_LC then .skip { st with qcnt := st.qcnt+1 }
    else if c = T_DQ ∧ st.quoted = T_DQ then .skip { st with quoted := 0, lpc := 0, numsp := 0 }
    else if c = T_RC ∧ st.quoted = T_LC then
      if st.qcnt ≤ 1 then .skip { st with quoted := 0, qcnt := st.qcnt-1, numsp := 0 }
      else .put { st with qcnt := st.qcnt-1 }
    else .put st
  else if st.lpc ≠ 0 then
    if c = T_RP then .put { st with lpc := st.lpc-1, numsp := 0 }
    else if c = T_LP then .put { st with lpc := st.lpc+1, numsp := 0 }
    else if isspace c then .put { st with numsp := st.numsp+1 }
    else .put { st with numsp := 0 }
  else
    if c = T_COMMA then .stop true
    else if c = T_LP then .put { st with lpc := st.lpc+1, numsp := 0 }
    else if c = T_RP then .stop false
    else if isspace c then .put { st with numsp := st.numsp+1 }
    else .put { st with numsp := 0 }

/-- The prologue of `ParseArg`: an opening quote selects the mode and is dropped. -/
def argOpen (c : Byte) (inp : Bytes) : ArgSt × Byte × Bytes :=
  if c = T_DQ then ({ quoted := T_DQ },getC inp)
  else if c = T_LC then ({ quoted := T_LC, qcnt := 1 },getC inp)
  else ({},c,inp)

/-- The head of the argument loops: blanks skipped, and whether a `'` quotes the argument. -/
def argHead (inp : Bytes) : Bool × Byte × Bytes :=
  let r := skipSpace inp
  if r.1 = T_SQ then (true,getC r.2) else (false,r)

/-- How `ParseArgsQmap` starts to walk a quote map: the first mode and the rest of the map. -/
def qmapStart (map : Bytes) : Bool × Bytes :=
  match map with
  | [] => (false,[])
  | m::rest => (m == ch 'A' || m == ch '1',if m = ch 'A' then m::rest else rest)

/-- Without a map every argument is evaluated, as with the empty one. -/
def argsStart : Option Bytes → Bool × Bytes
  | some map => qmapStart map
  | none => (false,[])

/-- Mode and map for the next argument. -/
def qmapNext (qmode : Bool) (map : Bytes) : Bool × Bytes :=
  match map with
  | [] => (false,[])
  | m::rest =>
    if m = ch '1' then (true,rest) else if m = ch '0' then (false,rest) else (qmode,m::rest)

/-- `cur.Grow(cur.Length() - numsp)`. -/
def cutSpaces (cur : Bytes) (numsp : ℕ) : Bytes := cur.take (cur.length - numsp)

end Smx
