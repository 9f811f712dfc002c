import Mathlib.Data.List.GetD
import Mathlib.Logic.Function.Iterate
import Smx.Compile.CallsOnly

/-! `ParseArgs`, `ParseArgsQmap` and `ParseCompArgs`: three loops over the arguments of a call, each
with its own way through the quote map, which they read where it lies in memory. -/
namespace Smx
namespace Splitters

section
variable (mem : Bytes)

/-- `*p`; behind what is given of the memory there are zeros. -/
def deref (p : ℕ) : Byte := mem.getD p 0

/-- The string that begins at `p`. -/
def strAt (p : ℕ) : Bytes := cstr (mem.drop p)

/-- `qmode` and `qmap` in front of the loop of `ParseArgsQmap`. -/
def startQmap (p : ℕ) : Bool × ℕ :=
  (deref mem p == ch 'A' || deref mem p == ch '1',if deref mem p ≠ ch 'A' then p+1 else p)

/-- `qmode` and `qmap` at the end of a turn of `ParseArgsQmap`. -/
def nextQmap (qmode : Bool) (p : ℕ) : Bool × ℕ :=
  if deref mem p ≠ 0 then
    if deref mem p = ch '1' then (true,p+1)
    else if deref mem p = ch '0' then (false,p+1)
    else (qmode,p)
  else (false,p)

/-- `qmode` and `qmap` in front of the loop of `ParseCompArgs`, which drops the map of an `A`. -/
def startComp : Option ℕ → Bool × Option ℕ
  | none => (false,none)
  | some p =>
    (deref mem p == ch 'A' || deref mem p == ch '1',if deref mem p ≠ ch 'A' then some (p+1) else none)

/-- `qmode` and `qmap` at the end of a turn of `ParseCompArgs`. -/
def nextComp (qmode : Bool) : Option ℕ → Bool × Option ℕ
  | none => (qmode,none)
  | some p =>
    if deref mem p ≠ 0 then
      if deref mem p = ch '1' then (true,some (p+1))
      else if deref mem p = ch '0' then (false,some (p+1))
      else (qmode,some p)
    else (false,some p)

end

section
variable {σ ο : Type} (H : Host σ ο) (mem : Bytes)

/-- `ParseArgs`. -/
def parseArgs : ℕ → Bytes → SmxM σ (List Arg × Bytes)
  | 0,inp => pure ([⟨[],.str⟩],inp)
  | n+1,inp => do
    let h := argHead inp
    let a ← (if h.1 then pure (parseArgQuoted h.2.1 h.2.2) else H.parseArg n h.2.1 h.2.2)
    let arg : Arg := ⟨a.1,if h.1 then .qstr else .str⟩
    if a.2.1 ∧ h.2.1 ≠ EOF then do
      let r ← parseArgs n a.2.2
      pure (arg::r.1,r.2)
    else pure ([arg],a.2.2)

/-- The loop of `ParseArgsQmap`. -/
def qmapLoop : ℕ → Bool → ℕ → Bytes → SmxM σ (List Arg × Bytes)
  | 0,_,_,inp => pure ([⟨[],.str⟩],inp)
  | n+1,qmode,p,inp => do
    let h := argHead inp
    let a ← (if qmode || h.1 then pure (parseArgQuoted h.2.1 h.2.2) else H.parseArg n h.2.1 h.2.2)
    let arg : Arg := ⟨a.1,if h.1 then .qstr else .str⟩
    let q := nextQmap mem qmode p
    if a.2.1 ∧ h.2.1 ≠ EOF then do
      let r ← qmapLoop n q.1 q.2 a.2.2
      pure (arg::r.1,r.2)
    else pure ([arg],a.2.2)

/-- `ParseArgsQmap`. -/
def parseArgsQmap (n : ℕ) (qmap : Option ℕ) (inp : Bytes) : SmxM σ (List Arg × Bytes) :=
  match qmap with
  | none => parseArgs H n inp
  | some p => qmapLoop H mem n (startQmap mem p).1 (startQmap mem p).2 inp

end

section
variable (E : CompEnv) (mem : Bytes)

/-- The loop of `ParseCompArgs`. -/
def compLoop : ℕ → Bool → Option ℕ → Bytes → CompM (List Arg × Bytes)
  | 0,qmode,_,inp => pure ([⟨[],if qmode then .str else .cmp⟩],inp)
  | n+1,qmode,p,inp => do
    let h := argHead inp
    let a ← (if qmode || h.1 then
        let r := parseArgQuoted h.2.1 h.2.2
        pure (⟨r.1,if h.1 then .qstr else .str⟩,r.2)
      else do
        let r ← E.compArg n h.2.1 h.2.2
        pure (⟨r.1,.cmp⟩,r.2))
    let q := nextComp mem qmode p
    if a.2.1 ∧ h.2.1 ≠ EOF then do
      let r ← compLoop n q.1 q.2 a.2.2
      pure (a.1::r.1,r.2)
    else pure ([a.1],a.2.2)

/-- `ParseCompArgs`. -/
def parseCompArgs (n : ℕ) (qmap : Option ℕ) (inp : Bytes) : CompM (List Arg × Bytes) :=
  compLoop E mem n (startComp mem qmap).1 (startComp mem qmap).2 inp

end

/-! Both walks go through the same map. -/

section
variable {mem : Bytes} {qmode : Bool} {map : Bytes}

theorem strAt_of_zero {p : ℕ} (h : deref mem p = 0) : strAt mem p = [] := by
  obtain hp | hp := lt_or_ge p mem.length
  · rw [deref,List.getD_eq_getElem _ _ hp] at h
    rw [strAt,List.drop_eq_getElem_cons hp,h]
    rfl
  · rw [strAt,List.drop_of_length_le hp]
    rfl

theorem strAt_of_ne_zero {p : ℕ} (h : deref mem p ≠ 0) : strAt mem p = deref mem p::strAt mem (p+1) := by
  have hp : p < mem.length := by
    by_contra hp
    exact h (List.getD_eq_default _ _ (not_lt.mp hp))
  rw [deref,List.getD_eq_getElem _ _ hp] at h ⊢
  rw [strAt,List.drop_eq_getElem_cons hp,cstr,List.takeWhile_cons_of_pos (by simpa using h),strAt,cstr]

/-- What a walk sees of the map at `p`: it steps over the terminator of an empty one. -/
def mapSeen (mem : Bytes) (p : ℕ) : Bytes := if deref mem p = 0 then ch '0'::strAt mem (p+1) else strAt mem p

/-- The first mode and the rest of the map that is seen. -/
def startMap (mem : Bytes) (qmap : Option ℕ) : Bool × Bytes := argsStart (qmap.map (mapSeen mem))

theorem nextQmap_seen (qmode : Bool) (p : ℕ) :
    Smx.qmapNext qmode (strAt mem p) = ((nextQmap mem qmode p).1,strAt mem (nextQmap mem qmode p).2) := by
  by_cases h0 : deref mem p = 0
  · simp [nextQmap,h0,strAt_of_zero h0,Smx.qmapNext]
  · rw [strAt_of_ne_zero h0,Smx.qmapNext,nextQmap,if_pos h0]
    split_ifs
    · rfl
    · rfl
    · rw [strAt_of_ne_zero h0]

theorem startQmap_seen (p : ℕ) :
    startMap mem (some p) = ((startQmap mem p).1,strAt mem (startQmap mem p).2) := by
  rw [startMap,Option.map_some,mapSeen,startQmap]
  by_cases h0 : deref mem p = 0
  · rw [if_pos h0,h0]
    rfl
  · rw [if_neg h0]
    by_cases hA : deref mem p = ch 'A'
    · rw [if_neg (not_not.mpr hA),strAt_of_ne_zero h0,argsStart,Smx.qmapStart,if_pos hA]
    · rw [if_pos hA,strAt_of_ne_zero h0,argsStart,Smx.qmapStart,if_neg hA]

/-- Where `ParseCompArgs` is in the map: without a map the mode stays as it is. -/
def Walks (mem : Bytes) (qmode : Bool) : Option ℕ → Bytes → Prop
  | none,map => Smx.qmapNext qmode map = (qmode,map)
  | some p,map => map = strAt mem p

theorem Walks.next {p : Option ℕ} (h : Walks mem qmode p map) :
    (Smx.qmapNext qmode map).1 = (nextComp mem qmode p).1 ∧
      Walks mem (nextComp mem qmode p).1 (nextComp mem qmode p).2 (Smx.qmapNext qmode map).2 := by
  cases p with
  | none =>
    have hstay : Smx.qmapNext qmode map = (qmode,map) := h
    rw [hstay]
    exact ⟨rfl,hstay⟩
  | some p =>
    obtain rfl : map = strAt mem p := h
    have hcomp : nextComp mem qmode (some p) = ((nextQmap mem qmode p).1,some (nextQmap mem qmode p).2) := by
      simp only [nextComp,nextQmap]
      split_ifs <;> rfl
    rw [nextQmap_seen,hcomp]
    exact ⟨rfl,rfl⟩

theorem walks_start (mem : Bytes) (qmap : Option ℕ) : (startMap mem qmap).1 = (startComp mem qmap).1 ∧
    Walks mem (startComp mem qmap).1 (startComp mem qmap).2 (startMap mem qmap).2 := by
  cases qmap with
  | none => exact ⟨rfl,rfl⟩
  | some p =>
    rw [startQmap_seen]
    by_cases hA : deref mem p = ch 'A'
    · have h0 : deref mem p ≠ 0 := by
        rw [hA]
        decide
      have hstay : Smx.qmapNext true (strAt mem p) = (true,strAt mem p) := by
        rw [strAt_of_ne_zero h0,hA]
        rfl
      simpa [startComp,startQmap,hA,Walks] using hstay
    · simp [startComp,startQmap,hA,Walks]

end

section
variable {σ ο : Type} (H : Host σ ο) (E : CompEnv) (mem : Bytes)

theorem parseArgs_eq (n : ℕ) (inp : Bytes) : parseArgs H n inp = H.parseArgsQmap n false [] inp := by
  induction n generalizing inp with
  | zero => rfl
  | succ n ih =>
    simp only [parseArgs,Host.parseArgsQmap,Bool.false_or,ih]
    rfl

theorem qmapLoop_eq (n : ℕ) (qmode : Bool) (p : ℕ) (inp : Bytes) :
    qmapLoop H mem n qmode p inp = H.parseArgsQmap n qmode (strAt mem p) inp := by
  induction n generalizing qmode p inp with
  | zero => rfl
  | succ n ih => simp only [qmapLoop,Host.parseArgsQmap,nextQmap_seen,ih]

theorem parseArgsQmap_eq (n : ℕ) (qmap : Option ℕ) (inp : Bytes) : parseArgsQmap H mem n qmap inp =
    H.parseArgsQmap n (startMap mem qmap).1 (startMap mem qmap).2 inp := by
  cases qmap with
  | none => exact parseArgs_eq H n inp
  | some p => rw [parseArgsQmap,qmapLoop_eq,startQmap_seen]

variable {mem} in
theorem compLoop_eq {qmode : Bool} {p : Option ℕ} {map : Bytes} (h : Walks mem qmode p map) (n : ℕ)
    (inp : Bytes) : compLoop E mem n qmode p inp = E.compArgs n qmode map inp := by
  induction n generalizing qmode p map inp with
  | zero => rfl
  | succ n ih =>
    obtain ⟨hmode,hwalks⟩ := h.next
    simp only [compLoop,CompEnv.compArgs,hmode,ih hwalks]

theorem parseCompArgs_eq (n : ℕ) (qmap : Option ℕ) (inp : Bytes) : parseCompArgs E mem n qmap inp =
    E.compArgs n (startMap mem qmap).1 (startMap mem qmap).2 inp := by
  obtain ⟨hmode,hwalks⟩ := walks_start mem qmap
  rw [parseCompArgs,hmode]
  exact compLoop_eq E hwalks n inp

end

/-! Maps on which `ParseArgsQmap` does what `ParseArgs` does. -/

/-- No `1` comes behind zeros. -/
def Quiet (map : Bytes) : Prop := (map.dropWhile (· == ch '0')).head? ≠ some (ch '1')

section
variable {σ ο : Type} (H : Host σ ο) {map : Bytes}

theorem Quiet.next (h : Quiet map) : ∃ map', Smx.qmapNext false map = (false,map') ∧ Quiet map' := by
  cases map with
  | nil => exact ⟨[],rfl,h⟩
  | cons m rest =>
    by_cases h0 : m = ch '0'
    · subst h0
      exact ⟨rest,rfl,h⟩
    · have hdrop : (m::rest).dropWhile (· == ch '0') = m::rest := List.dropWhile_cons_of_neg (by simpa using h0)
      have h1 : m ≠ ch '1' := by
        rintro rfl
        exact h (by rw [hdrop]; rfl)
      exact ⟨m::rest,by rw [Smx.qmapNext,if_neg h1,if_neg h0],h⟩

theorem Quiet.args_eq (h : Quiet map) (n : ℕ) (inp : Bytes) :
    H.parseArgsQmap n false map inp = H.parseArgsQmap n false [] inp := by
  induction n generalizing map inp with
  | zero => rfl
  | succ n ih =>
    obtain ⟨map',hnext,hquiet⟩ := h.next
    have hnil : Smx.qmapNext false [] = (false,[]) := rfl
    simp only [Host.parseArgsQmap,hnext,hnil,ih hquiet]

theorem quiet_zeros (h : ∀ c ∈ map, c = ch '0') : Quiet map := by
  have hdrop : map.dropWhile (· == ch '0') = [] := List.dropWhile_eq_nil_iff.mpr (by simpa using h)
  rw [Quiet,hdrop]
  exact nofun

theorem eq_of_not_quiet (h : ¬Quiet map) : ∃ k rest, map = List.replicate k (ch '0') ++ ch '1'::rest := by
  obtain ⟨rest,hrest⟩ := List.head?_eq_some_iff.mp (not_not.mp h)
  have hzeros : map.takeWhile (· == ch '0') = List.replicate (map.takeWhile (· == ch '0')).length (ch '0') :=
    List.eq_replicate_iff.mpr ⟨rfl,fun c hc => by simpa using List.mem_takeWhile_imp hc⟩
  exact ⟨_,rest,by rw [← hzeros,← hrest,List.takeWhile_append_dropWhile]⟩

/-- An argument that is read in two ways: in parentheses a quoted one keeps its backslashes. -/
def escaped : Bytes := str "(\\a))"

/-- A comma ends an empty argument. -/
theorem args_comma (n : ℕ) (map inp : Bytes) : H.parseArgsQmap (n+3) false map (T_COMMA::inp) =
    H.parseArgsQmap (n+2) (Smx.qmapNext false map).1 (Smx.qmapNext false map).2 inp >>= fun r =>
      pure (⟨[],.str⟩::r.1,r.2) := rfl

theorem args_commas (n k : ℕ) (map inp : Bytes) :
    H.parseArgsQmap (n+k+3) false (List.replicate k (ch '0') ++ map) (List.replicate k T_COMMA ++ inp) =
      H.parseArgsQmap (n+3) false map inp >>= fun r => pure (List.replicate k ⟨[],.str⟩ ++ r.1,r.2) := by
  induction k with
  | zero => exact (bind_pure _).symm
  | succ k ih =>
    have hnext : Smx.qmapNext false (List.replicate (k+1) (ch '0') ++ map) =
        (false,List.replicate k (ch '0') ++ map) := rfl
    have hcommas : List.replicate (k+1) T_COMMA ++ inp = T_COMMA::(List.replicate k T_COMMA ++ inp) := rfl
    have hfuel : n+(k+1)+3 = n+k+1+3 := by omega
    have hfuel' : n+k+1+2 = n+k+3 := by omega
    rw [hfuel,hcommas,args_comma,hnext,hfuel',ih]
    simp only [bind_assoc,pure_bind,List.replicate_succ,List.cons_append]

theorem escaped_evaluated (n : ℕ) (map : Bytes) :
    H.parseArgsQmap (n+20) false map escaped = pure ([⟨str "(a)",.str⟩],[]) := rfl

theorem escaped_quoted (n : ℕ) (map : Bytes) :
    H.parseArgsQmap (n+20) true map escaped = pure ([⟨str "(\\a)",.str⟩],[]) := by
  have hparen : quotedStep [] T_LP (str "\\a))") = (none,str "(\\a)",[T_RP]) := rfl
  have hend : quotedStep (str "(\\a)") T_RP [] = (some false,str "(\\a)",[]) := rfl
  have hread : parseArgQuoted T_LP (str "\\a))") = (str "(\\a)",false,[]) := by
    rw [parseArgQuoted,if_neg (by decide),quotedLoop_of_more hparen (by decide),quotedLoop_of_end hend]
    rfl
  have hhead : argHead escaped = (false,T_LP,str "\\a))") := rfl
  simp only [Host.parseArgsQmap,hhead,Bool.true_or,if_true,hread,pure_bind,Bool.false_eq_true,false_and,if_false]

variable (k : ℕ)

def unlike (k : ℕ) : Bytes := List.replicate (k+1) T_COMMA ++ escaped

theorem fuelFor_unlike : Host.fuelFor (unlike k) = 3*k+25+k+3 := by
  have hlen : (unlike k).length = k+1+5 := by
    rw [unlike,List.length_append,List.length_replicate]
    rfl
  rw [Host.fuelFor,hlen]
  omega

theorem unlike_quoted (rest : Bytes) :
    H.parseArgsQmap (Host.fuelFor (unlike k)) false (List.replicate k (ch '0') ++ ch '1'::rest) (unlike k) =
      pure (List.replicate (k+1) ⟨[],.str⟩ ++ [⟨str "(\\a)",.str⟩],[]) := by
  have hinp : unlike k = List.replicate k T_COMMA ++ T_COMMA::escaped := by
    rw [unlike,List.replicate_succ',List.append_assoc,List.singleton_append]
  have hnext : Smx.qmapNext false (ch '1'::rest) = (true,rest) := rfl
  have hfuel : 3*k+25+2 = 3*k+7+20 := by omega
  rw [fuelFor_unlike,hinp,args_commas,args_comma,hnext,hfuel,escaped_quoted]
  simp only [pure_bind,List.replicate_succ',List.append_assoc,List.singleton_append]

theorem unlike_evaluated : H.parseArgsQmap (Host.fuelFor (unlike k)) false [] (unlike k) =
    pure (List.replicate (k+1) ⟨[],.str⟩ ++ [⟨str "(a)",.str⟩],[]) := by
  have hquiet : Quiet (List.replicate (k+1) (ch '0') ++ []) := quiet_zeros (by simp)
  have hfuel : 3*k+25+k+3 = 3*k+24+(k+1)+3 := by omega
  have hfuel' : 3*k+24+3 = 3*k+7+20 := by omega
  rw [← hquiet.args_eq,fuelFor_unlike,unlike,hfuel,args_commas,hfuel',escaped_evaluated,pure_bind]

theorem unlike_ne (rest : Bytes) (s : σ) :
    (H.parseArgsQmap (Host.fuelFor (unlike k)) false (List.replicate k (ch '0') ++ ch '1'::rest) (unlike k)).run s ≠
      (H.parseArgsQmap (Host.fuelFor (unlike k)) false [] (unlike k)).run s := by
  rw [unlike_quoted,unlike_evaluated]
  intro hrun
  have hargs := congrArg Prod.fst (Except.ok.inj (congrArg Outcome.result hrun))
  exact absurd (List.append_cancel_left hargs) (by decide)

end

section
variable {σ ο : Type} (H : Host σ ο) (E : CompEnv) (mem : Bytes) (qmap : Option ℕ) (s : σ)

/-- The mode in which `ParseArgsQmap` reads the argument `i`. -/
def modeAt : Option ℕ → ℕ → Bool
  | none,_ => false
  | some p,i => ((fun q => nextQmap mem q.1 q.2)^[i] (startQmap mem p)).1

/-- How the arguments of a text are read. -/
def tree (inp : Bytes) : CodeArgs × Bytes :=
  E.callGrammar.readArgs (Host.fuelFor inp) (startMap mem qmap).1 (startMap mem qmap).2 inp

/-- On texts in which every percent sign outside of quoted arguments begins a call of a macro that stays as it is
and does not throw, `ParseArgsQmap` and `ParseCompArgs` leave the same rest and find as many arguments, and those
that neither evaluates are the same. -/
def CompAgrees : Prop :=
  ∀ inp st, (tree E mem qmap inp).1.Calls (H.Fixed E.qmapOf) → ∃ ary code rest s' st',
    (parseArgsQmap H mem (Host.fuelFor inp) qmap inp).run s = ⟨.ok (ary,rest),s',[]⟩ ∧
    parseCompArgs E mem (Host.fuelFor inp) qmap inp st = .ok ((code,rest),st') ∧ code.length = ary.length ∧
    ∀ i a, ary[i]? = some a → modeAt mem qmap i = true ∨ a.quot = .qstr → code[i]? = some a

/-- `ParseArgsQmap` without a map, or with one of zeros, does what `ParseArgs` does. -/
def PlainAgrees : Prop :=
  (∀ p, qmap = some p → ∀ c ∈ strAt mem p, c = ch '0') →
    ∀ inp, (parseArgsQmap H mem (Host.fuelFor inp) qmap inp).run s = (parseArgs H (Host.fuelFor inp) inp).run s

/-- The map is not empty, or no `1` comes behind the zeros that follow its terminator in memory. -/
def Terminated : Prop := ∀ p, qmap = some p → deref mem p = 0 → Quiet (strAt mem (p+1))

variable {mem} in
theorem modeAt_eq (i : ℕ) :
    modeAt mem qmap i = ((fun q => Smx.qmapNext q.1 q.2)^[i] (startMap mem qmap)).1 := by
  cases qmap with
  | none =>
    have hstay : (fun q : Bool × Bytes => Smx.qmapNext q.1 q.2) (startMap mem none) = startMap mem none := rfl
    rw [Function.iterate_fixed hstay i]
    rfl
  | some p =>
    have hsemi : Function.Semiconj (fun q : Bool × ℕ => (q.1,strAt mem q.2)) (fun q => nextQmap mem q.1 q.2)
        fun q => Smx.qmapNext q.1 q.2 := fun q => (nextQmap_seen q.1 q.2).symm
    rw [startQmap_seen,modeAt]
    exact congrArg Prod.fst ((hsemi.iterate_right i) (startQmap mem p))

variable {H E mem qmap s}

/-- What both make of one tree. -/
theorem same_of_lists {G : Grammar} {args : CodeArgs} {q : Bool × Bytes} {ary code : List Arg} (hmoded : args.Moded G q)
    (hary : args.Lists .str ary) (hcode : args.Lists .cmp code) : code.length = ary.length ∧
      ∀ i a, ary[i]? = some a → ((fun q => Smx.qmapNext q.1 q.2)^[i] q).1 = true ∨ a.quot = .qstr →
        code[i]? = some a := by
  match args with
  | .nil =>
    obtain rfl : ary = [] := hary
    obtain rfl : code = [] := hcode
    exact ⟨rfl,nofun⟩
  | .raw quoted text rest =>
    obtain ⟨ary,rfl,hary⟩ := hary
    obtain ⟨code,rfl,hcode⟩ := hcode
    obtain ⟨hlen,hsame⟩ := same_of_lists hmoded.2 hary hcode
    refine ⟨congrArg (· + 1) hlen,fun i => ?_⟩
    cases i with
    | zero => exact fun a ha _ => ha
    | succ i => exact hsame i
  | .code body rest =>
    obtain ⟨text,ary,rfl,hary⟩ := hary
    obtain ⟨bs,code,rfl,hcode⟩ := hcode
    obtain ⟨hlen,hsame⟩ := same_of_lists hmoded.2.2 hary hcode
    refine ⟨congrArg (· + 1) hlen,fun i => ?_⟩
    cases i with
    | zero =>
      rintro a ⟨⟩ (hmode | ⟨⟨⟩⟩)
      exact absurd hmode (by simpa using hmoded.1)
    | succ i => exact hsame i

theorem compAgrees : CompAgrees H E mem qmap s := by
  intro inp st hcalls
  obtain ⟨ary,s',hrun,hary⟩ := Host.run_meaningArgs hcalls s
  obtain ⟨code,st',hcomp,hcode⟩ := (CompEnv.compilesCalls _).args _ _ _ hcalls st
  have hfollow := (Host.follow (H := H) E.callGrammar nofun (Host.fuelFor inp)).args (startMap mem qmap).1
    (startMap mem qmap).2 inp
  have hanswer : (H.parseArgsQmap (Host.fuelFor inp) (startMap mem qmap).1 (startMap mem qmap).2 inp).run s =
      ⟨.ok (ary,(tree E mem qmap inp).2),s',[]⟩ := hfollow.run_ok (EmitM.run_bind_ok hrun _)
  have hmoded := (E.callGrammar.readsModed (Host.fuelFor inp)).args (startMap mem qmap).1 (startMap mem qmap).2 inp
  obtain ⟨hlen,hsame⟩ := same_of_lists hmoded hary hcode
  refine ⟨ary,code,(tree E mem qmap inp).2,s',st',?_,?_,hlen,fun i a ha hraw => hsame i a ha ?_⟩
  · rw [parseArgsQmap_eq]
    exact hanswer
  · rw [parseCompArgs_eq]
    exact hcomp
  · rwa [modeAt_eq] at hraw

theorem startMap_zero {p : ℕ} (h : deref mem p = 0 ∨ deref mem p = ch '0') :
    startMap mem (some p) = (false,strAt mem (p+1)) := by
  rw [startQmap_seen,startQmap]
  obtain h | h := h
  · rw [h]
    rfl
  · rw [h]
    rfl

theorem plainAgrees_iff : PlainAgrees H mem qmap s ↔ Terminated mem qmap := by
  constructor
  · rintro h p rfl h0
    by_contra hquiet
    obtain ⟨k,rest,hmap⟩ := eq_of_not_quiet hquiet
    have hzeros : ∀ q, some p = some q → ∀ c ∈ strAt mem q, c = ch '0' := by
      rintro q ⟨⟩ c hc
      rw [strAt_of_zero h0] at hc
      cases hc
    have hrun := h hzeros (unlike k)
    rw [parseArgsQmap_eq,parseArgs_eq,startMap_zero (.inl h0),hmap] at hrun
    exact unlike_ne H k rest s hrun
  · intro h hzeros inp
    cases qmap with
    | none => rfl
    | some p =>
      have hquiet : (deref mem p = 0 ∨ deref mem p = ch '0') ∧ Quiet (strAt mem (p+1)) := by
        by_cases h0 : deref mem p = 0
        · exact ⟨.inl h0,h p rfl h0⟩
        · have hall := hzeros p rfl
          rw [strAt_of_ne_zero h0] at hall
          exact ⟨.inr (hall _ List.mem_cons_self),quiet_zeros fun c hc => hall c (List.mem_cons_of_mem _ hc)⟩
      rw [parseArgsQmap_eq,parseArgs_eq,startMap_zero hquiet.1,hquiet.2.args_eq]

end

end Splitters
end Smx
