import Smx.Parse.Fuel
import Smx.Sched.Saved

/-! Which saved events come back in every context: what a body loses when it is read. -/
namespace Smx
open EmitM (Ends)

/-- The weights of all bytes together. -/
def mass (w : Byte → ℕ) (s : Bytes) : ℕ := (s.map w).sum

section
variable (w : Byte → ℕ)

@[simp] theorem mass_nil : mass w [] = 0 := rfl

@[simp] theorem mass_cons (c : Byte) (s : Bytes) : mass w (c::s) = w c + mass w s := by
  simp [mass]

@[simp] theorem mass_append (s t : Bytes) : mass w (s ++ t) = mass w s + mass w t := by
  simp [mass]

theorem mass_rtrim_le (s : Bytes) : mass w (rtrim s) ≤ mass w s := by
  obtain ⟨t,ht⟩ := List.rdropWhile_prefix isspace s
  rw [rtrim]
  conv_rhs => rw [← ht]
  rw [mass_append]
  exact Nat.le_add_right _ _

/-- What may be added at the end of the input. -/
def pad (c : Byte) : ℕ := if c = EOF then w EOF else 0

theorem pad_le (c : Byte) : pad w c ≤ w EOF := by
  unfold pad
  split_ifs
  · exact le_rfl
  · exact Nat.zero_le _

/-- `ParseArgsLPar` copies bytes, and adds one only at the end of the input. -/
theorem parseArgsLPar_mass (quoted : Bool) (mode : LParMode) (lpc : ℕ) (inp : Bytes) :
    mass w (parseArgsLPar quoted mode lpc inp).1 + mass w (parseArgsLPar quoted mode lpc inp).2.2 ≤
      mass w inp + pad w (parseArgsLPar quoted mode lpc inp).2.1 := by
  induction inp generalizing mode lpc with
  | nil => cases mode <;> simp [parseArgsLPar,pad]
  | cons c inp ih =>
    have hput (mode : LParMode) (lpc : ℕ) :
        mass w (c::(parseArgsLPar quoted mode lpc inp).1) +
          mass w (parseArgsLPar quoted mode lpc inp).2.2 ≤
          mass w (c::inp) + pad w (parseArgsLPar quoted mode lpc inp).2.1 := by
      have h := ih mode lpc
      simp only [mass_cons]
      omega
    have hskip (mode : LParMode) (lpc : ℕ) :
        mass w (parseArgsLPar quoted mode lpc inp).1 +
          mass w (parseArgsLPar quoted mode lpc inp).2.2 ≤
          mass w (c::inp) + pad w (parseArgsLPar quoted mode lpc inp).2.1 := by
      have h := ih mode lpc
      simp only [mass_cons]
      omega
    have hstop : mass w [] + mass w inp ≤ mass w (c::inp) + pad w EOF := by
      simp only [mass_nil,mass_cons]
      omega
    have hclose : mass w [c] + mass w inp ≤ mass w (c::inp) + pad w c := by
      simp only [mass_nil,mass_cons]
      omega
    cases mode with
    | escaped => exact hput .text lpc
    | blank =>
      simp only [parseArgsLPar]
      split_ifs <;> first | exact hput _ _ | exact hskip _ _ | exact hstop | exact hclose
    | text =>
      simp only [parseArgsLPar]
      split_ifs <;> first | exact hput _ _ | exact hskip _ _ | exact hstop | exact hclose

theorem parseArgEscaped_mass (eq : Byte) (pct : Bool) (inp : Bytes) :
    mass w (parseArgEscaped eq pct inp).1 + mass w (parseArgEscaped eq pct inp).2.2 ≤
      mass w inp + pad w (parseArgEscaped eq pct inp).2.1 := by
  fun_induction parseArgEscaped eq pct inp with
  | case1 => simp
  | case2 =>
    simp only [mass_nil,mass_cons]
    omega
  | case3 =>
    simp only [mass_nil]
    omega
  | case7 =>
    simp only [mass_nil,mass_cons]
    omega
  | case8 pct c inp _ _ _ _ _ t heof =>
    -- the parenthesis was not closed
    have ht : mass w t.1 + mass w t.2.2 ≤ mass w inp + pad w t.2.1 := parseArgsLPar_mass w true _ 0 inp
    rw [heof] at ht
    simp only [mass_cons]
    omega
  | case9 pct c inp _ _ _ _ _ t heof r ih =>
    have ht : mass w t.1 + mass w t.2.2 ≤ mass w inp + pad w t.2.1 := parseArgsLPar_mass w true _ 0 inp
    have hr : mass w r.1 + mass w r.2.2 ≤ mass w t.2.2 + pad w r.2.1 := ih
    have hpad : pad w t.2.1 = 0 := if_neg heof
    simp only [mass_cons,mass_append]
    omega
  | case4 => simp +zetaDelta only [mass_cons]; omega
  | case5 => simp +zetaDelta only [mass_cons]; omega
  | case6 => simp +zetaDelta only [mass_cons]; omega
  | case10 => simp +zetaDelta only [mass_cons]; omega

theorem quotedStep_mass (cur : Bytes) (c : Byte) (inp : Bytes) :
    mass w (quotedStep cur c inp).2.1 + mass w (quotedStep cur c inp).2.2 ≤
      mass w cur + w c + mass w inp + if (quotedStep cur c inp).1 = none then 0 else w EOF := by
  have hpar : mass w (parseArgsLPar true .blank 0 inp).1 +
      mass w (parseArgsLPar true .blank 0 inp).2.2 ≤
        mass w inp + pad w (parseArgsLPar true .blank 0 inp).2.1 := parseArgsLPar_mass w true _ 0 inp
  unfold quotedStep
  by_cases hesc : c = T_ESC
  · rw [if_pos hesc]
    cases inp with
    | nil =>
      simp only [mass_nil,if_true]
      omega
    | cons d inp =>
      have hd : mass w (if d = EOF then cur else cur ++ [d]) ≤ mass w cur + w d := by
        split_ifs
        · omega
        · simp only [mass_append,mass_cons,mass_nil]
          omega
      simp only [mass_cons,if_true]
      omega
  rw [if_neg hesc]
  by_cases hcomma : c = T_COMMA
  · rw [if_pos hcomma]
    dsimp only
    omega
  rw [if_neg hcomma]
  by_cases hlp : c = T_LP
  · rw [if_pos hlp]
    by_cases heof : (parseArgsLPar true .blank 0 inp).2.1 = EOF
    · have hpad := pad_le w (parseArgsLPar true .blank 0 inp).2.1
      simp only [heof,if_true,mass_append,mass_cons,reduceCtorEq,if_false]
      omega
    · have hpad : pad w (parseArgsLPar true .blank 0 inp).2.1 = 0 := if_neg heof
      simp only [heof,if_false,if_true,mass_append,mass_cons]
      omega
  rw [if_neg hlp]
  by_cases hrp : c = T_RP
  · rw [if_pos hrp]
    dsimp only
    omega
  · rw [if_neg hrp]
    simp only [mass_append,mass_cons,mass_nil,if_true]
    omega

theorem quotedLoop_mass (trim : Bool) (cur : Bytes) (c : Byte) (inp : Bytes) :
    mass w (quotedLoop trim cur c inp).1 + mass w (quotedLoop trim cur c inp).2.2 ≤
      mass w cur + w c + mass w inp + w EOF := by
  have hclose (cur : Bytes) : mass w (if trim then rtrim cur else cur) ≤ mass w cur := by
    split_ifs
    · exact mass_rtrim_le w cur
    · exact le_rfl
  fun_induction quotedLoop trim cur c inp with
  | case1 cur c inp close more cur' rest hs =>
    have hstep := quotedStep_mass w cur c inp
    rw [hs] at hstep
    have hcur : mass w (close cur') ≤ mass w cur' := hclose cur'
    simp only [reduceCtorEq,if_false] at hstep ⊢
    omega
  | case2 cur c inp close cur' hs =>
    have hstep := quotedStep_mass w cur c inp
    rw [hs] at hstep
    have hcur : mass w (close cur') ≤ mass w cur' := hclose cur'
    simp only [if_true,mass_nil] at hstep ⊢
    omega
  | case3 cur c inp close cur' rest hs =>
    have hstep := quotedStep_mass w cur c inp
    rw [hs] at hstep
    have hcur : mass w (close cur') ≤ mass w cur' := hclose cur'
    simp only [if_true,mass_cons] at hstep ⊢
    omega
  | case4 cur c inp cur' d rest hs hd ih =>
    have hstep := quotedStep_mass w cur c inp
    rw [hs] at hstep
    simp only [if_true,mass_cons] at hstep
    omega

theorem skipSpace_mass (inp : Bytes) :
    w (skipSpace inp).1 + mass w (skipSpace inp).2 ≤ mass w inp + w EOF := by
  induction inp with
  | nil => simp [skipSpace]
  | cons c inp ih =>
    simp only [skipSpace,mass_cons]
    split_ifs
    · omega
    · dsimp only
      omega

/-- A quoted argument has no more of any byte than what it is read from, but for one 0xFF. -/
theorem parseArgQuoted_mass (hdq : w EOF ≤ w T_DQ) (hlc : w EOF ≤ w T_LC) (c : Byte) (inp : Bytes) :
    mass w (parseArgQuoted c inp).1 + mass w (parseArgQuoted c inp).2.2 ≤
      w c + mass w inp + w EOF := by
  unfold parseArgQuoted
  by_cases hq : c = T_DQ ∨ c = T_LC
  · have hc : w EOF ≤ w c := by
      rcases hq with rfl | rfl
      · exact hdq
      · exact hlc
    rw [if_pos hq]
    generalize (if c = T_DQ then T_DQ else T_RC) = eq
    have hesc := parseArgEscaped_mass w eq false inp
    have hpad := pad_le w (parseArgEscaped eq false inp).2.1
    dsimp only
    split_ifs with heof
    · dsimp only
      omega
    · have hnone : pad w (parseArgEscaped eq false inp).2.1 = 0 := if_neg heof
      have hspace := skipSpace_mass w (parseArgEscaped eq false inp).2.2
      have hloop := quotedLoop_mass w false (parseArgEscaped eq false inp).1
        (skipSpace (parseArgEscaped eq false inp).2.2).1
        (skipSpace (parseArgEscaped eq false inp).2.2).2
      omega
  · rw [if_neg hq]
    have hloop := quotedLoop_mass w true [] c inp
    rw [mass_nil] at hloop
    omega

end

theorem mass_one (s : Bytes) : mass (fun _ => 1) s = s.length := by
  simp [mass]

theorem mass_count (c : Byte) (s : Bytes) : mass (fun d => if d = c then 1 else 0) s = s.count c := by
  induction s with
  | nil => rfl
  | cons d s ih =>
    rw [mass_cons,ih,List.count_cons]
    by_cases hd : d = c
    · simp [hd,Nat.add_comm]
    · simp [hd]

/-- A context in which every other name stands for something that does nothing, within `%try`. -/
def muteHost (strict : Bool) : Host (SchedElem × Unit) Unit where
  find _ _ := some ()
  getQmap _ := none
  eval _ _ := pure ()
  inTry _ := true
  strict _ := strict
  tooDeep _ := false

theorem muteHost_find (strict : Bool) (p : SchedElem × Unit) (name : Bytes) :
    ∃ obj, (loadHost (muteHost strict)).find p name = some obj := by
  unfold loadHost
  dsimp only
  split_ifs
  · exact ⟨_,rfl⟩
  · exact ⟨_,rfl⟩
  · exact ⟨_,rfl⟩

/-- Reading on lost two bytes, or one that is no parenthesis and all the rest was read. -/
inductive Lossy (cur inp : Bytes) (r : Bytes × Bool × Bytes) : Prop
  | two (h : r.1.length + r.2.2.length + 2 ≤ cur.length + inp.length)
  | one (hrest : r.2.2 = []) (hlen : r.1.length + 1 = cur.length + inp.length)
      (hcount : r.1.count T_RP = cur.count T_RP + inp.count T_RP)

/-- How reading an argument ends that has come as far as `cur` when `inp` is ahead: with a loss, at
the end of the input, at a byte that is no parenthesis, or at one that closes a text that was copied. -/
inductive Ending (strict : Bool) (st : ArgSt) (cur inp : Bytes) (r : Bytes × Bool × Bytes) : Prop
  | lossy (h : Lossy cur inp r)
  | all (htext : r.1 = cur ++ inp) (hrest : r.2.2 = [])
  | cut (text : Bytes) (c : Byte) (hc : c ≠ T_RP) (hinp : inp = text ++ c::r.2.2)
      (htext : r.1 = cur ++ text)
  | kept (text : Bytes) (st' : ArgSt) (hinp : inp = text ++ T_RP::r.2.2) (htext : r.1 = cur ++ text)
      (hcopied : Copied strict argCopy T_RP st text st') (hstop : argAct st' T_RP = .stop false)
      (hsp : st'.numsp = 0)

namespace Ending
variable {strict : Bool} {st st' : ArgSt} {cur cur' inp inp' : Bytes} {r : Bytes × Bool × Bytes}

theorem length_le (h : Ending strict st cur inp r) :
    r.1.length + r.2.2.length ≤ cur.length + inp.length := by
  cases h with
  | lossy h =>
    cases h with
    | two h => omega
    | one hrest hlen =>
      rw [hrest,List.length_nil]
      omega
  | all htext hrest =>
    rw [htext,hrest,List.length_append,List.length_nil]
    omega
  | cut text c _ hinp htext =>
    rw [htext,hinp]
    simp only [List.length_append,List.length_cons]
    omega
  | kept text _ hinp htext =>
    rw [htext,hinp]
    simp only [List.length_append,List.length_cons]
    omega

/-- After a byte is lost that is no parenthesis. -/
theorem lose (h : Ending strict st' cur' inp' r)
    (hlen : cur'.length + inp'.length + 1 = cur.length + inp.length)
    (hcount : cur'.count T_RP + inp'.count T_RP = cur.count T_RP + inp.count T_RP) :
    Lossy cur inp r := by
  cases h with
  | lossy h =>
    cases h with
    | two h => exact .two (by omega)
    | one hrest hlen' =>
      refine .two ?_
      rw [hrest,List.length_nil]
      omega
  | all htext hrest =>
    refine .one hrest ?_ ?_
    · rw [htext,List.length_append]
      exact hlen
    · rw [htext,List.count_append]
      exact hcount
  | cut text c _ hinp htext =>
    refine .two ?_
    rw [hinp] at hlen
    rw [htext]
    simp only [List.length_append,List.length_cons] at hlen ⊢
    omega
  | kept text _ hinp htext =>
    refine .two ?_
    rw [hinp] at hlen
    rw [htext]
    simp only [List.length_append,List.length_cons] at hlen ⊢
    omega

/-- After two bytes or more are lost. -/
theorem loseTwo (h : Ending strict st' cur' inp' r)
    (hlen : cur'.length + inp'.length + 2 ≤ cur.length + inp.length) : Lossy cur inp r := by
  have hle := h.length_le
  exact .two (by omega)

/-- After the bytes `w` are copied. -/
theorem keep {w : Bytes} (h : Ending strict st' (cur ++ w) inp r)
    (hcopied : ∀ text st'', inp = text ++ T_RP::r.2.2 → Copied strict argCopy T_RP st' text st'' →
      Copied strict argCopy T_RP st (w ++ text) st'') : Ending strict st cur (w ++ inp) r := by
  cases h with
  | lossy h =>
    refine .lossy ?_
    cases h with
    | two h =>
      refine .two ?_
      simp only [List.length_append] at h ⊢
      omega
    | one hrest hlen hcount =>
      refine .one hrest ?_ ?_
      · simp only [List.length_append] at hlen ⊢
        omega
      · simp only [List.count_append] at hcount ⊢
        omega
  | all htext hrest => exact .all (by rw [htext,List.append_assoc]) hrest
  | cut text c hc hinp htext =>
    exact .cut (w ++ text) c hc (by rw [hinp,List.append_assoc]) (by rw [htext,List.append_assoc])
  | kept text st'' hinp htext hcopy hstop hsp =>
    exact .kept (w ++ text) st'' (by rw [hinp,List.append_assoc]) (by rw [htext,List.append_assoc])
      (hcopied text st'' hinp hcopy) hstop hsp

end Ending

/-- What `ParseFunc` prints for a percent sign and the input after it, and what it leaves: it loses
bytes, or prints what it has read and the reader goes on after it. -/
inductive Called (strict : Bool) (inp out rest : Bytes) : Prop
  | two (h : out.length + rest.length + 1 ≤ inp.length)
  | one (hlen : out.length + rest.length = inp.length)
      (hcount : out.count T_RP + rest.count T_RP = inp.count T_RP)
  | printed (w : Bytes) (hout : out = T_PCT::w) (hinp : inp = w ++ rest)
      (hcopied : ∀ st text tail st', rest = text ++ T_RP::tail →
        Copied strict argCopy T_RP { st with numsp := 0 } text st' →
        Copied strict argCopy T_RP st (T_PCT::w ++ text) st')

/-- The body was not set, or to something that is a call shorter than what was read. -/
def Sets (p p' : SchedElem × Unit) (n : ℕ) : Prop :=
  p'.1.body = p.1.body ∨ p'.1.body.length + 2 ≤ n

theorem SchedElem.evalSetSched_body (e : SchedElem) (args : Option (List Arg)) :
    (e.evalSetSched args).body = e.body := by
  unfold evalSetSched
  split
  · simp only [setSched,apply_ite body,ite_self]
  · rfl

theorem Sets.refl (p : SchedElem × Unit) (n : ℕ) : Sets p p n := .inl rfl

theorem Sets.mono {p p' : SchedElem × Unit} {n m : ℕ} (h : Sets p p' n) (hnm : n ≤ m) :
    Sets p p' m := h.imp_right fun h => h.trans hnm

theorem Sets.trans {p p' p'' : SchedElem × Unit} {n : ℕ} (h : Sets p p' n) (h' : Sets p' p'' n) :
    Sets p p'' n := by
  rcases h' with h' | h'
  · rwa [Sets,h']
  · exact .inr h'

/-- Where a name ends: at the end of the input or at a byte that is none of a name. -/
theorem scanName_cases (name inp : Bytes) : ∃ u, (∀ c ∈ u, isqsym c = true) ∧
    (inp = u ∧ scanName name inp = (name ++ u,EOF,[]) ∨
      ∃ c rest, inp = u ++ c::rest ∧ isqsym c = false ∧ scanName name inp = (name ++ u,c,rest)) := by
  induction inp generalizing name with
  | nil => exact ⟨[],nofun,.inl ⟨rfl,by rw [List.append_nil]; rfl⟩⟩
  | cons c inp ih =>
    rw [scanName]
    cases hc : isqsym c with
    | false => exact ⟨[],nofun,.inr ⟨c,inp,rfl,hc,by rw [List.append_nil]; rfl⟩⟩
    | true =>
      obtain ⟨u,hu,h⟩ := ih (name ++ [c])
      refine ⟨c::u,fun d hd => ?_,?_⟩
      · obtain rfl | hd := List.mem_cons.mp hd
        · exact hc
        · exact hu d hd
      · rw [if_pos rfl]
        rcases h with ⟨rfl,h⟩ | ⟨d,rest,rfl,hd,h⟩
        · exact .inl ⟨rfl,by rw [h,List.append_assoc]; rfl⟩
        · exact .inr ⟨d,rest,rfl,hd,by rw [h,List.append_assoc]; rfl⟩

theorem argAct_skip_cases {st st' : ArgSt} {c : Byte} (h : argAct st c = .skip st') :
    c = T_LC ∨ c = T_DQ ∨ c = T_RC := by
  unfold argAct at h
  split_ifs at h with _ hlc hdq hrc
  · exact .inl hlc.1
  · exact .inr (.inl hdq.1)
  · exact .inr (.inr hrc.1)

theorem argAct_stop_cases {st : ArgSt} {c : Byte} {more : Bool} (h : argAct st c = .stop more) :
    c = T_COMMA ∨ c = T_RP ∧ more = false := by
  unfold argAct at h
  split_ifs at h with _ _ _ _ _ _ _ _ _ hcomma _ hrp
  · exact .inl hcomma
  · cases h
    exact .inr ⟨hrp,rfl⟩

theorem argHead_quoted_length_lt {inp : Bytes} (h : (argHead inp).1 = true) :
    (argHead inp).2.2.length < inp.length := by
  unfold argHead at h ⊢
  by_cases hsq : (skipSpace inp).1 = T_SQ
  · have hne : (skipSpace inp).1 ≠ EOF := by
      rw [hsq]
      decide
    have hlt := skipSpace_length_lt hne
    rw [if_pos hsq]
    exact (getC_length_le _).trans_lt hlt
  · rw [if_neg hsq] at h
    cases h

/-- Only at a byte may a body be set that takes part in the bound. -/
def room (c : Byte) : ℕ := if c = EOF then 0 else 1

/-- What reading loses in a context where all calls are mute, with `n` units of fuel. -/
structure Tame (strict : Bool) (n : ℕ) : Prop where
  func : ∀ inp p, 4*inp.length+1 ≤ n → Ends ((loadHost (muteHost strict)).parseFunc n inp) p
    fun rest p' out => Called strict inp out rest ∧ Sets p p' (inp.length+1)
  name : ∀ d inp p, isqsymf d = true → 4*inp.length+1 ≤ n →
    Ends ((loadHost (muteHost strict)).parseName n [d] inp) p
      fun rest p' out => Called strict (d::inp) out rest ∧ Sets p p' (inp.length+2)
  args : ∀ inp p, 4*inp.length+4 ≤ n →
    Ends ((loadHost (muteHost strict)).parseArgsQmap n false [] inp) p fun r p' out => out = [] ∧
      (SchedElem.argAt (some r.1) 0).length ≤ inp.length+1 ∧ Sets p p' inp.length
  arg : ∀ c inp p, 4*inp.length+3 ≤ n → Ends ((loadHost (muteHost strict)).parseArg n c inp) p
    fun r p' out => out = [] ∧ r.1.length ≤ inp.length+1 ∧ Sets p p' (inp.length+room c)
  turn : ∀ st cur c inp p, st.numsp ≤ cur.length → 4*inp.length+2 ≤ n →
    Ends ((loadHost (muteHost strict)).argTurn n st cur c inp) p fun r p' out => out = [] ∧
      (c ≠ EOF → Ending strict st cur (c::inp) r) ∧
      (c = EOF → ∃ st', argAct st EOF = .put st' ∧ Ending strict st' (cur ++ [EOF]) inp r) ∧
      Sets p p' (inp.length+room c)
  loop : ∀ st cur inp p, st.numsp ≤ cur.length → 4*inp.length+1 ≤ n →
    Ends ((loadHost (muteHost strict)).argLoop n st cur inp) p fun r p' out => out = [] ∧
      Ending strict st cur inp r ∧ Sets p p' inp.length

theorem tame_zero (strict : Bool) : Tame strict 0 where
  func inp p h := by omega
  name d inp p hd h := by omega
  args inp p h := by omega
  arg c inp p h := by omega
  turn st cur c inp p hsp h := by omega
  loop st cur inp p hsp h := by omega

namespace Tame
variable {strict : Bool} {n : ℕ} (ih : Tame strict n)
include ih

theorem loop_succ (st : ArgSt) (cur inp : Bytes) (p : SchedElem × Unit) (hsp : st.numsp ≤ cur.length)
    (hn : 4*inp.length+1 ≤ n+1) :
    Ends ((loadHost (muteHost strict)).argLoop (n+1) st cur inp) p fun r p' out => out = [] ∧
      Ending strict st cur inp r ∧ Sets p p' inp.length := by
  rw [Host.argLoop]
  cases inp with
  | nil => exact .pure ⟨rfl,.all (List.append_nil cur).symm rfl,.refl p _⟩
  | cons c inp =>
    rw [getC_cons]
    simp only [List.length_cons] at hn
    by_cases heof : c = EOF
    · rw [if_pos heof]
      subst heof
      exact .pure ⟨rfl,.cut [] EOF (by decide) rfl (List.append_nil cur).symm,.refl p _⟩
    · rw [if_neg heof]
      refine (ih.turn st cur c inp p hsp (by omega)).mono ?_
      rintro r p' out ⟨hout,hending,-,hsets⟩
      rw [room,if_neg heof] at hsets
      exact ⟨hout,hending heof,hsets⟩

theorem turn_succ (st : ArgSt) (cur : Bytes) (c : Byte) (inp : Bytes) (p : SchedElem × Unit)
    (hsp : st.numsp ≤ cur.length) (hn : 4*inp.length+2 ≤ n+1) :
    Ends ((loadHost (muteHost strict)).argTurn (n+1) st cur c inp) p fun r p' out => out = [] ∧
      (c ≠ EOF → Ending strict st cur (c::inp) r) ∧
      (c = EOF → ∃ st', argAct st EOF = .put st' ∧ Ending strict st' (cur ++ [EOF]) inp r) ∧
      Sets p p' (inp.length+room c) := by
  rw [Host.argTurn]
  by_cases hesc : c = T_ESC
  · subst hesc
    have hne : T_ESC ≠ EOF := by decide
    rw [if_pos rfl]
    cases inp with
    | nil =>
      simp only [getC_nil,if_true]
      refine (ih.loop _ cur [] p (Nat.zero_le _) (by simpa using hn)).mono ?_
      rintro r p' out ⟨hout,hending,hsets⟩
      refine ⟨hout,fun _ => .lossy (hending.lose ?_ ?_),fun h => absurd h hne,hsets.mono ?_⟩
      · simp
      · simp [T_ESC,T_RP,ch]
      · exact Nat.le_add_right _ _
    | cons d inp =>
      simp only [List.length_cons] at hn
      by_cases hd : d = EOF
      · simp only [getC_cons,hd,if_true]
        refine (ih.loop _ cur inp p (Nat.zero_le _) (by omega)).mono ?_
        rintro r p' out ⟨hout,hending,hsets⟩
        refine ⟨hout,fun _ => .lossy (hending.loseTwo ?_),fun h => absurd h hne,hsets.mono ?_⟩
        · simp only [List.length_cons]
          omega
        · simp only [List.length_cons]
          omega
      · simp only [getC_cons,hd,if_false]
        refine (ih.loop _ (cur ++ [d]) inp p (Nat.zero_le _) (by omega)).mono ?_
        rintro r p' out ⟨hout,hending,hsets⟩
        refine ⟨hout,fun _ => .lossy (hending.lose ?_ ?_),fun h => absurd h hne,hsets.mono ?_⟩
        · simp only [List.length_append,List.length_cons,List.length_nil]
          omega
        · have hcount : (T_ESC == T_RP) = false := by decide
          simp only [List.count_append,List.count_cons,List.count_nil,hcount,Bool.false_eq_true,
            if_false]
          omega
        · simp only [List.length_cons]
          omega
  rw [if_neg hesc]
  by_cases hpct : c = T_PCT
  · subst hpct
    have hne : T_PCT ≠ EOF := by decide
    have hroom : room T_PCT = 1 := by decide
    rw [if_pos rfl,hroom]
    refine .bind (.capture ((ih.func inp p (by omega)).mono ?_))
    rintro rest p' out ⟨hcalled,hsets⟩
    have hrest : rest.length ≤ inp.length := by
      cases hcalled with
      | two h => omega
      | one h => omega
      | printed w hout hinp =>
        rw [hinp,List.length_append]
        omega
    refine (ih.loop _ (cur ++ out) rest p' (Nat.zero_le _) (by omega)).mono ?_
    rintro r p'' out' ⟨hout',hending,hsets'⟩
    refine ⟨hout',fun _ => ?_,fun h => absurd h hne,hsets.trans (hsets'.mono (by omega))⟩
    cases hcalled with
    | two h =>
      refine .lossy (hending.loseTwo ?_)
      simp only [List.length_append,List.length_cons]
      omega
    | one hlen hcount =>
      have hne : (T_PCT == T_RP) = false := by decide
      refine .lossy (hending.lose ?_ ?_)
      · simp only [List.length_append,List.length_cons]
        omega
      · simp only [List.count_append,List.count_cons,hne,Bool.false_eq_true,if_false]
        omega
    | printed w hout hinp hcopied =>
      subst hout hinp
      exact hending.keep (w := T_PCT::w) fun text st'' hrest hcopy =>
        hcopied st text r.2.2 st'' hrest hcopy
  rw [if_neg hpct]
  cases hact : argAct st c with
  | put st' =>
    have hsp' : st'.numsp ≤ (cur ++ [c]).length := by
      have hle := argAct_put_numsp hact
      rw [List.length_append,List.length_singleton]
      omega
    refine (ih.loop st' (cur ++ [c]) inp p hsp' (by omega)).mono ?_
    rintro r p' out ⟨hout,hending,hsets⟩
    refine ⟨hout,fun heof => ?_,?_,hsets.mono (Nat.le_add_right _ _)⟩
    · have hcopy : argCopy st c = some st' := by rw [argCopy,if_neg hesc,hact]
      exact hending.keep (w := [c]) fun text st'' _ hcopied => .byte heof hpct hcopy hcopied
    · rintro rfl
      exact ⟨st',hact,hending⟩
  | skip st' =>
    have hle := argAct_skip_numsp hact
    refine (ih.loop st' cur inp p (hle.trans hsp) (by omega)).mono ?_
    rintro r p' out ⟨hout,hending,hsets⟩
    have hc : c ≠ T_RP ∧ c ≠ EOF := by
      rcases argAct_skip_cases hact with rfl | rfl | rfl <;> decide
    have hne : (c == T_RP) = false := by simpa using hc.1
    refine ⟨hout,fun _ => .lossy (hending.lose ?_ ?_),fun h => absurd h hc.2,
      hsets.mono (Nat.le_add_right _ _)⟩
    · rw [List.length_cons]
      omega
    · simp only [List.count_cons,hne,Bool.false_eq_true,if_false]
      omega
  | stop more =>
    have heof : c ≠ EOF := by
      rcases argAct_stop_cases hact with rfl | ⟨rfl,-⟩ <;> decide
    refine .pure ⟨rfl,fun _ => ?_,fun h => absurd h heof,.refl p _⟩
    by_cases hzero : st.numsp = 0
    · have hcut : cutSpaces cur st.numsp = cur := by
        rw [hzero,cutSpaces,Nat.sub_zero,List.take_length]
      by_cases hrp : c = T_RP
      · subst hrp
        obtain ⟨rfl⟩ : more = false := ((argAct_stop_cases hact).resolve_left (by decide)).2
        exact .kept [] st rfl (by rw [hcut,List.append_nil]) (.nil st) hact hzero
      · exact .cut [] c hrp rfl (by rw [hcut,List.append_nil])
    · refine .lossy (.two ?_)
      simp only [cutSpaces,List.length_take,List.length_cons]
      omega

theorem arg_succ (c : Byte) (inp : Bytes) (p : SchedElem × Unit) (hn : 4*inp.length+3 ≤ n+1) :
    Ends ((loadHost (muteHost strict)).parseArg (n+1) c inp) p
      fun r p' out => out = [] ∧ r.1.length ≤ inp.length+1 ∧ Sets p p' (inp.length+room c) := by
  rw [Host.parseArg]
  have hturn (st : ArgSt) (d : Byte) (rest : Bytes) (hst : st.numsp = 0)
      (hrest : rest.length ≤ inp.length) (hroom : rest.length + room d ≤ inp.length + room c) :
      Ends ((loadHost (muteHost strict)).argTurn n st [] d rest) p
        fun r p' out => out = [] ∧ r.1.length ≤ inp.length+1 ∧ Sets p p' (inp.length+room c) := by
    refine (ih.turn st [] d rest p (by simp [hst]) (by omega)).mono ?_
    rintro r p' out ⟨hout,hending,heof,hsets⟩
    refine ⟨hout,?_,hsets.mono hroom⟩
    by_cases hd : d = EOF
    · obtain ⟨st',-,hending⟩ := heof hd
      have hle := hending.length_le
      simp only [List.length_append,List.length_cons,List.length_nil] at hle
      omega
    · have hle := (hending hd).length_le
      simp only [List.length_cons,List.length_nil] at hle
      omega
  have hquote (hc : c ≠ EOF) (st : ArgSt) (hst : st.numsp = 0) :
      Ends ((loadHost (muteHost strict)).argTurn n st [] (getC inp).1 (getC inp).2) p
        fun r p' out => out = [] ∧ r.1.length ≤ inp.length+1 ∧ Sets p p' (inp.length+room c) := by
    have hle := getC_length_le inp
    have hroom : room c = 1 := if_neg hc
    have hone : room (getC inp).1 ≤ 1 := by
      unfold room
      split_ifs <;> omega
    exact hturn st _ _ hst hle (by omega)
  unfold argOpen
  by_cases hdq : c = T_DQ
  · rw [if_pos hdq]
    exact hquote (by rw [hdq]; decide) _ rfl
  by_cases hlc : c = T_LC
  · rw [if_neg hdq,if_pos hlc]
    exact hquote (by rw [hlc]; decide) _ rfl
  · rw [if_neg hdq,if_neg hlc]
    exact hturn _ c inp rfl le_rfl le_rfl

theorem args_succ (inp : Bytes) (p : SchedElem × Unit) (hn : 4*inp.length+4 ≤ n+1) :
    Ends ((loadHost (muteHost strict)).parseArgsQmap (n+1) false [] inp) p fun r p' out => out = [] ∧
      (SchedElem.argAt (some r.1) 0).length ≤ inp.length+1 ∧ Sets p p' inp.length := by
  have hhead := argHead_length_le inp
  have hone (a : Arg) (rest : List Arg) : SchedElem.argAt (some (a::rest)) 0 = a.text := rfl
  rw [Host.parseArgsQmap]
  -- the first argument, quoted or not
  have hfirst : Ends (if false || (argHead inp).1
      then pure (parseArgQuoted (argHead inp).2.1 (argHead inp).2.2)
      else (loadHost (muteHost strict)).parseArg n (argHead inp).2.1 (argHead inp).2.2) p
      fun a p' out => (out = [] ∧ a.1.length ≤ inp.length+1 ∧ Sets p p' inp.length) ∧
        a.2.2.length ≤ (argHead inp).2.2.length := by
    rw [Bool.false_or]
    cases hsq : (argHead inp).1 with
    | true =>
      rw [if_pos rfl]
      refine .pure ⟨⟨rfl,?_,.refl p _⟩,parseArgQuoted_length_le _ _⟩
      have hmass := parseArgQuoted_mass (fun _ => 1) le_rfl le_rfl (argHead inp).2.1 (argHead inp).2.2
      simp only [mass_one] at hmass
      have hlt := argHead_quoted_length_lt hsq
      omega
    | false =>
      rw [if_neg Bool.false_ne_true]
      refine ((ih.arg _ _ p (by omega)).and_returns fun a ha => (Host.restLe n).arg _ _ _ ha).mono ?_
      rintro a p' out ⟨⟨hout,hlen,hsets⟩,hrest⟩
      refine ⟨⟨hout,by omega,hsets.mono ?_⟩,hrest⟩
      unfold room
      split_ifs with heof
      · exact hhead
      · exact argHead_length_lt heof
  refine .bind (hfirst.mono ?_)
  rintro a p' out ⟨⟨rfl,hlen,hsets⟩,hrest⟩
  by_cases hmore : a.2.1 = true ∧ (argHead inp).2.1 ≠ EOF
  · have hlt := argHead_length_lt hmore.2
    rw [if_pos hmore]
    refine .bind ((ih.args a.2.2 p' (by omega)).mono ?_)
    rintro r p'' out ⟨rfl,-,hsets'⟩
    exact .pure ⟨rfl,by rw [hone]; exact hlen,hsets.trans (hsets'.mono (by omega))⟩
  · rw [if_neg hmore]
    exact .pure ⟨rfl,by rw [hone]; exact hlen,hsets⟩

theorem func_succ (inp : Bytes) (p : SchedElem × Unit) (hn : 4*inp.length+1 ≤ n+1) :
    Ends ((loadHost (muteHost strict)).parseFunc (n+1) inp) p
      fun rest p' out => Called strict inp out rest ∧ Sets p p' (inp.length+1) := by
  rw [Host.parseFunc]
  cases inp with
  | nil =>
    have hsym : isqsymf EOF = false := by decide
    simp only [getC_nil,hsym,Bool.false_eq_true,if_false,true_or,if_true]
    refine .bind (.emit (.pure ⟨.printed [] rfl rfl ?_,.refl p _⟩))
    intro st text tail st' hrest
    exact absurd hrest (by simp)
  | cons d inp =>
    rw [getC_cons]
    simp only [List.length_cons] at hn
    by_cases hsym : isqsymf d = true
    · rw [if_pos hsym]
      refine (ih.name d inp p hsym (by omega)).mono ?_
      rintro rest p' out ⟨hcalled,hsets⟩
      exact ⟨hcalled,hsets⟩
    rw [if_neg hsym]
    have hsym' : isqsymf d = false := by simpa using hsym
    by_cases hend : d = EOF ∨ d = T_PCT
    · rw [if_pos hend]
      have hne : (d == T_RP) = false := by
        rcases hend with rfl | rfl <;> decide
      refine .bind (.emit (.pure ⟨.one ?_ ?_,.refl p _⟩))
      · simp only [List.append_nil,List.length_cons,List.length_nil]
        omega
      · have hpct : (T_PCT == T_RP) = false := by decide
        simp only [List.append_nil,List.count_cons,List.count_nil,hne,hpct,Bool.false_eq_true,if_false]
        omega
    rw [if_neg hend]
    obtain ⟨heof,hpct⟩ := not_or.mp hend
    by_cases hpunct : isPunct d = true
    · rw [if_pos hpunct]
      refine .bind (.emit (.bind ?_))
      unfold Host.rejectPunct
      refine .get_bind ?_
      cases strict with
      | true => exact fun a s' b h => by cases h
      | false =>
        refine .pure (.pure ⟨.printed [] rfl rfl ?_,.refl p _⟩)
        intro st text tail st' hrest hcopied
        cases text with
        | nil =>
          obtain ⟨rfl,rfl⟩ := List.cons.inj hrest
          cases hcopied
          exact .last st (.inl ⟨rfl,rfl⟩)
        | cons d' text =>
          obtain ⟨rfl,rfl⟩ := List.cons.inj hrest
          exact .punct rfl hsym' hpunct hcopied
    · rw [if_neg hpunct]
      refine .bind (.emit (.pure ⟨.printed [d] rfl rfl ?_,.refl p _⟩))
      intro st text tail st' _ hcopied
      exact .other hsym' heof hpct (by simpa using hpunct) hcopied

theorem name_succ (d : Byte) (inp : Bytes) (p : SchedElem × Unit) (hd : isqsymf d = true)
    (hn : 4*inp.length+1 ≤ n+1) :
    Ends ((loadHost (muteHost strict)).parseName (n+1) [d] inp) p
      fun rest p' out => Called strict (d::inp) out rest ∧ Sets p p' (inp.length+2) := by
  rw [Host.parseName]
  refine .get_bind ?_
  obtain ⟨u,hu,⟨rfl,hscan⟩ | ⟨c,rest,rfl,hc,hscan⟩⟩ := scanName_cases [d] inp
  · -- the name goes up to the end
    have hlp : EOF ≠ T_LP := by decide
    have hpct : EOF ≠ T_PCT := by decide
    rw [hscan,if_neg hlp,if_neg hpct]
    refine .bind (.emit (.pure ⟨.printed (d::inp) ?_ (List.append_nil _).symm ?_,.refl p _⟩))
    · simp
    · intro st text tail st' hrest
      exact absurd hrest (by simp)
  have hlen : (u ++ c::rest).length = u.length + rest.length + 1 := by
    simp only [List.length_append,List.length_cons]
    omega
  rw [hscan]
  by_cases hlp : c = T_LP
  · rw [if_pos hlp]
    obtain ⟨obj,hobj⟩ := muteHost_find strict p ([d] ++ u)
    have hmap : (loadHost (muteHost strict)).getQmap obj = none := by
      cases obj <;> rfl
    rw [hobj]
    dsimp only
    rw [hmap,argsStart]
    refine .bind (((ih.args rest p (by omega)).and_returns fun a ha =>
      (Host.restLe n).args _ _ _ _ ha).mono ?_)
    rintro a p' out ⟨⟨rfl,hbody,hsets⟩,hrest⟩
    refine .bind (.get_bind ?_)
    have hrest : a.2.length ≤ rest.length := hrest
    have hcalled : Called strict (d::(u ++ c::rest)) [] a.2 := by
      refine .two ?_
      simp only [List.length_cons,List.length_nil,hlen]
      omega
    cases obj with
    | setBody =>
      intro _ s' b hrun
      cases hrun
      refine .pure ⟨hcalled,.inr ?_⟩
      rw [hlen]
      have hset : (SchedElem.argAt (some a.1) 0).length ≤ rest.length+1 := hbody
      exact (Nat.add_le_add_right hset 2).trans (by omega)
    | setSched =>
      intro _ s' b hrun
      cases hrun
      refine .pure ⟨hcalled,?_⟩
      have hsame : (p'.1.evalSetSched (some a.1)).body = p'.1.body := SchedElem.evalSetSched_body _ _
      rcases hsets with hsets | hsets
      · exact .inl (hsame.trans hsets)
      · refine .inr ?_
        rw [hsame,hlen]
        omega
    | other obj =>
      intro _ s' b hrun
      cases hrun
      exact .pure ⟨hcalled,hsets.mono (by omega)⟩
  rw [if_neg hlp]
  by_cases hpct : c = T_PCT
  · rw [if_pos hpct]
    obtain ⟨obj,hobj⟩ := muteHost_find strict p ([d] ++ u)
    rw [hobj]
    have hcalled : Called strict (d::(u ++ c::rest)) [] rest := by
      refine .two ?_
      simp only [List.length_cons,List.length_nil,hlen]
      omega
    refine .bind ?_
    cases obj with
    | setBody =>
      intro _ s' b hrun
      cases hrun
      exact .pure ⟨hcalled,.inr (Nat.le_add_left 2 _)⟩
    | setSched =>
      intro _ s' b hrun
      cases hrun
      exact .pure ⟨hcalled,.inl (SchedElem.evalSetSched_body _ _)⟩
    | other obj =>
      intro _ s' b hrun
      cases hrun
      exact .pure ⟨hcalled,.refl p _⟩
  rw [if_neg hpct]
  by_cases heof : c = EOF
  · -- a 0xFF that is taken for the end
    subst heof
    have hrp : (T_PCT == T_RP) = false := by decide
    have heof : (EOF == T_RP) = false := by decide
    refine .bind (.emit (.pure ⟨.one ?_ ?_,.refl p _⟩))
    · simp only [if_true,List.append_nil,List.length_cons,List.length_append,List.length_nil]
      omega
    · simp only [if_true,List.append_nil,List.count_cons,List.count_append,List.count_nil,hrp,heof,
        Bool.false_eq_true,if_false]
      omega
  · refine .bind (.emit (.pure ⟨.printed ([d] ++ u ++ [c]) ?_ ?_ ?_,.refl p _⟩))
    · simp [heof]
    · simp
    · intro st text tail st' hrest hcopied
      have hagain : scanName [d] (u ++ c::text) = ([d] ++ u,c,text) := by
        rw [scanName_all hu,scanName,if_neg (by simp [hc])]
      have hbroken : Copied strict argCopy T_RP st (T_PCT::d::(u ++ c::text)) st' :=
        .broken hd hagain heof hlp hpct hcopied
      simpa using hbroken

theorem succ : Tame strict (n+1) where
  func := ih.func_succ
  name := ih.name_succ
  args := ih.args_succ
  arg := ih.arg_succ
  turn := ih.turn_succ
  loop := ih.loop_succ

end Tame

theorem tame (strict : Bool) (n : ℕ) : Tame strict n := by
  induction n with
  | zero => exact tame_zero strict
  | succ n ih => exact ih.succ

variable {strict : Bool}

theorem parseLoop_sets (n : ℕ) (inp : Bytes) (p : SchedElem × Unit) (hn : 4*inp.length+1 ≤ n) :
    Ends ((loadHost (muteHost strict)).parseLoop n inp) p fun _ p' _ => Sets p p' inp.length := by
  induction n generalizing inp p with
  | zero => omega
  | succ n ih =>
    rw [Host.parseLoop]
    cases inp with
    | nil => exact .pure (.refl p _)
    | cons c inp =>
      rw [getC_cons]
      simp only [List.length_cons] at hn ⊢
      by_cases heof : c = EOF
      · rw [if_pos heof]
        exact .pure (.refl p _)
      rw [if_neg heof]
      by_cases hpct : c = T_PCT
      · rw [if_pos hpct]
        refine .bind ((((tame strict n).func inp p (by omega)).and_returns fun rest hrest =>
          (Host.restLe n).func _ _ hrest).mono ?_)
        rintro rest p' out ⟨⟨-,hsets⟩,hrest⟩
        refine (ih rest p' (by omega)).mono ?_
        intro _ p'' _ hsets'
        exact hsets.trans (hsets'.mono (by omega))
      · rw [if_neg hpct]
        refine .bind (.emit ((ih inp p (by omega)).mono ?_))
        intro _ p' _ hsets
        exact hsets.mono (Nat.le_succ _)

/-- Reading with a loss does not give the body back. -/
theorem Lossy.ne_body {cur inp body : Bytes} {r : Bytes × Bool × Bytes} (h : Lossy cur inp r)
    (hinp : cur ++ inp = body ++ [T_RP]) : r.1 ≠ body := by
  rintro rfl
  have hlen := congrArg List.length hinp
  have hcount := congrArg (List.count T_RP) hinp
  simp only [List.length_append,List.length_singleton] at hlen
  simp only [List.count_append,List.count_singleton_self] at hcount
  cases h with
  | two h => omega
  | one _ _ h => omega

/-- An argument that does not start with a quote gives the body back only when it is copied. -/
theorem Ending.body_eq {st : ArgSt} {cur inp body : Bytes} {r : Bytes × Bool × Bytes}
    (h : Ending strict st cur inp r) (hinp : cur ++ inp = body ++ [T_RP]) (hr : r.1 = body) :
    ∃ text st', body = cur ++ text ∧ Copied strict argCopy T_RP st text st' ∧
      argAct st' T_RP = .stop false ∧ st'.numsp = 0 := by
  cases h with
  | lossy h => exact absurd hr (h.ne_body hinp)
  | all htext =>
    rw [hr] at htext
    rw [← htext] at hinp
    exact absurd hinp (by simp)
  | cut text c hc hrest htext =>
    rw [hrest,← List.append_assoc,← htext,hr] at hinp
    exact absurd (List.cons.inj (List.append_cancel_left hinp)).1 hc
  | kept text st' _ htext hcopied hstop hsp => exact ⟨text,st',hr ▸ htext,hcopied,hstop,hsp⟩

/-- How `ParseArg` ends when it starts at the byte `c`; an opening quote is lost. -/
theorem parseArg_ending (c : Byte) {inp : Bytes} (hinp : inp ≠ []) (p : SchedElem × Unit) {n : ℕ}
    (hn : 4*inp.length+3 ≤ n) : Ends ((loadHost (muteHost strict)).parseArg n c inp) p fun r _ _ =>
      Lossy [] (c::inp) r ∨ (c ≠ T_DQ ∧ c ≠ T_LC ∧ (c ≠ EOF → Ending strict {} [] (c::inp) r) ∧
        (c = EOF → Ending strict {} [EOF] inp r)) := by
  obtain ⟨n,rfl⟩ : ∃ m, n = m+1 := ⟨n-1,by omega⟩
  obtain ⟨d,rest,rfl⟩ := List.exists_cons_of_ne_nil hinp
  simp only [List.length_cons] at hn
  have hquote (hc : c ≠ T_RP) (st : ArgSt) (hst : st.numsp = 0) :
      Ends ((loadHost (muteHost strict)).argTurn n st [] d rest) p
        fun r _ _ => Lossy [] (c::d::rest) r := by
    have hne : (c == T_RP) = false := by simpa using hc
    refine ((tame strict n).turn st [] d rest p (by simp [hst]) (by omega)).mono ?_
    rintro r _ _ ⟨-,hending,heof,-⟩
    by_cases hd : d = EOF
    · obtain ⟨st',-,hending⟩ := heof hd
      refine hending.lose ?_ ?_
      · simp only [List.nil_append,List.length_cons,List.length_nil]
        omega
      · simp only [List.nil_append,List.count_cons,List.count_nil,hd,hne,Bool.false_eq_true,if_false]
        omega
    · refine (hending hd).lose rfl ?_
      simp only [List.count_cons,List.count_nil,hne,Bool.false_eq_true,if_false]
      omega
  rw [Host.parseArg,argOpen,getC_cons]
  by_cases hdq : c = T_DQ
  · rw [if_pos hdq]
    exact (hquote (by rw [hdq]; decide) _ rfl).mono fun r _ _ h => .inl h
  by_cases hlc : c = T_LC
  · rw [if_neg hdq,if_pos hlc]
    exact (hquote (by rw [hlc]; decide) _ rfl).mono fun r _ _ h => .inl h
  · rw [if_neg hdq,if_neg hlc]
    refine ((tame strict n).turn {} [] c (d::rest) p le_rfl (by simp only [List.length_cons]; omega)).mono ?_
    rintro r _ _ ⟨-,hending,heof,-⟩
    refine .inr ⟨hdq,hlc,hending,fun hc => ?_⟩
    obtain ⟨st',hput,hending⟩ := heof hc
    obtain rfl : st' = {} := ArgAct.put.inj (hput.symm.trans rfl)
    exact hending

/-- The blanks before an argument. -/
theorem skipSpace_cases (inp : Bytes) : ∃ blanks, (∀ c ∈ blanks, isspace c = true) ∧
    (inp = blanks ∨ ∃ c rest, inp = blanks ++ c::rest ∧ isspace c = false ∧
      skipSpace inp = (c,rest)) := by
  induction inp with
  | nil => exact ⟨[],nofun,.inl rfl⟩
  | cons c inp ih =>
    cases hc : isspace c with
    | false => exact ⟨[],nofun,.inr ⟨c,inp,rfl,hc,skipSpace_of_not_isspace hc inp⟩⟩
    | true =>
      obtain ⟨blanks,hblanks,h⟩ := ih
      refine ⟨c::blanks,fun d hd => ?_,?_⟩
      · obtain rfl | hd := List.mem_cons.mp hd
        · exact hc
        · exact hblanks d hd
      · rw [skipSpace,if_pos hc]
        rcases h with rfl | ⟨d,rest,rfl,hd,h⟩
        · exact .inl rfl
        · exact .inr ⟨d,rest,rfl,hd,h⟩

/-- A quoted argument has fewer quotes than its text. -/
theorem quoted_ne {inp : Bytes} (h : (argHead inp).1 = true) :
    (parseArgQuoted (argHead inp).2.1 (argHead inp).2.2).1.count T_SQ < inp.count T_SQ := by
  have hmass := parseArgQuoted_mass (fun d => if d = T_SQ then 1 else 0) (Nat.zero_le _) (Nat.zero_le _)
    (argHead inp).2.1 (argHead inp).2.2
  have hspace := skipSpace_mass (fun d => if d = T_SQ then 1 else 0) inp
  have heof : (if EOF = T_SQ then 1 else 0) = 0 := by decide
  simp only [mass_count,heof] at hmass hspace
  unfold argHead at h hmass ⊢
  by_cases hsq : (skipSpace inp).1 = T_SQ
  · rw [if_pos hsq] at hmass hspace ⊢
    have hget : (if (getC (skipSpace inp).2).1 = T_SQ then 1 else 0) +
        (getC (skipSpace inp).2).2.count T_SQ ≤ (skipSpace inp).2.count T_SQ := by
      cases (skipSpace inp).2 with
      | nil => decide
      | cons d rest =>
        by_cases hd : d = T_SQ
        · simp [hd,Nat.add_comm]
        · simp [hd]
    dsimp only at hmass ⊢
    omega
  · rw [if_neg hsq] at h
    cases h

/-- Where a body that is no argument by itself begins with blanks, it is not given back. -/
theorem lossy_of_blanks {blanks : Bytes} (hblanks : ∀ c ∈ blanks, isspace c = true)
    (hne : blanks ≠ []) {c : Byte} {inp : Bytes} {r : Bytes × Bool × Bytes}
    (h : Lossy [] (c::inp) r ∨ (c ≠ T_DQ ∧ c ≠ T_LC ∧ (c ≠ EOF → Ending strict {} [] (c::inp) r) ∧
      (c = EOF → Ending strict {} [EOF] inp r))) : Lossy [] (blanks ++ c::inp) r := by
  have hending : ∃ (st : ArgSt) (cur inp' : Bytes), Ending strict st cur inp' r ∧
      cur ++ inp' = c::inp := by
    rcases h with h | ⟨-,-,h,heof⟩
    · exact ⟨{},[],c::inp,.lossy h,rfl⟩
    · by_cases hc : c = EOF
      · exact ⟨{},[EOF],inp,heof hc,by rw [hc]; rfl⟩
      · exact ⟨{},[],c::inp,h hc,rfl⟩
  obtain ⟨st,cur,inp',hending,hsame⟩ := hending
  have hlen := congrArg List.length hsame
  have hcount := congrArg (List.count T_RP) hsame
  have hpos : 0 < blanks.length := List.length_pos_iff.mpr hne
  have hzero : blanks.count T_RP = 0 := by
    apply List.count_eq_zero.mpr
    intro hmem
    exact absurd (hblanks _ hmem) (by decide)
  simp only [List.length_append] at hlen
  simp only [List.count_append] at hcount
  by_cases hone : blanks.length = 1
  · refine hending.lose ?_ ?_
    · simp only [List.length_append,List.length_nil]
      omega
    · simp only [List.count_append,List.count_nil]
      omega
  · refine hending.loseTwo ?_
    simp only [List.length_append,List.length_nil]
    omega

/-- The first argument is the body itself only where the body is kept. -/
theorem firstArg_eq (body : Bytes) (p : SchedElem × Unit) {n : ℕ}
    (hn : 4*(body ++ [T_RP]).length+4 ≤ n) :
    Ends ((loadHost (muteHost strict)).parseArgsQmap n false [] (body ++ [T_RP])) p
      fun r _ _ => SchedElem.argAt (some r.1) 0 = body → KeptArg strict T_RP body := by
  obtain ⟨n,rfl⟩ : ∃ m, n = m+1 := ⟨n-1,by omega⟩
  have hhead := argHead_length_le (body ++ [T_RP])
  have hone (a : Arg) (rest : List Arg) : SchedElem.argAt (some (a::rest)) 0 = a.text := rfl
  rw [Host.parseArgsQmap]
  have hfirst : Ends (if false || (argHead (body ++ [T_RP])).1
      then pure (parseArgQuoted (argHead (body ++ [T_RP])).2.1 (argHead (body ++ [T_RP])).2.2)
      else (loadHost (muteHost strict)).parseArg n (argHead (body ++ [T_RP])).2.1
        (argHead (body ++ [T_RP])).2.2) p fun a _ _ => a.1 = body → KeptArg strict T_RP body := by
    rw [Bool.false_or]
    cases hsq : (argHead (body ++ [T_RP])).1 with
    | true =>
      rw [if_pos rfl]
      refine .pure fun heq => ?_
      have hcount := quoted_ne hsq
      have hrp : (T_RP == T_SQ) = false := by decide
      rw [heq,List.count_append,List.count_cons,hrp] at hcount
      exact absurd hcount (by simp)
    | false =>
      rw [if_neg Bool.false_ne_true]
      obtain ⟨blanks,hblanks,hinp | ⟨c,inp,hinp,hc,hskip⟩⟩ := skipSpace_cases (body ++ [T_RP])
      · have hrp := hblanks T_RP (by rw [← hinp]; simp)
        exact absurd hrp (by decide)
      have hplain : argHead (body ++ [T_RP]) = (false,c,inp) := by
        unfold argHead at hsq ⊢
        rw [hskip] at hsq ⊢
        by_cases hquote : c = T_SQ
        · rw [if_pos hquote] at hsq
          cases hsq
        · rw [if_neg hquote]
      have hcsq : c ≠ T_SQ := by
        rintro rfl
        unfold argHead at hsq
        rw [hskip] at hsq
        cases hsq
      rw [hplain] at hhead ⊢
      -- An argument of nothing but blanks is the empty one.
      by_cases hnil : inp = []
      · subst hnil
        obtain ⟨rfl,hrp⟩ := List.append_inj' hinp rfl
        obtain rfl := (List.cons.inj hrp).1
        obtain ⟨m,rfl⟩ : ∃ m, n = m+2 := ⟨n-2,by omega⟩
        have hread : (loadHost (muteHost strict)).parseArg (m+2) T_RP [] = pure ([],false,[]) := rfl
        dsimp only
        rw [hread]
        refine .pure fun heq => ?_
        rw [← heq]
        exact Host.keptArg_plain (.inl rfl) (fun d hd => absurd hd List.not_mem_nil) (by rintro ⟨⟩)
      refine (parseArg_ending c hnil p (by dsimp only at hhead; omega)).mono fun a _ _ h heq => ?_
      by_cases hbl : blanks = []
      · subst hbl
        rw [List.nil_append] at hinp
        rcases h with h | ⟨hdq,hlc,hending,heof⟩
        · exact absurd heq (h.ne_body hinp.symm)
        obtain ⟨t,rfl⟩ : ∃ t, body = c::t := by
          cases body with
          | nil => exact absurd (List.cons.inj hinp).2.symm hnil
          | cons b t =>
            obtain rfl := (List.cons.inj hinp).1
            exact ⟨t,rfl⟩
        have hopens : ∀ d ∈ (c::t).head?, isspace d = false ∧ d ≠ T_SQ ∧ d ≠ T_DQ ∧ d ≠ T_LC := by
          rintro _ ⟨⟩
          exact ⟨hc,hcsq,hdq,hlc⟩
        by_cases hceof : c = EOF
        · obtain ⟨text,st',htext,hcopied,hstop,hsp⟩ := (heof hceof).body_eq (by rw [hinp,hceof]; rfl) heq
          obtain ⟨-,rfl⟩ := List.cons.inj htext
          exact ⟨hopens,st',.inr ⟨t,by rw [hceof],hcopied⟩,hstop,hsp⟩
        · obtain ⟨text,st',htext,hcopied,hstop,hsp⟩ := (hending hceof).body_eq hinp.symm heq
          rw [List.nil_append] at htext
          exact ⟨hopens,st',.inl (htext ▸ hcopied),hstop,hsp⟩
      · have hlossy := lossy_of_blanks hblanks hbl h
        exact absurd heq (hlossy.ne_body (hinp ▸ rfl))
  refine .bind (hfirst.mono ?_)
  intro a p' _ hkept
  by_cases hmore : a.2.1 = true ∧ (argHead (body ++ [T_RP])).2.1 ≠ EOF
  · rw [if_pos hmore]
    refine .bind fun r p'' _ _ => .pure fun heq => hkept ?_
    rwa [hone] at heq
  · rw [if_neg hmore]
    refine .pure fun heq => hkept ?_
    rwa [hone] at heq

/-- `%b` prints nothing, and sets the body that was saved only where that is kept. -/
theorem callBody_ends (body : Bytes) (p : SchedElem × Unit) {n : ℕ}
    (hn : 4*(body ++ [T_RP]).length+4 ≤ n) :
    Ends (SchedElem.callBody (muteHost strict) n (body ++ [T_RP])) p fun rest p' out => out = [] ∧
      (p'.1.body = body → KeptArg strict T_RP body) ∧ rest.length ≤ body.length+1 := by
  unfold SchedElem.callBody
  refine .bind ((((firstArg_eq body p hn).and ((tame strict n).args _ p hn)).and_returns fun a ha =>
    (Host.restLe n).args _ _ _ _ ha).mono ?_)
  rintro a p' out ⟨⟨hkept,rfl,-,-⟩,hrest⟩
  rw [List.length_append] at hrest
  refine .bind (.get_bind ?_)
  intro _ s' b hrun
  cases hrun
  exact .pure ⟨rfl,hkept,hrest⟩

theorem lastArgs_sets (a : Bytes × Bool × Bytes) (p : SchedElem × Unit) {n : ℕ}
    (hn : 4*a.2.2.length+4 ≤ n) : Ends (SchedElem.lastArgs (muteHost strict) n a) p
      fun r p' _ => r.2.length ≤ a.2.2.length ∧ Sets p p' a.2.2.length := by
  unfold SchedElem.lastArgs
  split_ifs
  · refine .bind ((((tame strict n).args _ p hn).and_returns fun r hr =>
      (Host.restLe n).args _ _ _ _ hr).mono ?_)
    rintro r p' out ⟨⟨-,-,hsets⟩,hrest⟩
    exact .pure ⟨hrest,hsets⟩
  · exact .pure ⟨le_rfl,.refl p _⟩

/-- What is read after the call of `%b` does not set the body to what it was. -/
theorem parseLoop_body_ends (body : Bytes) (p : SchedElem × Unit) {n : ℕ}
    (hn : 4*(body ++ [T_RP]).length+20 ≤ n) :
    Ends ((loadHost (muteHost strict)).parseLoop (n+9) (str "%s(s,%b(" ++ (body ++ [T_RP]))) p
      fun _ p' _ => p'.1.body = body → KeptArg strict T_RP body := by
  have hlen : (body ++ [T_RP]).length = body.length+1 := List.length_append
  rw [hlen] at hn
  rw [SchedElem.parseLoop_body (fun _ => rfl) _ (by rw [hlen]; exact hn)]
  refine .bind (.capture ((callBody_ends body p (by rw [hlen]; omega)).mono ?_))
  rintro rest p₁ out ⟨rfl,hkept,hrest⟩
  refine .bind ((((tame strict (n+2)).loop {} [] rest p₁ le_rfl (by omega)).and_returns fun a ha =>
    (Host.restLe (n+2)).loop _ _ _ _ ha).mono ?_)
  rintro a p₂ _ ⟨⟨-,-,hloop⟩,ha⟩
  refine .bind ((lastArgs_sets a p₂ (by omega)).mono ?_)
  rintro r p₃ _ ⟨hr,hargs⟩
  have heval : Ends ((loadHost (muteHost strict)).evalCall .setSched (⟨[ch 's'],.str⟩::r.1)) p₃
      fun _ p₄ _ => p₄.1.body = p₃.1.body := by
    refine .get_bind ?_
    intro _ s' b hrun
    cases hrun
    exact SchedElem.evalSetSched_body _ _
  refine .bind (heval.mono ?_)
  intro _ p₄ _ hsame
  refine (parseLoop_sets (n+8) r.2 p₄ (by omega)).mono ?_
  intro _ p' _ hlast hbody
  have hsets : Sets p₁ p' rest.length := by
    have h₃ : Sets p₁ p₃ rest.length := hloop.trans (hargs.mono ha)
    have h₄ : Sets p₁ p₄ rest.length := h₃.trans (.inl hsame)
    exact h₄.trans (hlast.mono (by omega))
  rcases hsets with hsets | hsets
  · exact hkept (hsets.symm.trans hbody)
  · -- what is set later is too short
    rw [hbody] at hsets
    omega

namespace SchedElem

/-- A body that comes back was copied byte by byte. -/
theorem kept_of_roundTrips {e : SchedElem} (h : RoundTrips strict e) : KeptArg strict T_RP e.body := by
  have hload := h Unit Unit (muteHost strict) () (fun _ => rfl) rfl
  obtain ⟨n,hn,hresult,hstate⟩ := load_saved (H := muteHost strict) (fun _ => rfl) e () rfl
  have hends : Ends ((loadHost (muteHost strict)).parseLoop (n+9)
      (str "%s(s,%b(" ++ (e.body ++ [T_RP]))) (e.times,()) fun _ p' _ => p'.1.body = e.body →
        KeptArg strict T_RP e.body := parseLoop_body_ends e.body (e.times,()) hn
  have hbody := hload.body
  rw [hstate] at hbody
  exact hends.of_result (hresult.symm.trans hload.ok) hbody

theorem flags_eq_replicate_iff (e : SchedElem) : List.replicate 9 0 = e.flags ↔ ∀ x ∈ e.flags, x = 0 := by
  rw [eq_comm,List.eq_replicate_iff]
  exact and_iff_right rfl

/-- When the body is kept, the rest comes back as far as numbers do; there are no flags. -/
theorem reloaded_iff_of_kept {τ ο : Type} {H : Host (SchedElem × τ) ο} (hstrict : ∀ p, H.strict p = strict)
    {e : SchedElem} {s : τ} (hdeep : H.tooDeep ({ name := e.name },s) = false)
    (hbody : KeptArg strict T_RP e.body) : Reloaded e (load H e.name e.saved s) ↔
      (∀ x ∈ [e.first,e.offset,e.last], readBack x = x) ∧ ∀ x ∈ e.flags, x = 0 := by
  obtain ⟨hresult,hstate⟩ := load_kept hstrict e s hdeep hbody
  have hfirst := congrArg (fun p => p.1.first) hstate
  have hoffset := congrArg (fun p => p.1.offset) hstate
  have hlast := congrArg (fun p => p.1.last) hstate
  have hflags := congrArg (fun p => p.1.flags) hstate
  have hsame := congrArg (fun p => p.1.body) hstate
  rw [← flags_eq_replicate_iff]
  constructor
  · intro h
    refine ⟨?_,hflags.symm.trans h.flags⟩
    simp only [List.forall_mem_cons,List.not_mem_nil,false_implies,implies_true,and_true]
    exact ⟨hfirst.symm.trans h.first,hoffset.symm.trans h.offset,hlast.symm.trans h.last⟩
  · rintro ⟨htimes,hzero⟩
    simp only [List.forall_mem_cons,List.not_mem_nil,false_implies,implies_true,and_true] at htimes
    exact ⟨hresult,hfirst.trans htimes.1,hoffset.trans htimes.2.1,hlast.trans htimes.2.2,
      hflags.trans hzero,hsame⟩

/-- A saved event comes back just where its times are `int`s (not the least one), it has no flags,
and its body is copied when it is read as an argument. -/
theorem roundTrips_iff (strict : Bool) (e : SchedElem) : RoundTrips strict e ↔
    (∀ x ∈ [e.first,e.offset,e.last], -2^31 < x ∧ x < 2^31) ∧ (∀ x ∈ e.flags, x = 0) ∧
      KeptArg strict T_RP e.body := by
  have htimes : (∀ x ∈ [e.first,e.offset,e.last], readBack x = x) ↔
      ∀ x ∈ [e.first,e.offset,e.last], -2^31 < x ∧ x < 2^31 :=
    forall₂_congr fun _ _ => readBack_eq_iff
  rw [← htimes]
  constructor
  · intro h
    have hbody := kept_of_roundTrips h
    have hload := h Unit Unit (muteHost strict) () (fun _ => rfl) rfl
    obtain ⟨hback,hflags⟩ := (reloaded_iff_of_kept (fun _ => rfl) rfl hbody).mp hload
    exact ⟨hback,hflags,hbody⟩
  · rintro ⟨hback,hflags,hbody⟩ τ ο H s hstrict hdeep
    exact (reloaded_iff_of_kept hstrict hdeep hbody).mpr ⟨hback,hflags⟩

/-- A daily event for Mondays comes back for every day, and a body that calls something with two
arguments comes back with nothing but its output. -/
theorem weekdays_lost :
    ¬ RoundTrips false
      { name := str "poll", first := 30000, offset := 86400, dayW := 2, body := str "sync" } ∧
    ¬ RoundTrips false
      { name := str "poll", first := 30000, offset := 86400, body := str "%copy(a,b)" } := by
  constructor
  · intro h
    have hload := h Unit Unit (muteHost false) () (fun _ => rfl) rfl
    exact absurd hload.flags (by decide +kernel)
  · intro h
    have hload := h Unit Unit (muteHost false) () (fun _ => rfl) rfl
    exact absurd hload.body (by decide +kernel)

end SchedElem

end Smx
