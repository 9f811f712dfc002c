import Smx.Compile.Transparent

/-! The meaning of a tree, for as long as its calls resolve, keep the quote maps they were
compiled with and do not throw. The parser follows it on the source text and `RunCompiled` on
the code. -/
namespace Smx
open EmitM (emit capture liftExn quiet Follows Matches)

namespace Host
variable {σ ο : Type} (H : Host σ ο) (qmapOf : Bytes → Option Bytes)
  (render : List Piece → Bytes)

mutual

/-- The evaluation of a tree whose literal text is written by `render`. It gives up where a call
does not resolve, has another quote map by now or throws. -/
def meaning : Code → EmitM (Option Exn) Byte σ Unit
  | .nil => pure ()
  | .out text rest => do
    emit (render text)
    meaning rest
  | .func name args rest => do
    let s ← EmitM.get
    match H.find s name with
    | some obj =>
      if H.getQmap obj = qmapOf name then do
        let ary ← meaningArgs args
        quiet (H.eval obj (if args.length ≠ 0 then some ary else none))
        meaning rest
      else EmitM.throw none
    | none => EmitM.throw none
  | .junk _ _ => EmitM.throw none

def meaningArgs : CodeArgs → EmitM (Option Exn) Byte σ (List Arg)
  | .nil => pure []
  | .raw quoted text rest => do
    let ary ← meaningArgs rest
    pure (⟨text,if quoted then .qstr else .str⟩::ary)
  | .code body rest => do
    let r ← capture (meaning body)
    let ary ← meaningArgs rest
    pure (⟨r.1,.str⟩::ary)

end

theorem meaning_append (a b : Code) :
    H.meaning qmapOf render (a.append b) =
      H.meaning qmapOf render a >>= fun _ => H.meaning qmapOf render b := by
  match a with
  | .nil => rw [Code.append,meaning,pure_bind]
  | .out text rest =>
    rw [Code.append,meaning,meaning,bind_assoc]
    simp only [meaning_append rest b]
  | .func name args rest =>
    rw [Code.append,meaning,meaning,bind_assoc]
    refine bind_congr fun s => ?_
    cases H.find s name with
    | none => rfl
    | some obj =>
      by_cases hq : H.getQmap obj = qmapOf name
      · simp only [if_pos hq,bind_assoc,meaning_append rest b]
      · simp only [if_neg hq]
        rfl
  | .junk c rest => rfl

theorem meaning_flush (text : List Piece) (rest : Code) :
    H.meaning qmapOf sourceText (.flush text rest) =
      emit (sourceText text) >>= fun _ => H.meaning qmapOf sourceText rest := by
  unfold Code.flush
  split_ifs with h
  · subst h
    rw [show sourceText [] = [] from rfl,EmitM.emit_nil_bind]
  · rw [meaning]

end Host

/-! The parser and the reader of the grammar go through the source in step. -/

theorem argAct_put_numsp {st st' : ArgSt} {c : Byte} (h : argAct st c = .put st') :
    st'.numsp ≤ st.numsp+1 := by
  unfold argAct at h
  split_ifs at h <;> cases h <;> simp

theorem argAct_skip_numsp {st st' : ArgSt} {c : Byte} (h : argAct st c = .skip st') :
    st'.numsp ≤ st.numsp := by
  unfold argAct at h
  split_ifs at h <;> cases h <;> simp

theorem cutSpaces_append (pre : Bytes) {tmp : Bytes} {k : ℕ} (h : k ≤ tmp.length) :
    cutSpaces (pre ++ tmp) k = pre ++ cutSpaces tmp k := by
  have hlen : (pre ++ tmp).length-k = pre.length+(tmp.length-k) := by
    rw [List.length_append]
    omega
  rw [cutSpaces,hlen,List.take_length_add_append,cutSpaces]

theorem readArgs_length_ne_zero (G : Grammar) (n : ℕ) (qmode : Bool) (map inp : Bytes) :
    (G.readArgs n qmode map inp).1.length ≠ 0 := by
  cases n with
  | zero =>
    simp only [Grammar.readArgs]
    split_ifs <;> simp [CodeArgs.length]
  | succ n =>
    simp only [Grammar.readArgs]
    split_ifs <;> simp [CodeArgs.length]

namespace Host
variable {σ ο : Type} (H : Host σ ο) (G : Grammar)

theorem evalCall_follows (obj : ο) (args : List Arg) :
    Follows (H.evalCall obj args) (quiet (H.eval obj (some args))) := by
  intro s h
  rw [evalCall,EmitM.liftExn_bind,EmitM.liftExn_get,EmitM.run_bind_ok (EmitM.run_get s)]
  split_ifs
  · exact Follows.quiet _ s h
  · exact Follows.tryCatch_quiet _ _ s h

/-- With `n` units of fuel the parser follows the meaning of what the reader reads. -/
structure Follow (n : ℕ) : Prop where
  func : ∀ inp buf, Follows (emit (sourceText buf) >>= fun _ => H.parseFunc n inp) (do
    H.meaning G.qmapOf sourceText (G.readFunc n inp buf).1
    emit (sourceText (G.readFunc n inp buf).2.2)
    pure (G.readFunc n inp buf).2.1)
  name : ∀ c inp buf, Follows (emit (sourceText buf) >>= fun _ => H.parseName n [c] inp) (do
    H.meaning G.qmapOf sourceText (G.readName n c inp buf).1
    emit (sourceText (G.readName n c inp buf).2.2)
    pure (G.readName n c inp buf).2.1)
  args : ∀ qmode map inp, Follows (H.parseArgsQmap n qmode map inp) (do
    let ary ← H.meaningArgs G.qmapOf sourceText (G.readArgs n qmode map inp).1
    pure (ary,(G.readArgs n qmode map inp).2))
  arg : ∀ c inp, Follows (H.parseArg n c inp) (do
    let r ← capture (H.meaning G.qmapOf sourceText (G.readArg n c inp).1)
    pure (r.1,(G.readArg n c inp).2))
  turn : ∀ st pre tmp c inp, st.numsp ≤ tmp.length → Follows (H.argTurn n st (pre ++ tmp) c inp) (do
    let r ← capture (H.meaning G.qmapOf sourceText (G.readTurn n st tmp c inp).1)
    pure (pre ++ r.1,(G.readTurn n st tmp c inp).2))
  loop : ∀ st pre tmp inp, st.numsp ≤ tmp.length → Follows (H.argLoop n st (pre ++ tmp) inp) (do
    let r ← capture (H.meaning G.qmapOf sourceText (G.readLoop n st tmp inp).1)
    pure (pre ++ r.1,(G.readLoop n st tmp inp).2))

variable {H G}

theorem follow_zero : H.Follow G 0 where
  func inp buf := by
    simp only [Grammar.readFunc,meaning,pure_bind]
    exact .bind (.emit _) fun _ => .pure _
  name c inp buf := by
    simp only [Grammar.readName,meaning,pure_bind]
    exact .bind (.emit _) fun _ => .pure _
  args qmode map inp := by
    simp only [Grammar.readArgs]
    cases qmode with
    | true => exact .pure _
    | false => exact .pure _
  arg c inp := .pure _
  turn st pre tmp c inp _ := by
    simp only [Grammar.readTurn,meaning_flush,sourceText_lit,meaning,EmitM.capture_emit_pure,pure_bind]
    exact .pure _
  loop st pre tmp inp _ := by
    simp only [Grammar.readLoop,meaning_flush,sourceText_lit,meaning,EmitM.capture_emit_pure,pure_bind]
    exact .pure _

theorem rejectPunct_of_not_strict (hstrict : ∀ s, H.strict s = false) (c : Byte) :
    H.rejectPunct c = pure () :=
  EmitM.ext fun s => by
    rw [rejectPunct,EmitM.run_bind_ok (EmitM.run_get s),hstrict s]
    rfl

variable {n : ℕ} (hloose : G.strict = false → ∀ s, H.strict s = false) (ih : H.Follow G n)
include ih

section
include hloose

theorem Follow.func_succ (inp : Bytes) (buf : List Piece) :
    Follows (emit (sourceText buf) >>= fun _ => H.parseFunc (n+1) inp) (do
      H.meaning G.qmapOf sourceText (G.readFunc (n+1) inp buf).1
      emit (sourceText (G.readFunc (n+1) inp buf).2.2)
      pure (G.readFunc (n+1) inp buf).2.1) := by
  simp only [parseFunc,Grammar.readFunc]
  by_cases hsym : isqsymf (getC inp).1 = true
  · simp only [if_pos hsym]
    exact ih.name _ _ _
  simp only [if_neg hsym]
  by_cases heof : (getC inp).1 = EOF ∨ (getC inp).1 = T_PCT
  · simp only [if_pos heof,meaning,pure_bind,sourceText_append,sourceText_lit,
      EmitM.emit_append_bind]
    exact .bind (.emit _) fun _ => .bind (.emit _) fun _ => .pure _
  simp only [if_neg heof]
  by_cases hpunct : isPunct (getC inp).1 = true
  · simp only [if_pos hpunct,sourceText_append,sourceText_lit,EmitM.emit_append_bind]
    by_cases hs : G.strict = true
    · simp only [if_pos hs,meaning,EmitM.throw_bind]
      exact .throw_none _
    · rw [Bool.not_eq_true] at hs
      simp only [hs,Bool.false_eq_true,if_false,meaning,pure_bind,
        rejectPunct_of_not_strict (hloose hs)]
      exact .bind (.emit _) fun _ => .bind (.emit _) fun _ => .pure _
  · simp only [if_neg hpunct,meaning,pure_bind,sourceText_append,sourceText_lit,
      EmitM.emit_append_bind]
    exact .bind (.emit _) fun _ => .bind (.emit _) fun _ => .pure _

end

theorem Follow.name_succ (c : Byte) (inp : Bytes) (buf : List Piece) :
    Follows (emit (sourceText buf) >>= fun _ => H.parseName (n+1) [c] inp) (do
      H.meaning G.qmapOf sourceText (G.readName (n+1) c inp buf).1
      emit (sourceText (G.readName (n+1) c inp buf).2.2)
      pure (G.readName (n+1) c inp buf).2.1) := by
  simp only [parseName,Grammar.readName]
  by_cases hlp : (scanName [c] inp).2.1 = T_LP
  · simp only [if_pos hlp,meaning_flush,bind_assoc,meaning]
    refine .bind (.emit _) fun _ => .bind .get fun s => ?_
    cases H.find s (scanName [c] inp).1 with
    | none => exact .throw_none _
    | some obj =>
      by_cases hq : H.getQmap obj = G.qmapOf (scanName [c] inp).1
      · simp only [hq,if_true,bind_assoc,if_pos (readArgs_length_ne_zero _ _ _ _ _),pure_bind,
          sourceText_nil,EmitM.emit_nil_bind]
        exact .bind_map (ih.args _ _ _) fun ary => .bind (evalCall_follows H _ _) fun _ => .pure _
      · simp only [if_neg hq]
        exact .throw_none _
  simp only [if_neg hlp]
  by_cases hpct : (scanName [c] inp).2.1 = T_PCT
  · simp only [if_pos hpct,meaning_flush,bind_assoc,meaning]
    refine .bind (.emit _) fun _ => .bind .get fun s => ?_
    cases H.find s (scanName [c] inp).1 with
    | none => exact .throw_none _
    | some obj =>
      by_cases hq : H.getQmap obj = G.qmapOf (scanName [c] inp).1
      · simp only [hq,if_true,meaningArgs,CodeArgs.length,ne_eq,not_true,if_false,bind_assoc,pure_bind,
          sourceText_nil,EmitM.emit_nil_bind]
        exact .bind (.quiet _) fun _ => .pure _
      · simp only [if_neg hq]
        exact .throw_none _
  · simp only [if_neg hpct,meaning,pure_bind,sourceText_append,sourceText_broken,sourceText_lit,
      EmitM.get_bind_const]
    rw [EmitM.emit_append_bind]
    exact .bind (.emit _) fun _ => .bind (.emit _) fun _ => .pure _

theorem Follow.args_succ (qmode : Bool) (map inp : Bytes) :
    Follows (H.parseArgsQmap (n+1) qmode map inp) (do
      let ary ← H.meaningArgs G.qmapOf sourceText
        (G.readArgs (n+1) qmode map inp).1
      pure (ary,(G.readArgs (n+1) qmode map inp).2)) := by
  simp only [parseArgsQmap,Grammar.readArgs]
  by_cases hq : (qmode || (argHead inp).1) = true
  · simp only [if_pos hq,pure_bind]
    by_cases hmore : (parseArgQuoted (argHead inp).2.1 (argHead inp).2.2).2.1 = true ∧
        (argHead inp).2.1 ≠ EOF
    · simp only [if_pos hmore,meaningArgs,bind_assoc,pure_bind]
      exact .bind_map (ih.args _ _ _) fun ary => .pure _
    · simp only [if_neg hmore,meaningArgs,pure_bind]
      exact .pure _
  · have hhead : ¬ (argHead inp).1 = true := fun h => hq (by simp [h])
    simp only [if_neg hq]
    by_cases hmore : (G.readArg n (argHead inp).2.1 (argHead inp).2.2).2.1 =
        true ∧ (argHead inp).2.1 ≠ EOF
    · simp only [if_pos hmore,meaningArgs,bind_assoc,pure_bind]
      refine .bind_map (ih.arg _ _) fun r => ?_
      simp only [if_pos hmore,if_neg hhead]
      exact .bind_map (ih.args _ _ _) fun ary => .pure _
    · simp only [if_neg hmore,meaningArgs,bind_assoc,pure_bind]
      refine .bind_map (ih.arg _ _) fun r => ?_
      simp only [if_neg hmore,if_neg hhead]
      exact .pure _

theorem Follow.turn_succ (st : ArgSt) (pre tmp : Bytes) (c : Byte) (inp : Bytes)
    (hsp : st.numsp ≤ tmp.length) :
    Follows (H.argTurn (n+1) st (pre ++ tmp) c inp) (do
      let r ← capture (H.meaning G.qmapOf sourceText
        (G.readTurn (n+1) st tmp c inp).1)
      pure (pre ++ r.1,(G.readTurn (n+1) st tmp c inp).2)) := by
  simp only [argTurn,Grammar.readTurn]
  by_cases hesc : c = T_ESC
  · simp only [if_pos hesc]
    split_ifs
    · exact ih.loop _ pre tmp _ (Nat.zero_le _)
    · simpa only [List.append_assoc] using ih.loop { st with numsp := 0 } pre (tmp ++ [(getC inp).1])
        (getC inp).2 (Nat.zero_le _)
  simp only [if_neg hesc]
  by_cases hpct : c = T_PCT
  · have hfunc := (ih.func inp []).capture
    simp only [sourceText_nil,EmitM.emit_nil_bind,EmitM.capture_bind,EmitM.capture_emit,
      EmitM.capture_pure,pure_bind,List.append_nil] at hfunc
    simp only [if_pos hpct,meaning_flush,meaning_append,sourceText_lit,EmitM.capture_bind,
      EmitM.capture_emit,bind_assoc,pure_bind]
    refine .bind_map hfunc fun a => ?_
    have hloop := ih.loop { st with numsp := 0 } (pre ++ tmp ++ (a.1 ++
      sourceText (G.readFunc n inp []).2.2)) [] 
      (G.readFunc n inp []).2.1 (Nat.zero_le _)
    simpa only [List.append_nil,List.append_assoc] using hloop
  · simp only [if_neg hpct]
    cases hact : argAct st c with
    | put st' =>
      have hle := argAct_put_numsp hact
      have hlen : st'.numsp ≤ (tmp ++ [c]).length := by simp; omega
      simpa only [List.append_assoc] using ih.loop st' pre (tmp ++ [c]) inp hlen
    | skip st' => exact ih.loop st' pre tmp inp ((argAct_skip_numsp hact).trans hsp)
    | stop more =>
      simp only [meaning_flush,meaning,sourceText_lit,EmitM.capture_emit_pure,pure_bind,
        cutSpaces_append pre hsp]
      exact .pure _

include hloose

theorem Follow.succ : H.Follow G (n+1) where
  func := ih.func_succ hloose
  name := ih.name_succ
  args := ih.args_succ
  arg c inp := by
    have hturn := ih.turn (argOpen c inp).1 [] [] (argOpen c inp).2.1 (argOpen c inp).2.2 (by
      unfold argOpen
      split_ifs <;> exact Nat.zero_le _)
    simpa only [parseArg,Grammar.readArg,List.nil_append] using hturn
  turn := ih.turn_succ
  loop st pre tmp inp hsp := by
    simp only [argLoop,Grammar.readLoop]
    by_cases heof : (getC inp).1 = EOF
    · simp only [if_pos heof,meaning_flush,meaning,sourceText_lit,EmitM.capture_emit_pure,pure_bind]
      exact .pure _
    · simp only [if_neg heof]
      exact ih.turn _ _ _ _ _ hsp

omit ih
variable (G)

theorem follow (n : ℕ) : H.Follow G n := by
  induction n with
  | zero => exact follow_zero
  | succ n ih => exact ih.succ hloose

theorem parseLoop_follows (n : ℕ) (inp : Bytes) (buf : List Piece) :
    Follows (emit (sourceText buf) >>= fun _ => H.parseLoop n inp)
      (H.meaning G.qmapOf sourceText (G.readParse n inp buf)) := by
  induction n generalizing inp buf with
  | zero =>
    simp only [Grammar.readParse,meaning_flush,meaning]
    exact .bind (.emit _) fun _ => .pure _
  | succ n ih =>
    simp only [parseLoop,Grammar.readParse]
    by_cases heof : (getC inp).1 = EOF
    · simp only [if_pos heof,meaning_flush,meaning]
      exact .bind (.emit _) fun _ => .pure _
    simp only [if_neg heof]
    by_cases hpct : (getC inp).1 = T_PCT
    · have hfunc := ((follow G hloose n).func (getC inp).2 buf).bind fun rest => .lift (H.parseLoop n rest)
      have hrest := ih (G.readFunc n (getC inp).2 buf).2.1
        (G.readFunc n (getC inp).2 buf).2.2
      rw [Follows,EmitM.liftExn_bind,EmitM.liftExn_emit] at hrest
      simp only [bind_assoc,pure_bind] at hfunc
      simp only [if_pos hpct,meaning_append]
      exact hfunc.trans (.bind (.refl _) fun _ => hrest)
    · have h := ih (getC inp).2 (buf ++ lit [(getC inp).1])
      simpa only [if_neg hpct,sourceText_append,sourceText_lit,EmitM.emit_append_bind] using h

/-- The parser does what the tree of the source text means. -/
theorem parse_follows (inp : Bytes) :
    Follows (H.parseLoop (fuelFor inp) inp)
      (H.meaning G.qmapOf sourceText (G.read inp)) := by
  rw [Grammar.read,← fuelFor]
  simpa only [sourceText_nil,EmitM.emit_nil_bind] using
    parseLoop_follows G hloose (fuelFor inp) inp []

omit hloose in
theorem run_parse {s : σ} (hdeep : H.tooDeep s = false) (inp : Bytes) :
    (H.parse inp).run s = (H.parseLoop (fuelFor inp) inp).run s := by
  rw [parse,EmitM.run_bind_ok (EmitM.run_get s),hdeep]
  rfl

end Host
end Smx
