import Smx.Compile.Agree

/-! Texts in which every percent sign outside of quoted arguments begins a call. The compiler gets through
them as the reader does, and so does the parser if the macros do not throw. -/
namespace Smx

mutual

/-- Every percent sign that is not text begins a call, and the names have a property. -/
def Code.Calls (P : Bytes → Prop) : Code → Prop
  | .nil => True
  | .out _ rest => rest.Calls P
  | .func name args rest => P name ∧ args.Calls P ∧ rest.Calls P
  | .junk _ _ => False

def CodeArgs.Calls (P : Bytes → Prop) : CodeArgs → Prop
  | .nil => True
  | .raw _ _ rest => rest.Calls P
  | .code body rest => body.Calls P ∧ rest.Calls P

end

/-- The arguments are those of the tree; the evaluated ones are only marked. -/
def CodeArgs.Lists (quot : ArgType) : CodeArgs → List Arg → Prop
  | .nil,ary => ary = []
  | .raw quoted text rest,ary => ∃ ary', ary = ⟨text,if quoted then .qstr else .str⟩::ary' ∧ rest.Lists quot ary'
  | .code _ rest,ary => ∃ text ary', ary = ⟨text,quot⟩::ary' ∧ rest.Lists quot ary'

section
variable {P : Bytes → Prop}

theorem Code.calls_append {a b : Code} : (a.append b).Calls P ↔ a.Calls P ∧ b.Calls P := by
  cases a with
  | nil => exact (true_and _ ▸ Iff.rfl)
  | out text rest => exact rest.calls_append
  | func name args rest =>
    simp only [Code.append,Code.Calls,rest.calls_append,and_assoc]
  | junk c rest => exact (false_and _ ▸ Iff.rfl)

theorem Code.calls_flush {text : List Piece} {rest : Code} : (Code.flush text rest).Calls P ↔ rest.Calls P := by
  rw [Code.flush]
  split_ifs <;> rfl

end

/-- A macro that is defined whatever happens, with the quote map it was compiled with, and does not throw. -/
def Host.Fixed {σ ο : Type} (H : Host σ ο) (qmapOf : Bytes → Option Bytes) (name : Bytes) : Prop :=
  ∀ s, ∃ obj, H.find s name = some obj ∧ H.getQmap obj = qmapOf name ∧
    ∀ args t, ∃ t' out, (H.eval obj args).run t = ⟨.ok (),t',out⟩

namespace Host
variable {σ ο : Type} {H : Host σ ο} {qmapOf : Bytes → Option Bytes}

mutual

/-- Calls of such macros run through. -/
theorem run_meaning {code : Code} (h : code.Calls (H.Fixed qmapOf)) (s : σ) :
    ∃ s' out, (H.meaning qmapOf sourceText code).run s = ⟨.ok (),s',out⟩ := by
  match code with
  | .nil => exact ⟨s,[],rfl⟩
  | .out text rest =>
    have hcalls : rest.Calls (H.Fixed qmapOf) := h
    obtain ⟨s',out,hrest⟩ := run_meaning hcalls s
    rw [meaning,EmitM.run_bind_ok (EmitM.run_emit _ s),hrest]
    exact ⟨_,_,rfl⟩
  | .func name args rest =>
    obtain ⟨hname,hargs,hrest⟩ := h
    obtain ⟨obj,hfind,hmap,heval⟩ := hname s
    obtain ⟨ary,s₁,hary,-⟩ := run_meaningArgs hargs s
    obtain ⟨s₂,out,hrun⟩ := heval (if args.length ≠ 0 then some ary else none) s₁
    obtain ⟨s₃,out',hrun'⟩ := run_meaning hrest s₂
    rw [meaning,EmitM.run_bind_ok (EmitM.run_get s)]
    simp only [hfind,if_pos hmap]
    rw [EmitM.run_bind_ok hary,EmitM.run_bind_ok (EmitM.run_quiet_ok hrun),hrun']
    exact ⟨_,_,rfl⟩
  | .junk c rest => exact h.elim

theorem run_meaningArgs {args : CodeArgs} (h : args.Calls (H.Fixed qmapOf)) (s : σ) :
    ∃ ary s', (H.meaningArgs qmapOf sourceText args).run s = ⟨.ok ary,s',[]⟩ ∧ args.Lists .str ary := by
  match args with
  | .nil => exact ⟨[],s,rfl,rfl⟩
  | .raw quoted text rest =>
    have hcalls : rest.Calls (H.Fixed qmapOf) := h
    obtain ⟨ary,s',hrest,hlists⟩ := run_meaningArgs hcalls s
    rw [meaningArgs,EmitM.run_bind_ok hrest]
    exact ⟨_,_,rfl,ary,rfl,hlists⟩
  | .code body rest =>
    obtain ⟨hbody,hrest⟩ := h
    obtain ⟨s₁,out,hrun⟩ := run_meaning hbody s
    obtain ⟨ary,s₂,hrun',hlists⟩ := run_meaningArgs hrest s₁
    rw [meaningArgs,EmitM.run_bind_ok (EmitM.run_capture_ok hrun),EmitM.run_bind_ok hrun']
    exact ⟨_,_,rfl,out,ary,rfl,hlists⟩

end

end Host

/-! The compiler leaves what the reader leaves. -/

namespace CompEnv

section
variable {α β γ δ : Type} {Q : α → Prop} {R : γ → Prop} {b : β} {d : δ}

/-- Compiles without an error and answers with the rest `b`. -/
def Leaves (Q : α → Prop) (x : CompM (α × β)) (b : β) : Prop := ∀ st, ∃ a st', x st = .ok ((a,b),st') ∧ Q a

theorem Leaves.pure {a : α} (h : Q a) : Leaves Q (Pure.pure (a,b)) b := fun st => ⟨a,st,rfl,h⟩

theorem Leaves.after {x : CompM γ} {f : γ → CompM (α × β)} (hx : Total x) (hf : ∀ c, Leaves Q (f c) b) :
    Leaves Q (x >>= f) b := by
  intro st
  obtain ⟨⟨c,st'⟩,hc⟩ := hx st
  rw [bind_of_ok hc]
  exact hf c st'

theorem Leaves.bind {x : CompM (α × β)} {f : α × β → CompM (γ × δ)} (hx : Leaves Q x b)
    (hf : ∀ a, Q a → Leaves R (f (a,b)) d) : Leaves R (x >>= f) d := by
  intro st
  obtain ⟨a,st',ha,hq⟩ := hx st
  rw [bind_of_ok ha]
  exact hf a hq st'

end

/-- The reader for texts in which every percent sign begins a call. -/
def callGrammar (E : CompEnv) : Grammar := ⟨E.qmapOf,true⟩

section
variable (E : CompEnv) (P : Bytes → Prop)

/-- With `n` units of fuel the compiler gets through such a text as the reader does. -/
structure CompilesCalls (n : ℕ) : Prop where
  func : ∀ inp, (E.callGrammar.readFunc n inp []).1.Calls P →
    Leaves (fun _ => True) (E.compFunc n inp) (E.callGrammar.readFunc n inp []).2.1
  name : ∀ c inp, (E.callGrammar.readName n c inp []).1.Calls P →
    Leaves (fun _ => True) (E.compName n c inp) (E.callGrammar.readName n c inp []).2.1
  args : ∀ qmode map inp, (E.callGrammar.readArgs n qmode map inp).1.Calls P →
    Leaves ((E.callGrammar.readArgs n qmode map inp).1.Lists .cmp) (E.compArgs n qmode map inp)
      (E.callGrammar.readArgs n qmode map inp).2
  arg : ∀ c inp, (E.callGrammar.readArg n c inp).1.Calls P →
    Leaves (fun _ => True) (E.compArg n c inp) (E.callGrammar.readArg n c inp).2
  turn : ∀ st cur tmp c inp, (E.callGrammar.readTurn n st tmp c inp).1.Calls P →
    Leaves (fun _ => True) (E.compTurn n st cur tmp c inp) (E.callGrammar.readTurn n st tmp c inp).2
  loop : ∀ st cur tmp inp, (E.callGrammar.readLoop n st tmp inp).1.Calls P →
    Leaves (fun _ => True) (E.compLoop n st cur tmp inp) (E.callGrammar.readLoop n st tmp inp).2

variable {E P}

theorem compilesCalls_zero : CompilesCalls E P 0 where
  func _ _ := .pure trivial
  name _ _ _ := .pure trivial
  args qmode map inp _ := by
    cases qmode with
    | true => exact .pure ⟨[],rfl,rfl⟩
    | false => exact .pure ⟨[],[],rfl,rfl⟩
  arg _ _ _ := .pure trivial
  turn _ _ _ _ _ _ := .after (total_outText _) fun _ => .pure trivial
  loop _ _ _ _ _ := .after (total_outText _) fun _ => .pure trivial

variable {n : ℕ} (ih : CompilesCalls E P n)
include ih

theorem CompilesCalls.func_succ (inp : Bytes) (h : (E.callGrammar.readFunc (n+1) inp []).1.Calls P) :
    Leaves (fun _ => True) (E.compFunc (n+1) inp) (E.callGrammar.readFunc (n+1) inp []).2.1 := by
  simp only [Grammar.readFunc] at h ⊢
  simp only [compFunc]
  by_cases hsym : isqsymf (getC inp).1 = true
  · rw [if_pos hsym] at h ⊢
    rw [if_pos hsym]
    exact ih.name _ _ h
  rw [if_neg hsym] at h ⊢
  rw [if_neg hsym]
  by_cases heof : (getC inp).1 = EOF ∨ (getC inp).1 = T_PCT
  · rw [if_pos heof,if_pos heof]
    exact .after (total_outS _) fun _ => .pure trivial
  rw [if_neg heof] at h ⊢
  rw [if_neg heof]
  by_cases hpunct : isPunct (getC inp).1 = true
  · rw [if_pos hpunct] at h
    exact h.elim
  · rw [if_neg hpunct,if_neg hpunct]
    exact .after (total_outS _) fun _ => .pure trivial

theorem CompilesCalls.name_succ (c : Byte) (inp : Bytes) (h : (E.callGrammar.readName (n+1) c inp []).1.Calls P) :
    Leaves (fun _ => True) (E.compName (n+1) c inp) (E.callGrammar.readName (n+1) c inp []).2.1 := by
  simp only [Grammar.readName] at h ⊢
  simp only [compName]
  by_cases hlp : (scanName [c] inp).2.1 = T_LP
  · rw [if_pos hlp] at h ⊢
    rw [if_pos hlp]
    refine .after total_outFlush fun _ => ?_
    refine (ih.args _ _ _ h.2.1).bind fun ary _ => ?_
    exact .after (total_outFunc _ _) fun _ => .pure trivial
  rw [if_neg hlp,if_neg hlp]
  by_cases hpct : (scanName [c] inp).2.1 = T_PCT
  · rw [if_pos hpct,if_pos hpct]
    exact .after total_outFlush fun _ => .after (total_outFunc _ _) fun _ => .pure trivial
  · rw [if_neg hpct,if_neg hpct]
    exact .after (total_outS _) fun _ => .pure trivial

theorem CompilesCalls.args_succ (qmode : Bool) (map inp : Bytes)
    (h : (E.callGrammar.readArgs (n+1) qmode map inp).1.Calls P) :
    Leaves ((E.callGrammar.readArgs (n+1) qmode map inp).1.Lists .cmp) (E.compArgs (n+1) qmode map inp)
      (E.callGrammar.readArgs (n+1) qmode map inp).2 := by
  simp only [Grammar.readArgs] at h ⊢
  simp only [compArgs]
  by_cases hq : (qmode || (argHead inp).1) = true
  · rw [if_pos hq] at h ⊢
    simp only [if_pos hq,pure_bind]
    by_cases hmore : (parseArgQuoted (argHead inp).2.1 (argHead inp).2.2).2.1 = true ∧ (argHead inp).2.1 ≠ EOF
    · rw [if_pos hmore] at h ⊢
      rw [if_pos hmore]
      exact (ih.args _ _ _ h).bind fun ary hary => .pure ⟨ary,rfl,hary⟩
    · rw [if_neg hmore,if_neg hmore]
      exact .pure ⟨[],rfl,rfl⟩
  · rw [if_neg hq] at h ⊢
    rw [if_neg hq,bind_assoc]
    by_cases hmore : (E.callGrammar.readArg n (argHead inp).2.1 (argHead inp).2.2).2.1 = true ∧
        (argHead inp).2.1 ≠ EOF
    · rw [if_pos hmore] at h ⊢
      refine (ih.arg _ _ h.1).bind fun code _ => ?_
      simp only [pure_bind,if_pos hmore]
      exact (ih.args _ _ _ h.2).bind fun ary hary => .pure ⟨code,ary,rfl,hary⟩
    · rw [if_neg hmore] at h ⊢
      refine (ih.arg _ _ h.1).bind fun code _ => ?_
      simp only [pure_bind,if_neg hmore]
      exact .pure ⟨code,[],rfl,rfl⟩

theorem CompilesCalls.turn_succ (st : ArgSt) (cur tmp : Bytes) (c : Byte) (inp : Bytes)
    (h : (E.callGrammar.readTurn (n+1) st tmp c inp).1.Calls P) :
    Leaves (fun _ => True) (E.compTurn (n+1) st cur tmp c inp) (E.callGrammar.readTurn (n+1) st tmp c inp).2 := by
  simp only [Grammar.readTurn] at h ⊢
  simp only [compTurn]
  by_cases hesc : c = T_ESC
  · rw [if_pos hesc] at h ⊢
    rw [if_pos hesc]
    exact ih.loop _ _ _ _ h
  rw [if_neg hesc] at h ⊢
  rw [if_neg hesc]
  by_cases hpct : c = T_PCT
  · rw [if_pos hpct] at h ⊢
    simp only [Code.calls_flush,Code.calls_append] at h
    rw [if_pos hpct]
    refine .after (total_outText _) fun _ => ?_
    refine (ih.func _ h.1).bind fun code _ => ?_
    exact .after total_outFlush fun _ => ih.loop _ _ _ _ h.2
  rw [if_neg hpct] at h ⊢
  rw [if_neg hpct]
  cases hact : argAct st c with
  | put st' =>
    rw [hact] at h
    exact ih.loop _ _ _ _ h
  | skip st' =>
    rw [hact] at h
    exact ih.loop _ _ _ _ h
  | stop more => exact .after (total_outText _) fun _ => .pure trivial

theorem CompilesCalls.succ : CompilesCalls E P (n+1) where
  func := ih.func_succ
  name := ih.name_succ
  args := ih.args_succ
  arg c inp h := ih.turn _ _ _ _ _ h
  turn := ih.turn_succ
  loop st cur tmp inp h := by
    simp only [Grammar.readLoop] at h ⊢
    simp only [compLoop]
    by_cases heof : (getC inp).1 = EOF
    · rw [if_pos heof,if_pos heof]
      exact .after (total_outText _) fun _ => .pure trivial
    · rw [if_neg heof] at h ⊢
      rw [if_neg heof]
      exact ih.turn _ _ _ _ _ h

omit ih in
theorem compilesCalls (n : ℕ) : CompilesCalls E P n := by
  induction n with
  | zero => exact compilesCalls_zero
  | succ n ih => exact ih.succ

end

end CompEnv
end Smx
