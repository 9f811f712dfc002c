import Smx.Base.Error
import Smx.Lib.Run

/-! The parents of class contexts: `qObjClass::Eval` and `EvalDefctx` set them for the time of an evaluation. -/
namespace Smx

/-- An evaluation of a class text that has not ended. -/
inductive ClassFrame
  /-- `qObjClass::Eval` on the object with context `o`: its parent before, and the caller's context -/
  | eval (o : ℕ) (tmp : Option ℕ) (ctx : ℕ)
  /-- `EvalDefctx` of a class with context `o` -/
  | defctx (o : ℕ)
  deriving DecidableEq

namespace ClassFrame

/-- The object's own context. -/
def obj : ClassFrame → ℕ
  | .eval o _ _ => o
  | .defctx o => o

/-- The parent that context is to have afterwards. -/
def before : ClassFrame → Option ℕ
  | .eval _ tmp _ => tmp
  | .defctx _ => none

end ClassFrame

/-- The contexts are numbered as they are made. -/
structure ClassScopes where
  parent : ℕ → Option ℕ
  next : ℕ
  /-- The innermost first. -/
  frames : List ClassFrame
  /-- The exception on its way. -/
  raised : Option Exn
  /-- The evaluations that have ended, each with the parent of its context afterwards. -/
  ended : List (ClassFrame × Option ℕ)
  /-- The parent a context was given while no evaluation of its object was open. -/
  rest : ℕ → Option ℕ

/-- What reads or sets the parent of a context. -/
inductive ScopeEvent
  | construct (parent : Option ℕ)
  /-- another `SetParent`, or `Chain` and `Unchain` -/
  | relink (c : ℕ) (parent : Option ℕ)
  /-- `qObjClass::Eval` on the object with context `o`, called from `ctx` -/
  | eval (o ctx : ℕ)
  | defctx (ctx : ℕ)
  /-- the innermost evaluation ends -/
  | leave
  | raise (e : Exn)
  | caught
  deriving DecidableEq

namespace ClassScopes

def setParent (s : ClassScopes) (c : ℕ) (parent : Option ℕ) : ClassScopes :=
  { s with parent := Function.update s.parent c parent }

/-- No evaluation of the object with context `c` is open. -/
def Idle (fs : List ClassFrame) (c : ℕ) : Prop := ∀ f ∈ fs, f.obj ≠ c

instance (fs : List ClassFrame) (c : ℕ) : Decidable (Idle fs c) := inferInstanceAs (Decidable (∀ f ∈ fs, f.obj ≠ c))

def relink (s : ClassScopes) (c : ℕ) (parent : Option ℕ) : ClassScopes :=
  { s.setParent c parent with rest := if Idle s.frames c then Function.update s.rest c parent else s.rest }

/-- A new context. -/
def construct (s : ClassScopes) (parent : Option ℕ) : ClassScopes := relink { s with next := s.next+1 } s.next parent

/-- `myCtx->SetParent(ctx)` at the beginning of `qObjClass::Eval`. -/
def enter (s : ClassScopes) (o ctx : ℕ) : ClassScopes :=
  { s.setParent o (some ctx) with frames := .eval o (s.parent o) ctx::s.frames }

/-- The same of `EvalDefctx`, for a context made without a parent. -/
def define (s : ClassScopes) (ctx : ℕ) : ClassScopes :=
  { (s.construct none).setParent s.next (some ctx) with frames := .defctx s.next::s.frames }

/-- The line behind `Parse` in both, which an exception passes over. -/
def reset (s : ClassScopes) (f : ClassFrame) : ClassScopes :=
  if s.raised = none then s.setParent f.obj f.before else s

def leave (s : ClassScopes) (f : ClassFrame) (fs : List ClassFrame) : ClassScopes :=
  { s.reset f with frames := fs, ended := (f,(s.reset f).parent f.obj)::s.ended }

/-- While an exception is on its way evaluations end, and nothing else happens. -/
def step (s : ClassScopes) : ScopeEvent → Option ClassScopes
  | .construct parent => if s.raised = none then some (s.construct parent) else none
  | .relink c parent => if s.raised = none then some (s.relink c parent) else none
  | .eval o ctx => if s.raised = none ∧ o < s.next then some (s.enter o ctx) else none
  | .defctx ctx => if s.raised = none then some (s.define ctx) else none
  | .leave =>
    match s.frames with
    | [] => none
    | f::fs => some (s.leave f fs)
  | .raise e => if s.raised = none then some { s with raised := some e } else none
  | .caught => if s.raised = none then none else some { s with raised := none }

def start : ClassScopes := ⟨fun _ => none,0,[],none,[],fun _ => none⟩

/-- Every evaluation that has ended left the object's context with the parent it had before, every definition
of a class with none, and where no evaluation of an object is open its context has no caller for a parent. -/
structure Restored (s : ClassScopes) : Prop where
  ended : ∀ e ∈ s.ended, e.2 = e.1.before
  rest : ∀ c, Idle s.frames c → s.parent c = s.rest c

/-- The innermost evaluation, if it ends now, is not left by an exception, or the parent is in its place
again. -/
def Resets (s : ClassScopes) : ScopeEvent → Prop
  | .leave => ∀ f ∈ s.frames.head?, s.raised = none ∨ s.parent f.obj = f.before
  | _ => True

/-- What the steps keep. -/
structure Kept (s : ClassScopes) : Prop extends Restored s where
  frames : ∀ f ∈ s.frames, f.obj < s.next
  /-- the outermost evaluation of an object has the parent at rest to put back -/
  outermost : ∀ fs f, f::fs <:+ s.frames → Idle fs f.obj → f.before = s.rest f.obj

section
variable {s t : ClassScopes} {f : ClassFrame} {fs : List ClassFrame}

theorem start_kept : start.Kept :=
  ⟨⟨nofun,fun _ _ => rfl⟩,nofun,fun fs f h => absurd (List.suffix_nil.mp h) (List.cons_ne_nil f fs)⟩

theorem idle_cons {c : ℕ} : Idle (f::fs) c ↔ f.obj ≠ c ∧ Idle fs c := List.forall_mem_cons

theorem Kept.idle_next (h : s.Kept) : Idle s.frames s.next := fun f hf => Nat.ne_of_lt (h.frames f hf)

theorem Kept.relink (h : s.Kept) (c : ℕ) (parent : Option ℕ) : (s.relink c parent).Kept := by
  have hrest : ∀ d, d ≠ c → (s.relink c parent).rest d = s.rest d := by
    intro d hdc
    simp only [ClassScopes.relink]
    split_ifs
    · exact Function.update_of_ne hdc _ _
    · rfl
  refine ⟨⟨h.ended,fun d hidle => ?_⟩,h.frames,fun fs f hfs hidle => ?_⟩
  · by_cases hdc : d = c
    · rw [hdc] at hidle ⊢
      have hidle' : Idle s.frames c := hidle
      simp only [ClassScopes.relink,setParent,if_pos hidle',Function.update_self]
    · rw [hrest d hdc,← h.rest d hidle]
      exact Function.update_of_ne hdc _ _
  · rw [h.outermost fs f hfs hidle]
    by_cases hfc : f.obj = c
    · have hmem : f ∈ s.frames := hfs.mem List.mem_cons_self
      have hbusy : ¬Idle s.frames c := fun hidle => hidle f hmem hfc
      simp only [ClassScopes.relink,if_neg hbusy]
    · exact (hrest f.obj hfc).symm

theorem Kept.construct (h : s.Kept) (parent : Option ℕ) : (s.construct parent).Kept :=
  Kept.relink (s := { s with next := s.next+1 })
    ⟨⟨h.ended,h.rest⟩,fun f hf => Nat.lt_succ_of_lt (h.frames f hf),h.outermost⟩ s.next parent

/-- An evaluation begins: its frame knows the parent to put back. -/
theorem Kept.push (h : s.Kept) (hf : f.obj < s.next) (hbefore : Idle s.frames f.obj → f.before = s.rest f.obj)
    (parent : Option ℕ) : Kept { s.setParent f.obj parent with frames := f::s.frames } := by
  refine ⟨⟨h.ended,fun c hidle => ?_⟩,fun g hg => ?_,fun fs g hfs hidle => ?_⟩
  · obtain ⟨hne,hidle⟩ := idle_cons.mp hidle
    have hc := h.rest c hidle
    rwa [← Function.update_of_ne hne.symm parent s.parent] at hc
  · obtain rfl | hg := List.mem_cons.mp hg
    · exact hf
    · exact h.frames g hg
  · obtain heq | hfs := List.suffix_cons_iff.mp hfs
    · obtain ⟨rfl,rfl⟩ := List.cons.inj heq
      exact hbefore hidle
    · exact h.outermost fs g hfs hidle

theorem Kept.enter (h : s.Kept) {o : ℕ} (ho : o < s.next) (ctx : ℕ) : (s.enter o ctx).Kept :=
  h.push (f := .eval o (s.parent o) ctx) ho (h.rest o) (some ctx)

theorem Kept.define (h : s.Kept) (ctx : ℕ) : (s.define ctx).Kept := by
  refine (h.construct none).push (f := .defctx s.next) (Nat.lt_succ_self _) (fun _ => ?_) (some ctx)
  have hidle : Idle s.frames s.next := h.idle_next
  simp only [ClassScopes.construct,ClassScopes.relink,setParent,if_pos hidle]
  exact (Function.update_self s.next none s.rest).symm

/-- An evaluation ends, and the parent of the context is back. -/
theorem Kept.leave (h : s.Kept) (hfs : s.frames = f::fs) (hback : (s.reset f).parent f.obj = f.before) :
    (s.leave f fs).Kept := by
  have hother : ∀ c, c ≠ f.obj → (s.reset f).parent c = s.parent c := by
    intro c hc
    rw [reset]
    split_ifs
    · exact Function.update_of_ne hc _ _
    · rfl
  have hsame : (s.reset f).ended = s.ended ∧ (s.reset f).rest = s.rest ∧ (s.reset f).next = s.next := by
    rw [reset]
    split_ifs <;> exact ⟨rfl,rfl,rfl⟩
  obtain ⟨hended,hrest,hnext⟩ := hsame
  refine ⟨⟨fun e he => ?_,fun c hidle => ?_⟩,fun g hg => ?_,fun gs g hgs hidle => ?_⟩
  · obtain rfl | he := List.mem_cons.mp he
    · exact hback
    · exact h.ended e (hended ▸ he)
  · change (s.reset f).parent c = (s.reset f).rest c
    rw [hrest]
    by_cases hc : c = f.obj
    · rw [hc] at hidle ⊢
      rw [hback]
      exact h.outermost fs f (hfs ▸ List.suffix_refl _) hidle
    · rw [hother c hc]
      exact h.rest c (hfs ▸ idle_cons.mpr ⟨Ne.symm hc,hidle⟩)
  · change g.obj < (s.reset f).next
    rw [hnext]
    exact h.frames g (hfs ▸ List.mem_cons_of_mem f hg)
  · change g.before = (s.reset f).rest g.obj
    rw [hrest]
    exact h.outermost gs g (hfs ▸ hgs.trans (List.suffix_cons f fs)) hidle

theorem reset_parent (hok : s.raised = none ∨ s.parent f.obj = f.before) :
    (s.reset f).parent f.obj = f.before := by
  rw [reset]
  split_ifs with hraised
  · exact Function.update_self _ _ _
  · exact hok.resolve_left hraised

theorem Kept.setRaised (h : s.Kept) (e : Option Exn) : ({ s with raised := e } : ClassScopes).Kept :=
  ⟨⟨h.ended,h.rest⟩,h.frames,h.outermost⟩

theorem Kept.step (h : s.Kept) {ev : ScopeEvent} (hok : s.Resets ev) (hstep : s.step ev = some t) : t.Kept := by
  cases ev with
  | construct parent =>
    simp only [ClassScopes.step] at hstep
    split_ifs at hstep
    obtain rfl := Option.some.inj hstep
    exact h.construct parent
  | relink c parent =>
    simp only [ClassScopes.step] at hstep
    split_ifs at hstep
    obtain rfl := Option.some.inj hstep
    exact h.relink c parent
  | eval o ctx =>
    simp only [ClassScopes.step] at hstep
    split_ifs at hstep with ho
    obtain rfl := Option.some.inj hstep
    exact h.enter ho.2 ctx
  | defctx ctx =>
    simp only [ClassScopes.step] at hstep
    split_ifs at hstep
    obtain rfl := Option.some.inj hstep
    exact h.define ctx
  | leave =>
    simp only [ClassScopes.step] at hstep
    cases hfs : s.frames with
    | nil =>
      rw [hfs] at hstep
      cases hstep
    | cons f fs =>
      rw [hfs] at hstep
      obtain rfl := Option.some.inj hstep
      exact h.leave hfs (reset_parent (hok f (hfs ▸ rfl)))
  | raise e =>
    simp only [ClassScopes.step] at hstep
    split_ifs at hstep
    obtain rfl := Option.some.inj hstep
    exact h.setRaised _
  | caught =>
    simp only [ClassScopes.step] at hstep
    split_ifs at hstep
    obtain rfl := Option.some.inj hstep
    exact h.setRaised _

/-- An evaluation that is left by an exception leaves the parent it was given. -/
theorem breaks {ev : ScopeEvent} (hnot : ¬s.Resets ev) : ∃ t, s.step ev = some t ∧ ¬t.Restored := by
  cases ev with
  | leave =>
    obtain ⟨f,hf⟩ := not_forall.mp hnot
    obtain ⟨hhead,hesc⟩ := Classical.not_imp.mp hf
    obtain ⟨hraised,hparent⟩ := not_or.mp hesc
    obtain ⟨fs,hfs⟩ := List.head?_eq_some_iff.mp hhead
    refine ⟨s.leave f fs,by rw [step,hfs],fun h => hparent ?_⟩
    have hend := h.ended _ List.mem_cons_self
    rwa [reset,if_neg hraised] at hend
  | _ => exact absurd trivial hnot

/-- A class is defined and evaluated in the context 0, which throws inside `%try`. -/
def thrownText : List ScopeEvent :=
  [.construct none,.defctx 0,.leave,.eval 1 0,.raise (.error ⟨1,str "x"⟩),.leave,.caught]

end
end ClassScopes
end Smx
