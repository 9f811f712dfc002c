import Mathlib.Logic.Basic

/-! Computations that keep a log of what they do; what was done before an error is kept as well. A log acts on a state,
and what holds of the state is shown along the log. -/
namespace Logging

structure Logged (ω ε α : Type) where
  log : List ω
  result : Except ε α

namespace Logged
variable {ω ε α β σ : Type}

/-- The log goes on behind a result, and ends with an error. -/
def andThen (x : Logged ω ε α) (f : α → Logged ω ε β) : Logged ω ε β :=
  match x.result with
  | .error e => ⟨x.log,.error e⟩
  | .ok a => ⟨x.log ++ (f a).log,(f a).result⟩

instance : Monad (Logged ω ε) where
  pure a := ⟨[],.ok a⟩
  bind := andThen

def fail (e : ε) : Logged ω ε α := ⟨[],.error e⟩

def tell (ws : List ω) : Logged ω ε Unit := ⟨ws,.ok ()⟩

end Logged

variable {ω ε α β σ : Type} (step : σ → ω → σ) {ok : σ → ω → Prop} {s : σ} {x : Logged ω ε α} {f : α → Logged ω ε β}
  {P : ε → Prop} {Q Q' : σ → α → Prop} {R : σ → β → Prop}

/-- Each entry of a log is as it should be, in the state in front of it. -/
def Along (ok : σ → ω → Prop) : σ → List ω → Prop
  | _,[] => True
  | s,w::ws => ok s w ∧ Along ok (step s w) ws

theorem along_append {ws ws' : List ω} :
    Along step ok s (ws ++ ws') ↔ Along step ok s ws ∧ Along step ok (ws.foldl step s) ws' := by
  induction ws generalizing s with
  | nil => simp [Along]
  | cons w ws ih =>
    change ok s w ∧ Along step ok (step s w) (ws ++ ws') ↔ (ok s w ∧ Along step ok (step s w) ws) ∧ _
    rw [ih,and_assoc]
    rfl

/-- What a computation does from a state on: the log is as it should be, and so are the error or the result. -/
structure Does (ok : σ → ω → Prop) (P : ε → Prop) (Q : σ → α → Prop) (s : σ) (x : Logged ω ε α) : Prop where
  log : Along step ok s x.log
  error : ∀ e, x.result = .error e → P e
  result : ∀ a, x.result = .ok a → Q (x.log.foldl step s) a

/-- What the result of a computation is like, provided that the log is as it should be. -/
structure Upholds (ok : σ → ω → Prop) (Q : σ → α → Prop) (s : σ) (x : Logged ω ε α) : Prop where
  result : ∀ a, x.result = .ok a → Along step ok s x.log → Q (x.log.foldl step s) a

variable {step}

theorem Does.pure {a : α} (h : Q s a) : Does step ok P Q s (pure a : Logged ω ε α) :=
  ⟨trivial,nofun,fun _ ha => Except.ok.inj ha ▸ h⟩

theorem Does.fail {e : ε} (h : P e) : Does step ok P Q s (.fail e) :=
  ⟨trivial,fun _ he => Except.error.inj he ▸ h,nofun⟩

theorem Does.tell {w : ω} {Q : σ → Unit → Prop} (hok : ok s w) (h : Q (step s w) ()) :
    Does step ok P Q s (.tell [w] : Logged ω ε Unit) :=
  ⟨⟨hok,trivial⟩,nofun,fun _ _ => h⟩

theorem Does.bind (hx : Does step ok P Q s x) (hf : ∀ t a, Q t a → Does step ok P R t (f a)) :
    Does step ok P R s (x >>= f) := by
  obtain ⟨l,r⟩ := x
  cases r with
  | error e => exact ⟨hx.log,fun _ he => Except.error.inj he ▸ hx.error e rfl,nofun⟩
  | ok a =>
    have hfa := hf _ a (hx.result a rfl)
    refine ⟨(along_append step).mpr ⟨hx.log,hfa.log⟩,hfa.error,fun b hb => ?_⟩
    have hlast := hfa.result b hb
    rwa [← List.foldl_append] at hlast

theorem Does.mono (hx : Does step ok P Q s x) (h : ∀ t a, Q t a → Q' t a) : Does step ok P Q' s x :=
  ⟨hx.log,hx.error,fun a ha => h _ a (hx.result a ha)⟩

theorem Upholds.pure {a : α} (h : Q s a) : Upholds step ok Q s (pure a : Logged ω ε α) :=
  ⟨fun _ ha _ => Except.ok.inj ha ▸ h⟩

theorem Upholds.fail {e : ε} : Upholds step ok Q s (.fail e : Logged ω ε α) := ⟨nofun⟩

theorem Upholds.tell {w : ω} {Q : σ → Unit → Prop} (h : ok s w → Q (step s w) ()) :
    Upholds step ok Q s (.tell [w] : Logged ω ε Unit) :=
  ⟨fun _ _ hok => h hok.1⟩

theorem Upholds.bind (hx : Upholds step ok Q s x) (hf : ∀ t a, Q t a → Upholds step ok R t (f a)) :
    Upholds step ok R s (x >>= f) := by
  obtain ⟨l,r⟩ := x
  refine ⟨fun b hb hlog => ?_⟩
  cases r with
  | error e => cases hb
  | ok a =>
    obtain ⟨hl,hfa⟩ := (along_append step).mp hlog
    have hlast := (hf _ a (hx.result a rfl hl)).result b hb hfa
    rwa [← List.foldl_append] at hlast

theorem Upholds.mono (hx : Upholds step ok Q s x) (h : ∀ t a, Q t a → Q' t a) : Upholds step ok Q' s x :=
  ⟨fun a ha hlog => h _ a (hx.result a ha hlog)⟩

end Logging
