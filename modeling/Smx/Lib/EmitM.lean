import Mathlib.Tactic.Common

/-! Computations that change a state, append to an output and may stop with an exception.
What was appended before an exception stays, unless the output went to a buffer of its own. -/

/-- How a computation ended, the state it left and what it appended. -/
@[ext] structure Outcome (ε ω σ α : Type) where
  result : Except ε α
  state : σ
  out : List ω

def EmitM (ε ω σ α : Type) := σ → Outcome ε ω σ α

namespace EmitM
variable {ε ω σ α β γ : Type}

def run (x : EmitM ε ω σ α) (s : σ) : Outcome ε ω σ α := x s

theorem ext {x y : EmitM ε ω σ α} (h : ∀ s, x.run s = y.run s) : x = y := funext h

instance : Monad (EmitM ε ω σ) where
  pure a := fun s => ⟨.ok a,s,[]⟩
  bind x f := fun s =>
    match x s with
    | ⟨.ok a,s',b⟩ => ⟨(f a s').result,(f a s').state,b ++ (f a s').out⟩
    | ⟨.error e,s',b⟩ => ⟨.error e,s',b⟩

theorem run_pure (a : α) (s : σ) : (pure a : EmitM ε ω σ α).run s = ⟨.ok a,s,[]⟩ := rfl

theorem run_bind_ok {x : EmitM ε ω σ α} {s s' : σ} {a : α} {b : List ω}
    (h : x.run s = ⟨.ok a,s',b⟩) (f : α → EmitM ε ω σ β) :
    (x >>= f).run s =
      ⟨((f a).run s').result,((f a).run s').state,b ++ ((f a).run s').out⟩ := by
  change (match x s with | ⟨.ok a,s',b⟩ => _ | ⟨.error e,s',b⟩ => _) = _
  rw [show x s = _ from h]
  rfl

theorem run_bind_error {x : EmitM ε ω σ α} {s s' : σ} {e : ε} {b : List ω}
    (h : x.run s = ⟨.error e,s',b⟩) (f : α → EmitM ε ω σ β) :
    (x >>= f).run s = ⟨.error e,s',b⟩ := by
  change (match x s with | ⟨.ok a,s',b⟩ => _ | ⟨.error e,s',b⟩ => _) = _
  rw [show x s = _ from h]

/-- A run ends in one of two ways. -/
theorem run_cases (x : EmitM ε ω σ α) (s : σ) :
    (∃ a s' b, x.run s = ⟨.ok a,s',b⟩) ∨ ∃ e s' b, x.run s = ⟨.error e,s',b⟩ := by
  rcases h : x.run s with ⟨r,s',b⟩
  cases r with
  | ok a => exact .inl ⟨a,s',b,rfl⟩
  | error e => exact .inr ⟨e,s',b,rfl⟩

instance : LawfulMonad (EmitM ε ω σ) := LawfulMonad.mk' _
  (fun x => ext fun s => by
    change (x >>= fun a => pure a).run s = _
    rcases run_cases x s with ⟨a,s',b,h⟩ | ⟨e,s',b,h⟩
    · rw [run_bind_ok h,run_pure,h,List.append_nil]
    · rw [run_bind_error h,h])
  (fun a f => ext fun s => by
    rw [run_bind_ok (run_pure a s)]
    rfl)
  (fun x f g => ext fun s => by
    rcases run_cases x s with ⟨a,s',b,h⟩ | ⟨e,s',b,h⟩
    · have hf := run_bind_ok h f
      rw [run_bind_ok h]
      rcases run_cases (f a) s' with ⟨c,t,d,hc⟩ | ⟨e,t,d,hc⟩
      · rw [hc] at hf
        rw [run_bind_ok hf,run_bind_ok hc,List.append_assoc]
      · rw [hc] at hf
        rw [run_bind_error hf,run_bind_error hc]
    · rw [run_bind_error (run_bind_error h f),run_bind_error h])

def get : EmitM ε ω σ σ := fun s => ⟨.ok s,s,[]⟩
def set (s' : σ) : EmitM ε ω σ Unit := fun _ => ⟨.ok (),s',[]⟩
def emit (b : List ω) : EmitM ε ω σ Unit := fun s => ⟨.ok (),s,b⟩
def throw (e : ε) : EmitM ε ω σ α := fun s => ⟨.error e,s,[]⟩

/-- `try … catch`: what was appended before the exception stays. -/
def tryCatch (x : EmitM ε ω σ α) (handler : ε → EmitM ε ω σ α) : EmitM ε ω σ α := fun s =>
  match x s with
  | ⟨.ok a,s',b⟩ => ⟨.ok a,s',b⟩
  | ⟨.error e,s',b⟩ => ⟨(handler e s').result,(handler e s').state,b ++ (handler e s').out⟩

/-- Run with a fresh buffer. After an exception nobody sees the buffer. -/
def capture (x : EmitM ε ω σ α) : EmitM ε ω σ (List ω × α) := fun s =>
  match x s with
  | ⟨.ok a,s',b⟩ => ⟨.ok (b,a),s',[]⟩
  | ⟨.error e,s',_⟩ => ⟨.error e,s',[]⟩

theorem run_get (s : σ) : (get : EmitM ε ω σ σ).run s = ⟨.ok s,s,[]⟩ := rfl
theorem run_emit (b : List ω) (s : σ) : (emit b : EmitM ε ω σ Unit).run s = ⟨.ok (),s,b⟩ := rfl

theorem run_capture_ok {x : EmitM ε ω σ α} {s s' : σ} {a : α} {b : List ω}
    (h : x.run s = ⟨.ok a,s',b⟩) : (capture x).run s = ⟨.ok (b,a),s',[]⟩ := by
  unfold run at h
  simp [capture,run,h]

theorem run_capture_error {x : EmitM ε ω σ α} {s s' : σ} {e : ε} {b : List ω}
    (h : x.run s = ⟨.error e,s',b⟩) : (capture x).run s = ⟨.error e,s',[]⟩ := by
  unfold run at h
  simp [capture,run,h]

theorem run_tryCatch_ok {x : EmitM ε ω σ α} {s s' : σ} {a : α} {b : List ω}
    (h : x.run s = ⟨.ok a,s',b⟩) (handler : ε → EmitM ε ω σ α) :
    (tryCatch x handler).run s = ⟨.ok a,s',b⟩ := by
  unfold run at h
  simp [tryCatch,run,h]

@[simp] theorem emit_nil_bind (f : Unit → EmitM ε ω σ β) : (emit [] >>= f) = f () :=
  ext fun s => by
    rw [run_bind_ok (run_emit [] s)]
    rfl

@[simp] theorem get_bind_const (x : EmitM ε ω σ β) : (get >>= fun _ => x) = x :=
  ext fun s => by
    rw [run_bind_ok (run_get s)]
    rfl

theorem emit_append (a b : List ω) :
    (emit (a ++ b) : EmitM ε ω σ Unit) = emit a >>= fun _ => emit b :=
  ext fun s => by rw [run_bind_ok (run_emit a s),run_emit,run_emit]

theorem emit_append_bind (a b : List ω) (f : Unit → EmitM ε ω σ β) :
    (emit (a ++ b) >>= f) = emit a >>= fun _ => emit b >>= f := by
  rw [emit_append,bind_assoc]

@[simp] theorem capture_pure (a : α) :
    capture (pure a : EmitM ε ω σ α) = pure ([],a) := rfl

@[simp] theorem capture_emit (b : List ω) :
    capture (emit b : EmitM ε ω σ Unit) = pure (b,()) := rfl

theorem capture_emit_pure (b : List ω) (a : α) :
    capture (emit b >>= fun _ => pure a : EmitM ε ω σ α) = pure (b,a) :=
  ext fun s => run_capture_ok (b := b) (by
    rw [run_bind_ok (run_emit b s),run_pure,List.append_nil])

/-- A buffer filled in two goes. -/
theorem capture_bind (x : EmitM ε ω σ α) (f : α → EmitM ε ω σ β) :
    capture (x >>= f) =
      capture x >>= fun r => capture (f r.2) >>= fun q => pure (r.1 ++ q.1,q.2) :=
  ext fun s => by
    rcases run_cases x s with ⟨a,s',b,h⟩ | ⟨e,s',b,h⟩
    · rw [run_bind_ok (run_capture_ok h)]
      have hf := run_bind_ok h f
      rcases run_cases (f a) s' with ⟨c,t,d,hc⟩ | ⟨e,t,d,hc⟩
      · rw [hc] at hf
        rw [run_capture_ok hf,run_bind_ok (run_capture_ok hc)]
        rfl
      · rw [hc] at hf
        rw [run_capture_error hf,run_bind_error (run_capture_error hc)]
        rfl
    · rw [run_capture_error (run_bind_error h f),run_bind_error (run_capture_error h)]

@[simp] theorem throw_bind (e : ε) (f : α → EmitM ε ω σ β) :
    ((throw e : EmitM ε ω σ α) >>= f) = throw e := rfl

/-- What a computation can answer. -/
def Returns (x : EmitM ε ω σ α) (a : α) : Prop := ∃ s s' b, x.run s = ⟨.ok a,s',b⟩

theorem returns_pure {a a' : α} (h : Returns (pure a : EmitM ε ω σ α) a') : a' = a := by
  obtain ⟨s,s',b,h⟩ := h
  rw [run_pure] at h
  cases h
  rfl

theorem returns_bind {x : EmitM ε ω σ α} {f : α → EmitM ε ω σ β} {c : β}
    (h : Returns (x >>= f) c) : ∃ a, Returns x a ∧ Returns (f a) c := by
  obtain ⟨s,t,b,h⟩ := h
  rcases run_cases x s with ⟨a,s',d,hx⟩ | ⟨e,s',d,hx⟩
  · refine ⟨a,⟨s,s',d,hx⟩,s',((f a).run s').state,((f a).run s').out,?_⟩
    rw [run_bind_ok hx] at h
    have hres : ((f a).run s').result = .ok c := congrArg Outcome.result h
    exact Outcome.ext hres rfl rfl
  · rw [run_bind_error hx] at h
    cases h

theorem returns_capture {x : EmitM ε ω σ α} {r : List ω × α} (h : Returns (capture x) r) :
    Returns x r.2 := by
  obtain ⟨s,t,b,h⟩ := h
  rcases run_cases x s with ⟨a,s',d,hx⟩ | ⟨e,s',d,hx⟩
  · rw [run_capture_ok hx] at h
    cases h
    exact ⟨s,_,d,hx⟩
  · rw [run_capture_error hx] at h
    cases h

/-- Continuations matter on the answers that can come only. -/
theorem bind_congr_of_returns {x : EmitM ε ω σ α} {f g : α → EmitM ε ω σ β}
    (h : ∀ a, Returns x a → f a = g a) : (x >>= f) = x >>= g :=
  ext fun s => by
    rcases run_cases x s with ⟨a,s',b,hx⟩ | ⟨e,s',b,hx⟩
    · rw [run_bind_ok hx,run_bind_ok hx,h a ⟨s,s',b,hx⟩]
    · rw [run_bind_error hx,run_bind_error hx]

/-- What holds at the end of a run from `s`, unless an exception stops it. -/
def Ends (x : EmitM ε ω σ α) (s : σ) (Q : α → σ → List ω → Prop) : Prop :=
  ∀ a s' b, x.run s = ⟨.ok a,s',b⟩ → Q a s' b

namespace Ends
variable {x : EmitM ε ω σ α} {f : α → EmitM ε ω σ β} {s : σ}

theorem mono {Q Q' : α → σ → List ω → Prop} (h : Ends x s Q) (hQ : ∀ a s' b, Q a s' b → Q' a s' b) :
    Ends x s Q' := fun a s' b hrun => hQ a s' b (h a s' b hrun)

theorem of_result {Q : α → σ → List ω → Prop} (h : Ends x s Q) {a : α}
    (hresult : (x.run s).result = .ok a) : Q a (x.run s).state (x.run s).out :=
  h a _ _ (Outcome.ext hresult rfl rfl)

theorem and {Q Q' : α → σ → List ω → Prop} (h : Ends x s Q) (h' : Ends x s Q') :
    Ends x s fun a s' b => Q a s' b ∧ Q' a s' b :=
  fun a s' b hrun => ⟨h a s' b hrun,h' a s' b hrun⟩

theorem and_returns {Q : α → σ → List ω → Prop} {P : α → Prop} (h : Ends x s Q)
    (hP : ∀ a, Returns x a → P a) : Ends x s fun a s' b => Q a s' b ∧ P a :=
  fun a s' b hrun => ⟨h a s' b hrun,hP a ⟨s,s',b,hrun⟩⟩

theorem pure {a : α} {Q : α → σ → List ω → Prop} (h : Q a s []) :
    Ends (Pure.pure a : EmitM ε ω σ α) s Q := by
  intro a' s' b hrun
  rw [run_pure] at hrun
  cases hrun
  exact h

theorem emit {b : List ω} {Q : Unit → σ → List ω → Prop} (h : Q () s b) :
    Ends (EmitM.emit b : EmitM ε ω σ Unit) s Q := by
  intro a' s' b' hrun
  rw [run_emit] at hrun
  cases hrun
  exact h

theorem throw {e : ε} (Q : α → σ → List ω → Prop) : Ends (EmitM.throw e : EmitM ε ω σ α) s Q := by
  intro a' s' b hrun
  cases hrun

theorem bind {Q : β → σ → List ω → Prop}
    (h : Ends x s fun a s' b => Ends (f a) s' fun c s'' d => Q c s'' (b ++ d)) :
    Ends (x >>= f) s Q := by
  intro c t b hrun
  rcases run_cases x s with ⟨a,s',d,hx⟩ | ⟨e,s',d,hx⟩
  · rw [run_bind_ok hx] at hrun
    have hres : ((f a).run s').result = .ok c := congrArg Outcome.result hrun
    have hstate : ((f a).run s').state = t := congrArg Outcome.state hrun
    have hout : d ++ ((f a).run s').out = b := congrArg Outcome.out hrun
    rw [← hout]
    exact h a s' d hx c t _ (Outcome.ext hres hstate rfl)
  · rw [run_bind_error hx] at hrun
    cases hrun

theorem get_bind {f : σ → EmitM ε ω σ β} {Q : β → σ → List ω → Prop} (h : Ends (f s) s Q) :
    Ends (EmitM.get >>= f) s Q := by
  intro c t b hrun
  rw [run_bind_ok (run_get s)] at hrun
  exact h c t b hrun

theorem capture {Q : List ω × α → σ → List ω → Prop} (h : Ends x s fun a s' b => Q (b,a) s' []) :
    Ends (EmitM.capture x) s Q := by
  intro r t b hrun
  rcases run_cases x s with ⟨a,s',d,hx⟩ | ⟨e,s',d,hx⟩
  · rw [run_capture_ok hx] at hrun
    cases hrun
    exact h a _ d hx
  · rw [run_capture_error hx] at hrun
    cases hrun

end Ends

/-- The same computation where one more exception is possible. -/
def liftExn (x : EmitM ε ω σ α) : EmitM (Option ε) ω σ α := fun s =>
  match x s with
  | ⟨.ok a,s',b⟩ => ⟨.ok a,s',b⟩
  | ⟨.error e,s',b⟩ => ⟨.error (some e),s',b⟩

theorem run_liftExn_ok {x : EmitM ε ω σ α} {s s' : σ} {a : α} {b : List ω}
    (h : x.run s = ⟨.ok a,s',b⟩) : (liftExn x).run s = ⟨.ok a,s',b⟩ := by
  unfold run at h
  simp [liftExn,run,h]

theorem run_liftExn_error {x : EmitM ε ω σ α} {s s' : σ} {e : ε} {b : List ω}
    (h : x.run s = ⟨.error e,s',b⟩) : (liftExn x).run s = ⟨.error (some e),s',b⟩ := by
  unfold run at h
  simp [liftExn,run,h]

@[simp] theorem liftExn_pure (a : α) :
    liftExn (pure a : EmitM ε ω σ α) = pure a := rfl

@[simp] theorem liftExn_emit (b : List ω) :
    liftExn (emit b : EmitM ε ω σ Unit) = emit b := rfl

@[simp] theorem liftExn_get : liftExn (get : EmitM ε ω σ σ) = get := rfl

theorem liftExn_bind (x : EmitM ε ω σ α) (f : α → EmitM ε ω σ β) :
    liftExn (x >>= f) = liftExn x >>= fun a => liftExn (f a) :=
  ext fun s => by
    rcases run_cases x s with ⟨a,s',b,h⟩ | ⟨e,s',b,h⟩
    · rw [run_bind_ok (run_liftExn_ok h)]
      have hf := run_bind_ok h f
      rcases run_cases (f a) s' with ⟨c,t,d,hc⟩ | ⟨e,t,d,hc⟩
      · rw [hc] at hf
        rw [run_liftExn_ok hf,run_liftExn_ok hc]
      · rw [hc] at hf
        rw [run_liftExn_error hf,run_liftExn_error hc]
    · rw [run_liftExn_error (run_bind_error h f),run_bind_error (run_liftExn_error h)]

theorem liftExn_capture (x : EmitM ε ω σ α) : liftExn (capture x) = capture (liftExn x) :=
  ext fun s => by
    rcases run_cases x s with ⟨a,s',b,h⟩ | ⟨e,s',b,h⟩
    · rw [run_liftExn_ok (run_capture_ok h),run_capture_ok (run_liftExn_ok h)]
    · rw [run_liftExn_error (run_capture_error h),run_capture_error (run_liftExn_error h)]

theorem run_eq_of_liftExn {x y : EmitM ε ω σ α} {s : σ}
    (h : (liftExn x).run s = (liftExn y).run s) : x.run s = y.run s := by
  rcases run_cases x s with ⟨a,s',b,hx⟩ | ⟨e,s',b,hx⟩
  · rw [run_liftExn_ok hx] at h
    rcases run_cases y s with ⟨a',t,b',hy⟩ | ⟨e',t,b',hy⟩
    · rw [run_liftExn_ok hy] at h
      cases h
      rw [hx,hy]
    · rw [run_liftExn_error hy] at h
      cases h
  · rw [run_liftExn_error hx] at h
    rcases run_cases y s with ⟨a',t,b',hy⟩ | ⟨e',t,b',hy⟩
    · rw [run_liftExn_ok hy] at h
      cases h
    · rw [run_liftExn_error hy] at h
      cases h
      rw [hx,hy]

/-- Give up at any exception. -/
def quiet (x : EmitM ε ω σ α) : EmitM (Option ε) ω σ α := fun s =>
  match x s with
  | ⟨.ok a,s',b⟩ => ⟨.ok a,s',b⟩
  | ⟨.error _,s',b⟩ => ⟨.error none,s',b⟩

theorem run_quiet_ok {x : EmitM ε ω σ α} {s s' : σ} {a : α} {b : List ω}
    (h : x.run s = ⟨.ok a,s',b⟩) : (quiet x).run s = ⟨.ok a,s',b⟩ := by
  unfold run at h
  simp [quiet,run,h]

theorem run_quiet_error {x : EmitM ε ω σ α} {s s' : σ} {e : ε} {b : List ω}
    (h : x.run s = ⟨.error e,s',b⟩) : (quiet x).run s = ⟨.error none,s',b⟩ := by
  unfold run at h
  simp [quiet,run,h]

@[simp] theorem quiet_emit (b : List ω) : quiet (emit b : EmitM ε ω σ Unit) = emit b := rfl

/-- `x` does what `y` does wherever `y` does not give up, that is, end with `none`. -/
def Matches (x y : EmitM (Option ε) ω σ α) : Prop :=
  ∀ s, (y.run s).result ≠ .error none → x.run s = y.run s

namespace Matches
variable {x y z : EmitM (Option ε) ω σ α} {f g : α → EmitM (Option ε) ω σ β}

theorem refl (x : EmitM (Option ε) ω σ α) : Matches x x := fun _ _ => rfl

theorem throw_none (x : EmitM (Option ε) ω σ α) : Matches x (EmitM.throw none) :=
  fun _ h => absurd rfl h

theorem trans (hxy : Matches x y) (hyz : Matches y z) : Matches x z := by
  intro s h
  have hs := hyz s h
  rw [hxy s (by rwa [hs]),hs]

theorem bind_of_returns (hx : Matches x y) (hf : ∀ a, Returns y a → Matches (f a) (g a)) :
    Matches (x >>= f) (y >>= g) := by
  intro s h
  rcases run_cases y s with ⟨a,s',b,hy⟩ | ⟨e,s',b,hy⟩
  · have hs := hx s (by simp [hy])
    rw [hy] at hs
    rw [run_bind_ok hy] at h ⊢
    rw [run_bind_ok hs,hf a ⟨s,s',b,hy⟩ s' h]
  · rw [run_bind_error hy] at h ⊢
    have hs := hx s (by
      rw [hy]
      intro he
      cases he
      exact h rfl)
    rw [hy] at hs
    rw [run_bind_error hs]

theorem bind (hx : Matches x y) (hf : ∀ a, Matches (f a) (g a)) : Matches (x >>= f) (y >>= g) :=
  hx.bind_of_returns fun a _ => hf a

theorem capture (hx : Matches x y) : Matches (EmitM.capture x) (EmitM.capture y) := by
  intro s h
  rcases run_cases y s with ⟨a,s',b,hy⟩ | ⟨e,s',b,hy⟩
  · have hs := hx s (by simp [hy])
    rw [hy] at hs
    rw [run_capture_ok hs,run_capture_ok hy]
  · rw [run_capture_error hy] at h ⊢
    have hs := hx s (by
      rw [hy]
      intro he
      cases he
      exact h rfl)
    rw [hy] at hs
    rw [run_capture_error hs]

/-- A computation without exceptions of its own may stand for one that has them. -/
theorem quiet (x : EmitM ε ω σ α) : Matches (liftExn x) (EmitM.quiet x) := by
  intro s h
  rcases run_cases x s with ⟨a,s',b,hx⟩ | ⟨e,s',b,hx⟩
  · rw [run_liftExn_ok hx,run_quiet_ok hx]
  · exact absurd (by rw [run_quiet_error hx]) h

end Matches

/-- The same between a computation and one that may also give up. -/
def Follows (x : EmitM ε ω σ α) (y : EmitM (Option ε) ω σ α) : Prop := Matches (liftExn x) y

namespace Follows

theorem lift (x : EmitM ε ω σ α) : Follows x (liftExn x) := .refl _

theorem pure (a : α) : Follows (Pure.pure a : EmitM ε ω σ α) (Pure.pure a) := lift _

theorem emit (b : List ω) : Follows (EmitM.emit b : EmitM ε ω σ Unit) (EmitM.emit b) := lift _

theorem get : Follows (EmitM.get : EmitM ε ω σ σ) EmitM.get := lift _

theorem throw_none (x : EmitM ε ω σ α) : Follows x (EmitM.throw none) :=
  Matches.throw_none _

theorem trans {x : EmitM ε ω σ α} {y z : EmitM (Option ε) ω σ α} (hxy : Follows x y)
    (hyz : Matches y z) : Follows x z := Matches.trans hxy hyz

theorem bind_of_returns {x : EmitM ε ω σ α} {y : EmitM (Option ε) ω σ α} {f : α → EmitM ε ω σ β}
    {g : α → EmitM (Option ε) ω σ β} (hx : Follows x y)
    (hf : ∀ a, Returns y a → Follows (f a) (g a)) : Follows (x >>= f) (y >>= g) := by
  rw [Follows,liftExn_bind]
  exact Matches.bind_of_returns hx hf

theorem bind {x : EmitM ε ω σ α} {y : EmitM (Option ε) ω σ α} {f : α → EmitM ε ω σ β}
    {g : α → EmitM (Option ε) ω σ β} (hx : Follows x y) (hf : ∀ a, Follows (f a) (g a)) :
    Follows (x >>= f) (y >>= g) := hx.bind_of_returns fun a _ => hf a

/-- A first computation that answers something made from what it is to answer. -/
theorem bind_map {x : EmitM ε ω σ γ} {y : EmitM (Option ε) ω σ α} {φ : α → γ}
    {f : γ → EmitM ε ω σ β} {g : α → EmitM (Option ε) ω σ β}
    (hx : Follows x (y >>= fun a => Pure.pure (φ a))) (hf : ∀ a, Follows (f (φ a)) (g a)) :
    Follows (x >>= f) (y >>= g) := by
  intro s h
  rw [liftExn_bind]
  rcases run_cases y s with ⟨a,s',b,hy⟩ | ⟨e,s',b,hy⟩
  · have hφ : (y >>= fun a => (Pure.pure (φ a) : EmitM (Option ε) ω σ γ)).run s =
        ⟨.ok (φ a),s',b⟩ := by
      rw [run_bind_ok hy,run_pure,List.append_nil]
    have hs := hx s (by rw [hφ]; exact nofun)
    rw [hφ] at hs
    rw [run_bind_ok hy] at h ⊢
    rw [run_bind_ok hs,hf a s' h]
  · have hφ : (y >>= fun a => (Pure.pure (φ a) : EmitM (Option ε) ω σ γ)).run s =
        ⟨.error e,s',b⟩ := run_bind_error hy _
    rw [run_bind_error hy] at h ⊢
    have hs := hx s (by
      rw [hφ]
      intro he
      cases he
      exact h rfl)
    rw [hφ] at hs
    rw [run_bind_error hs]

theorem capture {x : EmitM ε ω σ α} {y : EmitM (Option ε) ω σ α} (hx : Follows x y) :
    Follows (EmitM.capture x) (EmitM.capture y) := by
  rw [Follows,liftExn_capture]
  exact Matches.capture hx

theorem quiet (x : EmitM ε ω σ α) : Follows x (EmitM.quiet x) := Matches.quiet x

theorem tryCatch_quiet (x : EmitM ε ω σ α) (handler : ε → EmitM ε ω σ α) :
    Follows (tryCatch x handler) (EmitM.quiet x) := by
  intro s h
  rcases run_cases x s with ⟨a,s',b,hx⟩ | ⟨e,s',b,hx⟩
  · rw [run_liftExn_ok (run_tryCatch_ok hx handler),run_quiet_ok hx]
  · exact absurd (by rw [run_quiet_error hx]) h

/-- Two computations that follow the same one agree where it does not give up. -/
theorem run_eq {x x' : EmitM ε ω σ α} {y : EmitM (Option ε) ω σ α} (hx : Follows x y)
    (hx' : Follows x' y) {s : σ} (h : (y.run s).result ≠ .error none) : x.run s = x'.run s :=
  run_eq_of_liftExn ((hx s h).trans (hx' s h).symm)

theorem run_ok {x : EmitM ε ω σ α} {y : EmitM (Option ε) ω σ α} (hx : Follows x y) {s s' : σ} {a : α}
    {b : List ω} (h : y.run s = ⟨.ok a,s',b⟩) : x.run s = ⟨.ok a,s',b⟩ := by
  have hlift : (liftExn x).run s = ⟨.ok a,s',b⟩ := (hx s (by rw [h]; exact nofun)).trans h
  rcases run_cases x s with ⟨a',t,d,hrun⟩ | ⟨e,t,d,hrun⟩
  · rw [run_liftExn_ok hrun] at hlift
    cases hlift
    exact hrun
  · rw [run_liftExn_error hrun] at hlift
    cases hlift

end Follows

end EmitM
