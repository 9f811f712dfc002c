import Mathlib.Data.List.Basic

/-! Runs of a deterministic machine whose steps may be refused, and what every state of a run
inherits from a single step. -/
namespace Smx
variable {σ ε : Type} (step : σ → ε → Option σ)

/-- The state after a sequence of events, when no step is refused. -/
def runFrom (s : σ) (evs : List ε) : Option σ := evs.foldlM step s

@[simp] theorem runFrom_nil (s : σ) : runFrom step s [] = some s := rfl

theorem runFrom_cons (s : σ) (ev : ε) (evs : List ε) :
    runFrom step s (ev::evs) = (step s ev).bind fun t => runFrom step t evs := rfl

theorem runFrom_append (s : σ) (evs evs' : List ε) :
    runFrom step s (evs ++ evs') = (runFrom step s evs).bind fun t => runFrom step t evs' := by
  simp only [runFrom,List.foldlM_append]
  rfl

/-- The events a run meets in a state it reaches. -/
def MeetsOnly (ok : σ → ε → Prop) (s : σ) (evs : List ε) : Prop :=
  ∀ pre ev t, pre ++ [ev] <+: evs → runFrom step s pre = some t → ok t ev

variable {step}

theorem MeetsOnly.head {ok : σ → ε → Prop} {s : σ} {ev : ε} {evs : List ε}
    (h : MeetsOnly step ok s (ev::evs)) : ok s ev :=
  h [] ev s (by simp) rfl

theorem MeetsOnly.tail {ok : σ → ε → Prop} {s t : σ} {ev : ε} {evs : List ε}
    (h : MeetsOnly step ok s (ev::evs)) (hstep : step s ev = some t) : MeetsOnly step ok t evs := by
  intro pre e u hpre hrun
  refine h (ev::pre) e u (by simpa using hpre) ?_
  rw [runFrom_cons,hstep]
  exact hrun

@[simp] theorem meetsOnly_nil {ok : σ → ε → Prop} (s : σ) : MeetsOnly step ok s [] :=
  fun pre ev _ hpre _ => absurd (List.prefix_nil.mp hpre) (by simp)

theorem meetsOnly_cons {ok : σ → ε → Prop} {s : σ} {ev : ε} {evs : List ε} :
    MeetsOnly step ok s (ev::evs) ↔
      ok s ev ∧ ∀ t, step s ev = some t → MeetsOnly step ok t evs := by
  refine ⟨fun h => ⟨h.head,fun t => h.tail⟩,fun ⟨hev,htail⟩ => ?_⟩
  intro pre e u hpre hrun
  cases pre with
  | nil =>
    obtain rfl : e = ev := by simpa using hpre
    exact Option.some.inj hrun ▸ hev
  | cons ev' pre =>
    obtain ⟨rfl,hrest⟩ := List.cons_prefix_cons.mp (by simpa using hpre)
    rw [runFrom_cons] at hrun
    obtain ⟨t,ht,hrun⟩ := Option.bind_eq_some_iff.mp hrun
    exact htail t ht pre e u hrest hrun

instance MeetsOnly.decidable {ok : σ → ε → Prop} [∀ s ev, Decidable (ok s ev)] :
    (evs : List ε) → (s : σ) → Decidable (MeetsOnly step ok s evs)
  | [],s => isTrue (meetsOnly_nil s)
  | ev::evs,s =>
    have : ∀ t, Decidable (MeetsOnly step ok t evs) := MeetsOnly.decidable evs
    decidable_of_iff (ok s ev ∧ ∀ t, step s ev = some t → MeetsOnly step ok t evs) meetsOnly_cons.symm

/-- Runs keep what they met on the way when they are cut short. -/
theorem MeetsOnly.of_prefix {ok : σ → ε → Prop} {s : σ} {evs evs' : List ε}
    (h : MeetsOnly step ok s evs) (hpre : evs' <+: evs) : MeetsOnly step ok s evs' :=
  fun pre ev t hp hrun => h pre ev t (hp.trans hpre) hrun

/-- An invariant of the allowed steps holds after every run made of allowed steps. -/
theorem invariant_of_meetsOnly {ok : σ → ε → Prop} {P : σ → Prop}
    (hstep : ∀ s ev t, P s → ok s ev → step s ev = some t → P t) {evs : List ε} {s t : σ}
    (hs : P s) (hok : MeetsOnly step ok s evs) (hrun : runFrom step s evs = some t) : P t := by
  induction evs generalizing s with
  | nil => exact Option.some.inj hrun ▸ hs
  | cons ev evs ih =>
    rw [runFrom_cons] at hrun
    obtain ⟨u,hu,hrun⟩ := Option.bind_eq_some_iff.mp hrun
    exact ih (hstep s ev u hs hok.head hu) (hok.tail hu) hrun

/-- An invariant of all steps holds after every run. -/
theorem invariant_of_step {P : σ → Prop} (hstep : ∀ s ev t, P s → step s ev = some t → P t)
    {evs : List ε} {s t : σ} (hs : P s) (hrun : runFrom step s evs = some t) : P t :=
  have hok : MeetsOnly step (fun _ _ => True) s evs := fun _ _ _ _ _ => trivial
  invariant_of_meetsOnly (fun s ev t hs _ => hstep s ev t hs) hs hok hrun

/-- Where a step keeps an invariant exactly when it is an allowed one, the invariant holds all along
a run exactly when the run meets allowed steps only. -/
theorem reached_iff_meetsOnly {ok : σ → ε → Prop} {P : σ → Prop} {evs : List ε} {s : σ} (hs : P s)
    (hstep : ∀ s ev t, P s → step s ev = some t → (P t ↔ ok s ev))
    (hrefused : ∀ s ev, step s ev = none → ok s ev) :
    (∀ pre t, pre <+: evs → runFrom step s pre = some t → P t) ↔ MeetsOnly step ok s evs := by
  constructor
  · intro h pre ev t hpre hrun
    have ht : P t := h pre t ((List.prefix_append pre [ev]).trans hpre) hrun
    cases hev : step t ev with
    | none => exact hrefused t ev hev
    | some u =>
      refine (hstep t ev u ht hev).mp (h (pre ++ [ev]) u hpre ?_)
      rw [runFrom_append,hrun,Option.bind_some,runFrom_cons,hev]
      rfl
  · intro h pre t hpre hrun
    refine invariant_of_meetsOnly (fun s ev u hs hok hev => (hstep s ev u hs hev).mpr hok) hs ?_ hrun
    intro pre' ev u hpre' hrun'
    exact h pre' ev u (hpre'.trans hpre) hrun'

/-- An invariant that the allowed steps keep gives a property, and every other step breaks it: the property
holds all along a run exactly when the run meets allowed steps only. -/
theorem reached_iff_of_invariant {ok : σ → ε → Prop} {P I : σ → Prop} {evs : List ε} {s : σ} (hs : I s)
    (hP : ∀ s, I s → P s) (hstep : ∀ s ev t, I s → ok s ev → step s ev = some t → I t)
    (hbreak : ∀ s ev, I s → ¬ok s ev → ∃ t, step s ev = some t ∧ ¬P t) :
    (∀ pre t, pre <+: evs → runFrom step s pre = some t → P t) ↔ MeetsOnly step ok s evs := by
  constructor
  · intro h
    induction evs generalizing s with
    | nil => exact meetsOnly_nil s
    | cons ev evs ih =>
      have hok : ok s ev := by
        by_contra hnot
        obtain ⟨t,ht,hbad⟩ := hbreak s ev hs hnot
        have hrun : runFrom step s [ev] = some t := by
          rw [runFrom_cons,ht]
          rfl
        exact hbad (h [ev] t (by simp) hrun)
      refine meetsOnly_cons.mpr ⟨hok,fun t ht => ih (hstep s ev t hs hok ht) fun pre u hpre hrun => ?_⟩
      refine h (ev::pre) u (by simpa using hpre) ?_
      rw [runFrom_cons,ht]
      exact hrun
  · intro h pre t hpre hrun
    exact hP t (invariant_of_meetsOnly hstep hs (h.of_prefix hpre) hrun)

/-- Two conditions that agree wherever an invariant holds are met by the same runs. -/
theorem meetsOnly_congr {ok ok' : σ → ε → Prop} {P : σ → Prop} {evs : List ε} {s : σ} (hs : P s)
    (hstep : ∀ s ev t, P s → step s ev = some t → P t) (h : ∀ s ev, P s → (ok s ev ↔ ok' s ev)) :
    MeetsOnly step ok s evs ↔ MeetsOnly step ok' s evs := by
  have hP (pre : List ε) (t : σ) (hrun : runFrom step s pre = some t) : P t :=
    invariant_of_step hstep hs hrun
  exact ⟨fun hok pre ev t hpre hrun => (h t ev (hP pre t hrun)).mp (hok pre ev t hpre hrun),
    fun hok pre ev t hpre hrun => (h t ev (hP pre t hrun)).mpr (hok pre ev t hpre hrun)⟩

/-- Where each allowed step is followed by a machine that is never refused one, so is each run of them. -/
theorem runFrom_refines {τ : Type} {after : τ → ε → τ} {ok : σ → ε → Prop} {R : σ → τ → Prop}
    (hstep : ∀ s t ev, R s t → ok s ev → ∃ s', step s ev = some s' ∧ R s' (after t ev)) {evs : List ε} {s : σ} {t : τ}
    (hR : R s t) (hok : MeetsOnly step ok s evs) : ∃ s', runFrom step s evs = some s' ∧ R s' (evs.foldl after t) := by
  induction evs generalizing s t with
  | nil => exact ⟨s,rfl,hR⟩
  | cons ev evs ih =>
    obtain ⟨s',hs',hR'⟩ := hstep s t ev hR hok.head
    rw [runFrom_cons,hs']
    exact ih hR' (hok.tail hs')

/-- Where each allowed step is matched by a step of another machine that looks the same, so is each run of
allowed steps. -/
theorem runFrom_simulates {τ δ ω : Type} {step' : τ → δ → Option τ} {ok : σ → ε → Prop}
    {R : σ → τ → Prop} {look : ε → ω} {look' : δ → ω}
    (hstep : ∀ s t ev, R s t → ok s ev → ∃ s' t' ev', step s ev = some s' ∧ step' t ev' = some t' ∧
      look' ev' = look ev ∧ R s' t') {evs : List ε} {s : σ} {t : τ} (hR : R s t)
    (hok : MeetsOnly step ok s evs) : ∃ s' t' evs', runFrom step s evs = some s' ∧
      runFrom step' t evs' = some t' ∧ evs'.map look' = evs.map look ∧ R s' t' := by
  induction evs generalizing s t with
  | nil => exact ⟨s,t,[],rfl,rfl,rfl,hR⟩
  | cons ev evs ih =>
    obtain ⟨s',t',ev',hs,ht,hlook,hR'⟩ := hstep s t ev hR hok.head
    obtain ⟨s'',t'',evs',hs',ht',hlooks,hR''⟩ := ih hR' (hok.tail hs)
    refine ⟨s'',t'',ev'::evs',?_,?_,?_,hR''⟩
    · rw [runFrom_cons,hs]
      exact hs'
    · rw [runFrom_cons,ht]
      exact ht'
    · rw [List.map_cons,List.map_cons,hlook,hlooks]

/-- A machine that can take every allowed step takes every run of such steps. -/
theorem exists_of_meetsOnly {ok : σ → ε → Prop} {I : σ → Prop}
    (hstep : ∀ s ev, I s → ok s ev → ∃ t, step s ev = some t ∧ I t) {evs : List ε} {s : σ} (hs : I s)
    (hok : MeetsOnly step ok s evs) : ∃ t, runFrom step s evs = some t ∧ I t := by
  induction evs generalizing s with
  | nil => exact ⟨s,rfl,hs⟩
  | cons ev evs ih =>
    obtain ⟨t,ht,hI⟩ := hstep s ev hs hok.head
    rw [runFrom_cons,ht]
    exact ih hI (hok.tail ht)

end Smx
