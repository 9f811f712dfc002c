import Smx.Lib.Run
import Mathlib.Logic.Function.Basic

/-! Threads that share a state. Each turn of a thread is atomic, and the turns of the threads come in any order. What
holds of all of them is shown thread by thread: its own turns keep it, and it relies on what the others may do. -/
namespace Threads
variable {τ σ ℓ ε : Type}

/-- The shared state, and what each thread has for itself. -/
structure Sys (τ σ ℓ : Type) where
  shared : σ
  locals : τ → ℓ

variable [DecidableEq τ] (turn : τ → σ → ℓ → ε → Option (σ × ℓ))

/-- One turn of a thread, unless it cannot go on. -/
def Sys.step (s : Sys τ σ ℓ) (ev : τ × ε) : Option (Sys τ σ ℓ) :=
  (turn ev.1 s.shared (s.locals ev.1) ev.2).map fun r => ⟨r.1,Function.update s.locals ev.1 r.2⟩

variable {turn} {s s' : Sys τ σ ℓ} {ev : τ × ε}

theorem Sys.step_eq_some :
    s.step turn ev = some s' ↔ ∃ c l, turn ev.1 s.shared (s.locals ev.1) ev.2 = some (c,l) ∧
      s' = ⟨c,Function.update s.locals ev.1 l⟩ := by
  unfold Sys.step
  constructor
  · intro h
    obtain ⟨r,hr,rfl⟩ := Option.map_eq_some_iff.mp h
    exact ⟨r.1,r.2,hr,rfl⟩
  · rintro ⟨c,l,h,rfl⟩
    rw [h]
    rfl

/-- `I` holds of each thread as long as the turns are `ok` ones; to the others a turn does no more than `R` says. -/
structure Relies (turn : τ → σ → ℓ → ε → Option (σ × ℓ)) (ok : τ → σ → ℓ → ε → Prop) (I : τ → σ → ℓ → Prop)
    (R : τ → σ → σ → Prop) : Prop where
  keeps : ∀ t c l e c' l', I t c l → ok t c l e → turn t c l e = some (c',l') → I t c' l' ∧ R t c c'
  stable : ∀ t u c c' l, u ≠ t → R t c c' → I u c l → I u c' l

/-- All turns of a run are `ok`. -/
def Allowed (turn : τ → σ → ℓ → ε → Option (σ × ℓ)) (ok : τ → σ → ℓ → ε → Prop) (s : Sys τ σ ℓ)
    (evs : List (τ × ε)) : Prop :=
  Smx.MeetsOnly (Sys.step turn) (fun s ev => ok ev.1 s.shared (s.locals ev.1) ev.2) s evs

instance (ok : τ → σ → ℓ → ε → Prop) [∀ t c l e, Decidable (ok t c l e)] (s : Sys τ σ ℓ) (evs : List (τ × ε)) :
    Decidable (Allowed turn ok s evs) :=
  inferInstanceAs (Decidable (Smx.MeetsOnly (Sys.step turn) (fun s ev => ok ev.1 s.shared (s.locals ev.1) ev.2) s evs))

namespace Relies
variable {ok : τ → σ → ℓ → ε → Prop} {I : τ → σ → ℓ → Prop} {R : τ → σ → σ → Prop}

theorem step (h : Relies turn ok I R) (hs : ∀ u, I u s.shared (s.locals u))
    (hok : ok ev.1 s.shared (s.locals ev.1) ev.2) (hstep : s.step turn ev = some s') :
    ∀ u, I u s'.shared (s'.locals u) := by
  obtain ⟨c,l,hturn,rfl⟩ := Sys.step_eq_some.mp hstep
  obtain ⟨hI,hR⟩ := h.keeps ev.1 s.shared (s.locals ev.1) ev.2 c l (hs ev.1) hok hturn
  intro u
  by_cases hu : u = ev.1
  · rw [hu]
    simpa using hI
  · simpa [hu] using h.stable ev.1 u s.shared c (s.locals u) hu hR (hs u)

/-- Along a run the invariant holds of every thread. -/
theorem run (h : Relies turn ok I R) {evs : List (τ × ε)} (hs : ∀ u, I u s.shared (s.locals u))
    (hok : Allowed turn ok s evs) (hrun : Smx.runFrom (Sys.step turn) s evs = some s') :
    ∀ u, I u s'.shared (s'.locals u) :=
  Smx.invariant_of_meetsOnly (P := fun s => ∀ u, I u s.shared (s.locals u))
    (fun _ _ _ hs hok hstep => h.step hs hok hstep) hs hok hrun

variable {α ρ : Type} (spec : α → τ × ρ → Option α) (said : ℓ → List ρ) (abs : Sys τ σ ℓ → α)

/-- Where each turn is followed by an atomic machine, with the answers that the thread gets in this turn, there is one
order for the answers to all threads in which the atomic machine gives them. -/
theorem history (h : Relies turn ok I R)
    (hsim : ∀ s t e c l, (∀ u, I u s.shared (s.locals u)) → ok t s.shared (s.locals t) e →
      turn t s.shared (s.locals t) e = some (c,l) → ∃ new, said l = said (s.locals t) ++ new ∧
        Smx.runFrom spec (abs s) (new.map (Prod.mk t)) = some (abs ⟨c,Function.update s.locals t l⟩))
    {evs : List (τ × ε)} (hs : ∀ u, I u s.shared (s.locals u)) (hok : Allowed turn ok s evs)
    (hrun : Smx.runFrom (Sys.step turn) s evs = some s') :
    ∃ hist, Smx.runFrom spec (abs s) hist = some (abs s') ∧
      ∀ u, said (s'.locals u) = said (s.locals u) ++ (hist.filter (·.1 = u)).map Prod.snd := by
  induction evs generalizing s with
  | nil =>
    obtain rfl := Option.some.inj hrun
    exact ⟨[],rfl,fun u => by simp⟩
  | cons ev evs ih =>
    rw [Smx.runFrom_cons] at hrun
    obtain ⟨s₁,hstep,hrun⟩ := Option.bind_eq_some_iff.mp hrun
    obtain ⟨hist,hhist,hsaid⟩ := ih (h.step hs hok.head hstep) (hok.tail hstep) hrun
    obtain ⟨c,l,hturn,rfl⟩ := Sys.step_eq_some.mp hstep
    obtain ⟨new,hnew,hspec⟩ := hsim s ev.1 ev.2 c l hs hok.head hturn
    refine ⟨new.map (Prod.mk ev.1) ++ hist,?_,fun u => ?_⟩
    · rw [Smx.runFrom_append,hspec]
      exact hhist
    · have hu : said (s'.locals u) =
          said (Function.update s.locals ev.1 l u) ++ (hist.filter (·.1 = u)).map Prod.snd := hsaid u
      rw [hu,List.filter_append,List.map_append,← List.append_assoc]
      congr 1
      by_cases hev : u = ev.1
      · subst hev
        have hall : (new.map (Prod.mk ev.1)).filter (·.1 = ev.1) = new.map (Prod.mk ev.1) :=
          List.filter_eq_self.mpr (by simp)
        rw [hall,Function.update_self,hnew,List.map_map]
        simp [Function.comp_def]
      · have hnone : (new.map (Prod.mk ev.1)).filter (·.1 = u) = [] := by
          simp [Ne.symm hev]
        rw [hnone,Function.update_of_ne hev]
        simp

end Relies
end Threads
