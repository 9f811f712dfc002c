import Smx.Lib.Run
import Mathlib.Data.Set.Card
import Mathlib.Logic.Function.Basic

/-! Clients that work on one store at the same time. Each operation on the store is atomic, and
the operations of the clients come in any order. -/
namespace Clients
variable {ι κ ν ρ : Type}

/-- What a client still has to do before it returns `ρ`. -/
inductive Prog (κ ν ρ : Type)
  | done (result : ρ)
  | get (key : κ) (next : Option ν → Prog κ ν ρ)
  | set (key : κ) (val : ν) (next : Prog κ ν ρ)
  | del (key : κ) (next : Prog κ ν ρ)

structure Sys (ι κ ν ρ : Type) where
  store : κ → Option ν
  procs : ι → Prog κ ν ρ

namespace Sys
variable [DecidableEq ι] [DecidableEq κ]

/-- The next operation of client `i`, unless it has returned. -/
def step (s : Sys ι κ ν ρ) (i : ι) : Option (Sys ι κ ν ρ) :=
  match s.procs i with
  | .done _ => none
  | .get key next => some ⟨s.store,Function.update s.procs i (next (s.store key))⟩
  | .set key val next =>
    some ⟨Function.update s.store key (some val),Function.update s.procs i next⟩
  | .del key next => some ⟨Function.update s.store key none,Function.update s.procs i next⟩

theorem step_get {s : Sys ι κ ν ρ} {i : ι} {key : κ} {next : Option ν → Prog κ ν ρ}
    (h : s.procs i = .get key next) :
    s.step i = some ⟨s.store,Function.update s.procs i (next (s.store key))⟩ := by
  rw [step,h]

theorem step_set {s : Sys ι κ ν ρ} {i : ι} {key : κ} {val : ν} {next : Prog κ ν ρ}
    (h : s.procs i = .set key val next) :
    s.step i = some ⟨Function.update s.store key (some val),Function.update s.procs i next⟩ := by
  rw [step,h]

theorem step_done {s : Sys ι κ ν ρ} {i : ι} {r : ρ} (h : s.procs i = .done r) :
    s.step i = none := by
  rw [step,h]

omit [DecidableEq ι] [DecidableEq κ] in
/-- The clients that have returned. -/
def completed (s : Sys ι κ ν ρ) : Set ι := { i | ∃ r, s.procs i = .done r }

omit [DecidableEq κ] in
theorem completed_update {s : Sys ι κ ν ρ} {i : ι} {p : Prog κ ν ρ} (store : κ → Option ν)
    (hi : i ∉ s.completed) (hp : ∀ r, p ≠ .done r) :
    (Sys.mk store (Function.update s.procs i p)).completed = s.completed := by
  ext j
  by_cases hj : j = i
  · subst hj
    exact iff_of_false (by simp [completed,hp]) hi
  · simp [completed,hj]

omit [DecidableEq κ] in
theorem completed_update_done {s : Sys ι κ ν ρ} {i : ι} (store : κ → Option ν) (r : ρ) :
    (Sys.mk store (Function.update s.procs i (.done r))).completed = insert i s.completed := by
  ext j
  by_cases hj : j = i
  · subst hj
    simp [completed]
  · simp [completed,hj]

end Sys

/-- Since the steps of `i` no other client has taken its second one. -/
def Alone (evs : List ι) (i : ι) : Prop :=
  ∀ j pre mid mid', evs = pre ++ i::(mid ++ j::mid') → j ≠ i → j ∉ pre ++ mid

/-- Between two steps of one client no other client takes its second one. -/
def Undisturbed (evs : List ι) : Prop := ∀ i pre post, evs = pre ++ i::post → Alone pre i

theorem alone_of_not_mem {evs : List ι} {i : ι} (h : i ∉ evs) : Alone evs i := by
  intro j pre mid mid' hevs
  rw [hevs] at h
  exact absurd (List.mem_append_right pre List.mem_cons_self) h

/-- After its first step a client is alone. -/
theorem alone_append_self {evs : List ι} {i : ι} (h : i ∉ evs) : Alone (evs ++ [i]) i := by
  intro j pre mid mid' hevs hj
  cases mid' using List.reverseRecOn with
  | nil =>
    have hsplit : evs ++ [i] = (pre ++ i::mid) ++ [j] := by simpa using hevs
    have hij : i = j := by simpa using (List.append_inj' hsplit rfl).2
    exact absurd hij.symm hj
  | append_singleton mid' l _ =>
    have hsplit : evs ++ [i] = (pre ++ i::(mid ++ j::mid')) ++ [l] := by simpa using hevs
    rw [(List.append_inj' hsplit rfl).1] at h
    exact absurd (List.mem_append_right pre List.mem_cons_self) h

theorem alone_append {evs : List ι} {i j : ι} (hij : j ≠ i) :
    Alone (evs ++ [j]) i ↔ Alone evs i ∧ (i ∈ evs → j ∉ evs) := by
  constructor
  · intro h
    refine ⟨fun k pre mid mid' hevs => ?_,fun hi hj => ?_⟩
    · apply h k pre mid (mid' ++ [j])
      rw [hevs]
      simp
    · obtain ⟨pre,mid,rfl⟩ := List.append_of_mem hi
      apply h j pre mid [] (by simp) hij
      simpa [hij] using hj
  · rintro ⟨h,hlast⟩ k pre mid mid' hevs hk
    cases mid' using List.reverseRecOn with
    | nil =>
      have hsplit : evs ++ [j] = (pre ++ i::mid) ++ [k] := by simpa using hevs
      obtain ⟨rfl,hjk⟩ := List.append_inj' hsplit rfl
      obtain rfl : j = k := by simpa using hjk
      have hj := hlast (by simp)
      simpa [hij] using hj
    | append_singleton mid' l _ =>
      have hsplit : evs ++ [j] = (pre ++ i::(mid ++ k::mid')) ++ [l] := by simpa using hevs
      exact h k pre mid mid' (List.append_inj' hsplit rfl).1 hk

theorem undisturbed_append {evs : List ι} {i : ι} :
    Undisturbed (evs ++ [i]) ↔ Undisturbed evs ∧ Alone evs i := by
  constructor
  · intro h
    refine ⟨fun j pre post hevs => ?_,h i evs [] rfl⟩
    apply h j pre (post ++ [i])
    rw [hevs]
    simp
  · rintro ⟨h,hi⟩ j pre post hevs
    cases post using List.reverseRecOn with
    | nil =>
      obtain ⟨rfl,hij⟩ := List.append_inj' hevs rfl
      obtain rfl : i = j := by simpa using hij
      exact hi
    | append_singleton post l _ =>
      have hsplit : evs ++ [i] = (pre ++ j::post) ++ [l] := by simpa using hevs
      exact h j pre post (List.append_inj' hsplit rfl).1

@[simp] theorem undisturbed_nil : Undisturbed ([] : List ι) := by
  intro i pre post h
  exact absurd h (by simp)

end Clients
