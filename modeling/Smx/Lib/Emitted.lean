import Smx.Lib.EmitM

/-! What a computation may append to its output, whether an exception stops it or not. -/
namespace EmitM
variable {ε ω σ α β : Type} {P : ω → Prop}

/-- Run from `s`, the computation appends nothing but what satisfies `P`. -/
def Emits (P : ω → Prop) (x : EmitM ε ω σ α) (s : σ) : Prop := ∀ w ∈ (x.run s).out, P w

namespace Emits
variable {x : EmitM ε ω σ α} {f : α → EmitM ε ω σ β} {s : σ}

theorem pure (a : α) : Emits P (Pure.pure a : EmitM ε ω σ α) s := by
  intro w hw
  cases hw

theorem throw (e : ε) : Emits P (EmitM.throw e : EmitM ε ω σ α) s := by
  intro w hw
  cases hw

theorem emit {b : List ω} (h : ∀ w ∈ b, P w) : Emits P (EmitM.emit b : EmitM ε ω σ Unit) s := h

/-- What comes after has to be seen only in the states that are reached. -/
theorem bind (hx : Emits P x s) (hf : ∀ a s' b, x.run s = ⟨.ok a,s',b⟩ → Emits P (f a) s') :
    Emits P (x >>= f) s := by
  intro w hw
  obtain ⟨a,s',b,hrun⟩ | ⟨e,s',b,hrun⟩ := run_cases x s
  · rw [run_bind_ok hrun] at hw
    obtain hw | hw := List.mem_append.mp hw
    · exact hx w (by rw [hrun]; exact hw)
    · exact hf a s' b hrun w hw
  · rw [run_bind_error hrun] at hw
    exact hx w (by rw [hrun]; exact hw)

theorem get_bind {f : σ → EmitM ε ω σ β} (h : Emits P (f s) s) : Emits P (EmitM.get >>= f) s := by
  apply bind
  · intro w hw
    cases hw
  · intro a s' b hrun
    cases hrun
    exact h

end Emits

/-- Every state of a run is the first one. -/
def Keeps (x : EmitM ε ω σ α) (s : σ) : Prop := (x.run s).state = s

namespace Keeps
variable {x : EmitM ε ω σ α} {f : α → EmitM ε ω σ β} {s : σ}

theorem pure (a : α) : Keeps (Pure.pure a : EmitM ε ω σ α) s := rfl

theorem throw (e : ε) : Keeps (EmitM.throw e : EmitM ε ω σ α) s := rfl

theorem get_bind {f : σ → EmitM ε ω σ β} (h : Keeps (f s) s) : Keeps (EmitM.get >>= f) s := by
  rw [Keeps,run_bind_ok (run_get s)]
  exact h

end Keeps

end EmitM
