import Mathlib.Data.List.Basic
import Mathlib.Logic.Function.Basic

/-! Cells that several authors write, and the log of the writings. What a cell holds is decided by the newest entry for
it, so that an author's writing is felt as long as nobody has written the cell since. -/
namespace Smx

/-- A writing of a cell. -/
structure LogEntry (α κ ν : Type) where
  author : α
  cell : κ
  value : ν

variable {α κ ν : Type} [DecidableEq κ]

/-- What the cells hold after the writings of a log, the newest of which comes first. -/
def replay (m : κ → ν) : List (LogEntry α κ ν) → κ → ν
  | [] => m
  | w::log => Function.update (replay m log) w.cell w.value

variable {m m' : κ → ν} {k : κ} {log log' : List (LogEntry α κ ν)}

@[simp] theorem replay_nil (m : κ → ν) : replay m ([] : List (LogEntry α κ ν)) = m := rfl

theorem replay_cons (m : κ → ν) (w : LogEntry α κ ν) (log : List (LogEntry α κ ν)) (k : κ) :
    replay m (w::log) k = if k = w.cell then w.value else replay m log k := by
  simp [replay,Function.update_apply]

/-- A cell that nobody has written holds what it held. -/
theorem replay_of_untouched (h : ∀ w ∈ log, w.cell ≠ k) : replay m log k = m k := by
  induction log with
  | nil => rfl
  | cons w log ih =>
    rw [replay_cons,if_neg (h w List.mem_cons_self).symm]
    apply ih
    intro v hv
    exact h v (List.mem_cons_of_mem _ hv)

/-- A cell that somebody has written holds something from the log. -/
theorem replay_of_touched (h : ∃ w ∈ log, w.cell = k) : ∃ w ∈ log, w.cell = k ∧ replay m log k = w.value := by
  induction log with
  | nil => simp at h
  | cons w log ih =>
    rw [replay_cons]
    split_ifs with hw
    · exact ⟨w,List.mem_cons_self,hw.symm,rfl⟩
    · have hlog : ∃ v ∈ log, v.cell = k := by
        obtain ⟨v,hv,hcell⟩ := h
        rcases List.mem_cons.mp hv with rfl | hv
        · exact absurd hcell.symm hw
        · exact ⟨v,hv,hcell⟩
      obtain ⟨v,hv,hcell,heq⟩ := ih hlog
      exact ⟨v,List.mem_cons_of_mem _ hv,hcell,heq⟩

/-- Of what was there before, a cell feels only what it held itself. -/
theorem replay_congr (h : m k = m' k) : replay m log k = replay m' log k := by
  induction log with
  | nil => exact h
  | cons w log ih => simp only [replay_cons,ih]

/-- And once it is written, it does not feel that either. -/
theorem replay_of_written (h : ∃ w ∈ log, w.cell = k) : replay m log k = replay m' log k := by
  induction log with
  | nil => simp at h
  | cons w log ih =>
    simp only [replay_cons]
    split_ifs with hw
    · rfl
    · apply ih
      obtain ⟨v,hv,hcell⟩ := h
      rcases List.mem_cons.mp hv with rfl | hv
      · exact absurd hcell.symm hw
      · exact ⟨v,hv,hcell⟩

/-- What was there before is felt exactly by the cells that nobody has written. -/
theorem replay_eq_iff (h : m k ≠ m' k) : replay m log k = replay m' log k ↔ ∃ w ∈ log, w.cell = k := by
  constructor
  · intro heq
    by_contra hnone
    push Not at hnone
    rw [replay_of_untouched hnone,replay_of_untouched hnone] at heq
    exact h heq
  · exact replay_of_written

/-- The entries for other cells can be left out. -/
theorem replay_filter {p : LogEntry α κ ν → Bool} (h : ∀ w ∈ log, w.cell = k → p w = true) :
    replay m (log.filter p) k = replay m log k := by
  induction log with
  | nil => rfl
  | cons w log ih =>
    have hlog := ih fun v hv => h v (List.mem_cons_of_mem _ hv)
    rw [replay_cons]
    split_ifs with hw
    · rw [List.filter_cons_of_pos (h w List.mem_cons_self hw.symm),replay_cons,if_pos hw]
    · by_cases hp : p w = true
      · rw [List.filter_cons_of_pos hp,replay_cons,if_neg hw,hlog]
      · rw [List.filter_cons_of_neg hp,hlog]

end Smx
