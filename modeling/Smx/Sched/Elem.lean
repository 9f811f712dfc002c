import Smx.Base.Number
import Smx.Lib.Run
import Mathlib.Tactic.Linarith

/-! `qSchedElem`: an event of the scheduler and the times it is due. -/
namespace Smx

structure SchedElem where
  name : Bytes := []
  body : Bytes := []
  pause : Bool := false
  during : Bool := false
  first : ℤ := 0
  next : ℤ := 0
  offset : ℤ := 0
  last : ℤ := 0
  sec1 : ℤ := 0
  sec2 : ℤ := 0
  min1 : ℤ := 0
  min2 : ℤ := 0
  hour : ℤ := 0
  dayW : ℤ := 0
  dayM : ℤ := 0
  month : ℤ := 0
  year : ℤ := 0
  deriving DecidableEq, Repr

namespace SchedElem

/-- `SetTimes`; `clock` is what `time` returns. -/
def setTimes (e : SchedElem) (First Offset Last clock : ℤ) : SchedElem :=
  { e with first := if First = 0 then clock else First, next := First, offset := Offset, last := Last }

/-- The number of offsets that take a time `diff` after the first one up to the grid. -/
def steps (diff offset : ℤ) : ℤ :=
  if 0 < diff then diff.tdiv offset + (if diff.tmod offset ≠ 0 then 1 else 0) else 0

/-- `CalcNext`; `CheckFlags` is always true. -/
def calcNext (e : SchedElem) (cur : ℤ) : ℤ × SchedElem :=
  if e.last ≠ 0 ∧ e.last < cur then (0,e)
  else if e.offset ≤ 0 then (e.next,e)
  else
    let next := e.first + steps (int32 (cur-e.first)) e.offset*e.offset
    (if e.last ≠ 0 ∧ e.last < next then 0 else next,{ e with next := next })

/-- `SetDuring` on a due event that is paused; another one is run and stays as it is. -/
def handled (e : SchedElem) : SchedElem :=
  if 0 ≤ e.next ∧ e.pause then { e with during := true } else e

theorem handled_times (e : SchedElem) : e.handled.first = e.first ∧ e.handled.next = e.next ∧
    e.handled.offset = e.offset ∧ e.handled.last = e.last := by
  unfold handled
  split_ifs <;> exact ⟨rfl,rfl,rfl,rfl⟩

theorem handled_name (e : SchedElem) : e.handled.name = e.name := by
  unfold handled
  split_ifs <;> rfl

theorem calcNext_name (e : SchedElem) (cur : ℤ) : (e.calcNext cur).2.name = e.name := by
  unfold calcNext
  split_ifs <;> rfl

/-- Rounding up passes a multiple of the offset exactly when the time itself does. -/
theorem mul_lt_steps_mul {diff offset : ℤ} (ho : 0 < offset) {k : ℤ} (hk : 0 ≤ k) :
    k*offset < steps diff offset*offset ↔ k*offset < diff := by
  have hko : 0 ≤ k*offset := mul_nonneg hk ho.le
  unfold steps
  by_cases hd : 0 < diff
  · rw [if_pos hd,Int.tdiv_eq_ediv_of_nonneg hd.le,Int.tmod_eq_emod_of_nonneg hd.le]
    have hsplit : offset*(diff/offset) + diff % offset = diff := Int.mul_ediv_add_emod diff offset
    have hr := Int.emod_nonneg diff ho.ne'
    have hlt := Int.emod_lt_of_pos diff ho
    by_cases hz : diff % offset = 0
    · have hexact : diff/offset*offset = diff := by linarith [mul_comm offset (diff/offset)]
      simp only [hz,ne_eq,not_true_eq_false,if_false,add_zero,hexact]
    · rw [if_pos hz,mul_lt_mul_iff_of_pos_right ho,Int.lt_add_one_iff,← mul_le_mul_iff_of_pos_right ho]
      constructor
      · intro hle
        have hpos : 0 < diff % offset := lt_of_le_of_ne hr (Ne.symm hz)
        linarith [mul_comm offset (diff/offset)]
      · intro hlt'
        have hq : k < diff/offset+1 := by
          by_contra hge
          have hmul := mul_le_mul_of_nonneg_right (not_lt.mp hge) ho.le
          linarith [mul_comm offset (diff/offset),add_mul (diff/offset) 1 offset]
        exact mul_le_mul_of_nonneg_right (Int.lt_add_one_iff.mp hq) ho.le
  · rw [if_neg hd,zero_mul]
    constructor <;> intro h <;> linarith

theorem steps_nonneg {diff offset : ℤ} (ho : 0 < offset) : 0 ≤ steps diff offset := by
  unfold steps
  split_ifs with hd hz
  · have hq := Int.tdiv_nonneg hd.le ho.le
    omega
  · have hq := Int.tdiv_nonneg hd.le ho.le
    omega
  · exact le_rfl

/-- An event that recurs for ever, due at a time of its grid. -/
structure Recurring (e : SchedElem) : Prop where
  offset : 0 < e.offset
  last : e.last = 0
  grid : ∃ k : ℕ, e.next = e.first + k*e.offset

theorem calcNext_of_recurs {e : SchedElem} (ho : 0 < e.offset) (hl : e.last = 0) (cur : ℤ) :
    e.calcNext cur = (e.first + steps (int32 (cur-e.first)) e.offset*e.offset,
      { e with next := e.first + steps (int32 (cur-e.first)) e.offset*e.offset }) := by
  have ho' : ¬ e.offset ≤ 0 := not_le.mpr ho
  simp only [calcNext,if_neg ho',hl,ne_eq,not_true_eq_false,false_and,if_false]

theorem calcNext_recurring {e : SchedElem} (ho : 0 < e.offset) (hl : e.last = 0) (cur : ℤ) :
    (e.calcNext cur).2.Recurring := by
  rw [calcNext_of_recurs ho hl]
  have hsteps : 0 ≤ steps (int32 (cur-e.first)) e.offset := steps_nonneg ho
  obtain ⟨k,hk⟩ := Int.eq_ofNat_of_zero_le hsteps
  exact ⟨ho,hl,k,by rw [hk]⟩

end SchedElem

/-- An event and whether the scheduler still has it in its heap. -/
structure EventState where
  e : SchedElem
  inHeap : Bool

namespace EventState

/-- One turn of `RunThread` with the event it took from the heap: `reading` is the clock before the
event and the clock when `CalcNext` reads it. -/
def step (s : EventState) (reading : ℤ × ℤ) : Option EventState :=
  if s.inHeap then
    let godot := s.e.next
    if godot ≤ reading.1 then
      let r := s.e.handled.calcNext reading.2
      some (if godot < r.1 then ⟨r.2,true⟩ else ⟨r.2,false⟩)
    else some s
  else none

/-- `SetTimes` and the first `CalcNext`, which gives the time it is inserted for. -/
def scheduled (e : SchedElem) (First Offset clock cur : ℤ) : EventState :=
  ⟨((e.setTimes First Offset 0 clock).calcNext cur).2,true⟩

/-- If the event is handled now it is inserted again, for a later time of its grid. -/
def Thrives (s : EventState) (reading : ℤ × ℤ) : Prop :=
  s.inHeap = true → s.e.next ≤ reading.1 → ∃ t, s.step reading = some t ∧ t.inHeap = true ∧
    s.e.next < t.e.next ∧ ∃ k : ℕ, t.e.next = t.e.first + k*t.e.offset

/-- If the event is handled now, the clock has passed its due time when `CalcNext` reads it, as an
`int` holds the seconds since the first time. -/
def ClockPasses (s : EventState) (reading : ℤ × ℤ) : Prop :=
  s.inHeap = true → s.e.next ≤ reading.1 → s.e.next-s.e.first < int32 (reading.2-s.e.first)

def Recurring (s : EventState) : Prop := s.inHeap = true → s.e.Recurring

/-- What a turn makes of an event that is due. -/
theorem step_due {s : EventState} (h : s.Recurring) (hin : s.inHeap = true) {reading : ℤ × ℤ}
    (hdue : s.e.next ≤ reading.1) : ∃ e' : SchedElem, e'.Recurring ∧
      e'.next = s.e.first + SchedElem.steps (int32 (reading.2-s.e.first)) s.e.offset*s.e.offset ∧
        s.step reading = some (if s.e.next < e'.next then ⟨e',true⟩ else ⟨e',false⟩) := by
  obtain ⟨ho,hl,-⟩ := h hin
  obtain ⟨hfirst,-,hoffset,hlast⟩ := s.e.handled_times
  rw [← hoffset] at ho
  rw [← hlast] at hl
  have hcalc := SchedElem.calcNext_of_recurs ho hl reading.2
  refine ⟨_,SchedElem.calcNext_recurring ho hl reading.2,?_,?_⟩
  · rw [hcalc,hfirst,hoffset]
  · unfold step
    rw [if_pos hin]
    simp only [if_pos hdue,hcalc]

theorem Recurring.step {s t : EventState} (h : s.Recurring) {reading : ℤ × ℤ}
    (hstep : s.step reading = some t) : t.Recurring := by
  by_cases hin : s.inHeap = true
  · by_cases hdue : s.e.next ≤ reading.1
    · obtain ⟨e',hrec,-,heq⟩ := step_due h hin hdue
      rw [heq] at hstep
      split_ifs at hstep <;> cases hstep <;> exact fun _ => hrec
    · unfold EventState.step at hstep
      rw [if_pos hin] at hstep
      simp only [if_neg hdue] at hstep
      cases hstep
      exact h
  · unfold EventState.step at hstep
    rw [if_neg hin] at hstep
    cases hstep

theorem thrives_iff {s : EventState} (h : s.Recurring) (reading : ℤ × ℤ) :
    s.Thrives reading ↔ s.ClockPasses reading := by
  refine forall_congr' fun hin => forall_congr' fun hdue => ?_
  obtain ⟨ho,-,k,hk⟩ := h hin
  obtain ⟨e',hrec,hnext,heq⟩ := step_due h hin hdue
  have hlater : s.e.next < e'.next ↔ s.e.next-s.e.first < int32 (reading.2-s.e.first) := by
    rw [hnext,hk,add_sub_cancel_left,add_lt_add_iff_left]
    exact SchedElem.mul_lt_steps_mul ho (Int.natCast_nonneg k)
  rw [heq,← hlater]
  constructor
  · rintro ⟨t,ht,hheap,hlt,-⟩
    by_contra hnot
    rw [if_neg hnot] at ht
    cases ht
    cases hheap
  · intro hlt
    rw [if_pos hlt]
    exact ⟨_,rfl,rfl,hlt,hrec.grid⟩

/-- A recurring event lives on exactly as long as, each time it was handled, the clock has passed
its due time. -/
theorem recurring_lives_iff (e : SchedElem) {Offset : ℤ} (ho : 0 < Offset)
    (First clock cur : ℤ) (readings : List (ℤ × ℤ)) :
    MeetsOnly step Thrives (scheduled e First Offset clock cur) readings ↔
      MeetsOnly step ClockPasses (scheduled e First Offset clock cur) readings := by
  have hstart : (scheduled e First Offset clock cur).Recurring := fun _ =>
    SchedElem.calcNext_recurring ho rfl cur
  exact meetsOnly_congr hstart (fun _ _ _ h => h.step) fun s reading h => thrives_iff h reading

/-- An hourly event whose body takes a second each time. -/
theorem recurring_lives_hourly :
    MeetsOnly step Thrives (scheduled {} 7200 3600 0 100) [(7200,7201),(10800,10801)] := by
  refine (recurring_lives_iff {} (by decide) 7200 0 100 _).mpr ?_
  simp only [meetsOnly_cons,meetsOnly_nil]
  refine ⟨fun _ _ => by decide,fun t ht => ?_⟩
  cases ht
  exact ⟨fun _ _ => by decide,fun _ _ => trivial⟩

/-- A body that ends in the second it started in was the last one. -/
theorem recurring_dies : ¬ ∀ (e : SchedElem) (First Offset clock cur : ℤ) (readings : List (ℤ × ℤ)),
    0 < Offset →
    MeetsOnly step Thrives (scheduled e First Offset clock cur) readings := by
  intro h
  have hhead := (h {} 7200 3600 0 100 [(7200,7200)] (by decide)).head
  obtain ⟨t,ht,hin,-⟩ := hhead rfl (by decide)
  cases ht
  revert hin
  decide

end EventState
end Smx
