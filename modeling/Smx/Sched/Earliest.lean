import Smx.Sched.HeapPool

/-! Which event the worker takes. -/
namespace Smx
open MaxHeap

namespace HeapPool
variable (blank : ℕ → Pos ℤ ℕ) {p q : HeapPool} {l : List (ℤ × ℕ)}

/-- The array is ordered. -/
def Ordered (p : HeapPool) : Prop := IsHeap (PriQ.key p.heap.p) p.heap.N

/-- An event that waits for a time. -/
def Queued (p : HeapPool) (t : ℤ) (e : ℕ) : Prop :=
  ∃ k, 1 ≤ k ∧ k ≤ p.heap.N ∧ p.heap.p k = ⟨-t,e⟩

/-- The last entry of the array is no earlier than the one above the entry that a deletion frees. -/
def Smooth (p : HeapPool) (name : Bytes) : Prop :=
  ∀ e, p.map (mapKey name) = some e → 2 ≤ p.heap.findElem e → p.heap.findElem e < p.heap.N →
    (p.heap.p p.heap.N).c ≤ (p.heap.p (p.heap.findElem e/2)).c

/-- The name that a step deletes. -/
def deletes (p : HeapPool) : SchedOp → Option Bytes
  | .delete name => some name
  | .define e cur => some (e.calcNext cur).2.name
  | .finish cur =>
    match p.worker with
    | .running e =>
      let r := (p.elem e).calcNext cur
      if (p.elem e).next < r.1 then some r.2.name else none
    | _ => none
  | _ => none

/-- A step whose turn it is and that keeps the array ordered. -/
structure Settled (p : HeapPool) (op : SchedOp) : Prop where
  ready : p.Ready op
  smooth : ∀ name ∈ p.deletes op, p.Smooth name

instance Smooth.decidable (p : HeapPool) (name : Bytes) : Decidable (p.Smooth name) :=
  inferInstanceAs (Decidable (∀ e ∈ p.map (mapKey name), 2 ≤ p.heap.findElem e →
    p.heap.findElem e < p.heap.N → (p.heap.p p.heap.N).c ≤ (p.heap.p (p.heap.findElem e/2)).c))

instance Settled.decidable (p : HeapPool) (op : SchedOp) : Decidable (p.Settled op) :=
  decidable_of_iff (p.Ready op ∧ ∀ name ∈ p.deletes op, p.Smooth name)
    ⟨fun h => ⟨h.1,h.2⟩,fun h => ⟨h.1,h.2⟩⟩

theorem delete_ordered (h : p.Ordered) {name : Bytes} (hsmooth : p.Smooth name) :
    (p.delete name).Ordered := by
  unfold delete
  cases hmap : p.map (mapKey name) with
  | none => exact h
  | some e =>
    obtain ⟨h0,-⟩ | ⟨h1,hi,-⟩ := p.heap.findElem_spec e
    · simp only [h0,lt_irrefl,if_false]
      exact h
    · simp only [Nat.lt_of_lt_of_le Nat.zero_lt_one h1,if_true]
      exact (PriQ.remove_isHeap_iff h h1 hi).mpr (hsmooth e hmap)

theorem insertHeap_ordered (h : p.Ordered) (hroom : p.heap.N ≤ p.heap.Max) {t : ℤ} {e : ℕ}
    (hq : p.insertHeap blank t e = some q) : q.Ordered := by
  simp only [insertHeap,Option.ite_none_right_eq_some] at hq
  obtain ⟨hc,hq⟩ := hq
  obtain rfl := Option.some.inj hq
  obtain ⟨hN,-⟩ := PriQ.insert_N blank hroom (-t) e
  change IsHeap (PriQ.key (p.heap.insert blank (-t) e).p) (p.heap.insert blank (-t) e).N
  rw [hN]
  exact PriQ.insert_isHeap blank hroom h hc e

theorem delete_room (h : p.heap.N ≤ p.heap.Max) (name : Bytes) :
    (p.delete name).heap.N ≤ (p.delete name).heap.Max := by
  unfold delete
  cases p.map (mapKey name) with
  | none => exact h
  | some e =>
    dsimp only
    split_ifs
    · exact (Nat.sub_le _ _).trans h
    · exact h

theorem schedule_ordered (h : p.Ordered) (hroom : p.heap.N ≤ p.heap.Max) {t : ℤ} {e : ℕ}
    (hsmooth : p.Smooth (p.elem e).name) (hq : p.schedule blank e t = some q) : q.Ordered := by
  simp only [schedule,Option.ite_none_right_eq_some] at hq
  exact insertHeap_ordered blank (delete_ordered h hsmooth) (delete_room hroom _) hq.2

theorem step_ordered {op : SchedOp} (h : p.Ordered) (hroom : p.heap.N ≤ p.heap.Max)
    (hok : p.Settled op) (hq : p.step blank op = some q) : q.Ordered := by
  cases op with
  | delete name => exact Option.some.inj hq ▸ delete_ordered h (hok.smooth name rfl)
  | define e cur =>
    have hsmooth : (p.allocate (e.calcNext cur).2).Smooth (e.calcNext cur).2.name := hok.smooth _ rfl
    have hname : ((p.allocate (e.calcNext cur).2).elem p.count).name = (e.calcNext cur).2.name := by
      simp [allocate]
    rw [← hname] at hsmooth
    have hallocated : (p.allocate (e.calcNext cur).2).Ordered := h
    exact schedule_ordered blank hallocated hroom hsmooth hq
  | removeHeap i =>
    obtain ⟨hidle,hN⟩ := hok.ready.enabled
    simp only [step,hidle,hN,if_false] at hq
    obtain rfl := Option.some.inj hq
    exact (PriQ.remove_isHeap_iff h le_rfl (Nat.one_le_iff_ne_zero.mpr hN)).mpr fun h2 => absurd h2 (by decide)
  | begin now =>
    obtain ⟨e,hworker⟩ := hok.ready.enabled
    simp only [step,hworker] at hq
    split_ifs at hq
    · obtain rfl := Option.some.inj hq
      exact h
    · exact insertHeap_ordered blank (p := { p with worker := .idle }) h hroom hq
  | finish cur =>
    obtain ⟨e,hworker⟩ := hok.ready.enabled
    simp only [step,hworker] at hq
    split_ifs at hq with hagain
    · have hsmooth := hok.smooth ((p.elem e).calcNext cur).2.name (by simp [deletes,hworker,hagain])
      have hname : ((p.setElem e ((p.elem e).calcNext cur).2).elem e).name =
          ((p.elem e).calcNext cur).2.name := by simp [setElem]
      rw [← hname] at hsmooth
      exact schedule_ordered blank (p := { p.setElem e ((p.elem e).calcNext cur).2 with worker := .idle })
        h hroom hsmooth hq
    · obtain rfl := Option.some.inj hq
      exact h

theorem run_ordered {ops : List SchedOp} (h : p.Ordered) (hp : p.Holds l) (hs : (p.view l).Sound)
    (hok : MeetsOnly (step blank) Settled p ops) :
    ∃ q, runFrom (step blank) p ops = some q ∧ q.Ordered := by
  have hstep (p : HeapPool) (op : SchedOp) (hI : ∃ l, p.Holds l ∧ (p.view l).Sound ∧ p.Ordered)
      (hok : p.Settled op) :
      ∃ q, p.step blank op = some q ∧ ∃ l, q.Holds l ∧ (q.view l).Sound ∧ q.Ordered := by
    obtain ⟨l,hp,hs,h⟩ := hI
    obtain ⟨q,l',op',hq,-,hview,hp'⟩ := step_follows blank hp hs hok.ready
    exact ⟨q,hq,l',hp',SchedRun.step_sound hs hview,step_ordered blank h hp.room hok hq⟩
  obtain ⟨q,hq,-,-,-,h'⟩ := exists_of_meetsOnly hstep ⟨l,hp,hs,h⟩ hok
  exact ⟨q,hq,h'⟩

/-- The worker takes the events in the order of their times, whatever is scheduled and deleted meanwhile,
as long as no deletion brings up an entry that is earlier than the one above it. -/
theorem heapPool_earliest (ops : List SchedOp) (i : ℕ)
    (hok : MeetsOnly (step blank) Settled (start blank) (ops ++ [.removeHeap i])) :
    ∃ q r t e, runFrom (step blank) (start blank) ops = some q ∧ q.step blank (.removeHeap i) = some r ∧
      r.worker = .holding e ∧ q.Queued t e ∧ ∀ t' e', q.Queued t' e' → t ≤ t' := by
  have hordered : (start blank).Ordered := isHeap_zero _
  obtain ⟨q,hrun,h⟩ := run_ordered blank hordered (start_holds blank) SchedRun.start_sound
    (hok.of_prefix (List.prefix_append _ _))
  obtain ⟨⟨hidle,hN⟩,-⟩ := (hok ops (.removeHeap i) q (List.prefix_refl _) hrun).ready
  have h1 : 1 ≤ q.heap.N := Nat.one_le_iff_ne_zero.mpr hN
  refine ⟨q,{ q with heap := (q.heap.remove 1).2, worker := .holding (q.heap.remove 1).1 },-(q.heap.p 1).c,
    (q.heap.p 1).s,hrun,?_,rfl,⟨1,le_rfl,h1,by rw [neg_neg]⟩,?_⟩
  · simp only [step,hidle,hN,if_false]
  · rintro t' e' ⟨k,hk1,hk,hentry⟩
    have hle : PriQ.key q.heap.p k ≤ PriQ.key q.heap.p 1 := h.le_root hk1 hk
    rw [PriQ.key,PriQ.key,hentry] at hle
    exact neg_le.mp hle

theorem heapPool_earliest_two :
    ∃ q r t e, runFrom (step fun _ => ⟨0,0⟩) (start fun _ => ⟨0,0⟩) (twoEvents.take 2) = some q ∧
      q.step (fun _ => ⟨0,0⟩) (.removeHeap 0) = some r ∧ r.worker = .holding e ∧ q.Queued t e ∧
        ∀ t' e', q.Queued t' e' → t ≤ t' :=
  heapPool_earliest _ (twoEvents.take 2) 0 (by decide +kernel)

end HeapPool
end Smx
