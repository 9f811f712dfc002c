import Smx.Sched.HeapPool

/-! What becomes of the events when the pool is destroyed. -/
namespace Smx

namespace SchedPool
variable {p q : SchedPool} {lost : Option ℕ}

/-- Every element that was allocated has a place, `lost` apart, and is freed at most once. -/
structure Placed (p : SchedPool) (lost : Option ℕ) : Prop where
  freed_nodup : p.freed.Nodup
  place : ∀ e < p.count, e ∈ p.ids ∨ p.worker.held = some e ∨ e ∈ p.freed ∨ lost = some e

theorem delete_freed (hp : p.Sound) (hnodup : p.freed.Nodup) (name : Bytes) :
    (p.delete name).freed.Nodup := by
  unfold delete
  cases p.map (mapKey name) with
  | none => exact hnodup
  | some e =>
    dsimp only
    split_ifs with he
    · exact List.nodup_cons.mpr ⟨hp.alive e (.inl he),hnodup⟩
    · exact hnodup

theorem delete_placed (hp : p.Sound) (h : p.Placed lost) (name : Bytes) :
    (p.delete name).Placed lost := by
  obtain ⟨hids,-,hfreed⟩ := delete_ids hp name
  obtain ⟨-,hcount,hworker⟩ := delete_frame (p := p) name
  refine ⟨delete_freed hp h.freed_nodup name,fun e he => ?_⟩
  rw [hcount] at he
  rw [hworker,hids,hfreed]
  obtain hin | hheld | hgone | hlost := h.place e he
  · by_cases hmap : p.map (mapKey name) = some e
    · exact .inr (.inr (.inl (.inr ⟨hin,hmap⟩)))
    · exact .inl ⟨hin,hmap⟩
  · exact .inr (.inl hheld)
  · exact .inr (.inr (.inl (.inl hgone)))
  · exact .inr (.inr (.inr hlost))

theorem insertHeap_placed {e : ℕ} (h : p.Placed (some e)) (t : ℤ) :
    (p.insertHeap t e).Placed none := by
  refine ⟨h.freed_nodup,fun x hx => ?_⟩
  have hids : (p.insertHeap t e).ids = p.ids ++ [e] := by simp [ids,insertHeap]
  rw [hids,List.mem_append,List.mem_singleton]
  obtain hin | hheld | hgone | hlost := h.place x hx
  · exact .inl (.inl hin)
  · exact .inr (.inl hheld)
  · exact .inr (.inr (.inl hgone))
  · exact .inl (.inr (Option.some.inj hlost).symm)

theorem schedule_placed (hp : p.Sound) {e : ℕ} (h : p.Placed (some e)) (t : ℤ) :
    (p.schedule e t).Placed none :=
  insertHeap_placed (delete_placed hp h _) t

theorem expire_placed {e : ℕ} (h : p.Placed (some e)) (he : e ∉ p.freed) :
    (p.expire e).Placed none := by
  refine ⟨List.nodup_cons.mpr ⟨he,h.freed_nodup⟩,fun x hx => ?_⟩
  obtain hin | hheld | hgone | hlost := h.place x hx
  · exact .inl hin
  · exact .inr (.inl hheld)
  · exact .inr (.inr (.inl (List.mem_cons_of_mem _ hgone)))
  · obtain rfl := Option.some.inj hlost
    exact .inr (.inr (.inl List.mem_cons_self))

theorem allocate_placed (h : p.Placed none) (x : SchedElem) :
    (p.allocate x).Placed (some p.count) := by
  refine ⟨h.freed_nodup,fun e he => ?_⟩
  obtain hlt | rfl := Nat.lt_or_eq_of_le (Nat.le_of_lt_succ he)
  · obtain hin | hheld | hgone | hlost := h.place e hlt
    · exact .inl hin
    · exact .inr (.inl hheld)
    · exact .inr (.inr (.inl hgone))
    · cases hlost
  · exact .inr (.inr (.inr rfl))

theorem take_placed (h : p.Placed none) (hidle : p.worker = .idle) {i : ℕ} {entry : ℤ × ℕ}
    (hi : p.heap[i]? = some entry) : (p.take i entry.2).Placed none := by
  refine ⟨h.freed_nodup,fun e he => ?_⟩
  obtain hin | hheld | hgone | hlost := h.place e he
  · obtain rfl | hrest := List.mem_cons.mp ((take_ids hi).mem_iff.mpr hin)
    · exact .inr (.inl rfl)
    · exact .inl hrest
  · rw [hidle] at hheld
    cases hheld
  · exact .inr (.inr (.inl hgone))
  · cases hlost

/-- What the worker puts down has no place. -/
theorem put_down_placed {e : ℕ} (h : p.Placed none) (hheld : p.worker.held = some e) (x : SchedElem) :
    Placed { p.setElem e x with worker := .idle } (some e) := by
  refine ⟨h.freed_nodup,fun y hy => ?_⟩
  obtain hin | hheld' | hgone | hlost := h.place y hy
  · exact .inl hin
  · exact .inr (.inr (.inr (hheld.symm.trans hheld')))
  · exact .inr (.inr (.inl hgone))
  · cases hlost

theorem step_placed {op : SchedOp} (hp : p.Sound) (h : p.Placed none) (hstep : p.step op = some q) :
    q.Placed none := by
  cases op with
  | delete name => exact Option.some.inj hstep ▸ delete_placed hp h name
  | define e cur =>
    exact Option.some.inj hstep ▸ schedule_placed (allocate_sound hp _) (allocate_placed h _) _
  | removeHeap i =>
    simp only [step] at hstep
    split at hstep
    · rename_i entry hidle hi
      exact Option.some.inj hstep ▸ take_placed h hidle hi
    · cases hstep
  | begin now =>
    simp only [step] at hstep
    split at hstep
    · rename_i e hworker
      have hheld : p.worker.held = some e := by rw [hworker]; rfl
      split_ifs at hstep
      · obtain rfl := Option.some.inj hstep
        refine ⟨h.freed_nodup,fun x hx => ?_⟩
        have hplace := h.place x hx
        rwa [hheld] at hplace
      · have hself : p.setElem e (p.elem e) = p := by simp [setElem]
        have hdown := put_down_placed h hheld (p.elem e)
        rw [hself] at hdown
        exact Option.some.inj hstep ▸ insertHeap_placed hdown _
    · cases hstep
  | finish cur =>
    simp only [step] at hstep
    split at hstep
    · rename_i e hworker
      have hheld : p.worker.held = some e := by rw [hworker]; rfl
      have hsound := (SchedRun.same_released (p := p) (e := e) ((p.elem e).calcNext_name cur)).sound hp
      have hdown := put_down_placed h hheld ((p.elem e).calcNext cur).2
      obtain rfl := Option.some.inj hstep
      split_ifs
      · exact schedule_placed hsound hdown _
      · exact expire_placed hdown (hp.alive e (.inr (.inr hheld)))
    · cases hstep

theorem start_placed : SchedPool.start.Placed none :=
  ⟨List.nodup_nil,fun _ he => absurd he (Nat.not_lt_zero _)⟩

end SchedPool
namespace HeapPool
variable (blank : ℕ → Pos ℤ ℕ) {p : HeapPool} {l : List (ℤ × ℕ)}

/-- The loop of `~qSchedPool`, for at most `fuel` events. -/
def destroyLoop : ℕ → HeapPool → HeapPool
  | 0,p => p
  | fuel+1,p =>
    if p.heap.N = 0 then p
    else
      let r := p.heap.remove 1
      destroyLoop fuel ({ p with heap := r.2 }.expire r.1)

/-- `~qSchedPool`. -/
def destroy (p : HeapPool) : HeapPool := destroyLoop p.heap.N p

/-- What is in the queue is freed, each event once. -/
theorem destroyLoop_spec {fuel : ℕ} (hfuel : p.heap.N ≤ fuel) (h : p.Holds l) :
    (destroyLoop fuel p).heap.N = 0 ∧ (destroyLoop fuel p).freed.Perm ((p.view l).ids ++ p.freed) := by
  induction fuel generalizing p l with
  | zero =>
    have hN : p.heap.N = 0 := Nat.le_zero.mp hfuel
    refine ⟨hN,?_⟩
    rw [h.ids_eq_nil hN]
    exact List.Perm.refl _
  | succ fuel ih =>
    by_cases hN : p.heap.N = 0
    · rw [destroyLoop,if_pos hN,h.ids_eq_nil hN]
      exact ⟨hN,List.Perm.refl _⟩
    · have h1 : 1 ≤ p.heap.N := Nat.one_le_iff_ne_zero.mpr hN
      obtain ⟨hmem,hrest⟩ := h.remove le_rfl h1
      have hperm := (List.perm_cons_erase hmem).symm
      let q := { p with heap := (p.heap.remove 1).2 }.expire (p.heap.remove 1).1
      have hq : q.Holds (l.erase (p.heap.p 1).entry) :=
        ⟨(Nat.sub_le _ _).trans h.room,h.compMAX,hrest _ hperm⟩
      have hfuel' : q.heap.N ≤ fuel := by
        change p.heap.N-1 ≤ fuel
        omega
      obtain ⟨hempty,hfreed⟩ := ih hfuel' hq
      rw [destroyLoop,if_neg hN]
      refine ⟨hempty,hfreed.trans ?_⟩
      calc List.Perm ((q.view (l.erase (p.heap.p 1).entry)).ids ++ (p.heap.p 1).s::p.freed)
            ((p.heap.p 1).s::((q.view (l.erase (p.heap.p 1).entry)).ids ++ p.freed)) := List.perm_middle
        _ = ((p.heap.p 1).entry::l.erase (p.heap.p 1).entry).map Prod.snd ++ p.freed := rfl
        List.Perm _ ((p.view l).ids ++ p.freed) := (hperm.map Prod.snd).append_right _

/-- Every event is freed exactly once, by the calls and the worker's steps of any run or when the pool is
destroyed after it, but for the one that the worker holds then. -/
theorem heapPool_frees_all (ops : List SchedOp) (hok : MeetsOnly (step blank) Ready (start blank) ops) :
    ∃ q, runFrom (step blank) (start blank) ops = some q ∧ q.destroy.heap.N = 0 ∧
      q.destroy.freed.Nodup ∧ ∀ e, e ∈ q.destroy.freed ↔ e < q.count ∧ q.worker.held ≠ some e := by
  obtain ⟨q,l,ops',hrun,-,hview,h,hp⟩ := run_follows blank (start_holds blank) SchedRun.start_sound hok
  obtain ⟨-,hplaced⟩ := invariant_of_step (P := fun p => p.Sound ∧ p.Placed none)
    (fun p op r ⟨hp,hplaced⟩ hstep => ⟨SchedRun.step_sound hp hstep,SchedPool.step_placed hp hplaced hstep⟩)
    ⟨SchedRun.start_sound,SchedPool.start_placed⟩ hview
  obtain ⟨hempty,hfreed⟩ := destroyLoop_spec le_rfl h
  refine ⟨q,hrun,hempty,?_,fun e => ?_⟩
  · refine hfreed.nodup_iff.mpr (List.nodup_append.mpr ⟨hp.nodup,hplaced.freed_nodup,?_⟩)
    rintro e he x hx rfl
    exact hp.alive e (.inl he) hx
  · rw [destroy,hfreed.mem_iff,List.mem_append]
    constructor
    · rintro (hin | hgone)
      · exact ⟨hp.lt e (.inl hin),fun hheld => hp.held e hheld hin⟩
      · exact ⟨hp.freed_lt e hgone,fun hheld => hp.alive e (.inr (.inr hheld)) hgone⟩
    · rintro ⟨hlt,hnot⟩
      obtain hin | hheld | hgone | hlost := hplaced.place e hlt
      · exact .inl hin
      · exact absurd hheld hnot
      · exact .inr hgone
      · cases hlost

theorem heapPool_frees_all_two :
    ∃ q, runFrom (step fun _ => ⟨0,0⟩) (start fun _ => ⟨0,0⟩) twoEvents = some q ∧ q.destroy.heap.N = 0 ∧
      q.destroy.freed.Nodup ∧ ∀ e, e ∈ q.destroy.freed ↔ e < q.count ∧ q.worker.held ≠ some e :=
  heapPool_frees_all _ twoEvents (by decide +kernel)

end HeapPool
end Smx
