import Smx.Context.Bindings
import Smx.Sched.Elem
import Mathlib.Logic.Function.Basic
import Mathlib.Data.List.Nodup
import Mathlib.Data.List.Perm.Basic

/-! `qSchedPool`: the events of the scheduler by name and in a heap, and the worker that takes one
out of the heap to run it. Each step that holds the lock is one step here. -/
namespace Smx

/-- What `RunThread` is doing: between two events, with the one it took out of the heap, or with
one whose turn has begun. -/
inductive Worker
  | idle
  | holding (e : ℕ)
  | running (e : ℕ)
  deriving DecidableEq

def Worker.held : Worker → Option ℕ
  | .idle => none
  | .holding e => some e
  | .running e => some e

/-- The elements are numbered as they are allocated; of the heap only its contents are kept. -/
structure SchedPool where
  elem : ℕ → SchedElem
  count : ℕ
  map : Bytes → Option ℕ
  heap : List (ℤ × ℕ)
  worker : Worker
  freed : List ℕ

/-- The calls of users, at any time, and the steps of the worker with the clock they read. -/
inductive SchedOp
  | delete (name : Bytes)
  | define (e : SchedElem) (cur : ℤ)
  | removeHeap (i : ℕ)
  | begin (now : ℤ)
  | finish (cur : ℤ)

namespace SchedPool

def keyOf (p : SchedPool) (e : ℕ) : Bytes := mapKey (p.elem e).name

/-- The elements in the heap. -/
def ids (p : SchedPool) : List ℕ := p.heap.map Prod.snd

/-- `Delete`. -/
def delete (p : SchedPool) (name : Bytes) : SchedPool :=
  match p.map (mapKey name) with
  | none => p
  | some e =>
    let p := if e ∈ p.ids then
      { p with heap := p.heap.eraseP fun entry => entry.2 = e, freed := e::p.freed } else p
    { p with map := Function.update p.map (mapKey name) none }

def insertHeap (p : SchedPool) (t : ℤ) (e : ℕ) : SchedPool :=
  { p with map := Function.update p.map (p.keyOf e) (some e), heap := p.heap ++ [(-t,e)] }

/-- `Schedule`. -/
def schedule (p : SchedPool) (e : ℕ) (t : ℤ) : SchedPool :=
  (p.delete (p.elem e).name).insertHeap t e

/-- `new qSchedElem`. -/
def allocate (p : SchedPool) (e : SchedElem) : SchedPool :=
  { p with elem := Function.update p.elem p.count e, count := p.count+1 }

/-- The branch of `RunThread` for an event that is over. -/
def expire (p : SchedPool) (e : ℕ) : SchedPool :=
  { p with map := Function.update p.map (p.keyOf e) none, freed := e::p.freed }

/-- `RemoveHeap`, of the entry at `i`. -/
def take (p : SchedPool) (i e : ℕ) : SchedPool :=
  { p with heap := p.heap.eraseIdx i, worker := .holding e }

def setElem (p : SchedPool) (e : ℕ) (x : SchedElem) : SchedPool :=
  { p with elem := Function.update p.elem e x }

def step (p : SchedPool) : SchedOp → Option SchedPool
  | .delete name => some (p.delete name)
  | .define e cur =>
    let r := e.calcNext cur
    some ((p.allocate r.2).schedule p.count r.1)
  | .removeHeap i =>
    match p.worker,p.heap[i]? with
    | .idle,some entry => some (p.take i entry.2)
    | _,_ => none
  | .begin now =>
    match p.worker with
    | .holding e =>
      if (p.elem e).next ≤ now then
        some { p.setElem e (p.elem e).handled with worker := .running e }
      else some ({ p with worker := .idle }.insertHeap (p.elem e).next e)
    | _ => none
  | .finish cur =>
    match p.worker with
    | .running e =>
      let r := (p.elem e).calcNext cur
      let q := { p.setElem e r.2 with worker := .idle }
      some (if (p.elem e).next < r.1 then q.schedule e r.1 else q.expire e)
    | _ => none

/-- The element whose body a step runs. -/
def runs (p : SchedPool) : SchedOp → Option ℕ
  | .begin now =>
    match p.worker with
    | .holding e =>
      if (p.elem e).next ≤ now ∧ 0 ≤ (p.elem e).next ∧ (p.elem e).pause = false then some e else none
    | _ => none
  | _ => none

/-- The element that is over with a step. -/
def ends (p : SchedPool) : SchedOp → Option ℕ
  | .finish cur =>
    match p.worker with
    | .running e => if (p.elem e).next < ((p.elem e).calcNext cur).1 then none else some e
    | _ => none
  | _ => none

def start : SchedPool := ⟨fun _ => {},0,fun _ => none,[],.idle,[]⟩

/-- An element that a later step can use. -/
def Known (p : SchedPool) (e : ℕ) : Prop :=
  e ∈ p.ids ∨ (∃ k, p.map k = some e) ∨ p.worker.held = some e

/-- What holds in every run: an element is in one place at a time, and none that is known has been
freed. -/
structure Sound (p : SchedPool) : Prop where
  nodup : p.ids.Nodup
  held : ∀ e, p.worker.held = some e → e ∉ p.ids
  named : ∀ k e, p.map k = some e → p.keyOf e = k
  lt : ∀ e, p.Known e → e < p.count
  alive : ∀ e, p.Known e → e ∉ p.freed
  freed_lt : ∀ e ∈ p.freed, e < p.count

variable {p : SchedPool}

/-- An element that is nowhere yet. -/
structure Loose (p : SchedPool) (e : ℕ) : Prop where
  heap : e ∉ p.ids
  held : p.worker.held ≠ some e
  lt : e < p.count
  alive : e ∉ p.freed

theorem ids_eraseP (heap : List (ℤ × ℕ)) (e : ℕ) :
    (heap.eraseP fun entry => entry.2 = e).map Prod.snd = (heap.map Prod.snd).erase e := by
  induction heap with
  | nil => rfl
  | cons entry heap ih =>
    by_cases h : entry.2 = e
    · simp [h]
    · rw [List.eraseP_cons_of_neg (by simpa using h),List.map_cons,List.map_cons,
        List.erase_cons_tail (by simpa using h),ih]

theorem delete_map (name : Bytes) :
    (p.delete name).map = Function.update p.map (mapKey name) none := by
  unfold delete
  cases h : p.map (mapKey name) with
  | none =>
    have hself : Function.update p.map (mapKey name) none = p.map := by
      rw [← h,Function.update_eq_self]
    exact hself.symm
  | some e =>
    dsimp only
    split_ifs <;> rfl

theorem delete_frame (name : Bytes) : (p.delete name).elem = p.elem ∧
    (p.delete name).count = p.count ∧ (p.delete name).worker = p.worker := by
  unfold delete
  cases p.map (mapKey name) with
  | none => exact ⟨rfl,rfl,rfl⟩
  | some e =>
    dsimp only
    split_ifs <;> exact ⟨rfl,rfl,rfl⟩

/-- The element that the map has for the name is freed if it is in the heap. -/
theorem delete_ids (hp : p.Sound) (name : Bytes) :
    (∀ e, e ∈ (p.delete name).ids ↔ e ∈ p.ids ∧ p.map (mapKey name) ≠ some e) ∧
      (p.delete name).ids.Nodup ∧
      (∀ e, e ∈ (p.delete name).freed ↔ e ∈ p.freed ∨ (e ∈ p.ids ∧ p.map (mapKey name) = some e)) := by
  unfold delete
  cases h : p.map (mapKey name) with
  | none => simp [hp.nodup]
  | some e =>
    dsimp only
    split_ifs with he
    · simp only [ids,ids_eraseP]
      refine ⟨fun x => ?_,hp.nodup.erase e,fun x => ?_⟩
      · have hnodup : (p.heap.map Prod.snd).Nodup := hp.nodup
        rw [hnodup.mem_erase_iff,and_comm,ne_comm,Ne,Ne,Option.some_inj]
      · rw [List.mem_cons,Option.some_inj,or_comm]
        refine or_congr Iff.rfl ⟨?_,fun h => h.2.symm⟩
        rintro rfl
        exact ⟨he,rfl⟩
    · refine ⟨fun x => ⟨fun hx => ⟨hx,?_⟩,And.left⟩,hp.nodup,fun x => ⟨.inl,?_⟩⟩
      · rintro ⟨⟩
        exact he hx
      · rintro (hx | ⟨hx,⟨⟩⟩)
        · exact hx
        · exact absurd hx he

theorem delete_sound (hp : p.Sound) (name : Bytes) : (p.delete name).Sound := by
  obtain ⟨hids,hnodup,hfreed⟩ := delete_ids hp name
  obtain ⟨helem,hcount,hworker⟩ := delete_frame (p := p) name
  have hmap (k : Bytes) (e : ℕ) (h : (p.delete name).map k = some e) :
      p.map k = some e ∧ k ≠ mapKey name := by
    rw [delete_map] at h
    by_cases hk : k = mapKey name
    · subst hk
      simp at h
    · exact ⟨by simpa [hk] using h,hk⟩
  have hknown (e : ℕ) (h : (p.delete name).Known e) :
      p.Known e ∧ ¬(e ∈ p.ids ∧ p.map (mapKey name) = some e) := by
    obtain h | ⟨k,h⟩ | h := h
    · obtain ⟨he,hne⟩ := (hids e).mp h
      exact ⟨.inl he,fun h => hne h.2⟩
    · obtain ⟨h,hk⟩ := hmap k e h
      exact ⟨.inr (.inl ⟨k,h⟩),fun h' => hk ((hp.named k e h).symm.trans (hp.named _ e h'.2))⟩
    · rw [hworker] at h
      exact ⟨.inr (.inr h),fun h' => hp.held e h h'.1⟩
  refine ⟨hnodup,?_,?_,?_,?_,?_⟩
  · intro e he hmem
    rw [hworker] at he
    exact hp.held e he ((hids e).mp hmem).1
  · intro k e h
    rw [keyOf,helem]
    exact hp.named k e (hmap k e h).1
  · intro e h
    rw [hcount]
    exact hp.lt e (hknown e h).1
  · intro e h hmem
    obtain hmem | hmem := (hfreed e).mp hmem
    · exact hp.alive e (hknown e h).1 hmem
    · exact (hknown e h).2 hmem
  · intro e h
    rw [hcount]
    obtain h | h := (hfreed e).mp h
    · exact hp.freed_lt e h
    · exact hp.lt e (.inl h.1)

theorem insertHeap_sound (hp : p.Sound) {e : ℕ} (he : p.Loose e) (t : ℤ) :
    (p.insertHeap t e).Sound := by
  have hids : (p.insertHeap t e).ids = p.ids ++ [e] := by simp [insertHeap,ids]
  have hmap (k : Bytes) (x : ℕ) (h : (p.insertHeap t e).map k = some x) :
      (k = p.keyOf e ∧ x = e) ∨ p.map k = some x := by
    by_cases hk : k = p.keyOf e
    · subst hk
      left
      simpa [insertHeap,eq_comm] using h
    · right
      simpa [insertHeap,hk] using h
  have hknown (x : ℕ) (h : (p.insertHeap t e).Known x) : x = e ∨ p.Known x := by
    obtain h | ⟨k,h⟩ | h := h
    · rw [hids] at h
      obtain h | h := List.mem_append.mp h
      · exact .inr (.inl h)
      · exact .inl (List.mem_singleton.mp h)
    · obtain ⟨-,h⟩ | h := hmap k x h
      · exact .inl h
      · exact .inr (.inr (.inl ⟨k,h⟩))
    · exact .inr (.inr (.inr h))
  refine ⟨?_,?_,?_,?_,?_,hp.freed_lt⟩
  · rw [hids]
    exact List.nodup_append_comm.mp (List.nodup_cons.mpr ⟨he.heap,hp.nodup⟩)
  · intro x hx hmem
    rw [hids] at hmem
    obtain hmem | hmem := List.mem_append.mp hmem
    · exact hp.held x hx hmem
    · rw [List.mem_singleton.mp hmem] at hx
      exact he.held hx
  · intro k x h
    obtain ⟨rfl,rfl⟩ | h := hmap k x h
    · rfl
    · exact hp.named k x h
  · intro x h
    obtain rfl | h := hknown x h
    · exact he.lt
    · exact hp.lt x h
  · intro x h
    obtain rfl | h := hknown x h
    · exact he.alive
    · exact hp.alive x h

theorem delete_loose (hp : p.Sound) {e : ℕ} (he : p.Loose e) (name : Bytes) :
    (p.delete name).Loose e := by
  obtain ⟨hids,-,hfreed⟩ := delete_ids hp name
  obtain ⟨-,hcount,hworker⟩ := delete_frame (p := p) name
  refine ⟨fun h => he.heap ((hids e).mp h).1,?_,?_,?_⟩
  · rw [hworker]
    exact he.held
  · rw [hcount]
    exact he.lt
  · intro h
    obtain h | h := (hfreed e).mp h
    · exact he.alive h
    · exact he.heap h.1

theorem schedule_sound (hp : p.Sound) {e : ℕ} (he : p.Loose e) (t : ℤ) : (p.schedule e t).Sound :=
  insertHeap_sound (delete_sound hp _) (delete_loose hp he _) t

/-- The state changed in an element's times, or with the worker's element given up. -/
structure Same (p q : SchedPool) : Prop where
  ids_eq : q.ids = p.ids
  map_eq : q.map = p.map
  freed_eq : q.freed = p.freed
  count_eq : q.count = p.count
  keyOf_eq : ∀ e, q.keyOf e = p.keyOf e
  held : ∀ e, q.worker.held = some e → p.worker.held = some e

variable {q : SchedPool}

theorem Same.known (h : Same p q) {e : ℕ} (he : q.Known e) : p.Known e := by
  obtain he | ⟨k,he⟩ | he := he
  · exact .inl (h.ids_eq ▸ he)
  · exact .inr (.inl ⟨k,h.map_eq ▸ he⟩)
  · exact .inr (.inr (h.held e he))

theorem Same.sound (h : Same p q) (hp : p.Sound) : q.Sound := by
  refine ⟨?_,?_,?_,?_,?_,?_⟩
  · rw [h.ids_eq]
    exact hp.nodup
  · intro e he
    rw [h.ids_eq]
    exact hp.held e (h.held e he)
  · intro k e hk
    rw [h.map_eq] at hk
    rw [h.keyOf_eq]
    exact hp.named k e hk
  · intro e he
    rw [h.count_eq]
    exact hp.lt e (h.known he)
  · intro e he
    rw [h.freed_eq]
    exact hp.alive e (h.known he)
  · intro e he
    rw [h.freed_eq] at he
    rw [h.count_eq]
    exact hp.freed_lt e he

theorem keyOf_setElem {e : ℕ} {x : SchedElem} (hx : x.name = (p.elem e).name) (e' : ℕ) :
    (p.setElem e x).keyOf e' = p.keyOf e' := by
  by_cases h : e' = e
  · subst h
    simp [keyOf,setElem,hx]
  · simp [keyOf,setElem,h]

/-- What the worker gave up is loose. -/
theorem loose_of_held (hp : p.Sound) {e : ℕ} (he : p.worker.held = some e) (h : Same p q)
    (hfree : q.worker.held = none) : q.Loose e := by
  refine ⟨?_,?_,?_,?_⟩
  · rw [h.ids_eq]
    exact hp.held e he
  · rw [hfree]
    exact nofun
  · rw [h.count_eq]
    exact hp.lt e (.inr (.inr he))
  · rw [h.freed_eq]
    exact hp.alive e (.inr (.inr he))

theorem allocate_keyOf (x : SchedElem) {e : ℕ} (h : e < p.count) :
    (p.allocate x).keyOf e = p.keyOf e := by
  simp [allocate,keyOf,h.ne]

theorem allocate_sound (hp : p.Sound) (x : SchedElem) : (p.allocate x).Sound where
  nodup := hp.nodup
  held := hp.held
  named k e h := (allocate_keyOf x (hp.lt e (.inr (.inl ⟨k,h⟩)))).trans (hp.named k e h)
  lt e h := (hp.lt e h).trans (Nat.lt_succ_self _)
  alive := hp.alive
  freed_lt e h := (hp.freed_lt e h).trans (Nat.lt_succ_self _)

theorem allocate_loose (hp : p.Sound) (x : SchedElem) : (p.allocate x).Loose p.count where
  heap h := absurd (hp.lt _ (.inl h)) (Nat.lt_irrefl _)
  held h := absurd (hp.lt _ (.inr (.inr h))) (Nat.lt_irrefl _)
  lt := Nat.lt_succ_self _
  alive h := absurd (hp.freed_lt _ h) (Nat.lt_irrefl _)

theorem expire_sound (hp : p.Sound) {e : ℕ} (he : p.Loose e) : (p.expire e).Sound := by
  have hmap (k : Bytes) (x : ℕ) (h : (p.expire e).map k = some x) :
      p.map k = some x ∧ k ≠ p.keyOf e := by
    by_cases hk : k = p.keyOf e
    · subst hk
      simp [expire] at h
    · exact ⟨by simpa [expire,hk] using h,hk⟩
  have hknown (x : ℕ) (h : (p.expire e).Known x) : p.Known x ∧ x ≠ e := by
    obtain h | ⟨k,h⟩ | h := h
    · refine ⟨.inl h,?_⟩
      rintro rfl
      exact he.heap h
    · obtain ⟨hx,hk⟩ := hmap k x h
      refine ⟨.inr (.inl ⟨k,hx⟩),fun heq => hk ?_⟩
      rw [← heq,hp.named k x hx]
    · refine ⟨.inr (.inr h),?_⟩
      rintro rfl
      exact he.held h
  refine ⟨hp.nodup,hp.held,fun k x h => hp.named k x (hmap k x h).1,
    fun x h => hp.lt x (hknown x h).1,?_,?_⟩
  · intro x h hmem
    obtain hmem | hmem := List.mem_cons.mp hmem
    · exact (hknown x h).2 hmem
    · exact hp.alive x (hknown x h).1 hmem
  · intro x h
    obtain rfl | h := List.mem_cons.mp h
    · exact he.lt
    · exact hp.freed_lt x h

theorem take_ids {i : ℕ} {entry : ℤ × ℕ} (hi : p.heap[i]? = some entry) :
    (entry.2::(p.take i entry.2).ids).Perm p.ids := by
  obtain ⟨hlt,rfl⟩ := List.getElem?_eq_some_iff.mp hi
  exact (List.getElem_cons_eraseIdx_perm hlt).map Prod.snd

theorem take_sound (hp : p.Sound) {i : ℕ} {entry : ℤ × ℕ} (hi : p.heap[i]? = some entry) :
    (p.take i entry.2).Sound := by
  have hperm := take_ids hi
  have hnodup := hperm.nodup_iff.mpr hp.nodup
  have hknown (x : ℕ) (h : (p.take i entry.2).Known x) : p.Known x := by
    obtain h | h | h := h
    · exact .inl (hperm.subset (List.mem_cons_of_mem _ h))
    · exact .inr (.inl h)
    · obtain rfl : entry.2 = x := Option.some.inj h
      exact .inl (hperm.subset List.mem_cons_self)
  refine ⟨hnodup.of_cons,?_,hp.named,fun x h => hp.lt x (hknown x h),
    fun x h => hp.alive x (hknown x h),hp.freed_lt⟩
  intro x hx
  obtain rfl : entry.2 = x := Option.some.inj hx
  exact (List.nodup_cons.mp hnodup).1

end SchedPool

/-- The scheduler with what its users asked for: `current` is the element last defined under a name
and neither deleted nor over, and `stale` tells whether any other has been run. -/
structure SchedRun where
  pool : SchedPool
  current : Bytes → Option ℕ
  stale : Bool

namespace SchedRun

def step (s : SchedRun) (op : SchedOp) : Option SchedRun :=
  (s.pool.step op).map fun pool =>
    { pool := pool
      current := match op with
        | .delete name => Function.update s.current (mapKey name) none
        | .define e _ => Function.update s.current (mapKey e.name) (some s.pool.count)
        | op => match s.pool.ends op with
          | some e => if s.current (s.pool.keyOf e) = some e then
              Function.update s.current (s.pool.keyOf e) none else s.current
          | none => s.current
      stale := s.stale || match s.pool.runs op with
        | some e => decide (s.current (s.pool.keyOf e) ≠ some e)
        | none => false }

def start : SchedRun := ⟨.start,fun _ => none,false⟩

open SchedPool
variable {s t : SchedRun} {op : SchedOp}

/-- What the users asked for is what the scheduler does: an element that was deleted or replaced is
in neither the map nor the heap and is not run, the last one defined is in the map and on its way,
and no element that was freed can be used. -/
structure Correct (s : SchedRun) : Prop where
  map_eq : s.pool.map = s.current
  heap_current : ∀ e ∈ s.pool.ids, s.current (s.pool.keyOf e) = some e
  placed : ∀ k e, s.current k = some e → e ∈ s.pool.ids ∨ s.pool.worker.held = some e
  ran : s.stale = false
  alive : ∀ e, s.pool.Known e → e ∉ s.pool.freed

/-- The element that the worker holds has been neither deleted nor replaced since it was taken. -/
def HoldsCurrent (s : SchedRun) (e : ℕ) : Prop := s.current (s.pool.keyOf e) = some e

/-- The worker runs an element, puts it back or schedules it again only while it is the current one
of its name, and drops one that is over only if no other one has taken its name. -/
def Undisturbed (s : SchedRun) : SchedOp → Prop
  | .begin now => ∀ e, s.pool.worker = .holding e →
      s.pool.runs (.begin now) = some e ∨ now < (s.pool.elem e).next → s.HoldsCurrent e
  | .finish cur => ∀ e, s.pool.worker = .running e →
      if (s.pool.elem e).next < ((s.pool.elem e).calcNext cur).1 then s.HoldsCurrent e
      else s.HoldsCurrent e ∨ s.current (s.pool.keyOf e) = none
  | _ => True

variable {p q : SchedPool} {cur : Bytes → Option ℕ}

/-- The element that the worker gives back is the last one to be placed. -/
structure Awaits (p : SchedPool) (cur : Bytes → Option ℕ) (e : ℕ) : Prop where
  map_eq : ∀ k, k ≠ p.keyOf e → p.map k = cur k
  heap_current : ∀ x ∈ p.ids, cur (p.keyOf x) = some x
  placed : ∀ k x, cur k = some x → x ∈ p.ids ∨ p.worker.held = some x ∨ x = e
  current : cur (p.keyOf e) = some e

theorem insertHeap_correct {e : ℕ} (hp : p.Sound) (he : p.Loose e) (h : Awaits p cur e) (t : ℤ) :
    Correct ⟨p.insertHeap t e,cur,false⟩ := by
  have hids : (p.insertHeap t e).ids = p.ids ++ [e] := by simp [insertHeap,ids]
  refine ⟨?_,?_,?_,rfl,(insertHeap_sound hp he t).alive⟩
  · funext k
    by_cases hk : k = p.keyOf e
    · subst hk
      simp [insertHeap,h.current]
    · simp [insertHeap,hk,h.map_eq]
  · intro x hx
    rw [hids] at hx
    obtain hx | hx := List.mem_append.mp hx
    · exact h.heap_current x hx
    · rw [List.mem_singleton.mp hx]
      exact h.current
  · intro k x hx
    rw [hids]
    obtain hx | hx | rfl := h.placed k x hx
    · exact .inl (List.mem_append_left _ hx)
    · exact .inr hx
    · exact .inl (List.mem_append_right _ (List.mem_singleton_self _))

/-- A name is taken over by the element that is scheduled under it. -/
theorem schedule_correct {e : ℕ} (hp : p.Sound) (he : p.Loose e) (hmap : p.map = cur)
    (hheap : ∀ x ∈ p.ids, cur (p.keyOf x) = some x)
    (hplaced : ∀ k x, cur k = some x → x ∈ p.ids ∨ p.worker.held = some x ∨ x = e) (t : ℤ) :
    Correct ⟨p.schedule e t,Function.update cur (p.keyOf e) (some e),false⟩ := by
  obtain ⟨hids,-,-⟩ := delete_ids hp (p.elem e).name
  obtain ⟨helem,-,hworker⟩ := delete_frame (p := p) (p.elem e).name
  have hkey (x : ℕ) : (p.delete (p.elem e).name).keyOf x = p.keyOf x := by rw [keyOf,keyOf,helem]
  apply insertHeap_correct (delete_sound hp _) (delete_loose hp he _)
  refine ⟨?_,?_,?_,?_⟩
  · intro k hk
    rw [hkey] at hk
    have hk' : k ≠ mapKey (p.elem e).name := hk
    rw [delete_map,Function.update_of_ne hk',Function.update_of_ne hk,hmap]
  · intro x hx
    obtain ⟨hx,hne⟩ := (hids x).mp hx
    rw [hkey]
    have hother : p.keyOf x ≠ p.keyOf e := by
      intro heq
      have hcur := hheap x hx
      rw [heq,← hmap] at hcur
      exact hne hcur
    rw [Function.update_of_ne hother]
    exact hheap x hx
  · intro k x hx
    by_cases hk : k = p.keyOf e
    · subst hk
      rw [Function.update_self] at hx
      exact .inr (.inr (Option.some.inj hx).symm)
    · rw [Function.update_of_ne hk] at hx
      rw [hworker]
      obtain hmem | hrest := hplaced k x hx
      · refine .inl ((hids x).mpr ⟨hmem,fun hkeyx => hk ?_⟩)
        rw [← hmap] at hx
        exact (hp.named k x hx).symm.trans (hp.named _ x hkeyx)
      · exact .inr hrest
  · rw [hkey,Function.update_self]

theorem delete_correct (hp : p.Sound) (h : Correct ⟨p,cur,false⟩) (name : Bytes) :
    Correct ⟨p.delete name,Function.update cur (mapKey name) none,false⟩ := by
  obtain ⟨hids,-,-⟩ := delete_ids hp name
  obtain ⟨helem,-,hworker⟩ := delete_frame (p := p) name
  have hmap : p.map = cur := h.map_eq
  refine ⟨?_,?_,?_,rfl,(delete_sound hp name).alive⟩
  · rw [delete_map,hmap]
  · intro x hx
    obtain ⟨hx,hne⟩ := (hids x).mp hx
    have hkey : (p.delete name).keyOf x = p.keyOf x := by rw [keyOf,keyOf,helem]
    have hcur : cur (p.keyOf x) = some x := h.heap_current x hx
    have hother : p.keyOf x ≠ mapKey name := by
      intro heq
      rw [heq,← hmap] at hcur
      exact hne hcur
    change Function.update cur (mapKey name) none ((p.delete name).keyOf x) = some x
    rw [hkey,Function.update_of_ne hother]
    exact hcur
  · intro k x hx
    change Function.update cur (mapKey name) none k = some x at hx
    change x ∈ (p.delete name).ids ∨ (p.delete name).worker.held = some x
    have hk : k ≠ mapKey name := by
      rintro rfl
      rw [Function.update_self] at hx
      cases hx
    rw [Function.update_of_ne hk] at hx
    rw [hworker]
    obtain hmem | hheld := h.placed k x hx
    · refine .inl ((hids x).mpr ⟨hmem,fun hkeyx => hk ?_⟩)
      rw [← hmap] at hx
      exact (hp.named k x hx).symm.trans (hp.named _ x hkeyx)
    · exact .inr hheld

/-- The pool with the element of the worker put down, its times changed by `f`. -/
theorem same_released {e : ℕ} {f : SchedElem} (hname : f.name = (p.elem e).name) :
    Same p { p.setElem e f with worker := .idle } :=
  ⟨rfl,rfl,rfl,rfl,fun x => keyOf_setElem hname x,nofun⟩

theorem same_put_down : Same p { p with worker := .idle } :=
  ⟨rfl,rfl,rfl,rfl,fun _ => rfl,nofun⟩

theorem same_begun {e : ℕ} (he : p.worker = .holding e) {f : SchedElem}
    (hname : f.name = (p.elem e).name) : Same p { p.setElem e f with worker := .running e } := by
  refine ⟨rfl,rfl,rfl,rfl,fun x => keyOf_setElem hname x,fun x hx => ?_⟩
  rw [he]
  exact hx

/-- Every step keeps an element in one place and alive while it is known. -/
theorem step_sound {op : SchedOp} (hp : p.Sound) (hstep : p.step op = some q) : q.Sound := by
  cases op with
  | delete name => exact Option.some.inj hstep ▸ delete_sound hp name
  | define e clock =>
    exact Option.some.inj hstep ▸ schedule_sound (allocate_sound hp _) (allocate_loose hp _) _
  | removeHeap i =>
    simp only [SchedPool.step] at hstep
    split at hstep
    · rename_i entry hidle hi
      exact Option.some.inj hstep ▸ take_sound hp hi
    · cases hstep
  | begin now =>
    simp only [SchedPool.step] at hstep
    split at hstep
    · rename_i e hworker
      have hheld : p.worker.held = some e := by rw [hworker]; rfl
      split_ifs at hstep
      · exact Option.some.inj hstep ▸ (same_begun hworker (p.elem e).handled_name).sound hp
      · exact Option.some.inj hstep ▸ insertHeap_sound (same_put_down.sound hp)
          (loose_of_held hp hheld same_put_down rfl) _
    · cases hstep
  | finish clock =>
    simp only [SchedPool.step] at hstep
    split at hstep
    · rename_i e hworker
      have hheld : p.worker.held = some e := by rw [hworker]; rfl
      have hsame := same_released (p := p) (e := e) ((p.elem e).calcNext_name clock)
      have hloose := loose_of_held hp hheld hsame rfl
      obtain rfl := Option.some.inj hstep
      split_ifs
      · exact schedule_sound (hsame.sound hp) hloose _
      · exact expire_sound (hsame.sound hp) hloose
    · cases hstep

theorem Awaits.of_correct (h : Correct ⟨p,cur,false⟩) (hsame : Same p q) {e : ℕ}
    (hheld : p.worker.held = some e) (hcur : cur (p.keyOf e) = some e) : Awaits q cur e := by
  refine ⟨fun k _ => ?_,fun x hx => ?_,fun k x hx => ?_,?_⟩
  · rw [hsame.map_eq]
    exact congrFun h.map_eq k
  · rw [hsame.ids_eq] at hx
    rw [hsame.keyOf_eq]
    exact h.heap_current x hx
  · rw [hsame.ids_eq]
    obtain hmem | hx := h.placed k x hx
    · exact .inl hmem
    · exact .inr (.inr (Option.some.inj (hx.symm.trans hheld)))
  · rw [hsame.keyOf_eq]
    exact hcur

/-- A state that differs in what no clause looks at. -/
theorem Correct.of_same (h : Correct ⟨p,cur,false⟩) (hsame : Same p q)
    (hheld : ∀ e, p.worker.held = some e → q.worker.held = some e) : Correct ⟨q,cur,false⟩ := by
  refine ⟨?_,fun x hx => ?_,fun k x hx => ?_,rfl,fun x hx => ?_⟩
  · change q.map = cur
    rw [hsame.map_eq]
    exact h.map_eq
  · change x ∈ q.ids at hx
    change cur (q.keyOf x) = some x
    rw [hsame.ids_eq] at hx
    rw [hsame.keyOf_eq]
    exact h.heap_current x hx
  · change x ∈ q.ids ∨ q.worker.held = some x
    rw [hsame.ids_eq]
    exact (h.placed k x hx).imp_right (hheld x)
  · change x ∉ q.freed
    rw [hsame.freed_eq]
    exact h.alive x (hsame.known hx)

theorem define_correct (hp : p.Sound) (h : Correct ⟨p,cur,false⟩) (e : SchedElem) (t : ℤ) :
    Correct ⟨(p.allocate e).schedule p.count t,Function.update cur (mapKey e.name) (some p.count),
      false⟩ := by
  have hkey : (p.allocate e).keyOf p.count = mapKey e.name := by simp [keyOf,allocate]
  rw [← hkey]
  apply schedule_correct (allocate_sound hp e) (allocate_loose hp e) h.map_eq
  · intro x hx
    rw [allocate_keyOf e (hp.lt x (.inl hx))]
    exact h.heap_current x hx
  · intro k x hx
    exact (h.placed k x hx).imp_right .inl

theorem take_correct (hp : p.Sound) (h : Correct ⟨p,cur,false⟩) (hidle : p.worker = .idle) {i : ℕ}
    {entry : ℤ × ℕ} (hi : p.heap[i]? = some entry) : Correct ⟨p.take i entry.2,cur,false⟩ := by
  have hperm := take_ids hi
  refine ⟨h.map_eq,fun x hx => ?_,fun k x hx => ?_,rfl,(take_sound hp hi).alive⟩
  · exact h.heap_current x (hperm.subset (List.mem_cons_of_mem _ hx))
  · obtain hmem | hheld := h.placed k x hx
    · obtain rfl | hmem := List.mem_cons.mp (hperm.mem_iff.mpr hmem)
      · exact .inr rfl
      · exact .inl hmem
    · change p.worker.held = some x at hheld
      rw [hidle] at hheld
      cases hheld

/-- Giving an element back is right exactly when it is the current one of its name. -/
theorem insertHeap_correct_iff (hp : p.Sound) (h : Correct ⟨p,cur,false⟩) (hsame : Same p q)
    {e : ℕ} (hheld : p.worker.held = some e) (hfree : q.worker.held = none) (t : ℤ) :
    Correct ⟨q.insertHeap t e,cur,false⟩ ↔ cur (p.keyOf e) = some e := by
  constructor
  · intro hc
    have hmem : e ∈ (q.insertHeap t e).ids := by simp [insertHeap,ids]
    have hcur : cur (q.keyOf e) = some e := hc.heap_current e hmem
    rwa [hsame.keyOf_eq] at hcur
  · intro hcur
    exact insertHeap_correct (hsame.sound hp) (loose_of_held hp hheld hsame hfree)
      (Awaits.of_correct h hsame hheld hcur) t

theorem schedule_correct_iff (hp : p.Sound) (h : Correct ⟨p,cur,false⟩) (hsame : Same p q)
    {e : ℕ} (hheld : p.worker.held = some e) (hfree : q.worker.held = none) (t : ℤ) :
    Correct ⟨q.schedule e t,cur,false⟩ ↔ cur (p.keyOf e) = some e := by
  obtain ⟨helem,-,-⟩ := delete_frame (p := q) (q.elem e).name
  constructor
  · intro hc
    have hmem : e ∈ (q.schedule e t).ids := by simp [schedule,insertHeap,ids]
    have hcur : cur ((q.delete (q.elem e).name).keyOf e) = some e := hc.heap_current e hmem
    rw [keyOf,helem] at hcur
    exact hsame.keyOf_eq e ▸ hcur
  · intro hcur
    have hself : Function.update cur (q.keyOf e) (some e) = cur := by
      rw [hsame.keyOf_eq,← hcur,Function.update_eq_self]
    have haw := Awaits.of_correct h hsame hheld hcur
    have hsched := schedule_correct (hsame.sound hp) (loose_of_held hp hheld hsame hfree)
      (hsame.map_eq.trans h.map_eq) haw.heap_current haw.placed t
    rwa [hself] at hsched

/-- Dropping an element that is over is right exactly when no other one has taken its name. -/
theorem expire_correct_iff (hp : p.Sound) (h : Correct ⟨p,cur,false⟩) (hsame : Same p q)
    {e : ℕ} (hheld : p.worker.held = some e) (hfree : q.worker.held = none) :
    Correct ⟨q.expire e,if cur (p.keyOf e) = some e then Function.update cur (p.keyOf e) none else cur,
      false⟩ ↔ cur (p.keyOf e) = some e ∨ cur (p.keyOf e) = none := by
  have hmap : (q.expire e).map = Function.update cur (p.keyOf e) none := by
    have hcur : p.map = cur := h.map_eq
    change Function.update q.map (q.keyOf e) none = _
    rw [hsame.map_eq,hsame.keyOf_eq,hcur]
  constructor
  · intro hc
    have hkey := congrFun (hmap.symm.trans hc.map_eq) (p.keyOf e)
    rw [Function.update_self] at hkey
    by_cases hcur : cur (p.keyOf e) = some e
    · exact .inl hcur
    · simp only [if_neg hcur] at hkey
      exact .inr hkey.symm
  · intro hcur
    have hnew : (if cur (p.keyOf e) = some e then Function.update cur (p.keyOf e) none else cur) =
        Function.update cur (p.keyOf e) none := by
      obtain hcur | hcur := hcur
      · rw [if_pos hcur]
      · rw [if_neg (by rw [hcur]; exact nofun),← hcur,Function.update_eq_self]
    rw [hnew]
    have hloose := loose_of_held hp hheld hsame hfree
    refine ⟨hmap,fun x hx => ?_,fun k x hx => ?_,rfl,(expire_sound (hsame.sound hp) hloose).alive⟩
    · change x ∈ q.ids at hx
      change Function.update cur (p.keyOf e) none (q.keyOf x) = some x
      rw [hsame.ids_eq] at hx
      have hx' : cur (p.keyOf x) = some x := h.heap_current x hx
      have hother : p.keyOf x ≠ p.keyOf e := by
        intro heq
        rw [heq] at hx'
        obtain hcur | hcur := hcur
        · obtain rfl := Option.some.inj (hcur.symm.trans hx')
          exact hp.held e hheld hx
        · rw [hcur] at hx'
          cases hx'
      rw [hsame.keyOf_eq,Function.update_of_ne hother]
      exact hx'
    · change Function.update cur (p.keyOf e) none k = some x at hx
      change x ∈ q.ids ∨ q.worker.held = some x
      have hk : k ≠ p.keyOf e := by
        rintro rfl
        rw [Function.update_self] at hx
        cases hx
      rw [Function.update_of_ne hk] at hx
      rw [hsame.ids_eq]
      obtain hmem | hx' := h.placed k x hx
      · exact .inl hmem
      · obtain rfl : x = e := Option.some.inj (hx'.symm.trans hheld)
        have hmapx : p.map k = some x := (congrFun h.map_eq k).trans hx
        exact absurd (hp.named k x hmapx).symm hk

theorem begin_correct_iff (hp : p.Sound) (h : Correct ⟨p,cur,false⟩) {now : ℤ}
    (hstep : SchedRun.step ⟨p,cur,false⟩ (.begin now) = some t) :
    t.Correct ↔ Undisturbed ⟨p,cur,false⟩ (.begin now) := by
  obtain ⟨q,hq,rfl⟩ := Option.map_eq_some_iff.mp hstep
  simp only [SchedPool.step] at hq
  split at hq
  · rename_i e hworker
    have hheld : p.worker.held = some e := by rw [hworker]; rfl
    have hmine (e' : ℕ) : p.worker = .holding e' ↔ e = e' := by rw [hworker,Worker.holding.injEq]
    simp only [Undisturbed,hmine,forall_eq',HoldsCurrent,ends]
    by_cases hdue : (p.elem e).next ≤ now
    · rw [if_pos hdue] at hq
      obtain rfl := Option.some.inj hq
      have hsame := same_begun hworker (p.elem e).handled_name
      have hkept : Correct ⟨_,cur,false⟩ := h.of_same hsame fun x hx => by rwa [hheld] at hx
      by_cases hruns : p.runs (.begin now) = some e
      · simp only [hruns,Bool.false_or]
        constructor
        · intro hc _
          simpa using hc.ran
        · intro hcur
          have hcur := hcur (.inl trivial)
          simpa only [hcur,ne_eq,not_true_eq_false,decide_false] using hkept
      · have hnone : p.runs (.begin now) = none := by
          simp only [runs,hworker] at hruns ⊢
          split_ifs at hruns ⊢
          · exact absurd rfl hruns
          · rfl
        simp only [hnone,Bool.false_or]
        refine iff_of_true hkept ?_
        rintro (h' | h')
        · cases h'
        · exact absurd hdue (not_le.mpr h')
    · rw [if_neg hdue] at hq
      obtain rfl := Option.some.inj hq
      have hnone : p.runs (.begin now) = none := by
        simp only [runs,hworker,hdue,false_and,if_false]
      simp only [hnone,Bool.false_or]
      rw [insertHeap_correct_iff hp h same_put_down hheld rfl]
      exact ⟨fun hcur _ => hcur,fun hcur => hcur (.inr (not_le.mp hdue))⟩
  · cases hq

theorem finish_correct_iff (hp : p.Sound) (h : Correct ⟨p,cur,false⟩) {clock : ℤ}
    (hstep : SchedRun.step ⟨p,cur,false⟩ (.finish clock) = some t) :
    t.Correct ↔ Undisturbed ⟨p,cur,false⟩ (.finish clock) := by
  obtain ⟨q,hq,rfl⟩ := Option.map_eq_some_iff.mp hstep
  simp only [SchedPool.step] at hq
  split at hq
  · rename_i e hworker
    have hheld : p.worker.held = some e := by rw [hworker]; rfl
    have hsame := same_released (p := p) (e := e) ((p.elem e).calcNext_name clock)
    obtain rfl := Option.some.inj hq
    simp only [Undisturbed,HoldsCurrent,runs,ends,hworker,Worker.running.injEq,forall_eq',
      Bool.or_false]
    by_cases hnext : (p.elem e).next < ((p.elem e).calcNext clock).1
    · simp only [if_pos hnext]
      exact schedule_correct_iff hp h hsame hheld rfl _
    · simp only [if_neg hnext]
      exact expire_correct_iff hp h hsame hheld rfl
  · cases hq

/-- A step keeps the scheduler correct exactly when nothing has come in its way. -/
theorem step_correct_iff (hp : s.pool.Sound) (h : s.Correct) (hstep : s.step op = some t) :
    t.Correct ↔ s.Undisturbed op := by
  obtain ⟨p,cur,stale⟩ := s
  obtain rfl : stale = false := h.ran
  cases op with
  | delete name =>
    obtain rfl := Option.some.inj hstep
    exact iff_of_true (delete_correct hp h name) trivial
  | define e clock =>
    obtain rfl := Option.some.inj hstep
    refine iff_of_true ?_ trivial
    have hdefine := define_correct hp h (e.calcNext clock).2 (e.calcNext clock).1
    rw [e.calcNext_name clock] at hdefine
    exact hdefine
  | removeHeap i =>
    obtain ⟨q,hq,rfl⟩ := Option.map_eq_some_iff.mp hstep
    simp only [SchedPool.step] at hq
    split at hq
    · rename_i entry hidle hi
      obtain rfl := Option.some.inj hq
      exact iff_of_true (take_correct hp h hidle hi) trivial
    · cases hq
  | begin now => exact begin_correct_iff hp h hstep
  | finish clock => exact finish_correct_iff hp h hstep

theorem undisturbed_of_refused (h : s.step op = none) : s.Undisturbed op := by
  have hpool : s.pool.step op = none := Option.map_eq_none_iff.mp h
  cases op with
  | delete name => trivial
  | define e clock => trivial
  | removeHeap i => trivial
  | begin now =>
    intro e he
    simp only [SchedPool.step,he] at hpool
    split_ifs at hpool
  | finish clock =>
    intro e he
    simp only [SchedPool.step,he] at hpool
    cases hpool

theorem start_sound : SchedPool.start.Sound := by
  have hknown (e : ℕ) : ¬SchedPool.start.Known e := by
    rintro (h | ⟨k,h⟩ | h)
    · exact absurd h List.not_mem_nil
    · cases h
    · cases h
  refine ⟨List.nodup_nil,fun e _ => List.not_mem_nil,fun k e h => ?_,fun e h => absurd h (hknown e),
    fun e _ => List.not_mem_nil,fun e h => absurd h List.not_mem_nil⟩
  cases h

theorem start_correct : start.Correct :=
  ⟨rfl,fun _ h => absurd h List.not_mem_nil,fun _ _ h => absurd h nofun,rfl,start_sound.alive⟩

end SchedRun

end Smx
