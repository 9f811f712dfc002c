import Smx.Sched.Pool
import Smx.Sched.PriQ

/-! `qSchedPool` with the array that it keeps its events in, over the pool whose heap is a list. -/
namespace Smx
open MaxHeap

namespace PriQ
variable {γ ο : Type}

def getnext (q : PriQ γ ο) (i : ℕ) : Option (Pos γ ο) :=
  if i ≤ q.N then some (q.p i) else none

/-- The loop of `FindElem` behind position `i`; 0 stands for nothing. -/
def findLoop [DecidableEq ο] (q : PriQ γ ο) (elem : ο) : ℕ → ℕ → ℕ
  | 0,_ => 0
  | fuel+1,i =>
    match q.getnext (i+1) with
    | some cur => if cur.s = elem then i+1 else findLoop q elem fuel (i+1)
    | none => 0

def findElem [DecidableEq ο] (q : PriQ γ ο) (elem : ο) : ℕ := findLoop q elem (q.N+1) 0

variable [DecidableEq ο]

theorem findLoop_spec {q : PriQ γ ο} {elem : ο} {fuel i : ℕ} (hfuel : q.N ≤ i+fuel)
    (hbefore : ∀ k, 1 ≤ k → k ≤ i → (q.p k).s ≠ elem) :
    (findLoop q elem fuel i = 0 ∧ ∀ k, 1 ≤ k → k ≤ q.N → (q.p k).s ≠ elem) ∨
      (1 ≤ findLoop q elem fuel i ∧ findLoop q elem fuel i ≤ q.N ∧
        (q.p (findLoop q elem fuel i)).s = elem) := by
  induction fuel generalizing i with
  | zero => exact .inl ⟨rfl,fun k h1 hk => hbefore k h1 (hk.trans hfuel)⟩
  | succ fuel ih =>
    by_cases hi : i+1 ≤ q.N
    · by_cases hs : (q.p (i+1)).s = elem
      · have hfound : findLoop q elem (fuel+1) i = i+1 := by simp [findLoop,getnext,hi,hs]
        rw [hfound]
        exact .inr ⟨by omega,hi,hs⟩
      · have hnext : findLoop q elem (fuel+1) i = findLoop q elem fuel (i+1) := by
          simp [findLoop,getnext,hi,hs]
        rw [hnext]
        refine ih (by omega) fun k h1 hk => ?_
        obtain hlt | rfl := Nat.lt_or_eq_of_le hk
        · exact hbefore k h1 (Nat.le_of_lt_succ hlt)
        · exact hs
    · have hend : findLoop q elem (fuel+1) i = 0 := by simp [findLoop,getnext,hi]
      exact .inl ⟨hend,fun k h1 hk => hbefore k h1 (by omega)⟩

/-- `FindElem` finds what is in the queue. -/
theorem findElem_spec (q : PriQ γ ο) (elem : ο) :
    (q.findElem elem = 0 ∧ ∀ k, 1 ≤ k → k ≤ q.N → (q.p k).s ≠ elem) ∨
      (1 ≤ q.findElem elem ∧ q.findElem elem ≤ q.N ∧ (q.p (q.findElem elem)).s = elem) :=
  findLoop_spec (by omega) fun k h1 hk => absurd (h1.trans hk) (by omega)

end PriQ

def Pos.entry {γ ο : Type} (x : Pos γ ο) : γ × ο := (x.c,x.s)

/-- The fields of `SchedPool`, with the queue for the list. -/
structure HeapPool where
  elem : ℕ → SchedElem
  count : ℕ
  map : Bytes → Option ℕ
  heap : PriQ ℤ ℕ
  worker : Worker
  freed : List ℕ

namespace HeapPool
variable (blank : ℕ → Pos ℤ ℕ)

/-- `LONG_MAX`. -/
def longMax : ℤ := 2^63-1

/-- `Delete`, with `RemoveElem`. -/
def delete (p : HeapPool) (name : Bytes) : HeapPool :=
  match p.map (mapKey name) with
  | none => p
  | some e =>
    let i := p.heap.findElem e
    let p := if 0 < i then { p with heap := (p.heap.remove i).2, freed := e::p.freed } else p
    { p with map := Function.update p.map (mapKey name) none }

/-- `InsertHeap`; nothing where the assertion of `insert` fails. -/
def insertHeap (p : HeapPool) (t : ℤ) (e : ℕ) : Option HeapPool :=
  if -t < p.heap.compMAX then
    some { p with
      map := Function.update p.map (mapKey (p.elem e).name) (some e)
      heap := p.heap.insert blank (-t) e }
  else none

/-- `Schedule`, with the assertion that the element is not in the queue. -/
def schedule (p : HeapPool) (e : ℕ) (t : ℤ) : Option HeapPool :=
  let p := p.delete (p.elem e).name
  if p.heap.findElem e = 0 then p.insertHeap blank t e else none

/-- `new qSchedElem`. -/
def allocate (p : HeapPool) (e : SchedElem) : HeapPool :=
  { p with elem := Function.update p.elem p.count e, count := p.count+1 }

def setElem (p : HeapPool) (e : ℕ) (x : SchedElem) : HeapPool :=
  { p with elem := Function.update p.elem e x }

/-- The branch of `RunThread` for an event that is over. -/
def expire (p : HeapPool) (e : ℕ) : HeapPool :=
  { p with map := Function.update p.map (mapKey (p.elem e).name) none, freed := e::p.freed }

/-- The calls of users and the steps of the worker; `RemoveHeap` takes the first entry, whatever entry
the step names. -/
def step (p : HeapPool) : SchedOp → Option HeapPool
  | .delete name => some (p.delete name)
  | .define e cur =>
    let r := e.calcNext cur
    (p.allocate r.2).schedule blank p.count r.1
  | .removeHeap _ =>
    match p.worker with
    | .idle =>
      if p.heap.N = 0 then none
      else
        let r := p.heap.remove 1
        some { p with heap := r.2, worker := .holding r.1 }
    | _ => none
  | .begin now =>
    match p.worker with
    | .holding e =>
      if (p.elem e).next ≤ now then
        some { p.setElem e (p.elem e).handled with worker := .running e }
      else { p with worker := .idle }.insertHeap blank (p.elem e).next e
    | _ => none
  | .finish cur =>
    match p.worker with
    | .running e =>
      let r := (p.elem e).calcNext cur
      let q := { p.setElem e r.2 with worker := .idle }
      if (p.elem e).next < r.1 then q.schedule blank e r.1 else some (q.expire e)
    | _ => none

/-- The constructor. -/
def start : HeapPool :=
  ⟨fun _ => {},0,fun _ => none,PriQ.new blank longMax 100,.idle,[]⟩

/-- The worker is where the step takes it from. -/
def Enabled (p : HeapPool) : SchedOp → Prop
  | .removeHeap _ => p.worker = .idle ∧ p.heap.N ≠ 0
  | .begin _ => ∃ e, p.worker = .holding e
  | .finish _ => ∃ e, p.worker = .running e
  | _ => True

/-- The time under which a step puts an event into the queue. -/
def puts (p : HeapPool) : SchedOp → Option ℤ
  | .define e cur => some (e.calcNext cur).1
  | .begin now =>
    match p.worker with
    | .holding e => if (p.elem e).next ≤ now then none else some (p.elem e).next
    | _ => none
  | .finish cur =>
    match p.worker with
    | .running e =>
      let t := ((p.elem e).calcNext cur).1
      if (p.elem e).next < t then some t else none
    | _ => none
  | _ => none

/-- A step whose turn it is, with a time that `LONG_MAX` leaves room for. -/
structure Ready (p : HeapPool) (op : SchedOp) : Prop where
  enabled : p.Enabled op
  timely : ∀ t ∈ p.puts op, -t < longMax

instance Enabled.decidable (p : HeapPool) : (op : SchedOp) → Decidable (p.Enabled op)
  | .delete _ => isTrue trivial
  | .define _ _ => isTrue trivial
  | .removeHeap _ => inferInstanceAs (Decidable (p.worker = .idle ∧ p.heap.N ≠ 0))
  | .begin _ =>
    match h : p.worker with
    | .holding e => isTrue ⟨e,h⟩
    | .idle => isFalse fun ⟨_,he⟩ => nomatch h.symm.trans he
    | .running _ => isFalse fun ⟨_,he⟩ => nomatch h.symm.trans he
  | .finish _ =>
    match h : p.worker with
    | .running e => isTrue ⟨e,h⟩
    | .idle => isFalse fun ⟨_,he⟩ => nomatch h.symm.trans he
    | .holding _ => isFalse fun ⟨_,he⟩ => nomatch h.symm.trans he

instance Ready.decidable (p : HeapPool) (op : SchedOp) : Decidable (p.Ready op) :=
  decidable_of_iff (p.Enabled op ∧ ∀ t ∈ p.puts op, -t < longMax) ⟨fun h => ⟨h.1,h.2⟩,fun h => ⟨h.1,h.2⟩⟩

/-- The pool, with the list for the queue. -/
def view (p : HeapPool) (l : List (ℤ × ℕ)) : SchedPool :=
  ⟨p.elem,p.count,p.map,l,p.worker,p.freed⟩

/-- The queue holds what is listed, in some order. -/
structure Holds (p : HeapPool) (l : List (ℤ × ℕ)) : Prop where
  room : p.heap.N ≤ p.heap.Max
  compMAX : p.heap.compMAX = longMax
  stored : (contents p.heap.p p.heap.N).map Pos.entry = ↑l

variable {p : HeapPool} {l : List (ℤ × ℕ)}

theorem Holds.mem_ids (h : p.Holds l) {e : ℕ} :
    e ∈ (p.view l).ids ↔ ∃ k, 1 ≤ k ∧ k ≤ p.heap.N ∧ (p.heap.p k).s = e := by
  have hmem (x : ℤ × ℕ) : x ∈ l ↔ ∃ k, 1 ≤ k ∧ k ≤ p.heap.N ∧ (p.heap.p k).entry = x := by
    rw [← Multiset.mem_coe,← h.stored,Multiset.mem_map]
    constructor
    · rintro ⟨y,hy,rfl⟩
      obtain ⟨k,h1,hk,rfl⟩ := mem_contents.mp hy
      exact ⟨k,h1,hk,rfl⟩
    · rintro ⟨k,h1,hk,rfl⟩
      exact ⟨_,mem_contents.mpr ⟨k,h1,hk,rfl⟩,rfl⟩
  constructor
  · intro he
    obtain ⟨x,hx,rfl⟩ := List.mem_map.mp he
    obtain ⟨k,h1,hk,rfl⟩ := (hmem x).mp hx
    exact ⟨k,h1,hk,rfl⟩
  · rintro ⟨k,h1,hk,rfl⟩
    exact List.mem_map.mpr ⟨_,(hmem _).mpr ⟨k,h1,hk,rfl⟩,rfl⟩

theorem Holds.ids_eq_nil (h : p.Holds l) (hN : p.heap.N = 0) : (p.view l).ids = [] := by
  refine List.eq_nil_iff_forall_not_mem.mpr fun e he => ?_
  obtain ⟨k,h1,hk,-⟩ := h.mem_ids.mp he
  omega

/-- The rest of the list is the rest of the queue when an entry is removed by its position. -/
theorem Holds.remove (h : p.Holds l) {i : ℕ} (h1 : 1 ≤ i) (hi : i ≤ p.heap.N) :
    (p.heap.p i).entry ∈ l ∧ ∀ l', List.Perm ((p.heap.p i).entry::l') l →
      (contents (p.heap.remove i).2.p (p.heap.N-1)).map Pos.entry = ↑l' := by
  have hstored := h.stored
  rw [PriQ.remove_contents h1 hi,Multiset.map_cons] at hstored
  constructor
  · rw [← Multiset.mem_coe,← hstored]
    exact Multiset.mem_cons_self _ _
  · intro l' hperm
    rwa [← Multiset.coe_eq_coe.mpr hperm,← Multiset.cons_coe,Multiset.cons_inj_right] at hstored

/-- Where no element is listed twice, the entry of one goes by its element. -/
theorem cons_eraseP_perm {x : ℤ × ℕ} (hnodup : (l.map Prod.snd).Nodup) (hx : x ∈ l) :
    List.Perm (x::l.eraseP fun entry => entry.2 = x.2) l := by
  induction l with
  | nil => exact absurd hx List.not_mem_nil
  | cons y l ih =>
    rw [List.map_cons,List.nodup_cons] at hnodup
    obtain rfl | hxl := List.mem_cons.mp hx
    · rw [List.eraseP_cons_of_pos (by simp)]
    · have hne : y.2 ≠ x.2 := fun heq => hnodup.1 (heq ▸ List.mem_map_of_mem hxl)
      rw [List.eraseP_cons_of_neg (by simpa using hne)]
      exact (List.Perm.swap y x _).trans ((ih hnodup.2 hxl).cons y)

theorem delete_follows (h : p.Holds l) (hp : (p.view l).Sound) (name : Bytes) :
    ∃ l', (p.delete name).Holds l' ∧ (p.view l).delete name = (p.delete name).view l' := by
  have hmap : (p.view l).map = p.map := rfl
  unfold SchedPool.delete delete
  rw [hmap]
  cases p.map (mapKey name) with
  | none => exact ⟨l,h,rfl⟩
  | some e =>
    obtain ⟨h0,hnone⟩ | ⟨h1,hi,hs⟩ := p.heap.findElem_spec e
    · have hout : e ∉ (p.view l).ids := fun he => by
        obtain ⟨k,hk1,hk,hke⟩ := h.mem_ids.mp he
        exact hnone k hk1 hk hke
      refine ⟨l,?_⟩
      simp only [h0,hout,lt_irrefl,if_false]
      exact ⟨⟨h.room,h.compMAX,h.stored⟩,rfl⟩
    · have hin : e ∈ (p.view l).ids := h.mem_ids.mpr ⟨_,h1,hi,hs⟩
      obtain ⟨hmem,hrest⟩ := h.remove h1 hi
      have hperm := cons_eraseP_perm hp.nodup hmem
      have hentry : (p.heap.p (p.heap.findElem e)).entry.2 = e := hs
      rw [hentry] at hperm
      refine ⟨l.eraseP fun entry => entry.2 = e,?_⟩
      simp only [hin,Nat.lt_of_lt_of_le Nat.zero_lt_one h1,if_true]
      exact ⟨⟨(Nat.sub_le _ _).trans h.room,h.compMAX,hrest _ hperm⟩,rfl⟩

theorem insertHeap_follows (h : p.Holds l) {t : ℤ} (ht : -t < longMax) (e : ℕ) :
    ∃ q, p.insertHeap blank t e = some q ∧ q.Holds (l ++ [(-t,e)]) ∧
      (p.view l).insertHeap t e = q.view (l ++ [(-t,e)]) := by
  have hc : -t < p.heap.compMAX := h.compMAX ▸ ht
  obtain ⟨hN,hroom,hmax⟩ := PriQ.insert_N blank h.room (-t) e
  refine ⟨_,if_pos hc,⟨?_,hmax.trans h.compMAX,?_⟩,rfl⟩
  · rwa [hN]
  · rw [hN,PriQ.insert_contents blank h.room hc,Multiset.map_cons,h.stored,Multiset.cons_coe]
    exact Multiset.coe_eq_coe.mpr (List.perm_append_singleton _ _).symm

theorem schedule_follows (h : p.Holds l) (hp : (p.view l).Sound) {e : ℕ}
    (he : (p.view l).Loose e) {t : ℤ} (ht : -t < longMax) :
    ∃ q l', p.schedule blank e t = some q ∧ q.Holds l' ∧ (p.view l).schedule e t = q.view l' := by
  obtain ⟨l',h',hview⟩ := delete_follows h hp (p.elem e).name
  have hloose := SchedPool.delete_loose hp he (p.elem e).name
  rw [hview] at hloose
  have h0 : (p.delete (p.elem e).name).heap.findElem e = 0 := by
    obtain ⟨h0,-⟩ | ⟨h1,hi,hs⟩ := (p.delete (p.elem e).name).heap.findElem_spec e
    · exact h0
    · exact absurd (h'.mem_ids.mpr ⟨_,h1,hi,hs⟩) hloose.heap
  obtain ⟨q,hq,hholds,hqview⟩ := insertHeap_follows blank h' ht e
  refine ⟨q,_,(if_pos h0).trans hq,hholds,?_⟩
  rw [← hqview,← hview]
  rfl

end HeapPool

/-- A step of the pool, whatever entry it takes. -/
def SchedOp.anyEntry : SchedOp → SchedOp
  | .removeHeap _ => .removeHeap 0
  | op => op

namespace HeapPool
variable (blank : ℕ → Pos ℤ ℕ) {p : HeapPool} {l : List (ℤ × ℕ)}

/-- Each step is one of the pool over a list, and fails no assertion. -/
theorem step_follows (h : p.Holds l) (hp : (p.view l).Sound) {op : SchedOp} (hok : p.Ready op) :
    ∃ q l' op', p.step blank op = some q ∧ op'.anyEntry = op.anyEntry ∧
      (p.view l).step op' = some (q.view l') ∧ q.Holds l' := by
  cases op with
  | delete name =>
    obtain ⟨l',h',hview⟩ := delete_follows h hp name
    exact ⟨_,l',.delete name,rfl,rfl,congrArg some hview,h'⟩
  | define e cur =>
    have hallocated : (p.allocate (e.calcNext cur).2).Holds l := ⟨h.room,h.compMAX,h.stored⟩
    obtain ⟨q,l',hq,h',hview⟩ := schedule_follows blank hallocated
      (SchedPool.allocate_sound hp _) (SchedPool.allocate_loose hp _) (hok.timely _ rfl)
    exact ⟨q,l',.define e cur,hq,rfl,congrArg some hview,h'⟩
  | removeHeap i =>
    obtain ⟨hidle,hN⟩ := hok.enabled
    have h1 : 1 ≤ p.heap.N := Nat.one_le_iff_ne_zero.mpr hN
    obtain ⟨hmem,hrest⟩ := h.remove le_rfl h1
    obtain ⟨j,hj,hentry⟩ := List.mem_iff_getElem.mp hmem
    have htake : (p.view l).heap[j]? = some (p.heap.p 1).entry := by
      rw [← hentry]
      exact List.getElem?_eq_getElem hj
    have hperm : List.Perm ((p.heap.p 1).entry::l.eraseIdx j) l := by
      rw [← hentry]
      exact List.getElem_cons_eraseIdx_perm hj
    have hworker : (p.view l).worker = .idle := hidle
    refine ⟨{ p with heap := (p.heap.remove 1).2, worker := .holding (p.heap.remove 1).1 },l.eraseIdx j,
      .removeHeap j,?_,rfl,?_,⟨(Nat.sub_le _ _).trans h.room,h.compMAX,hrest _ hperm⟩⟩
    · simp only [step,hidle,hN,if_false]
    · simp only [SchedPool.step,hworker,htake]
      rfl
  | begin now =>
    obtain ⟨e,hworker⟩ := hok.enabled
    have hview : (p.view l).worker = .holding e := hworker
    by_cases hdue : (p.elem e).next ≤ now
    · refine ⟨{ p.setElem e (p.elem e).handled with worker := .running e },l,.begin now,?_,rfl,?_,
        ⟨h.room,h.compMAX,h.stored⟩⟩
      · simp only [step,hworker,hdue,if_true]
      · simp only [SchedPool.step,hview]
        exact if_pos hdue
    · have ht : -(p.elem e).next < longMax := hok.timely _ (by simp [puts,hworker,hdue])
      have hput : { p with worker := .idle }.Holds l := ⟨h.room,h.compMAX,h.stored⟩
      obtain ⟨q,hq,h',hq'⟩ := insertHeap_follows blank hput ht e
      refine ⟨q,_,.begin now,?_,rfl,?_,h'⟩
      · simp only [step,hworker,hdue,if_false]
        exact hq
      · simp only [SchedPool.step,hview]
        exact (if_neg hdue).trans (congrArg some hq')
  | finish cur =>
    obtain ⟨e,hworker⟩ := hok.enabled
    have hview : (p.view l).worker = .running e := hworker
    have hheld : (p.view l).worker.held = some e := by rw [hview]; rfl
    have hsame := SchedRun.same_released (p := p.view l) (e := e) ((p.elem e).calcNext_name cur)
    have hsound := hsame.sound hp
    have hput : { p.setElem e ((p.elem e).calcNext cur).2 with worker := .idle }.Holds l :=
      ⟨h.room,h.compMAX,h.stored⟩
    by_cases hagain : (p.elem e).next < ((p.elem e).calcNext cur).1
    · have ht : -((p.elem e).calcNext cur).1 < longMax :=
        hok.timely _ (by simp [puts,hworker,hagain])
      obtain ⟨q,l',hq,h',hq'⟩ := schedule_follows blank hput hsound
        (SchedPool.loose_of_held hp hheld hsame rfl) ht
      refine ⟨q,l',.finish cur,?_,rfl,?_,h'⟩
      · simp only [step,hworker,hagain,if_true]
        exact hq
      · simp only [SchedPool.step,hview]
        exact congrArg some ((if_pos hagain).trans hq')
    · refine ⟨{ p.setElem e ((p.elem e).calcNext cur).2 with worker := .idle }.expire e,l,.finish cur,
        ?_,rfl,?_,⟨h.room,h.compMAX,h.stored⟩⟩
      · simp only [step,hworker,hagain,if_false]
      · simp only [SchedPool.step,hview]
        exact congrArg some (if_neg hagain)

theorem start_holds : (start blank).Holds [] :=
  ⟨Nat.zero_le _,rfl,rfl⟩

theorem run_follows {ops : List SchedOp} (h : p.Holds l) (hp : (p.view l).Sound)
    (hok : MeetsOnly (step blank) Ready p ops) :
    ∃ q l' ops', runFrom (step blank) p ops = some q ∧
      ops'.map SchedOp.anyEntry = ops.map SchedOp.anyEntry ∧
      runFrom SchedPool.step (p.view l) ops' = some (q.view l') ∧ q.Holds l' ∧ (q.view l').Sound := by
  let R (p : HeapPool) (r : SchedPool) := ∃ l, r = p.view l ∧ p.Holds l ∧ r.Sound
  have hstep (p : HeapPool) (r : SchedPool) (op : SchedOp) (hR : R p r) (hok : p.Ready op) :
      ∃ q r' op', p.step blank op = some q ∧ r.step op' = some r' ∧ op'.anyEntry = op.anyEntry ∧
        R q r' := by
    obtain ⟨l,rfl,h,hp⟩ := hR
    obtain ⟨q,l',op',hq,hop,hview,h'⟩ := step_follows blank h hp hok
    exact ⟨q,_,op',hq,hview,hop,l',rfl,h',SchedRun.step_sound hp hview⟩
  obtain ⟨q,_,ops',hq,hview,hops,l',rfl,h',hp'⟩ := runFrom_simulates hstep ⟨l,rfl,h,hp⟩ hok
  exact ⟨q,l',ops',hq,hops,hview,h',hp'⟩

/-- Whatever the users call and the worker does, the events go through the array as they go through a
list from which any entry may be taken: no assertion fails, and an event is in the array once and
has not been freed. -/
theorem heapPool_refines (ops : List SchedOp) (hok : MeetsOnly (step blank) Ready (start blank) ops) :
    ∃ q l ops', runFrom (step blank) (start blank) ops = some q ∧
      ops'.map SchedOp.anyEntry = ops.map SchedOp.anyEntry ∧
      runFrom SchedPool.step .start ops' = some (q.view l) ∧ q.Holds l ∧ (q.view l).Sound :=
  run_follows blank (start_holds blank) SchedRun.start_sound hok

/-- `b` is scheduled after `a` and due before it. -/
def twoEvents : List SchedOp :=
  [.define { name := [97], first := 20, next := 20 } 5,.define { name := [98], first := 10, next := 10 } 5,
    .removeHeap 0,.begin 10,.finish 10]

theorem heapPool_refines_two :
    ∃ q l ops', runFrom (step fun _ => ⟨0,0⟩) (start fun _ => ⟨0,0⟩) twoEvents = some q ∧
      ops'.map SchedOp.anyEntry = twoEvents.map SchedOp.anyEntry ∧
      runFrom SchedPool.step .start ops' = some (q.view l) ∧ q.Holds l ∧ (q.view l).Sound :=
  heapPool_refines _ twoEvents (by decide +kernel)

end HeapPool
end Smx
