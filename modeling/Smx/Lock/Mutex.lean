import Smx.Lock.Crit

/-! `CMutex` on Unix: a mutex for the threads of many processes. Each process has a `CCrit` for its own threads, a
count of the waits that it has not signalled, and a file of its own on which it asks for `flock`. The `CCrit` is the
atomic mutex that `crit_refines` makes of it. -/
namespace Smx
variable {π τ : Type} [DecidableEq π] [DecidableEq τ]

inductive RWait
  | Invalid
  | Timeout
  | OK
  deriving DecidableEq

/-- `CMutex` in one process. -/
structure CMutex (τ : Type) where
  m_mutex : ℤ
  m_spin : ℤ
  m_crit : Option (τ × ℕ)

/-- The mutex in each process, and the process that has the file locked. -/
structure MutexFile (π τ : Type) where
  procs : π → CMutex τ
  locked : Option π

/-- Where a thread is: in neither function, or in front of something it does to the mutex. The flag tells a `Wait` with a
time from one without. -/
inductive MutexPc
  | out
  | enter (timed : Bool)
  | spin (timed : Bool)
  | first (timed : Bool)
  | flock (timed : Bool)
  | unspin
  | giveUp
  | less
  | last
  | unflock
  | leave
  deriving DecidableEq

/-- A thread: where it is, how many of its waits it has not begun to signal, and what the last one returned. -/
structure MutexLocal where
  pc : MutexPc
  inside : ℕ
  result : RWait

inductive MutexEv
  | Wait
  | timedWait
  | Signal
  | go
  | timeout
  deriving DecidableEq

namespace CMutex

/-- `m_crit._Enter()`, or an `m_crit._TryEnter()` that gets in. -/
def Enter (x : CMutex τ) (t : τ) : Option (CMutex τ) :=
  (atomicMutex MTHREAD_RECURSIVE_MUTEX x.m_crit (t,.Lock,MTHREAD_SUCCESS)).map fun a => { x with m_crit := a }

def Leave (x : CMutex τ) (t : τ) : Option (CMutex τ) :=
  (atomicMutex MTHREAD_RECURSIVE_MUTEX x.m_crit (t,.Unlock,MTHREAD_SUCCESS)).map fun a => { x with m_crit := a }

end CMutex

namespace MutexFile

def setProc (c : MutexFile π τ) (p : π) (x : CMutex τ) : MutexFile π τ := { c with procs := Function.update c.procs p x }

/-- `flock(m_mutex, LOCK_EX)`, which waits while another process has the file locked. It fails on a file that could not
be opened, and nobody asks whether it did. -/
def flock (c : MutexFile π τ) (p : π) : Option (MutexFile π τ) :=
  if (c.procs p).m_mutex < 0 then some c
  else if c.locked = none ∨ c.locked = some p then some { c with locked := some p }
  else none

/-- `flock(m_mutex, LOCK_UN)` -/
def unflock (c : MutexFile π τ) (p : π) : MutexFile π τ :=
  if 0 ≤ (c.procs p).m_mutex ∧ c.locked = some p then { c with locked := none } else c

end MutexFile

namespace MutexLocal

def goto (l : MutexLocal) (pc : MutexPc) : MutexLocal := { l with pc := pc }

/-- `Wait` returns. -/
def ret (l : MutexLocal) (r : RWait) : MutexLocal := ⟨.out,if r = .OK then l.inside+1 else l.inside,r⟩

end MutexLocal

/-- The next thing that a thread in `Wait` or `Signal` does. -/
def mutexGo (id : π × τ) (c : MutexFile π τ) (l : MutexLocal) : MutexPc → Option (MutexFile π τ × MutexLocal)
  | .out => none
  | .enter timed => ((c.procs id.1).Enter id.2).map fun x => (c.setProc id.1 x,l.goto (.spin timed))
  | .spin timed =>
    some (c.setProc id.1 { c.procs id.1 with m_spin := (c.procs id.1).m_spin+1 },l.goto (.first timed))
  | .first timed => some (c,if (c.procs id.1).m_spin = 1 then l.goto (.flock timed) else l.ret .OK)
  | .flock _ => (c.flock id.1).map fun c' => (c',l.ret .OK)
  | .unspin => some (c.setProc id.1 { c.procs id.1 with m_spin := (c.procs id.1).m_spin-1 },l.goto .giveUp)
  | .giveUp => ((c.procs id.1).Leave id.2).map fun x => (c.setProc id.1 x,l.ret .Timeout)
  | .less => some (c.setProc id.1 { c.procs id.1 with m_spin := (c.procs id.1).m_spin-1 },l.goto .last)
  | .last => some (c,l.goto (if (c.procs id.1).m_spin = 0 then .unflock else .leave))
  | .unflock => some (c.unflock id.1,l.goto .leave)
  | .leave => ((c.procs id.1).Leave id.2).map fun x => (c.setProc id.1 x,l.goto .out)

/-- A turn of a thread. A `Wait` with a time tries again and again; `timeout` is the turn in which it finds that it has
failed and the time is over. -/
def mutexTurn (id : π × τ) (c : MutexFile π τ) (l : MutexLocal) : MutexEv → Option (MutexFile π τ × MutexLocal)
  | .Wait =>
    if l.pc ≠ .out then none
    else some (c,if (c.procs id.1).m_mutex = 0 then l.ret .Invalid else l.goto (.enter false))
  | .timedWait =>
    if l.pc ≠ .out then none
    else some (c,if (c.procs id.1).m_mutex = 0 then l.ret .Invalid else l.goto (.enter true))
  | .Signal =>
    if l.pc ≠ .out then none
    else some (c,if (c.procs id.1).m_mutex = 0 then l else { l with pc := .less,inside := l.inside-1 })
  | .go => mutexGo id c l l.pc
  | .timeout =>
    if l.pc = .enter true ∧ (c.procs id.1).Enter id.2 = none then some (c,l.ret .Timeout)
    else if l.pc = .flock true ∧ c.flock id.1 = none then some (c,l.goto .unspin)
    else none

abbrev MutexSys (π τ : Type) := Threads.Sys (π × τ) (MutexFile π τ) MutexLocal

/-- Each process has opened the file; `fd` is what `open` gave it. -/
def mutexStart (fd : π → ℤ) : MutexSys π τ := ⟨⟨fun p => ⟨fd p,0,none⟩,none⟩,fun _ => ⟨.out,0,.Invalid⟩⟩

/-- A thread signals only a wait of its own. -/
def MutexMay (_ : π × τ) (_ : MutexFile π τ) (l : MutexLocal) (ev : MutexEv) : Prop := ev = .Signal → 0 < l.inside

instance (id : π × τ) (c : MutexFile π τ) (l : MutexLocal) (ev : MutexEv) : Decidable (MutexMay id c l ev) :=
  inferInstanceAs (Decidable (ev = .Signal → 0 < l.inside))

variable {fd : ℤ} {id : π × τ} {t u : τ} {n k : ℕ} {x x' : CMutex τ} {lk : Prop} {c c' : MutexFile π τ} {l l' : MutexLocal}

/-- Nobody is in a process whose `CCrit` is free. -/
structure CMutex.Spare (x : CMutex τ) (fd : ℤ) (lk : Prop) : Prop where
  m_mutex : x.m_mutex = fd
  free : x.m_crit = none → x.m_spin = 0 ∧ ¬lk

/-- What is true of the mutex of a process at each place of the thread that has entered its `CCrit` `n` times and is
inside `k` times; `lk` says that the process has the file locked. -/
def MutexPc.Inside (x : CMutex τ) (lk : Prop) (n k : ℕ) : MutexPc → Prop
  | .spin _ => n = k+1 ∧ x.m_spin = k ∧ (lk ↔ 0 ≤ x.m_mutex ∧ 0 < k)
  | .first _ => n = k+1 ∧ x.m_spin = k+1 ∧ (lk ↔ 0 ≤ x.m_mutex ∧ 0 < k)
  | .flock _ | .unspin => n = 1 ∧ k = 0 ∧ x.m_spin = 1 ∧ ¬lk
  | .giveUp => n = 1 ∧ k = 0 ∧ x.m_spin = 0 ∧ ¬lk
  | .less => n = k+1 ∧ x.m_spin = k+1 ∧ (lk ↔ 0 ≤ x.m_mutex)
  | .last => n = k+1 ∧ x.m_spin = k ∧ (lk ↔ 0 ≤ x.m_mutex)
  | .unflock => n = 1 ∧ k = 0 ∧ x.m_spin = 0 ∧ (lk ↔ 0 ≤ x.m_mutex)
  | .leave => n = k+1 ∧ x.m_spin = k ∧ (lk ↔ 0 ≤ x.m_mutex ∧ 0 < k)
  | _ => n = k ∧ 0 < k ∧ x.m_spin = k ∧ (lk ↔ 0 ≤ x.m_mutex)

def MutexPc.Outside : MutexPc → Prop
  | .out | .enter _ => True
  | _ => False

/-- A thread `t` of a process is where the mutex allows it to be. -/
def MutexLocal.Placed (l : MutexLocal) (t : τ) (x : CMutex τ) (lk : Prop) : Prop :=
  (∃ n, x.m_crit = some (t,n) ∧ l.pc.Inside x lk n l.inside) ∨
    (∀ n, x.m_crit ≠ some (t,n)) ∧ l.inside = 0 ∧ l.pc.Outside

def MutexOk (fd : π → ℤ) (id : π × τ) (c : MutexFile π τ) (l : MutexLocal) : Prop :=
  (c.procs id.1).Spare (fd id.1) (c.locked = some id.1) ∧ l.Placed id.2 (c.procs id.1) (c.locked = some id.1)

/-- A turn changes nothing for other processes, and nothing at all while another thread of the process is in its `CCrit`. -/
structure MutexGives (fd : π → ℤ) (id : π × τ) (c c' : MutexFile π τ) : Prop where
  spare : (c'.procs id.1).Spare (fd id.1) (c'.locked = some id.1)
  procs : ∀ q ≠ id.1, c'.procs q = c.procs q ∧ (c'.locked = some q ↔ c.locked = some q)
  threads : ∀ u ≠ id.2, ∀ n, (c.procs id.1).m_crit = some (u,n) ∨ (c'.procs id.1).m_crit = some (u,n) →
    c'.procs id.1 = c.procs id.1 ∧ (c'.locked = some id.1 ↔ c.locked = some id.1)

omit [DecidableEq π] [DecidableEq τ] in
theorem mutexStable {fd : π → ℤ} {id' : π × τ} (hid : id' ≠ id) (hgives : MutexGives fd id c c') (hok : MutexOk fd id' c l) :
    MutexOk fd id' c' l := by
  obtain ⟨p,t⟩ := id
  obtain ⟨q,u⟩ := id'
  obtain ⟨hspare,hplaced⟩ := hok
  by_cases hp : q = p
  · subst hp
    have hu : u ≠ t := fun he => hid (by rw [he])
    refine ⟨hgives.spare,?_⟩
    by_cases hheld : ∃ n, (c.procs q).m_crit = some (u,n) ∨ (c'.procs q).m_crit = some (u,n)
    · obtain ⟨n,hn⟩ := hheld
      obtain ⟨hprocs,hlocked⟩ := hgives.threads u hu n hn
      rw [hprocs,propext hlocked]
      exact hplaced
    · obtain ⟨n,hn,-⟩ | ⟨-,hout⟩ := hplaced
      · exact absurd ⟨n,Or.inl hn⟩ hheld
      · exact Or.inr ⟨fun n hn => hheld ⟨n,Or.inr hn⟩,hout⟩
  · obtain ⟨hprocs,hlocked⟩ := hgives.procs q hp
    rw [MutexOk,hprocs,propext hlocked]
    exact ⟨hspare,hplaced⟩

namespace CMutex

theorem enter_none (h : x.m_crit = none) : x.Enter t = some { x with m_crit := some (t,1) } := by
  rw [Enter,h,atomicMutex,if_pos ⟨show MthreadCall.Lock ≠ .Unlock by decide,rfl⟩]
  rfl

theorem enter_self (h : x.m_crit = some (t,n)) : x.Enter t = some { x with m_crit := some (t,n+1) } := by
  rw [Enter,h,atomicMutex,if_pos rfl,if_neg (show MthreadCall.Lock ≠ .Unlock by decide),
    if_neg (show MTHREAD_RECURSIVE_MUTEX ≠ MTHREAD_NON_RECURSIVE_MUTEX by decide),if_pos rfl]
  rfl

theorem enter_other (hu : u ≠ t) (h : x.m_crit = some (u,n)) : x.Enter t = none := by
  rw [Enter,h,atomicMutex,if_neg hu,
    if_neg (show ¬(MthreadCall.Lock = .TryLock ∧ MTHREAD_SUCCESS = MTHREAD_ER_SYSERR) by decide)]
  rfl

theorem leave_self (h : x.m_crit = some (t,n)) :
    x.Leave t = some { x with m_crit := if n = 1 then none else some (t,n-1) } := by
  rw [Leave,h,atomicMutex,if_pos rfl,if_pos rfl,if_pos rfl]
  rfl

end CMutex

omit [DecidableEq π] [DecidableEq τ] in
theorem mutexGives_self {fd : π → ℤ} (h : (c.procs id.1).Spare (fd id.1) (c.locked = some id.1)) : MutexGives fd id c c :=
  ⟨h,fun _ _ => ⟨rfl,Iff.rfl⟩,fun _ _ _ _ => ⟨rfl,Iff.rfl⟩⟩

omit [DecidableEq π] [DecidableEq τ] in
/-- A turn of the thread that is in the `CCrit` of its process, or that finds it free. -/
theorem mutexGives_of_holds {fd : π → ℤ} (hspare : (c'.procs id.1).Spare (fd id.1) (c'.locked = some id.1))
    (hprocs : ∀ q ≠ id.1, c'.procs q = c.procs q) (hlocked : ∀ q ≠ id.1, c'.locked = some q ↔ c.locked = some q)
    (hcrit : ∀ u ≠ id.2, ∀ n, (c.procs id.1).m_crit ≠ some (u,n))
    (hcrit' : ∀ u ≠ id.2, ∀ n, (c'.procs id.1).m_crit ≠ some (u,n)) : MutexGives fd id c c' where
  spare := hspare
  procs q hq := ⟨hprocs q hq,hlocked q hq⟩
  threads u hu n hheld := hheld.elim (fun h => absurd h (hcrit u hu n)) fun h => absurd h (hcrit' u hu n)

omit [DecidableEq τ] in
theorem other_ne {a : Option (τ × ℕ)} (ha : a = none ∨ ∃ n, a = some (t,n)) (hu : u ≠ t) (n : ℕ) : a ≠ some (u,n) := by
  intro he
  rcases ha with ha | ⟨k,ha⟩ <;> rw [ha] at he
  · cases he
  · exact hu (Prod.mk.inj (Option.some.inj he)).1.symm

omit [DecidableEq τ] in
/-- The thread that is in the `CCrit` of its process, or finds it free, changes the state of the process only. -/
theorem mutexKeeps_setProc {fd : π → ℤ} (hold : (c.procs id.1).m_crit = none ∨ ∃ n, (c.procs id.1).m_crit = some (id.2,n))
    (hnew : x'.m_crit = none ∨ ∃ n, x'.m_crit = some (id.2,n)) (hspare : x'.Spare (fd id.1) (c.locked = some id.1))
    (hplaced : l'.Placed id.2 x' (c.locked = some id.1)) :
    MutexOk fd id (c.setProc id.1 x') l' ∧ MutexGives fd id c (c.setProc id.1 x') := by
  have hx : (c.setProc id.1 x').procs id.1 = x' := by simp [MutexFile.setProc]
  refine ⟨⟨by rw [hx]; exact hspare,by rw [hx]; exact hplaced⟩,mutexGives_of_holds (by rw [hx]; exact hspare)
    (fun q hq => by simp [MutexFile.setProc,hq]) (fun _ _ => Iff.rfl) (fun u hu => other_ne hold hu) ?_⟩
  rw [hx]
  exact fun u hu => other_ne hnew hu

omit [DecidableEq π] [DecidableEq τ] in
/-- It changes who has the file locked. -/
theorem mutexKeeps_locked {fd : π → ℤ} {owner : Option π} (hheld : (c.procs id.1).m_crit = some (id.2,n))
    (howner : ∀ q ≠ id.1, owner = some q ↔ c.locked = some q) (hfd : (c.procs id.1).m_mutex = fd id.1)
    (hplaced : l'.Placed id.2 (c.procs id.1) (owner = some id.1)) :
    MutexOk fd id { c with locked := owner } l' ∧ MutexGives fd id c { c with locked := owner } := by
  have hspare : (c.procs id.1).Spare (fd id.1) (owner = some id.1) :=
    ⟨hfd,fun hfree => by rw [hheld] at hfree; cases hfree⟩
  have hother : ∀ u ≠ id.2, ∀ k, (c.procs id.1).m_crit ≠ some (u,k) := fun u hu => other_ne (Or.inr ⟨n,hheld⟩) hu
  exact ⟨⟨hspare,hplaced⟩,mutexGives_of_holds hspare (fun _ _ => rfl) howner hother hother⟩

/-- A thread between its entry to the `CCrit` and its return. -/
theorem mutexGo_inside {fd : π → ℤ} (hspare : (c.procs id.1).Spare (fd id.1) (c.locked = some id.1))
    (hheld : (c.procs id.1).m_crit = some (id.2,n)) (hin : l.pc.Inside (c.procs id.1) (c.locked = some id.1) n l.inside)
    (hgo : mutexGo id c l l.pc = some (c',l')) : MutexOk fd id c' l' ∧ MutexGives fd id c c' := by
  have hstay {l' : MutexLocal} (hpc : l'.pc.Inside (c.procs id.1) (c.locked = some id.1) n l'.inside) :
      MutexOk fd id c l' ∧ MutexGives fd id c c := ⟨⟨hspare,Or.inl ⟨n,hheld,hpc⟩⟩,mutexGives_self hspare⟩
  have hspin {i : ℤ} {l' : MutexLocal}
      (hpc : l'.pc.Inside { c.procs id.1 with m_spin := i } (c.locked = some id.1) n l'.inside) :
      MutexOk fd id (c.setProc id.1 { c.procs id.1 with m_spin := i }) l' ∧
        MutexGives fd id c (c.setProc id.1 { c.procs id.1 with m_spin := i }) :=
    mutexKeeps_setProc (Or.inr ⟨n,hheld⟩) (Or.inr ⟨n,hheld⟩)
      ⟨hspare.m_mutex,fun hfree => absurd (hheld.symm.trans hfree) (Option.some_ne_none _)⟩ (Or.inl ⟨n,hheld,hpc⟩)
  cases hpc : l.pc with
  | out =>
    rw [hpc] at hgo
    cases hgo
  | enter timed =>
    rw [hpc] at hgo hin
    rw [mutexGo,CMutex.enter_self hheld] at hgo
    cases hgo
    obtain ⟨hn,hpos,hcount,hlk⟩ := hin
    refine mutexKeeps_setProc (Or.inr ⟨n,hheld⟩) (Or.inr ⟨n+1,rfl⟩) ⟨hspare.m_mutex,fun hfree => ?_⟩
      (Or.inl ⟨n+1,rfl,by rw [hn]; rfl,hcount,?_⟩)
    · cases hfree
    · rw [hlk]
      exact ⟨fun h => ⟨h,hpos⟩,And.left⟩
  | spin timed =>
    rw [hpc] at hgo hin
    cases hgo
    obtain ⟨hn,hcount,hlk⟩ := hin
    exact hspin ⟨hn,by rw [hcount]; rfl,hlk⟩
  | first timed =>
    rw [hpc] at hgo hin
    cases hgo
    obtain ⟨hn,hcount,hlk⟩ := hin
    split_ifs with hone
    · have hzero : l.inside = 0 := by omega
      refine hstay ⟨by rw [hn,hzero],hzero,hone,fun h => ?_⟩
      have := (hlk.mp h).2
      omega
    · have hpos : 0 < l.inside := by omega
      refine hstay ⟨hn,Nat.succ_pos _,by rw [hcount]; rfl,?_⟩
      rw [hlk]
      exact ⟨And.left,fun h => ⟨h,hpos⟩⟩
  | flock timed =>
    rw [hpc] at hgo hin
    obtain ⟨rfl,hzero,hone,hlk⟩ := hin
    rw [mutexGo,MutexFile.flock] at hgo
    split_ifs at hgo with hbad hfree
    · cases hgo
      refine hstay ⟨by rw [MutexLocal.ret,hzero]; rfl,Nat.succ_pos _,by rw [hone,MutexLocal.ret,hzero]; rfl,?_⟩
      exact ⟨fun h => absurd h hlk,fun h => absurd hbad (not_lt.mpr h)⟩
    · cases hgo
      have hnone : c.locked = none := hfree.resolve_right hlk
      refine mutexKeeps_locked hheld (fun q hq => ?_) hspare.m_mutex (Or.inl ⟨1,hheld,?_⟩)
      · rw [hnone]
        exact ⟨fun h => absurd (Option.some.inj h).symm hq,fun h => by cases h⟩
      · refine ⟨by rw [MutexLocal.ret,hzero]; rfl,Nat.succ_pos _,by rw [hone,MutexLocal.ret,hzero]; rfl,?_⟩
        exact ⟨fun _ => not_lt.mp hbad,fun _ => rfl⟩
    · cases hgo
  | unspin =>
    rw [hpc] at hgo hin
    cases hgo
    obtain ⟨rfl,hzero,hone,hlk⟩ := hin
    exact hspin ⟨rfl,hzero,by rw [hone]; rfl,hlk⟩
  | giveUp =>
    rw [hpc] at hgo hin
    obtain ⟨rfl,hzero,hspun,hlk⟩ := hin
    rw [mutexGo,CMutex.leave_self hheld] at hgo
    cases hgo
    exact mutexKeeps_setProc (Or.inr ⟨1,hheld⟩) (Or.inl rfl) ⟨hspare.m_mutex,fun _ => ⟨hspun,hlk⟩⟩
      (Or.inr ⟨fun _ h => (by cases h),hzero,trivial⟩)
  | less =>
    rw [hpc] at hgo hin
    cases hgo
    obtain ⟨hn,hcount,hlk⟩ := hin
    refine hspin ⟨hn,?_,hlk⟩
    rw [hcount]
    exact Int.add_sub_cancel _ _
  | last =>
    rw [hpc] at hgo hin
    cases hgo
    obtain ⟨hn,hcount,hlk⟩ := hin
    split_ifs with hzero
    · have hnone : l.inside = 0 := by omega
      exact hstay ⟨by rw [hn,hnone],hnone,hzero,hlk⟩
    · have hpos : 0 < l.inside := by omega
      refine hstay ⟨hn,hcount,?_⟩
      rw [hlk]
      exact ⟨fun h => ⟨h,hpos⟩,And.left⟩
  | unflock =>
    rw [hpc] at hgo hin
    cases hgo
    obtain ⟨rfl,hzero,hcount,hlk⟩ := hin
    have hnever (lk : Prop) (h : ¬lk) : lk ↔ 0 ≤ (c.procs id.1).m_mutex ∧ 0 < (l.goto .leave).inside := by
      rw [MutexLocal.goto,hzero]
      exact ⟨fun h' => absurd h' h,fun h' => absurd h'.2 (lt_irrefl 0)⟩
    have hcount' : (c.procs id.1).m_spin = ((l.goto .leave).inside : ℤ) := by
      rw [hcount,MutexLocal.goto,hzero]
      rfl
    have hone : 1 = (l.goto .leave).inside+1 := by rw [MutexLocal.goto,hzero]
    rw [MutexFile.unflock]
    split_ifs with hmine
    · refine mutexKeeps_locked hheld (fun q hq => ?_) hspare.m_mutex
        (Or.inl ⟨1,hheld,hone,hcount',hnever _ fun h => by cases h⟩)
      rw [hmine.2]
      exact ⟨fun h => (by cases h),fun h => absurd (Option.some.inj h).symm hq⟩
    · exact hstay ⟨hone,hcount',hnever _ fun h => hmine ⟨hlk.mp h,h⟩⟩
  | leave =>
    rw [hpc] at hgo hin
    obtain ⟨hn,hcount,hlk⟩ := hin
    rw [mutexGo,CMutex.leave_self hheld] at hgo
    cases hgo
    by_cases hone : n = 1
    · have hzero : l.inside = 0 := by omega
      rw [if_pos hone]
      refine mutexKeeps_setProc (Or.inr ⟨n,hheld⟩) (Or.inl rfl) ⟨hspare.m_mutex,fun _ => ⟨?_,fun h => ?_⟩⟩
        (Or.inr ⟨fun _ h => (by cases h),hzero,trivial⟩)
      · change (c.procs id.1).m_spin = 0
        rw [hcount,hzero]
        rfl
      · have := (hlk.mp h).2
        omega
    · have hpos : 0 < l.inside := by omega
      rw [if_neg hone]
      refine mutexKeeps_setProc (Or.inr ⟨n,hheld⟩) (Or.inr ⟨n-1,rfl⟩) ⟨hspare.m_mutex,fun h => by cases h⟩
        (Or.inl ⟨n-1,rfl,by rw [hn]; rfl,hpos,hcount,?_⟩)
      rw [hlk]
      exact ⟨And.left,fun h => ⟨h,hpos⟩⟩

/-- A thread that is not in the `CCrit` of its process. -/
theorem mutexGo_outside {fd : π → ℤ} (hspare : (c.procs id.1).Spare (fd id.1) (c.locked = some id.1))
    (hnot : ∀ n, (c.procs id.1).m_crit ≠ some (id.2,n)) (hzero : l.inside = 0) (hout : l.pc.Outside)
    (hgo : mutexGo id c l l.pc = some (c',l')) : MutexOk fd id c' l' ∧ MutexGives fd id c c' := by
  cases hpc : l.pc with
  | out =>
    rw [hpc] at hgo
    cases hgo
  | enter timed =>
    rw [hpc,mutexGo] at hgo
    cases hcrit : (c.procs id.1).m_crit with
    | none =>
      rw [CMutex.enter_none hcrit] at hgo
      cases hgo
      obtain ⟨hspin,hlk⟩ := hspare.free hcrit
      refine mutexKeeps_setProc (Or.inl hcrit) (Or.inr ⟨1,rfl⟩) ⟨hspare.m_mutex,fun h => by cases h⟩
        (Or.inl ⟨1,rfl,by rw [MutexLocal.goto,hzero],by rw [MutexLocal.goto,hzero]; exact hspin,?_⟩)
      rw [MutexLocal.goto,hzero]
      exact ⟨fun h => absurd h hlk,fun h => absurd h.2 (lt_irrefl 0)⟩
    | some a =>
      obtain ⟨u,n⟩ := a
      have hu : u ≠ id.2 := fun he => hnot n (he ▸ hcrit)
      rw [CMutex.enter_other hu hcrit] at hgo
      cases hgo
  | _ =>
    rw [hpc] at hout
    exact hout.elim

theorem mutexRelies (fd : π → ℤ) : Threads.Relies (@mutexTurn π τ _ _) MutexMay (MutexOk fd) (MutexGives fd) where
  keeps id c l ev c' l' hok hmay hturn := by
    obtain ⟨hspare,hplaced⟩ := hok
    have hstay {l' : MutexLocal} (hplaced : l'.Placed id.2 (c.procs id.1) (c.locked = some id.1)) :
        MutexOk fd id c l' ∧ MutexGives fd id c c := ⟨⟨hspare,hplaced⟩,mutexGives_self hspare⟩
    have hwait {timed : Bool} (hpc : l.pc = .out)
        (hl : l' = if (c.procs id.1).m_mutex = 0 then l.ret .Invalid else l.goto (.enter timed)) :
        MutexOk fd id c l' ∧ MutexGives fd id c c := by
      refine hstay ?_
      rw [MutexLocal.Placed,hpc] at hplaced
      rw [hl]
      split_ifs <;> exact hplaced
    cases ev with
    | go =>
      obtain ⟨n,hheld,hin⟩ | ⟨hnot,hzero,hout⟩ := hplaced
      · exact mutexGo_inside hspare hheld hin hturn
      · exact mutexGo_outside hspare hnot hzero hout hturn
    | Wait =>
      by_cases hpc : l.pc = .out
      · rw [mutexTurn,if_neg (not_not.mpr hpc)] at hturn
        cases hturn
        exact hwait hpc rfl
      · rw [mutexTurn,if_pos hpc] at hturn
        cases hturn
    | timedWait =>
      by_cases hpc : l.pc = .out
      · rw [mutexTurn,if_neg (not_not.mpr hpc)] at hturn
        cases hturn
        exact hwait hpc rfl
      · rw [mutexTurn,if_pos hpc] at hturn
        cases hturn
    | Signal =>
      by_cases hpc : l.pc = .out
      · rw [mutexTurn,if_neg (not_not.mpr hpc)] at hturn
        cases hturn
        refine hstay ?_
        obtain ⟨n,hheld,hin⟩ | ⟨-,hzero,-⟩ := hplaced
        · rw [hpc] at hin
          split_ifs
          · exact Or.inl ⟨n,hheld,by rw [hpc]; exact hin⟩
          · obtain ⟨hn,hpos,hcount,hlk⟩ := hin
            refine Or.inl ⟨n,hheld,?_,?_,hlk⟩
            · change n = l.inside-1+1
              omega
            · change (c.procs id.1).m_spin = ((l.inside-1 : ℕ) : ℤ)+1
              omega
        · have hpos : 0 < l.inside := hmay rfl
          omega
      · rw [mutexTurn,if_pos hpc] at hturn
        cases hturn
    | timeout =>
      rw [mutexTurn] at hturn
      split_ifs at hturn with henter hflock
      · cases hturn
        refine hstay ?_
        obtain ⟨n,hheld,-⟩ | ⟨hnot,hzero,-⟩ := hplaced
        · exact absurd henter.2 (by rw [CMutex.enter_self hheld]; exact Option.some_ne_none _)
        · exact Or.inr ⟨hnot,hzero,trivial⟩
      · cases hturn
        refine hstay ?_
        rw [MutexLocal.Placed,hflock.1] at hplaced
        obtain ⟨n,hheld,hin⟩ | ⟨-,-,hout⟩ := hplaced
        · exact Or.inl ⟨n,hheld,hin⟩
        · exact hout.elim
  stable _ _ _ _ _ hid hgives hok := mutexStable hid hgives hok

omit [DecidableEq π] [DecidableEq τ] in
theorem MutexOk.holds {fd : π → ℤ} (hok : MutexOk fd id c l) (hpos : 0 < l.inside) :
    ∃ n, (c.procs id.1).m_crit = some (id.2,n) ∧ l.pc.Inside (c.procs id.1) (c.locked = some id.1) n l.inside := by
  obtain hin | ⟨-,hzero,-⟩ := hok.2
  · exact hin
  · omega

omit [DecidableEq π] [DecidableEq τ] in
/-- Who is inside has the file locked. -/
theorem MutexOk.locked {fd : π → ℤ} (hok : MutexOk fd id c l) (hpos : 0 < l.inside) (hfd : 0 ≤ fd id.1) :
    c.locked = some id.1 := by
  obtain ⟨n,-,hin⟩ := hok.holds hpos
  rw [← hok.1.m_mutex] at hfd
  cases hpc : l.pc with
  | out => rw [hpc] at hin; exact hin.2.2.2.mpr hfd
  | enter timed => rw [hpc] at hin; exact hin.2.2.2.mpr hfd
  | spin timed => rw [hpc] at hin; exact hin.2.2.mpr ⟨hfd,hpos⟩
  | first timed => rw [hpc] at hin; exact hin.2.2.mpr ⟨hfd,hpos⟩
  | less => rw [hpc] at hin; exact hin.2.2.mpr hfd
  | last => rw [hpc] at hin; exact hin.2.2.mpr hfd
  | leave => rw [hpc] at hin; exact hin.2.2.mpr ⟨hfd,hpos⟩
  | flock timed => rw [hpc] at hin; exact absurd hin.2.1 hpos.ne'
  | unspin => rw [hpc] at hin; exact absurd hin.2.1 hpos.ne'
  | giveUp => rw [hpc] at hin; exact absurd hin.2.1 hpos.ne'
  | unflock => rw [hpc] at hin; exact absurd hin.2.1 hpos.ne'

/-- Somebody is in a `CCrit` that is not free, or on the way in or out of the mutex. -/
def MutexLocal.Busy (l : MutexLocal) : Prop := l.pc = .out → 0 < l.inside

omit [DecidableEq π] [DecidableEq τ] in
theorem MutexOk.busy {fd : π → ℤ} (hok : MutexOk fd id c l) (hheld : (c.procs id.1).m_crit = some (id.2,n)) : l.Busy := by
  intro hpc
  obtain ⟨k,-,hin⟩ | ⟨hnot,-⟩ := hok.2
  · rw [hpc] at hin
    exact hin.2.1
  · exact absurd hheld (hnot n)

/-- Only the `CCrit` and the file keep a thread waiting. -/
theorem MutexOk.goes_or_waits {fd : π → ℤ} (hok : MutexOk fd id c l) (hpc : l.pc ≠ .out) :
    (mutexTurn id c l .go).isSome ∨ (∃ u ≠ id.2, ∃ n, (c.procs id.1).m_crit = some (u,n)) ∨
      ∃ q ≠ id.1, c.locked = some q := by
  have hleave (hin : ∃ n, (c.procs id.1).m_crit = some (id.2,n)) : ((c.procs id.1).Leave id.2).isSome := by
    obtain ⟨n,hheld⟩ := hin
    rw [CMutex.leave_self hheld]
    rfl
  have hinside (hnot : ¬l.pc.Outside) : ∃ n, (c.procs id.1).m_crit = some (id.2,n) := by
    obtain ⟨n,hheld,-⟩ | ⟨-,-,hout⟩ := hok.2
    · exact ⟨n,hheld⟩
    · exact absurd hout hnot
  rw [mutexTurn]
  cases hl : l.pc with
  | out => exact absurd hl hpc
  | enter timed =>
    rw [mutexGo,Option.isSome_map]
    cases hcrit : (c.procs id.1).m_crit with
    | none =>
      rw [CMutex.enter_none hcrit]
      exact Or.inl rfl
    | some a =>
      obtain ⟨u,n⟩ := a
      by_cases hu : u = id.2
      · rw [CMutex.enter_self (hu ▸ hcrit)]
        exact Or.inl rfl
      · exact Or.inr (Or.inl ⟨u,hu,n,rfl⟩)
  | flock timed =>
    rw [mutexGo,Option.isSome_map,MutexFile.flock]
    split_ifs with hbad hfree
    · exact Or.inl rfl
    · exact Or.inl rfl
    · obtain ⟨hsome,hne⟩ := not_or.mp hfree
      obtain ⟨q,hq⟩ := Option.ne_none_iff_exists'.mp hsome
      exact Or.inr (Or.inr ⟨q,fun he => hne (he ▸ hq),hq⟩)
  | giveUp =>
    rw [mutexGo,Option.isSome_map]
    exact Or.inl (hleave (hinside (by rw [hl]; exact not_false)))
  | leave =>
    rw [mutexGo,Option.isSome_map]
    exact Or.inl (hleave (hinside (by rw [hl]; exact not_false)))
  | _ => exact Or.inl rfl

/-- A thread of one process is inside; a thread of another one comes in vain and gives up, and a third one waits. -/
def threeThreads : List ((Bool × Bool) × MutexEv) :=
  [((true,true),.Wait),((true,true),.go),((true,true),.go),((true,true),.go),((true,true),.go),((true,true),.Wait),
    ((true,true),.go),((true,true),.go),((true,true),.go),((true,true),.Signal),((true,true),.go),((true,true),.go),
    ((true,true),.go),((false,true),.timedWait),((false,true),.go),((false,true),.go),((false,true),.go),
    ((false,true),.timeout),((false,true),.go),((false,true),.go),((true,false),.Wait)]

end Smx
