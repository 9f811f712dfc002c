import Smx.Lib.Threads
import Mathlib.Data.Set.Basic
import Mathlib.Tactic.SplitIfs

/-! `CCrit` on Unix: a mutex that its owner may lock again, made of a count and an owner in front of the system's
mutex. `MthreadMutexLock` reads both while other threads may write them. Each read and each write of a field is a turn
of its own here, in the order of the source. -/
namespace Smx
variable {τ : Type} [DecidableEq τ]

def MTHREAD_NON_RECURSIVE_MUTEX : ℤ := 1
def MTHREAD_RECURSIVE_MUTEX : ℤ := 2

def MTHREAD_SUCCESS : ℤ := 0
def MTHREAD_ER_SYSERR : ℤ := -1
def MTHREAD_ER_MUTEX_LOCKED : ℤ := -41
def MTHREAD_ER_MUTEX_UNLOCKED : ℤ := -42
def MTHREAD_ER_MUTEX_NOTOWNER : ℤ := -43

/-- `MTHREADMUTEX`, with the thread that holds the system's mutex. -/
structure MThreadMutex (τ : Type) where
  MutexType : ℤ
  LCnt : ℤ
  Owner : τ
  Mutex : Option τ

/-- `MthreadMutexCreate`, which leaves the owner as it finds it. -/
def MthreadMutexCreate (MutexType : ℤ) (Owner : τ) : MThreadMutex τ := ⟨MutexType,0,Owner,none⟩

inductive MthreadCall
  | Lock
  | TryLock
  | Unlock
  deriving DecidableEq

/-- Where a thread is: in none of the functions, or in front of an access to the mutex. The flag tells `MthreadMutexTryLock`
from `MthreadMutexLock`, and a number is the value that is about to be written. -/
inductive MthreadPc
  | out
  | lockCount (tries : Bool)
  | lockOwner (tries : Bool)
  | again (tries : Bool)
  | setAgain (tries : Bool) (n : ℤ)
  | lock (tries : Bool)
  | setOwner (tries : Bool)
  | setCount (tries : Bool)
  | unlockCount
  | ownedCount
  | unlockOwner
  | less
  | setLess (n : ℤ)
  | leftCount
  | unlock
  deriving DecidableEq

/-- A thread: where it is, and what its calls returned so far. -/
structure MthreadLocal where
  pc : MthreadPc
  returned : List (MthreadCall × ℤ)

namespace MthreadLocal

def goto (l : MthreadLocal) (pc : MthreadPc) : MthreadLocal := { l with pc := pc }

def ret (l : MthreadLocal) (call : MthreadCall) (r : ℤ) : MthreadLocal := ⟨.out,l.returned ++ [(call,r)]⟩

end MthreadLocal

def lockCall (tries : Bool) : MthreadCall := if tries then .TryLock else .Lock

def MthreadCall.begin : MthreadCall → MthreadPc
  | Lock => .lockCount false
  | TryLock => .lockCount true
  | Unlock => .unlockCount

inductive MthreadEv
  | call (call : MthreadCall)
  | go
  deriving DecidableEq

/-- The next access of a thread that is in one of the functions. `pthread_mutex_lock` waits while the mutex is held, and
`pthread_mutex_unlock` is not for a thread that does not hold it. -/
def mthreadAccess (self : τ) (m : MThreadMutex τ) (l : MthreadLocal) : MthreadPc → Option (MThreadMutex τ × MthreadLocal)
  | .out => none
  | .lockCount tries => some (m,l.goto (if m.LCnt = 0 then .lock tries else .lockOwner tries))
  | .lockOwner tries =>
    if m.Owner = self then
      if m.MutexType = MTHREAD_NON_RECURSIVE_MUTEX then some (m,l.ret (lockCall tries) MTHREAD_ER_MUTEX_LOCKED)
      else some (m,l.goto (.again tries))
    else some (m,l.goto (.lock tries))
  | .again tries => some (m,l.goto (.setAgain tries (m.LCnt+1)))
  | .setAgain tries n => some ({ m with LCnt := n },l.ret (lockCall tries) MTHREAD_SUCCESS)
  | .lock tries =>
    if m.Mutex = none then some ({ m with Mutex := some self },l.goto (.setOwner tries))
    else if tries then some (m,l.ret .TryLock MTHREAD_ER_SYSERR)
    else none
  | .setOwner tries => some ({ m with Owner := self },l.goto (.setCount tries))
  | .setCount tries => some ({ m with LCnt := 1 },l.ret (lockCall tries) MTHREAD_SUCCESS)
  | .unlockCount =>
    some (m,if m.LCnt = 0 then l.ret .Unlock MTHREAD_ER_MUTEX_UNLOCKED else l.goto .ownedCount)
  | .ownedCount => some (m,l.goto (if m.LCnt = 0 then .less else .unlockOwner))
  | .unlockOwner => some (m,if m.Owner = self then l.goto .less else l.ret .Unlock MTHREAD_ER_MUTEX_NOTOWNER)
  | .less => some (m,l.goto (.setLess (m.LCnt-1)))
  | .setLess n => some ({ m with LCnt := n },l.goto .leftCount)
  | .leftCount => some (m,if m.LCnt = 0 then l.goto .unlock else l.ret .Unlock MTHREAD_SUCCESS)
  | .unlock => if m.Mutex = some self then some ({ m with Mutex := none },l.ret .Unlock MTHREAD_SUCCESS) else none

def mthreadTurn (self : τ) (m : MThreadMutex τ) (l : MthreadLocal) : MthreadEv → Option (MThreadMutex τ × MthreadLocal)
  | .call call => if l.pc = .out then some (m,l.goto call.begin) else none
  | .go => mthreadAccess self m l l.pc

/-- The mutex and its threads; none of them is in a function at the start. -/
abbrev MthreadSys (τ : Type) := Threads.Sys τ (MThreadMutex τ) MthreadLocal

def mthreadStart (MutexType : ℤ) (Owner : τ) : MthreadSys τ := ⟨MthreadMutexCreate MutexType Owner,fun _ => ⟨.out,[]⟩⟩

/-- How often a thread that got these answers has locked the mutex and not unlocked it. -/
def entered (returned : List (MthreadCall × ℤ)) : ℕ :=
  returned.foldl (fun n r => if r.2 = MTHREAD_SUCCESS then if r.1 = .Unlock then n-1 else n+1 else n) 0

/-- A mutex whose calls take no time: the thread that has locked it and how often, with the answers it gives. A thread
that would have to wait has no step, and neither has one that unlocks what it did not lock. -/
def atomicMutex (MutexType : ℤ) (a : Option (τ × ℕ)) (ev : τ × MthreadCall × ℤ) : Option (Option (τ × ℕ)) :=
  match a with
  | none => if ev.2.1 ≠ .Unlock ∧ ev.2.2 = MTHREAD_SUCCESS then some (some (ev.1,1)) else none
  | some h =>
    if h.1 = ev.1 then
      if ev.2.1 = .Unlock then
        if ev.2.2 = MTHREAD_SUCCESS then some (if h.2 = 1 then none else some (h.1,h.2-1)) else none
      else if MutexType = MTHREAD_NON_RECURSIVE_MUTEX then
        if ev.2.2 = MTHREAD_ER_MUTEX_LOCKED then some (some h) else none
      else if ev.2.2 = MTHREAD_SUCCESS then some (some (h.1,h.2+1))
      else none
    else if ev.2.1 = .TryLock ∧ ev.2.2 = MTHREAD_ER_SYSERR then some (some h)
    else none

/-- The answer a thread is certain to get: it has locked the mutex once the system's mutex is its own. -/
def MthreadPc.pending : MthreadPc → List (MthreadCall × ℤ)
  | .setOwner tries | .setCount tries => [(lockCall tries,MTHREAD_SUCCESS)]
  | _ => []

def MthreadLocal.answers (l : MthreadLocal) : List (MthreadCall × ℤ) := l.returned ++ l.pc.pending

variable {t u : τ} {T : ℤ} {m m' : MThreadMutex τ} {l l' : MthreadLocal}

/-- What a thread that does not hold the system's mutex may be doing: if it found a count, the owner is someone else. -/
def MthreadPc.Outside (t : τ) (m : MThreadMutex τ) : MthreadPc → Prop
  | .out | .lockCount _ | .lock _ => True
  | .lockOwner _ => m.Owner ≠ t
  | _ => False

/-- What is true of the mutex at each place of the thread that holds it, which has locked it `n` times. -/
def MthreadPc.Inside (t : τ) (m : MThreadMutex τ) (n : ℕ) : MthreadPc → Prop
  | .lock _ => False
  | .setOwner _ => n = 0 ∧ m.LCnt = 0
  | .setCount _ => n = 0 ∧ m.LCnt = 0 ∧ m.Owner = t
  | .again _ => 0 < n ∧ m.LCnt = n ∧ m.Owner = t ∧ m.MutexType ≠ MTHREAD_NON_RECURSIVE_MUTEX
  | .setAgain _ k => 0 < n ∧ m.LCnt = n ∧ m.Owner = t ∧ m.MutexType ≠ MTHREAD_NON_RECURSIVE_MUTEX ∧ k = n+1
  | .setLess k => 0 < n ∧ m.LCnt = n ∧ m.Owner = t ∧ k = n-1
  | .leftCount => 0 < n ∧ m.LCnt = n-1 ∧ m.Owner = t
  | .unlock => n = 1 ∧ m.LCnt = 0 ∧ m.Owner = t
  | _ => 0 < n ∧ m.LCnt = n ∧ m.Owner = t

/-- A count is that of the thread which holds the system's mutex. -/
def MThreadMutex.Counted (T : ℤ) (m : MThreadMutex τ) : Prop :=
  m.MutexType = T ∧ (m.LCnt ≠ 0 → m.Mutex = some m.Owner)

def CritOk (T : ℤ) (t : τ) (m : MThreadMutex τ) (l : MthreadLocal) : Prop :=
  m.Counted T ∧ if m.Mutex = some t then l.pc.Inside t m (entered l.returned)
    else entered l.returned = 0 ∧ l.pc.Outside t m

/-- A turn of `t` changes nothing while another thread holds the mutex, does not give it to another one, and makes no one
else the owner. -/
def CritGives (T : ℤ) (t : τ) (m m' : MThreadMutex τ) : Prop :=
  m'.Counted T ∧ (m'.Owner = m.Owner ∨ m'.Owner = t) ∧
    ∀ u ≠ t, m.Mutex = some u ∨ m'.Mutex = some u → m' = m

/-- A thread unlocks only what it has locked. -/
def CritMay (_ : τ) (_ : MThreadMutex τ) (l : MthreadLocal) (ev : MthreadEv) : Prop :=
  ev = .call .Unlock → 0 < entered l.returned

instance (t : τ) (m : MThreadMutex τ) (l : MthreadLocal) (ev : MthreadEv) : Decidable (CritMay t m l ev) :=
  inferInstanceAs (Decidable (ev = .call .Unlock → 0 < entered l.returned))

theorem entered_append (returned : List (MthreadCall × ℤ)) (call : MthreadCall) (r : ℤ) :
    entered (returned ++ [(call,r)]) =
      if r = MTHREAD_SUCCESS then if call = .Unlock then entered returned-1 else entered returned+1
      else entered returned := by
  simp [entered,List.foldl_append]

@[simp] theorem entered_append_lockCall (returned : List (MthreadCall × ℤ)) (tries : Bool) :
    entered (returned ++ [(lockCall tries,MTHREAD_SUCCESS)]) = entered returned+1 := by
  rw [entered_append,if_pos rfl,if_neg (by cases tries <;> simp [lockCall])]

@[simp] theorem entered_append_unlock (returned : List (MthreadCall × ℤ)) :
    entered (returned ++ [(.Unlock,MTHREAD_SUCCESS)]) = entered returned-1 := by
  rw [entered_append,if_pos rfl,if_pos rfl]

theorem entered_append_of_ne {r : ℤ} (hr : r ≠ MTHREAD_SUCCESS) (returned : List (MthreadCall × ℤ)) (call : MthreadCall) :
    entered (returned ++ [(call,r)]) = entered returned := by
  rw [entered_append,if_neg hr]

omit [DecidableEq τ] in
theorem critGives_self (hm : m.Counted T) : CritGives T t m m :=
  ⟨hm,.inl rfl,fun _ _ _ => rfl⟩

omit [DecidableEq τ] in
/-- The thread that holds the mutex may change it, as long as it keeps the count its own. -/
theorem critGives_of_holds (hm : m.Mutex = some t) (hm' : m'.Counted T) (howner : m'.Owner = m.Owner ∨ m'.Owner = t)
    (hmutex : m'.Mutex = some t ∨ m'.Mutex = none) : CritGives T t m m' := by
  refine ⟨hm',howner,fun u hu hheld => ?_⟩
  rcases hheld with hheld | hheld
  · rw [hm] at hheld
    exact absurd (Option.some.inj hheld).symm hu
  · rcases hmutex with hmutex | hmutex <;> rw [hmutex] at hheld
    · exact absurd (Option.some.inj hheld).symm hu
    · cases hheld

theorem critStable (hu : u ≠ t) (hgives : CritGives T t m m') (hok : CritOk T u m l) : CritOk T u m' l := by
  obtain ⟨hm',howner,hkept⟩ := hgives
  obtain ⟨-,hplace⟩ := hok
  by_cases hheld : m.Mutex = some u ∨ m'.Mutex = some u
  · obtain rfl := hkept u hu hheld
    exact ⟨hm',hplace⟩
  · obtain ⟨hnot,hnot'⟩ := not_or.mp hheld
    rw [if_neg hnot] at hplace
    refine ⟨hm',?_⟩
    rw [if_neg hnot']
    refine ⟨hplace.1,?_⟩
    have hout := hplace.2
    cases hpc : l.pc with
    | lockOwner tries =>
      rw [hpc] at hout
      intro he
      rcases howner with h | h <;> rw [h] at he
      · exact hout he
      · exact hu he.symm
    | _ => rw [hpc] at hout; exact hout

theorem critKeeps_outside (hm : m.Counted T) (hnot : m.Mutex ≠ some t) (hn : entered l.returned = 0)
    (hout : l.pc.Outside t m) (haccess : mthreadAccess t m l l.pc = some (m',l')) :
    CritOk T t m' l' ∧ CritGives T t m m' := by
  have hstay {pc : MthreadPc} (hpc : pc.Outside t m) : CritOk T t m (l.goto pc) ∧ CritGives T t m m := by
    refine ⟨⟨hm,?_⟩,critGives_self hm⟩
    rw [if_neg hnot]
    exact ⟨hn,hpc⟩
  cases hpc : l.pc with
  | lockCount tries =>
    rw [hpc] at haccess
    cases haccess
    refine hstay ?_
    split_ifs with hzero
    · trivial
    · intro howner
      exact hnot (howner ▸ hm.2 hzero)
  | lockOwner tries =>
    rw [hpc] at haccess hout
    rw [mthreadAccess,if_neg hout] at haccess
    cases haccess
    exact hstay trivial
  | lock tries =>
    rw [hpc,mthreadAccess] at haccess
    split_ifs at haccess with hfree htries
    · cases haccess
      have hzero : m.LCnt = 0 := by
        by_contra hne
        rw [hm.2 hne] at hfree
        cases hfree
      have hm' : MThreadMutex.Counted T { m with Mutex := some t } := ⟨hm.1,fun hne => absurd hzero hne⟩
      refine ⟨⟨hm',?_⟩,hm',.inl rfl,fun u hu hheld => ?_⟩
      · rw [if_pos rfl]
        exact ⟨hn,hzero⟩
      · rcases hheld with hheld | hheld
        · rw [hfree] at hheld
          cases hheld
        · exact absurd (Option.some.inj hheld).symm hu
    · cases haccess
      refine ⟨⟨hm,?_⟩,critGives_self hm⟩
      rw [if_neg hnot]
      exact ⟨by rw [MthreadLocal.ret,entered_append_of_ne (by decide),hn],trivial⟩
  | out =>
    rw [hpc] at haccess
    cases haccess
  | _ =>
    rw [hpc] at hout
    exact hout.elim

theorem critKeeps_inside (hm : m.Counted T) (hheld : m.Mutex = some t) (hin : l.pc.Inside t m (entered l.returned))
    (haccess : mthreadAccess t m l l.pc = some (m',l')) : CritOk T t m' l' ∧ CritGives T t m m' := by
  have hstay {pc : MthreadPc} (hpc : pc.Inside t m (entered l.returned)) :
      CritOk T t m (l.goto pc) ∧ CritGives T t m m := by
    refine ⟨⟨hm,?_⟩,critGives_self hm⟩
    rw [if_pos hheld]
    exact hpc
  -- a new count, with the owner as it has to be
  have hset {n : ℤ} {l' : MthreadLocal} (howner : m.Owner = t)
      (hpc : l'.pc.Inside t { m with LCnt := n } (entered l'.returned)) :
      CritOk T t { m with LCnt := n } l' ∧ CritGives T t m { m with LCnt := n } := by
    have hm' : MThreadMutex.Counted T { m with LCnt := n } := ⟨hm.1,fun _ => by rw [← howner] at hheld; exact hheld⟩
    refine ⟨⟨hm',?_⟩,critGives_of_holds hheld hm' (.inl rfl) (.inl hheld)⟩
    rw [if_pos hheld]
    exact hpc
  cases hpc : l.pc with
  | lockCount tries =>
    rw [hpc] at haccess hin
    cases haccess
    refine hstay ?_
    have hne : m.LCnt ≠ 0 := by
      have := hin.2.1
      have := hin.1
      omega
    rw [if_neg hne]
    exact hin
  | lockOwner tries =>
    rw [hpc] at haccess hin
    rw [mthreadAccess,if_pos hin.2.2] at haccess
    split_ifs at haccess with htype
    · cases haccess
      refine ⟨⟨hm,?_⟩,critGives_self hm⟩
      rw [if_pos hheld,MthreadLocal.ret,entered_append_of_ne (by decide)]
      exact hin
    · cases haccess
      exact hstay ⟨hin.1,hin.2.1,hin.2.2,htype⟩
  | again tries =>
    rw [hpc] at haccess hin
    cases haccess
    exact hstay ⟨hin.1,hin.2.1,hin.2.2.1,hin.2.2.2,by rw [hin.2.1]⟩
  | setAgain tries n =>
    rw [hpc] at haccess hin
    cases haccess
    obtain ⟨hpos,hcount,howner,-,rfl⟩ := hin
    refine hset howner ?_
    rw [MthreadLocal.ret,entered_append_lockCall]
    exact ⟨Nat.succ_pos _,by push_cast; rfl,howner⟩
  | lock tries =>
    rw [hpc] at hin
    exact hin.elim
  | setOwner tries =>
    rw [hpc] at haccess hin
    cases haccess
    have hm' : MThreadMutex.Counted T { m with Owner := t } := ⟨hm.1,fun _ => hheld⟩
    refine ⟨⟨hm',?_⟩,critGives_of_holds hheld hm' (.inr rfl) (.inl hheld)⟩
    rw [if_pos hheld]
    exact ⟨hin.1,hin.2,rfl⟩
  | setCount tries =>
    rw [hpc] at haccess hin
    cases haccess
    refine hset hin.2.2 ?_
    rw [MthreadLocal.ret,entered_append_lockCall,hin.1]
    exact ⟨Nat.one_pos,rfl,hin.2.2⟩
  | unlockCount =>
    rw [hpc] at haccess hin
    cases haccess
    have hne : m.LCnt ≠ 0 := by
      have := hin.2.1
      have := hin.1
      omega
    rw [if_neg hne]
    exact hstay hin
  | ownedCount =>
    rw [hpc] at haccess hin
    cases haccess
    refine hstay ?_
    split_ifs
    · exact hin
    · exact hin
  | unlockOwner =>
    rw [hpc] at haccess hin
    cases haccess
    rw [if_pos hin.2.2]
    exact hstay hin
  | less =>
    rw [hpc] at haccess hin
    cases haccess
    exact hstay ⟨hin.1,hin.2.1,hin.2.2,by rw [hin.2.1]⟩
  | setLess n =>
    rw [hpc] at haccess hin
    cases haccess
    exact hset hin.2.2.1 ⟨hin.1,hin.2.2.2,hin.2.2.1⟩
  | leftCount =>
    rw [hpc] at haccess hin
    cases haccess
    obtain ⟨hpos,hcount,howner⟩ := hin
    split_ifs with hzero
    · exact hstay ⟨by omega,hzero,howner⟩
    · refine ⟨⟨hm,?_⟩,critGives_self hm⟩
      rw [if_pos hheld,MthreadLocal.ret,entered_append_unlock]
      exact ⟨by omega,by omega,howner⟩
  | unlock =>
    rw [hpc] at haccess hin
    rw [mthreadAccess,if_pos hheld] at haccess
    cases haccess
    have hm' : MThreadMutex.Counted T { m with Mutex := none } := ⟨hm.1,fun hne => absurd hin.2.1 hne⟩
    refine ⟨⟨hm',?_⟩,critGives_of_holds hheld hm' (.inl rfl) (.inr rfl)⟩
    rw [if_neg (by simp),MthreadLocal.ret,entered_append_unlock,hin.1]
    exact ⟨rfl,trivial⟩
  | out =>
    rw [hpc] at haccess
    cases haccess

theorem critRelies (T : ℤ) : Threads.Relies (@mthreadTurn τ _) CritMay (CritOk T) (CritGives T) where
  keeps t m l ev m' l' hok hmay hturn := by
    obtain ⟨hm,hplace⟩ := hok
    cases ev with
    | go =>
      by_cases hheld : m.Mutex = some t
      · rw [if_pos hheld] at hplace
        exact critKeeps_inside hm hheld hplace hturn
      · rw [if_neg hheld] at hplace
        exact critKeeps_outside hm hheld hplace.1 hplace.2 hturn
    | call call =>
      rw [mthreadTurn] at hturn
      split_ifs at hturn with hpc
      cases hturn
      refine ⟨⟨hm,?_⟩,critGives_self hm⟩
      rw [hpc] at hplace
      split_ifs at hplace ⊢
      · cases call <;> exact hplace
      · cases call with
        | Unlock =>
          have hpos := hmay rfl
          omega
        | _ => exact ⟨hplace.1,trivial⟩
  stable _ _ _ _ _ hu hgives hok := critStable hu hgives hok

/-- The thread that has locked the mutex, and how often. -/
def holder (m : MThreadMutex τ) (locals : τ → MthreadLocal) : Option (τ × ℕ) :=
  m.Mutex.map fun t => (t,entered (locals t).answers)

variable {locals : τ → MthreadLocal}

theorem holder_of_same (hmutex : m'.Mutex = m.Mutex) (hl : l.answers = (locals t).answers) :
    holder m' (Function.update locals t l) = holder m locals := by
  unfold holder
  rw [hmutex]
  congr 1
  funext u
  by_cases hu : u = t
  · rw [hu,Function.update_self,hl]
  · rw [Function.update_of_ne hu]

theorem holder_of_holds (hmutex : m'.Mutex = some t) :
    holder m' (Function.update locals t l) = some (t,entered l.answers) := by
  unfold holder
  rw [hmutex,Option.map_some,Function.update_self]

/-- A turn of `t` is none of the atomic mutex, or it is the one that gives `t` an answer. -/
def LockStep (T : ℤ) (t : τ) (m : MThreadMutex τ) (locals : τ → MthreadLocal) (m' : MThreadMutex τ) (l : MthreadLocal) : Prop :=
  ∃ new, l.answers = (locals t).answers ++ new ∧ runFrom (atomicMutex T) (holder m locals) (new.map (Prod.mk t)) =
    some (holder m' (Function.update locals t l))

theorem follows_of_same (hmutex : m'.Mutex = m.Mutex) (hl : l.answers = (locals t).answers) :
    LockStep T t m locals m' l := by
  refine ⟨[],by rw [List.append_nil,hl],?_⟩
  rw [holder_of_same hmutex hl]
  rfl

theorem follows_of_answer {call : MthreadCall} {r : ℤ} (hl : l.answers = (locals t).answers ++ [(call,r)])
    (hstep : atomicMutex T (holder m locals) (t,call,r) = some (holder m' (Function.update locals t l))) :
    LockStep T t m locals m' l := by
  refine ⟨[(call,r)],hl,?_⟩
  rw [List.map_singleton,runFrom_cons,hstep]
  rfl

theorem lockCall_ne_unlock (tries : Bool) : lockCall tries ≠ .Unlock := by
  cases tries <;> decide

theorem CritOk.holds (hok : CritOk T t m l) (hpos : 0 < entered l.returned) : m.Mutex = some t := by
  by_contra hnot
  have hplace := hok.2
  rw [if_neg hnot] at hplace
  omega

theorem CritOk.inside (hok : CritOk T t m l) (hheld : m.Mutex = some t) : l.pc.Inside t m (entered l.returned) := by
  have hplace := hok.2
  rw [if_pos hheld] at hplace
  exact hplace

/-- A place where no thread is that does not hold the mutex. -/
theorem CritOk.inside_of_not (hok : CritOk T t m l) (hout : ¬l.pc.Outside t m) :
    m.Mutex = some t ∧ l.pc.Inside t m (entered l.returned) := by
  obtain ⟨-,hplace⟩ := hok
  split_ifs at hplace with hheld
  · exact ⟨hheld,hplace⟩
  · exact absurd hplace.2 hout

theorem CritOk.not_held_of_lock {tries : Bool} (hok : CritOk T t m l) (hpc : l.pc = .lock tries) : m.Mutex ≠ some t := by
  intro hheld
  have hin := hok.inside hheld
  rw [hpc] at hin
  exact hin

theorem mthreadAccess_follows (hok : CritOk T t m (locals t))
    (haccess : mthreadAccess t m (locals t) (locals t).pc = some (m',l)) : LockStep T t m locals m' l := by
  have hgoto {pc : MthreadPc} (hmutex : m'.Mutex = m.Mutex) (hl : l = (locals t).goto pc)
      (hpc : pc.pending = (locals t).pc.pending) : LockStep T t m locals m' l := by
    refine follows_of_same hmutex ?_
    rw [hl,MthreadLocal.answers,MthreadLocal.answers,← hpc]
    rfl
  have hret {call : MthreadCall} {r : ℤ} (hl : l = (locals t).ret call r) (hpc : (locals t).pc.pending = [])
      (hstep : atomicMutex T (holder m locals) (t,call,r) = some (holder m' (Function.update locals t l))) :
      LockStep T t m locals m' l := by
    refine follows_of_answer ?_ hstep
    rw [hl,MthreadLocal.answers,MthreadLocal.answers,hpc,List.append_nil]
    exact List.append_nil _
  have hself (hpc : (locals t).pc.pending = []) (hheld : m.Mutex = some t) :
      holder m locals = some (t,entered (locals t).returned) := by
    unfold holder
    rw [hheld,Option.map_some,MthreadLocal.answers,hpc,List.append_nil]
  have hafter {call : MthreadCall} {r : ℤ} (hl : l = (locals t).ret call r) (hheld : m'.Mutex = some t) :
      holder m' (Function.update locals t l) = some (t,entered ((locals t).returned ++ [(call,r)])) := by
    rw [holder_of_holds hheld,hl,MthreadLocal.answers]
    rw [show ((locals t).ret call r).returned ++ ((locals t).ret call r).pc.pending =
      (locals t).returned ++ [(call,r)] from List.append_nil _]
  cases hpc : (locals t).pc with
  | out =>
    rw [hpc] at haccess
    cases haccess
  | lockCount tries =>
    rw [hpc] at haccess
    cases haccess
    refine hgoto rfl rfl ?_
    rw [hpc]
    split_ifs <;> rfl
  | lockOwner tries =>
    rw [hpc,mthreadAccess] at haccess
    split_ifs at haccess with howner htype
    · cases haccess
      obtain ⟨hheld,-⟩ := hok.inside_of_not (by rw [hpc]; exact fun hout => hout howner)
      refine hret rfl (by rw [hpc]; rfl) ?_
      rw [hself (by rw [hpc]; rfl) hheld,hafter rfl hheld,entered_append_of_ne (by decide),atomicMutex,if_pos rfl,
        if_neg (lockCall_ne_unlock tries),if_pos (hok.1.1 ▸ htype),if_pos rfl]
    · cases haccess
      exact hgoto rfl rfl (by rw [hpc]; rfl)
    · cases haccess
      exact hgoto rfl rfl (by rw [hpc]; rfl)
  | again tries =>
    rw [hpc] at haccess
    cases haccess
    exact hgoto rfl rfl (by rw [hpc]; rfl)
  | setAgain tries n =>
    rw [hpc] at haccess
    cases haccess
    obtain ⟨hheld,hin⟩ := hok.inside_of_not (by rw [hpc]; exact id)
    rw [hpc] at hin
    refine hret rfl (by rw [hpc]; rfl) ?_
    rw [hself (by rw [hpc]; rfl) hheld,hafter rfl hheld,entered_append_lockCall,atomicMutex,if_pos rfl,
      if_neg (lockCall_ne_unlock tries),if_neg (hok.1.1 ▸ hin.2.2.2.1),if_pos rfl]
  | lock tries =>
    rw [hpc,mthreadAccess] at haccess
    split_ifs at haccess with hfree htries
    · cases haccess
      have hplace := hok.2
      rw [if_neg (by rw [hfree]; simp)] at hplace
      have hl : (locals t).answers = (locals t).returned := by
        rw [MthreadLocal.answers,hpc]
        exact List.append_nil _
      refine follows_of_answer (show ((locals t).goto (.setOwner tries)).answers =
        (locals t).answers ++ [(lockCall tries,MTHREAD_SUCCESS)] by rw [hl]; rfl) ?_
      rw [holder_of_holds rfl,show ((locals t).goto (.setOwner tries)).answers =
        (locals t).returned ++ [(lockCall tries,MTHREAD_SUCCESS)] from rfl,entered_append_lockCall,hplace.1,
        holder,hfree,Option.map_none,atomicMutex,if_pos ⟨lockCall_ne_unlock tries,rfl⟩]
    · cases haccess
      obtain ⟨u,hu⟩ := Option.ne_none_iff_exists'.mp hfree
      have hut : u ≠ t := fun he => hok.not_held_of_lock hpc (he ▸ hu)
      refine hret rfl (by rw [hpc]; rfl) ?_
      have hother (locals' : τ → MthreadLocal) : holder m locals' = some (u,entered (locals' u).answers) := by
        rw [holder,hu,Option.map_some]
      rw [hother,hother,Function.update_of_ne hut,atomicMutex,if_neg hut,if_pos ⟨rfl,rfl⟩]
  | setOwner tries =>
    rw [hpc] at haccess
    cases haccess
    exact hgoto rfl rfl (by rw [hpc]; rfl)
  | setCount tries =>
    rw [hpc] at haccess
    cases haccess
    refine follows_of_same rfl ?_
    rw [MthreadLocal.answers,MthreadLocal.answers,hpc]
    exact List.append_nil _
  | unlockCount =>
    rw [hpc] at haccess
    cases haccess
    obtain ⟨-,hin⟩ := hok.inside_of_not (by rw [hpc]; exact id)
    rw [hpc] at hin
    have hne : m.LCnt ≠ 0 := by
      have := hin.1
      have := hin.2.1
      omega
    exact hgoto rfl (if_neg hne) (by rw [hpc]; rfl)
  | ownedCount =>
    rw [hpc] at haccess
    cases haccess
    refine hgoto rfl rfl ?_
    rw [hpc]
    split_ifs <;> rfl
  | unlockOwner =>
    rw [hpc] at haccess
    cases haccess
    obtain ⟨-,hin⟩ := hok.inside_of_not (by rw [hpc]; exact id)
    rw [hpc] at hin
    exact hgoto rfl (if_pos hin.2.2) (by rw [hpc]; rfl)
  | less =>
    rw [hpc] at haccess
    cases haccess
    exact hgoto rfl rfl (by rw [hpc]; rfl)
  | setLess n =>
    rw [hpc] at haccess
    cases haccess
    exact hgoto rfl rfl (by rw [hpc]; rfl)
  | leftCount =>
    rw [hpc,mthreadAccess] at haccess
    obtain ⟨hheld,hin⟩ := hok.inside_of_not (by rw [hpc]; exact id)
    rw [hpc] at hin
    split_ifs at haccess with hzero
    · cases haccess
      exact hgoto rfl rfl (by rw [hpc]; rfl)
    · cases haccess
      have hmany : entered (locals t).returned ≠ 1 := by
        have := hin.2.1
        omega
      refine hret rfl (by rw [hpc]; rfl) ?_
      rw [hself (by rw [hpc]; rfl) hheld,hafter rfl hheld,entered_append_unlock,atomicMutex,if_pos rfl,if_pos rfl,
        if_pos rfl,if_neg hmany]
  | unlock =>
    obtain ⟨hheld,hin⟩ := hok.inside_of_not (by rw [hpc]; exact id)
    rw [hpc] at haccess hin
    rw [mthreadAccess,if_pos hheld] at haccess
    cases haccess
    refine hret rfl (by rw [hpc]; rfl) ?_
    rw [hself (by rw [hpc]; rfl) hheld,atomicMutex,if_pos rfl,if_pos rfl,if_pos rfl,if_pos hin.1,holder,Option.map_none]

theorem mthreadTurn_follows {ev : MthreadEv} (hok : CritOk T t m (locals t))
    (hturn : mthreadTurn t m (locals t) ev = some (m',l)) : LockStep T t m locals m' l := by
  cases ev with
  | go => exact mthreadAccess_follows hok hturn
  | call call =>
    rw [mthreadTurn] at hturn
    split_ifs at hturn with hpc
    cases hturn
    refine follows_of_same rfl ?_
    rw [MthreadLocal.answers,MthreadLocal.answers,hpc]
    cases call <;> rfl

/-- The thread that holds the mutex is in it or on its way. -/
theorem CritOk.busy (hok : CritOk T t m l) (hheld : m.Mutex = some t) (hpc : l.pc = .out) : 0 < entered l.returned := by
  have hin := hok.inside hheld
  rw [hpc] at hin
  exact hin.1

/-- Only `pthread_mutex_lock` keeps a thread waiting, and only while another thread is in the mutex or on its way. -/
theorem CritOk.goes_or_waits (hok : CritOk T t m l) (hpc : l.pc ≠ .out) :
    (mthreadTurn t m l .go).isSome ∨ l.pc = .lock false ∧ ∃ u ≠ t, m.Mutex = some u := by
  rw [mthreadTurn]
  cases hl : l.pc with
  | out => exact absurd hl hpc
  | lock tries =>
    rw [mthreadAccess]
    cases hheld : m.Mutex with
    | none => exact Or.inl rfl
    | some u =>
      cases tries with
      | true => exact Or.inl rfl
      | false => exact Or.inr ⟨rfl,u,fun he => hok.not_held_of_lock hl (he ▸ hheld),rfl⟩
  | unlock =>
    obtain ⟨hheld,-⟩ := hok.inside_of_not (by rw [hl]; exact id)
    rw [mthreadAccess,if_pos hheld]
    exact Or.inl rfl
  | lockOwner tries =>
    rw [mthreadAccess]
    split_ifs <;> exact Or.inl rfl
  | _ => exact Or.inl rfl

theorem critOk_start (T : ℤ) (Owner t : τ) : CritOk T t (MthreadMutexCreate T Owner) ⟨.out,[]⟩ := by
  refine ⟨⟨rfl,fun hne => absurd rfl hne⟩,?_⟩
  rw [if_neg (by simp [MthreadMutexCreate])]
  exact ⟨rfl,trivial⟩

/-- A thread locks a mutex twice and unlocks it once, while another one comes for it. -/
def twoThreads : List (Bool × MthreadEv) :=
  [(true,.call .Lock),(true,.go),(false,.call .Lock),(true,.go),(true,.go),(true,.go),(false,.go),(true,.call .Lock),
    (true,.go),(true,.go),(true,.go),(true,.go),(false,.go),(true,.call .Unlock),(true,.go),(true,.go),(true,.go),
    (true,.go),(true,.go),(true,.go)]

end Smx
