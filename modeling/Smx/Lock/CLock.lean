import Smx.Lock.Crit
import Smx.Lib.Holders
import Mathlib.Data.List.Infix

/-! `CLock`: an object that has entered a `CCrit` leaves it again when it is destroyed or assigned to. What a thread calls
through such objects, whatever it does with them, is what `crit_refines` asks of it. -/
namespace Smx
variable {κ γ : Type} [DecidableEq κ] [DecidableEq γ]

/-- What a thread does with its objects; the destructor is a `Leave`. -/
inductive CLockOp (κ γ : Type)
  | construct (k : κ) (pCrit : Option γ)
  | copy (k lock : κ)
  | assign (k lock : κ)
  | Leave (k : κ)

/-- The objects of a thread that hold a `CCrit`, and the calls they have made. -/
structure CLockRun (κ γ : Type) where
  m_pCrit : κ → Option γ
  calls : List (γ × MthreadCall)

namespace CLockRun

/-- An object gets another `m_pCrit`: it enters the new one, and then leaves the old one. -/
def set (r : CLockRun κ γ) (k : κ) (pCrit : Option γ) : CLockRun κ γ :=
  ⟨Function.update r.m_pCrit k pCrit,
    r.calls ++ (pCrit.map (·,.Lock)).toList ++ ((r.m_pCrit k).map (·,.Unlock)).toList⟩

/-- The constructors are for a place where there is no object that holds something. -/
def step (r : CLockRun κ γ) : CLockOp κ γ → Option (CLockRun κ γ)
  | .construct k pCrit => if r.m_pCrit k = none then some (r.set k pCrit) else none
  | .copy k lock => if r.m_pCrit k = none then some (r.set k (r.m_pCrit lock)) else none
  | .assign k lock => some (if r.m_pCrit k = r.m_pCrit lock then r else r.set k (r.m_pCrit lock))
  | .Leave k => some (r.set k none)

def start : CLockRun κ γ := ⟨fun _ => none,[]⟩

end CLockRun

/-- Every prefix of the calls has locked at least as often as it has unlocked. -/
def LocksFirst (calls : List MthreadCall) : Prop :=
  .TryLock ∉ calls ∧ ∀ pre, pre <+: calls → pre.count .Unlock ≤ pre.count .Lock

def callsOn (c : γ) (calls : List (γ × MthreadCall)) : List MthreadCall := (calls.filter (·.1 = c)).map Prod.snd

theorem covered_append {calls : List MthreadCall} (h : LocksFirst calls) :
    LocksFirst (calls ++ [.Lock]) ∧ (calls.count .Unlock < calls.count .Lock → LocksFirst (calls ++ [.Unlock])) := by
  have hone {call : MthreadCall} (hcall : call ≠ .TryLock)
      (hlast : (calls ++ [call]).count .Unlock ≤ (calls ++ [call]).count .Lock) : LocksFirst (calls ++ [call]) := by
    refine ⟨by simp [h.1,Ne.symm hcall],fun pre hpre => ?_⟩
    rcases List.prefix_concat_iff.mp hpre with rfl | hpre
    · exact hlast
    · exact h.2 pre hpre
  have hle := h.2 calls (List.prefix_refl calls)
  refine ⟨hone (by decide) ?_,fun hlt => hone (by decide) ?_⟩
  · simp
    omega
  · simp
    omega

/-- The calls on each `CCrit` are covered, and leave it locked once for each object that holds it. -/
def CLockRun.Counts (r : CLockRun κ γ) : Prop :=
  ∀ c, (Holders.holders r.m_pCrit c).Finite ∧ LocksFirst (callsOn c r.calls) ∧
    (callsOn c r.calls).count .Lock = (callsOn c r.calls).count .Unlock + Holders.count r.m_pCrit c

theorem callsOn_append (c : γ) (calls calls' : List (γ × MthreadCall)) :
    callsOn c (calls ++ calls') = callsOn c calls ++ callsOn c calls' := by
  rw [callsOn,List.filter_append,List.map_append]
  rfl

theorem callsOn_toList (c : γ) (pCrit : Option γ) (call : MthreadCall) :
    callsOn c (pCrit.map (·,call)).toList = if pCrit = some c then [call] else [] := by
  cases pCrit with
  | none => rfl
  | some d =>
    by_cases hd : d = c
    · simp [callsOn,hd]
    · simp [callsOn,hd]

theorem CLockRun.Counts.set {r : CLockRun κ γ} (hr : r.Counts) (k : κ) (pCrit : Option γ) : (r.set k pCrit).Counts := by
  intro c
  obtain ⟨hfin,hcov,hcount⟩ := hr c
  have hupdate : Holders.count (r.set k pCrit).m_pCrit c + (if r.m_pCrit k = some c then 1 else 0) =
      Holders.count r.m_pCrit c + if pCrit = some c then 1 else 0 := Holders.count_update hfin k pCrit
  have hcalls : callsOn c (r.set k pCrit).calls = callsOn c r.calls ++ (if pCrit = some c then [.Lock] else []) ++
      (if r.m_pCrit k = some c then [.Unlock] else []) := by
    rw [← callsOn_toList c pCrit,← callsOn_toList c (r.m_pCrit k),← callsOn_append,← callsOn_append]
    rfl
  have hheld (hk : r.m_pCrit k = some c) : (callsOn c r.calls).count .Unlock < (callsOn c r.calls).count .Lock := by
    have := Holders.count_pos hfin hk
    omega
  rw [hcalls]
  refine ⟨Holders.finite_update hfin,?_,?_⟩
  · by_cases hnew : pCrit = some c <;> by_cases hold : r.m_pCrit k = some c
    · rw [if_pos hnew,if_pos hold]
      refine (covered_append (covered_append hcov).1).2 ?_
      have := hheld hold
      simp
      omega
    · rw [if_pos hnew,if_neg hold,List.append_nil]
      exact (covered_append hcov).1
    · rw [if_neg hnew,if_pos hold,List.append_nil]
      exact (covered_append hcov).2 (hheld hold)
    · rw [if_neg hnew,if_neg hold,List.append_nil,List.append_nil]
      exact hcov
  · rw [List.count_append,List.count_append,List.count_append,List.count_append]
    by_cases hnew : pCrit = some c <;> by_cases hold : r.m_pCrit k = some c
    all_goals
      simp only [hnew,hold,if_true,if_false,List.count_nil] at hupdate ⊢
      simp
      omega

theorem CLockRun.Counts.step {r r' : CLockRun κ γ} {op : CLockOp κ γ} (hr : r.Counts) (hstep : r.step op = some r') :
    r'.Counts := by
  cases op with
  | construct k pCrit =>
    rw [CLockRun.step] at hstep
    split_ifs at hstep
    cases hstep
    exact hr.set k pCrit
  | copy k lock =>
    rw [CLockRun.step] at hstep
    split_ifs at hstep
    cases hstep
    exact hr.set k (r.m_pCrit lock)
  | assign k lock =>
    rw [CLockRun.step] at hstep
    cases hstep
    split_ifs
    · exact hr
    · exact hr.set k (r.m_pCrit lock)
  | Leave k =>
    cases hstep
    exact hr.set k none

omit [DecidableEq κ] in
theorem counts_start : (CLockRun.start : CLockRun κ γ).Counts := by
  intro c
  have hnone : ∀ k, (CLockRun.start : CLockRun κ γ).m_pCrit k ≠ some c := fun _ h => by cases h
  refine ⟨?_,⟨List.not_mem_nil,fun pre hpre => ?_⟩,?_⟩
  · rw [show Holders.holders (CLockRun.start : CLockRun κ γ).m_pCrit c = ∅ from
      Set.eq_empty_of_forall_notMem hnone]
    exact Set.finite_empty
  · rw [List.prefix_nil.mp hpre]
    exact le_refl 0
  · rw [Holders.count_eq_zero hnone]
    rfl

section
variable {τ : Type} [DecidableEq τ] {t : τ} {m m' : MThreadMutex τ} {l l' : MthreadLocal} {calls : List MthreadCall}

def MthreadEv.called : MthreadEv → Option MthreadCall
  | .call c => some c
  | .go => none

def callsBy (t : τ) (evs : List (τ × MthreadEv)) : List MthreadCall :=
  (evs.filter (·.1 = t)).filterMap fun ev => ev.2.called

/-- A thread in `MthreadMutexLock`. -/
def MthreadPc.entering : MthreadPc → ℕ
  | .lockCount _ | .lockOwner _ | .again _ | .setAgain _ _ | .lock _ | .setOwner _ | .setCount _ => 1
  | _ => 0

/-- A thread in `MthreadMutexUnlock`. -/
def MthreadPc.leaving : MthreadPc → ℕ
  | .unlockCount | .ownedCount | .unlockOwner | .less | .setLess _ | .leftCount | .unlock => 1
  | _ => 0

def MthreadPc.untried : MthreadPc → Prop
  | .lockCount tries | .lockOwner tries | .again tries | .setAgain tries _ | .lock tries | .setOwner tries | .setCount tries =>
    tries = false
  | _ => True

/-- The calls a thread has made against what they have returned. -/
def Tracks (calls : List MthreadCall) (l : MthreadLocal) : Prop :=
  l.pc.untried ∧ calls.count .Lock + l.pc.leaving = calls.count .Unlock + l.pc.entering + entered l.returned

theorem tracks_goto (htracks : Tracks calls l) {pc : MthreadPc} (huntried : l.pc.untried → pc.untried)
    (henter : pc.entering = l.pc.entering) (hleave : pc.leaving = l.pc.leaving) : Tracks calls (l.goto pc) := by
  refine ⟨huntried htracks.1,?_⟩
  have hcount := htracks.2
  rw [← henter,← hleave] at hcount
  exact hcount

theorem tracks_lock (htracks : Tracks calls l) (henter : l.pc.entering = 1) (hleave : l.pc.leaving = 0) (tries : Bool) :
    Tracks calls (l.ret (lockCall tries) MTHREAD_SUCCESS) := by
  have hcount := htracks.2
  refine ⟨trivial,?_⟩
  change calls.count .Lock + 0 = calls.count .Unlock + 0 + entered (l.returned ++ [(lockCall tries,MTHREAD_SUCCESS)])
  rw [entered_append_lockCall]
  omega

theorem tracks_unlock (htracks : Tracks calls l) (henter : l.pc.entering = 0) (hleave : l.pc.leaving = 1)
    (hpos : 0 < entered l.returned) : Tracks calls (l.ret .Unlock MTHREAD_SUCCESS) := by
  have hcount := htracks.2
  refine ⟨trivial,?_⟩
  change calls.count .Lock + 0 = calls.count .Unlock + 0 + entered (l.returned ++ [(.Unlock,MTHREAD_SUCCESS)])
  rw [entered_append_unlock]
  omega

/-- A mutex that may be locked again answers every call of a thread that does not try with success. -/
theorem tracks_access (hok : CritOk MTHREAD_RECURSIVE_MUTEX t m l) (htracks : Tracks calls l)
    (haccess : mthreadAccess t m l l.pc = some (m',l')) : Tracks calls l' := by
  obtain ⟨hm,hplace⟩ := hok
  have htries := htracks.1
  have hinside (hnot : ¬l.pc.Outside t m) : l.pc.Inside t m (entered l.returned) := by
    split_ifs at hplace
    · exact hplace
    · exact absurd hplace.2 hnot
  cases hpc : l.pc with
  | out =>
    rw [hpc] at haccess
    cases haccess
  | lockCount tries =>
    rw [hpc] at haccess
    cases haccess
    split_ifs
    · exact tracks_goto htracks (by rw [hpc]; exact id) (by rw [hpc]; rfl) (by rw [hpc]; rfl)
    · exact tracks_goto htracks (by rw [hpc]; exact id) (by rw [hpc]; rfl) (by rw [hpc]; rfl)
  | lockOwner tries =>
    have htype : m.MutexType ≠ MTHREAD_NON_RECURSIVE_MUTEX := by
      rw [hm.1]
      decide
    rw [hpc,mthreadAccess,if_neg htype] at haccess
    split_ifs at haccess
    · cases haccess
      exact tracks_goto htracks (by rw [hpc]; exact id) (by rw [hpc]; rfl) (by rw [hpc]; rfl)
    · cases haccess
      exact tracks_goto htracks (by rw [hpc]; exact id) (by rw [hpc]; rfl) (by rw [hpc]; rfl)
  | again tries =>
    rw [hpc] at haccess
    cases haccess
    exact tracks_goto htracks (by rw [hpc]; exact id) (by rw [hpc]; rfl) (by rw [hpc]; rfl)
  | setAgain tries n =>
    rw [hpc] at haccess
    cases haccess
    exact tracks_lock htracks (by rw [hpc]; rfl) (by rw [hpc]; rfl) tries
  | lock tries =>
    rw [hpc] at htries
    rw [hpc,mthreadAccess,show tries = false from htries] at haccess
    split_ifs at haccess with hfree hfalse
    · cases haccess
      exact tracks_goto htracks (fun _ => rfl) (by rw [hpc]; rfl) (by rw [hpc]; rfl)
    · cases hfalse
  | setOwner tries =>
    rw [hpc] at haccess
    cases haccess
    exact tracks_goto htracks (by rw [hpc]; exact id) (by rw [hpc]; rfl) (by rw [hpc]; rfl)
  | setCount tries =>
    rw [hpc] at haccess
    cases haccess
    exact tracks_lock htracks (by rw [hpc]; rfl) (by rw [hpc]; rfl) tries
  | unlockCount =>
    have hin := hinside (by rw [hpc]; exact not_false)
    rw [hpc] at haccess hin
    have hne : m.LCnt ≠ 0 := by
      have := hin.1
      have := hin.2.1
      omega
    rw [mthreadAccess,if_neg hne] at haccess
    cases haccess
    exact tracks_goto htracks (fun _ => trivial) (by rw [hpc]; rfl) (by rw [hpc]; rfl)
  | ownedCount =>
    rw [hpc] at haccess
    cases haccess
    split_ifs
    · exact tracks_goto htracks (fun _ => trivial) (by rw [hpc]; rfl) (by rw [hpc]; rfl)
    · exact tracks_goto htracks (fun _ => trivial) (by rw [hpc]; rfl) (by rw [hpc]; rfl)
  | unlockOwner =>
    have hin := hinside (by rw [hpc]; exact not_false)
    rw [hpc] at haccess hin
    rw [mthreadAccess,if_pos hin.2.2] at haccess
    cases haccess
    exact tracks_goto htracks (fun _ => trivial) (by rw [hpc]; rfl) (by rw [hpc]; rfl)
  | less =>
    rw [hpc] at haccess
    cases haccess
    exact tracks_goto htracks (fun _ => trivial) (by rw [hpc]; rfl) (by rw [hpc]; rfl)
  | setLess n =>
    rw [hpc] at haccess
    cases haccess
    exact tracks_goto htracks (fun _ => trivial) (by rw [hpc]; rfl) (by rw [hpc]; rfl)
  | leftCount =>
    have hin := hinside (by rw [hpc]; exact not_false)
    rw [hpc] at haccess hin
    rw [mthreadAccess] at haccess
    cases haccess
    split_ifs
    · exact tracks_goto htracks (fun _ => trivial) (by rw [hpc]; rfl) (by rw [hpc]; rfl)
    · exact tracks_unlock htracks (by rw [hpc]; rfl) (by rw [hpc]; rfl) hin.1
  | unlock =>
    have hin := hinside (by rw [hpc]; exact not_false)
    rw [hpc] at haccess hin
    rw [mthreadAccess] at haccess
    split_ifs at haccess
    cases haccess
    exact tracks_unlock htracks (by rw [hpc]; rfl) (by rw [hpc]; rfl) (by rw [hin.1]; exact Nat.one_pos)

theorem tracks_call {call : MthreadCall} (htracks : Tracks calls l) (hpc : l.pc = .out) (htry : call ≠ .TryLock) :
    Tracks (calls ++ [call]) (l.goto call.begin) := by
  have hcount := htracks.2
  rw [hpc] at hcount
  cases call with
  | TryLock => exact absurd rfl htry
  | Lock =>
    refine ⟨rfl,?_⟩
    rw [List.count_append,List.count_append]
    change calls.count .Lock + 1 + 0 = calls.count .Unlock + 0 + 1 + entered l.returned
    change calls.count .Lock + 0 = calls.count .Unlock + 0 + entered l.returned at hcount
    omega
  | Unlock =>
    refine ⟨trivial,?_⟩
    rw [List.count_append,List.count_append]
    change calls.count .Lock + 0 + 1 = calls.count .Unlock + 1 + 0 + entered l.returned
    change calls.count .Lock + 0 = calls.count .Unlock + 0 + entered l.returned at hcount
    omega

theorem callsBy_cons (t : τ) (ev : τ × MthreadEv) (evs : List (τ × MthreadEv)) :
    callsBy t (ev::evs) = callsBy t [ev] ++ callsBy t evs := by
  rw [callsBy,← List.singleton_append,List.filter_append,List.filterMap_append]
  rfl

theorem callsBy_other {ev : τ × MthreadEv} (ht : t ≠ ev.1) : callsBy t [ev] = [] := by
  rw [callsBy,List.filter_singleton]
  simp [Ne.symm ht]

theorem callsBy_self (ev : τ × MthreadEv) : callsBy ev.1 [ev] = ev.2.called.toList := by
  obtain ⟨t,e⟩ := ev
  rw [callsBy,show [(t,e)].filter (·.1 = t) = [(t,e)] by simp]
  cases e <;> rfl

theorem LocksFirst.unlock_lt {past rest : List MthreadCall} (h : LocksFirst (past ++ .Unlock::rest)) :
    past.count .Unlock < past.count .Lock := by
  have hpre : past ++ [.Unlock] <+: past ++ .Unlock::rest := ⟨rest,by simp⟩
  have hle := h.2 _ hpre
  simp at hle
  omega

variable {s s' : MthreadSys τ} {evs : List (τ × MthreadEv)}

/-- Threads whose calls are covered unlock only what they have locked, and what they have locked is what the calls say. -/
theorem covered_run {past : τ → List MthreadCall} (hs : ∀ u, CritOk MTHREAD_RECURSIVE_MUTEX u s.shared (s.locals u))
    (htracks : ∀ u, Tracks (past u) (s.locals u)) (hcov : ∀ u, LocksFirst (past u ++ callsBy u evs))
    (hrun : runFrom (Threads.Sys.step mthreadTurn) s evs = some s') :
    Threads.Allowed mthreadTurn CritMay s evs ∧ ∀ u, Tracks (past u ++ callsBy u evs) (s'.locals u) := by
  induction evs generalizing s past with
  | nil =>
    obtain rfl := Option.some.inj hrun
    exact ⟨meetsOnly_nil s,fun u => by rw [show callsBy u [] = [] from rfl,List.append_nil]; exact htracks u⟩
  | cons ev evs ih =>
    rw [runFrom_cons] at hrun
    obtain ⟨s₁,hstep,hrun⟩ := Option.bind_eq_some_iff.mp hrun
    have hcov' (u : τ) : LocksFirst (past u ++ callsBy u [ev] ++ callsBy u evs) := by
      rw [List.append_assoc,← callsBy_cons]
      exact hcov u
    obtain ⟨m',l',hturn,rfl⟩ := Threads.Sys.step_eq_some.mp hstep
    have hmine := callsBy_self ev
    have hmay : CritMay ev.1 s.shared (s.locals ev.1) ev.2 := by
      intro hev
      rw [hev] at hmine hturn
      have hunlock : LocksFirst (past ev.1 ++ .Unlock::callsBy ev.1 evs) := by
        have h := hcov' ev.1
        rw [hmine,List.append_assoc] at h
        exact h
      have hlt := hunlock.unlock_lt
      rw [mthreadTurn] at hturn
      split_ifs at hturn with hpc
      have hcount := (htracks ev.1).2
      rw [hpc] at hcount
      change (past ev.1).count .Lock + 0 = (past ev.1).count .Unlock + 0 + entered (s.locals ev.1).returned at hcount
      omega
    have htracks' (u : τ) : Tracks (past u ++ callsBy u [ev]) (Function.update s.locals ev.1 l' u) := by
      by_cases hu : u = ev.1
      · rw [hu,Function.update_self,hmine]
        have htracked := htracks ev.1
        cases he : ev.2 with
        | go =>
          rw [he] at hturn
          rw [show MthreadEv.go.called.toList = [] from rfl,List.append_nil]
          exact tracks_access (hs ev.1) htracked hturn
        | call call =>
          rw [he,mthreadTurn] at hturn
          split_ifs at hturn with hpc
          cases hturn
          refine tracks_call htracked hpc fun htry => ?_
          have h := (hcov' ev.1).1
          rw [hmine,he,htry] at h
          exact h (by simp [MthreadEv.called])
      · rw [Function.update_of_ne hu,callsBy_other hu,List.append_nil]
        exact htracks u
    have hs' := (critRelies MTHREAD_RECURSIVE_MUTEX).step hs hmay hstep
    obtain ⟨hallowed,hend⟩ := ih hs' htracks' hcov' hrun
    refine ⟨meetsOnly_cons.mpr ⟨hmay,fun t ht => ?_⟩,fun u => ?_⟩
    · rw [hstep] at ht
      obtain rfl := Option.some.inj ht
      exact hallowed
    · rw [callsBy_cons,← List.append_assoc]
      exact hend u

theorem LocksFirst.cut_short {calls calls' : List MthreadCall} (h : LocksFirst calls') (hpre : calls <+: calls') : LocksFirst calls :=
  ⟨fun htry => h.1 (hpre.subset htry),fun pre hp => h.2 pre (hp.trans hpre)⟩

end

/-- A thread that makes an object and a copy of it and drops the first one, and another one that makes an object. -/
def twoPrograms : Bool → List (CLockOp ℕ Unit)
  | true => [.construct 0 (some ()),.copy 1 0,.Leave 0]
  | false => [.construct 0 (some ())]

def twoRuns (t : Bool) : CLockRun ℕ Unit :=
  (runFrom CLockRun.step CLockRun.start (twoPrograms t)).get (by cases t <;> rfl)

end Smx
