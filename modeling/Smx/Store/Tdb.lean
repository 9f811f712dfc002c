import Smx.Base.Bytes

/-! `CDBDriverTdb::Get` and `Set`: a corrupt database is put aside and opened anew, and the access tried again. -/
namespace Smx

/-- `tdb_error`, as far as it is told apart. -/
inductive TdbError
  | noexist
  | corrupt
  | other
  deriving DecidableEq

/-- What a call of `Reopen` meets: the file at the path, if there is one, and which calls of `tdb_open` succeed. -/
structure Reopening where
  file : Option Bytes
  tdb_open : ℕ → Bool

/-- What `read` leaves in `magic`. -/
def magicOf (file : Bytes) : Bytes := file.take 3 ++ (str "00" ++ [0]).drop file.length

/-- `Reopen`: whether there is a handle in `m_db` behind it, which is what it returns. -/
def Reopening.reopen (r : Reopening) : Bool :=
  match r.file with
  | some file => if magicOf file ≠ str "TDB" then false else (List.range 10).any r.tdb_open
  | none => (List.range 10).any r.tdb_open

/-- How the loop of an access is left: with the result of the library, by its condition, or not at all properly, when
the library is called without a handle. -/
inductive LoopEnd (α : Type)
  | done (a : α)
  | left
  | noHandle
  deriving DecidableEq

/-- What the attempts of an access meet: the results of the library, and the calls of `Reopen`. -/
structure TdbAttempts (α : Type) where
  result : ℕ → Except TdbError α
  reopening : ℕ → Reopening

namespace TdbAttempts
variable {α : Type}

/-- The loop of `Get` and `Set` from attempt `i` on, where `db` tells whether `m_db` is a handle: the number of attempts
made, and how it ends. -/
def loop (w : TdbAttempts α) : ℕ → ℕ → ℕ → Bool → Option (ℕ × LoopEnd α)
  | 0,_,_,_ => none
  | fuel+1,i,retry,db =>
    if db then
      match w.result i with
      | .ok a => some (i+1,.done a)
      | .error e =>
        let db := if e = .corrupt then (w.reopening i).reopen else db
        let retry := if e = .corrupt ∧ db then retry+1 else retry
        if retry ≠ 0 ∧ retry < 4 then w.loop fuel (i+1) retry db else some (i+1,.left)
    else some (i+1,.noHandle)

/-- Attempt `i` fails of a corruption that `Reopen` repairs. -/
def Repaired (w : TdbAttempts α) (i : ℕ) : Prop := w.result i = .error .corrupt ∧ (w.reopening i).reopen = true

/-- At most four attempts, each with a handle, and each but the last failed of a corruption that was repaired. -/
structure Proper (w : TdbAttempts α) (n : ℕ) (e : LoopEnd α) : Prop where
  most : n ≤ 4
  handle : e ≠ .noHandle
  repaired : ∀ i, i+1 < n → w.Repaired i

end TdbAttempts

/-- What `Get` returns, if it returns anything: behind the loop there is no `return`. -/
def tdbGet : LoopEnd Bytes → Option Bytes
  | .done str => some str
  | _ => none

/-- What `Set` returns. -/
def tdbSet : LoopEnd Unit → Bool
  | .done _ => true
  | _ => false

/-- `Get` ends after proper attempts, and returns what was fetched or an empty string. -/
def GetBounded (w : TdbAttempts Bytes) : Prop :=
  ∃ fuel n e, w.loop fuel 0 0 true = some (n,e) ∧ w.Proper n e ∧
    ∃ str, tdbGet e = some str ∧ (str = [] ∨ ∃ i < n, w.result i = .ok str)

/-- `Set` ends after proper attempts, and tells whether the last of them has stored the value. -/
def SetBounded (w : TdbAttempts Unit) : Prop :=
  ∃ fuel n e, w.loop fuel 0 0 true = some (n,e) ∧ w.Proper n e ∧ (tdbSet e = true ↔ ∃ i < n, w.result i = .ok ())

namespace TdbAttempts
variable {α : Type} {w : TdbAttempts α} {fuel i k n retry : ℕ} {db : Bool} {a : α} {e : LoopEnd α} {err : TdbError}

theorem loop_done (h : w.result i = .ok a) : w.loop (fuel+1) i retry true = some (i+1,.done a) := by
  rw [loop,if_pos rfl,h]

theorem loop_repaired (h : w.Repaired i) : w.loop (fuel+1) i retry true =
    if retry+1 < 4 then w.loop fuel (i+1) (retry+1) true else some (i+1,.left) := by
  simp [loop,h.1,h.2]

/-- Any other failure leaves `retry` as it is. -/
theorem loop_failed (h : w.result i = .error err) (hrep : ¬w.Repaired i) : w.loop (fuel+1) i retry true =
    if retry ≠ 0 ∧ retry < 4 then w.loop fuel (i+1) retry (err ≠ .corrupt) else some (i+1,.left) := by
  by_cases herr : err = .corrupt
  · have hreopen : (w.reopening i).reopen = false := by
      by_contra hr
      exact hrep ⟨by rw [h,herr],by simpa using hr⟩
    simp [loop,h,herr,hreopen]
  · simp [loop,h,herr]

/-- Each round is one more attempt. -/
theorem lt_of_loop (h : w.loop fuel i retry db = some (n,e)) : i < n := by
  induction fuel generalizing i retry db with
  | zero => cases h
  | succ fuel ih =>
    rw [loop] at h
    split_ifs at h with hdb
    · cases hres : w.result i with
      | ok a =>
        simp only [hres,Option.some.injEq,Prod.mk.injEq] at h
        omega
      | error err =>
        simp only [hres] at h
        split_ifs at h <;> first
          | exact Nat.lt_of_succ_lt (ih h)
          | (simp only [Option.some.injEq,Prod.mk.injEq] at h; omega)
    · simp only [Option.some.injEq,Prod.mk.injEq] at h
      omega

/-- Behind `k` repaired corruptions, fewer than four. -/
theorem loop_of_repaired (fuel : ℕ) (hk : k < 4) (h : ∀ i < k, w.Repaired i) :
    w.loop (fuel+k) 0 0 true = w.loop fuel k k true := by
  induction k generalizing fuel with
  | zero => rfl
  | succ k ih =>
    have hstep := ih (fuel+1) (by omega) fun i hi => h i (by omega)
    rw [Nat.add_right_comm,Nat.add_assoc] at hstep
    rw [hstep,loop_repaired (h k (by omega)),if_pos hk]

theorem exists_not_repaired (w : TdbAttempts α) (m : ℕ) :
    ∃ k ≤ m, (∀ i < k, w.Repaired i) ∧ (k = m ∨ ¬w.Repaired k) := by
  induction m with
  | zero => exact ⟨0,le_rfl,by simp,.inl rfl⟩
  | succ m ih =>
    obtain ⟨k,hk,hrep,hend⟩ := ih
    by_cases hkm : k = m ∧ w.Repaired m
    · refine ⟨m+1,le_rfl,?_,.inl rfl⟩
      intro i hi
      rcases Nat.lt_succ_iff_lt_or_eq.mp hi with hlt | rfl
      · exact hrep i (by omega)
      · exact hkm.2
    · refine ⟨k,by omega,hrep,.inr ?_⟩
      rcases hend with rfl | hend
      · exact fun h => hkm ⟨rfl,h⟩
      · exact hend

theorem loop_some {r : ℕ × LoopEnd α} (hk : k < 4) (hrep : ∀ i < k, w.Repaired i) (h : w.loop fuel 0 0 true = some r) :
    ∃ m, w.loop (m+1) k k true = some r := by
  by_cases hfuel : fuel ≤ k
  · have hnone := loop_of_repaired 0 (by omega : fuel < 4) fun i hi => hrep i (by omega)
    rw [Nat.zero_add,h] at hnone
    cases hnone
  · refine ⟨fuel-k-1,?_⟩
    have heq := loop_of_repaired (fuel-k-1+1) hk hrep
    rw [Nat.sub_add_cancel (by omega),Nat.sub_add_cancel (by omega),h] at heq
    rw [Nat.sub_add_cancel (by omega),heq]

/-- The attempts are proper when corruptions are repaired until there is a result, or until there have been four, or when
the first attempt fails of something else. -/
theorem proper_iff (w : TdbAttempts α) (P : ℕ → LoopEnd α → Prop) :
    (∃ fuel n e, w.loop fuel 0 0 true = some (n,e) ∧ w.Proper n e ∧ P n e) ↔
      (∃ k < 4, (∀ i < k, w.Repaired i) ∧ ∃ a, w.result k = .ok a ∧ P (k+1) (.done a)) ∨
      ((∀ i < 4, w.Repaired i) ∧ P 4 .left) ∨
      ((∃ err, w.result 0 = .error err) ∧ ¬w.Repaired 0 ∧ P 1 .left) := by
  constructor
  · rintro ⟨fuel,n,e,hloop,hproper,hP⟩
    obtain ⟨k,hk,hrep,hend⟩ := exists_not_repaired w 4
    by_cases hall : k = 4
    · subst hall
      obtain ⟨m,hm⟩ := loop_some (k := 3) (by omega) (fun i hi => hrep i (by omega)) hloop
      rw [loop_repaired (hrep 3 (by omega))] at hm
      obtain ⟨rfl,rfl⟩ := Prod.mk.inj (Option.some.inj hm)
      exact .inr (.inl ⟨hrep,hP⟩)
    · have hnot := hend.resolve_left hall
      have hk4 : k < 4 := by omega
      obtain ⟨m,hm⟩ := loop_some hk4 hrep hloop
      cases hres : w.result k with
      | ok a =>
        rw [loop_done hres] at hm
        obtain ⟨rfl,rfl⟩ := Prod.mk.inj (Option.some.inj hm)
        exact .inl ⟨k,hk4,hrep,a,hres,hP⟩
      | error err =>
        rw [loop_failed hres hnot] at hm
        split_ifs at hm with hretry
        · exact absurd (hproper.repaired k (lt_of_loop hm)) hnot
        · obtain ⟨rfl,rfl⟩ := Prod.mk.inj (Option.some.inj hm)
          obtain rfl : k = 0 := by
            by_contra hzero
            exact hretry ⟨hzero,hk4⟩
          exact .inr (.inr ⟨⟨err,hres⟩,hnot,hP⟩)
  · rintro (⟨k,hk,hrep,a,hres,hP⟩ | ⟨hrep,hP⟩ | ⟨⟨err,hres⟩,hnot,hP⟩)
    · refine ⟨1+k,k+1,.done a,?_,⟨by omega,nofun,fun i hi => hrep i (by omega)⟩,hP⟩
      rw [loop_of_repaired _ hk hrep,loop_done hres]
    · refine ⟨1+3,4,.left,?_,⟨le_rfl,nofun,fun i hi => hrep i (by omega)⟩,hP⟩
      rw [loop_of_repaired _ (by omega) fun i hi => hrep i (by omega),loop_repaired (hrep 3 (by omega))]
      rfl
    · refine ⟨1,1,.left,?_,⟨by omega,nofun,fun i hi => by omega⟩,hP⟩
      rw [loop_failed hres hnot]
      rfl

/-- A corruption that is repaired, and from then on failures of another kind. -/
def missAfterRepair (α : Type) (err : TdbError) : TdbAttempts α where
  result i := if i = 0 then .error .corrupt else .error err
  reopening _ := ⟨none,fun _ => true⟩

/-- `retry` is never set back. -/
theorem loop_missAfterRepair (α : Type) (herr : err ≠ .corrupt) (fuel : ℕ) :
    (missAfterRepair α err).loop fuel 0 0 true = none := by
  have hlater (fuel i : ℕ) : (missAfterRepair α err).loop fuel (i+1) 1 true = none := by
    induction fuel generalizing i with
    | zero => rfl
    | succ fuel ih =>
      have hres : (missAfterRepair α err).result (i+1) = .error err := rfl
      have hrep : ¬(missAfterRepair α err).Repaired (i+1) := fun h => herr (by simpa [hres] using h.1)
      rw [loop_failed hres hrep,if_pos (by omega)]
      simpa [herr] using ih (i+1)
  cases fuel with
  | zero => rfl
  | succ fuel =>
    have hrep : (missAfterRepair α err).Repaired 0 := ⟨rfl,rfl⟩
    rw [loop_repaired hrep,if_pos (by omega)]
    exact hlater fuel 0

end TdbAttempts

/-- `Get` is right when it fetches a value behind fewer than four repairs; `Set` also when there have been four repairs, or
when the first attempt fails of something else than a corruption that is repaired. -/
theorem tdb_bounded_iff (get : TdbAttempts Bytes) (set : TdbAttempts Unit) :
    (GetBounded get ↔ ∃ k < 4, (∀ i < k, get.Repaired i) ∧ ∃ str, get.result k = .ok str) ∧
    (SetBounded set ↔ (∃ k < 4, (∀ i < k, set.Repaired i) ∧ set.result k = .ok ()) ∨ (∀ i < 4, set.Repaired i) ∨
      ¬set.Repaired 0) := by
  constructor
  · rw [GetBounded,TdbAttempts.proper_iff get fun n e =>
      ∃ str, tdbGet e = some str ∧ (str = [] ∨ ∃ i < n, get.result i = .ok str)]
    constructor
    · rintro (⟨k,hk,hrep,a,hres,-⟩ | ⟨-,str,hstr,-⟩ | ⟨-,-,str,hstr,-⟩)
      · exact ⟨k,hk,hrep,a,hres⟩
      · cases hstr
      · cases hstr
    · rintro ⟨k,hk,hrep,str,hres⟩
      exact .inl ⟨k,hk,hrep,str,hres,str,rfl,.inr ⟨k,by omega,hres⟩⟩
  · rw [SetBounded,TdbAttempts.proper_iff set fun n e => tdbSet e = true ↔ ∃ i < n, set.result i = .ok ()]
    constructor
    · rintro (⟨k,hk,hrep,a,hres,-⟩ | ⟨hrep,-⟩ | ⟨-,hnot,-⟩)
      · exact .inl ⟨k,hk,hrep,hres⟩
      · exact .inr (.inl hrep)
      · exact .inr (.inr hnot)
    · rintro (⟨k,hk,hrep,hres⟩ | hrep | hnot)
      · exact .inl ⟨k,hk,hrep,(),hres,iff_of_true rfl ⟨k,by omega,hres⟩⟩
      · refine .inr (.inl ⟨hrep,iff_of_false (by simp [tdbSet]) ?_⟩)
        rintro ⟨i,hi,hres⟩
        rw [(hrep i hi).1] at hres
        cases hres
      · cases hres : set.result 0 with
        | ok a => exact .inl ⟨0,by omega,by simp,a,hres,iff_of_true rfl ⟨0,by omega,hres⟩⟩
        | error err =>
          refine .inr (.inr ⟨⟨err,rfl⟩,hnot,iff_of_false (by simp [tdbSet]) ?_⟩)
          rintro ⟨i,hi,hres'⟩
          obtain rfl : i = 0 := by omega
          rw [hres] at hres'
          cases hres'

/-- A miss behind a repair: neither of them ends. -/
theorem miss_never_ends : (∀ fuel, (TdbAttempts.missAfterRepair Bytes .noexist).loop fuel 0 0 true = none) ∧
    (∀ fuel, (TdbAttempts.missAfterRepair Unit .other).loop fuel 0 0 true = none) ∧
    ¬GetBounded (TdbAttempts.missAfterRepair Bytes .noexist) ∧
    ¬SetBounded (TdbAttempts.missAfterRepair Unit .other) := by
  have hget := TdbAttempts.loop_missAfterRepair Bytes (show TdbError.noexist ≠ .corrupt from nofun)
  have hset := TdbAttempts.loop_missAfterRepair Unit (show TdbError.other ≠ .corrupt from nofun)
  refine ⟨hget,hset,?_,?_⟩
  · rintro ⟨fuel,n,e,hloop,-⟩
    rw [hget fuel] at hloop
    cases hloop
  · rintro ⟨fuel,n,e,hloop,-⟩
    rw [hset fuel] at hloop
    cases hloop

end Smx
