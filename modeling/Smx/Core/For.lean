import Mathlib.Algebra.Order.Group.Int
import Mathlib.Tactic.Ring
import Smx.Base.Number
import Smx.Parse.Host

/-! `%for`: the counter and the values that the body sees. -/
namespace Smx

/-- A value of an `int`. -/
def IsInt (x : ℤ) : Prop := -2^31 ≤ x ∧ x < 2^31

instance (x : ℤ) : Decidable (IsInt x) := inferInstanceAs (Decidable (_ ∧ _))

/-- How the loop ends: behind the last value, or where the counter overflows. -/
inductive ForEnd
  | done
  | overflow
  deriving DecidableEq

/-- The test of the loop, by the direction of the step. -/
def forTest (to_ step i : ℤ) : Bool := if 0 < step then i ≤ to_ else to_ ≤ i

section
variable {σ ο : Type} (ok : σ → Bool) (body : ℤ → SmxM σ Unit)

/-- The loop of `EvalFor` from the counter's value `i` on; `none` when the fuel does not last. -/
def forLoop (to_ step : ℤ) : ℕ → ℤ → SmxM σ (Option ForEnd)
  | 0,_ => pure none
  | n+1,i => do
    let s ← EmitM.get
    if ok s ∧ forTest to_ step i then do
      body i
      if IsInt (i+step) then forLoop to_ step n (i+step) else pure (some .overflow)
    else pure (some .done)

/-- No step is a step of one. -/
def stepOf (step : ℤ) : ℤ := if step = 0 then 1 else step

/-- `EvalFor`. `enter` makes the context in which the variable denotes the counter and `break` the flag,
and `parse` evaluates a text there. -/
def evalFor (H : Host σ ο) (enter : Bytes → SmxM σ Unit) (parse : Bytes → ℤ → SmxM σ Unit) (fuel : ℕ)
    (args : List Bytes) : SmxM σ (Option ForEnd) :=
  let var := args.getD 0 []
  match validArgc "for" 4 5 args.length with
  | some ex => do
    H.throwEx ex
    pure (some .done)
  | none =>
    if var = [] then do
      H.throwEx ⟨121,str "for: empty variable name"⟩
      pure (some .done)
    else do
      enter var
      forLoop ok (parse (args.getD 3 [])) (atoi (args.getD 2 [])) (stepOf (atoi (args.getD 4 []))) fuel
        (atoi (args.getD 1 []))

/-- The body runs once for each of some values, until the flag is cleared. -/
def visits : List ℤ → SmxM σ Unit
  | [] => pure ()
  | i::is => do
    let s ← EmitM.get
    if ok s then do
      body i
      visits is
    else pure ()

end

/-- How many values there are from `i` on. -/
def forCount (to_ step i : ℤ) : ℕ :=
  ((if 0 < step then to_-i else i-to_)/(if 0 < step then step else -step)+1).toNat

/-- The values from `i` on. -/
def forValues (to_ step i : ℤ) : List ℤ := (List.range (forCount to_ step i)).map fun k : ℕ => i+(k:ℤ)*step

/-- `%for` ends, and runs its body once for each value in turn. -/
def VisitsAll (args : List Bytes) : Prop :=
  ∀ (σ ο : Type) (H : Host σ ο) (ok : σ → Bool) (enter : Bytes → SmxM σ Unit)
    (parse : Bytes → ℤ → SmxM σ Unit), ∃ f, ∀ n, f ≤ n →
    evalFor ok H enter parse n args = enter (args.getD 0 []) >>= fun _ =>
      visits ok (parse (args.getD 3 [])) (forValues (atoi (args.getD 2 [])) (stepOf (atoi (args.getD 4 [])))
        (atoi (args.getD 1 []))) >>= fun _ => pure (some .done)

/-- The counter can go one step beyond the last value. -/
def RoomBehind (from_ to_ step : ℤ) : Prop :=
  forTest to_ step from_ → IsInt (from_+forCount to_ step from_*step)

section
variable {σ : Type} {ok : σ → Bool} {body : ℤ → SmxM σ Unit} {from_ to_ step i : ℤ}

theorem forCount_of_test (hstep : step ≠ 0) (h : forTest to_ step i = true) :
    forCount to_ step i = forCount to_ step (i+step)+1 := by
  have hdiv (a b : ℤ) (hb : 0 < b) (ha : 0 ≤ a) : (a/b+1).toNat = ((a-b)/b+1).toNat+1 := by
    have hsub : (a-b)/b = a/b-1 := by
      have heq : a-b = a+(-1)*b := by omega
      rw [heq,Int.add_mul_ediv_right _ _ hb.ne']
      omega
    have hpos := Int.ediv_nonneg ha hb.le
    omega
  rw [forCount,forCount]
  by_cases hpos : 0 < step
  · rw [forTest,if_pos hpos] at h
    simp only [if_pos hpos]
    rw [hdiv _ _ hpos (by simpa using h)]
    congr 4
    omega
  · rw [forTest,if_neg hpos] at h
    simp only [if_neg hpos]
    rw [hdiv _ _ (by omega) (by simpa using h)]
    congr 4
    omega

theorem forCount_of_not_test (hstep : step ≠ 0) (h : forTest to_ step i = false) : forCount to_ step i = 0 := by
  have hdiv (a b : ℤ) (hb : 0 < b) (ha : a < 0) : (a/b+1).toNat = 0 := by
    have hneg := Int.ediv_neg_of_neg_of_pos ha hb
    omega
  rw [forCount]
  by_cases hpos : 0 < step
  · rw [forTest,if_pos hpos] at h
    simp only [if_pos hpos]
    exact hdiv _ _ hpos (by simpa using h)
  · rw [forTest,if_neg hpos] at h
    simp only [if_neg hpos]
    exact hdiv _ _ (by omega) (by simpa using h)

theorem forValues_of_test (hstep : step ≠ 0) (h : forTest to_ step i = true) :
    forValues to_ step i = i::forValues to_ step (i+step) := by
  rw [forValues,forCount_of_test hstep h,List.range_succ_eq_map,List.map_cons,List.map_map,forValues]
  congr 1
  · simp
  · apply List.map_congr_left
    intro k _
    simp only [Function.comp,Nat.succ_eq_add_one,Nat.cast_add,Nat.cast_one]
    ring

/-- The values are those that lie between the ends. -/
theorem mem_forValues (hstep : step ≠ 0) {v : ℤ} :
    v ∈ forValues to_ step i ↔ ∃ k : ℕ, v = i+k*step ∧ forTest to_ step v = true := by
  constructor
  · intro h
    induction hc : forCount to_ step i generalizing i with
    | zero =>
      rw [forValues,hc] at h
      cases h
    | succ c ih =>
      cases htest : forTest to_ step i with
      | false =>
        rw [forCount_of_not_test hstep htest] at hc
        cases hc
      | true =>
        rw [forValues_of_test hstep htest] at h
        obtain rfl | h := List.mem_cons.mp h
        · exact ⟨0,by simp,htest⟩
        · rw [forCount_of_test hstep htest] at hc
          obtain ⟨k,rfl,hk⟩ := ih h (Nat.succ.inj hc)
          refine ⟨k+1,?_,hk⟩
          push_cast
          ring
  · intro ⟨k,hv,htest⟩
    induction k generalizing i with
    | zero =>
      have hi : v = i := by simpa using hv
      rw [hi] at htest ⊢
      rw [forValues_of_test hstep htest]
      exact List.mem_cons_self
    | succ k ih =>
      have hi : forTest to_ step i = true := by
        rw [forTest] at htest ⊢
        have hk : v = i+step+k*step := by
          rw [hv]
          push_cast
          ring
        split_ifs at htest ⊢ with hpos
        · have hmul : 0 ≤ (k:ℤ)*step := mul_nonneg (Int.natCast_nonneg k) hpos.le
          simp only [decide_eq_true_eq] at htest ⊢
          omega
        · have hmul : (k:ℤ)*step ≤ 0 := mul_nonpos_of_nonneg_of_nonpos (Int.natCast_nonneg k) (not_lt.mp hpos)
          simp only [decide_eq_true_eq] at htest ⊢
          omega
      rw [forValues_of_test hstep hi]
      refine List.mem_cons_of_mem _ (ih ?_)
      rw [hv]
      push_cast
      ring

/-- The counter stays an `int` up to one step beyond the last value. -/
theorem forLoop_visits (hstep : step ≠ 0)
    (hroom : ∀ v, v ∈ forValues to_ step i → IsInt (v+step)) {n : ℕ} (hn : forCount to_ step i < n) :
    forLoop ok body to_ step n i =
      visits ok body (forValues to_ step i) >>= fun _ => pure (some .done) := by
  induction n generalizing i with
  | zero => exact absurd hn (Nat.not_lt_zero _)
  | succ n ih =>
    rw [forLoop]
    cases htest : forTest to_ step i with
    | false =>
      rw [forValues,forCount_of_not_test hstep htest]
      simp only [Bool.false_eq_true,and_false,if_false]
      exact EmitM.get_bind_const _
    | true =>
      rw [forCount_of_test hstep htest] at hn
      rw [forValues_of_test hstep htest] at hroom ⊢
      have hnext : IsInt (i+step) := hroom i List.mem_cons_self
      have hrec := ih (i := i+step) (fun v hv => hroom v (List.mem_cons_of_mem _ hv)) (by omega)
      rw [visits,bind_assoc]
      congr 1
      funext s
      cases hok : ok s with
      | false => simp
      | true =>
        simp only [and_self,if_true,if_pos hnext,hrec,bind_assoc]

/-- A value between the ends is an `int`. -/
theorem isInt_of_test (hfrom : IsInt from_) (hto : IsInt to_) {k : ℕ}
    (h : forTest to_ step (from_+k*step) = true) : IsInt (from_+k*step) := by
  obtain ⟨hlow,hhigh⟩ := hfrom
  obtain ⟨hlow',hhigh'⟩ := hto
  rw [forTest] at h
  split_ifs at h with hpos
  · have hmul : 0 ≤ (k:ℤ)*step := mul_nonneg (Int.natCast_nonneg k) hpos.le
    have hle := of_decide_eq_true h
    exact ⟨by omega,by omega⟩
  · have hmul : (k:ℤ)*step ≤ 0 := mul_nonpos_of_nonneg_of_nonpos (Int.natCast_nonneg k) (not_lt.mp hpos)
    have hle := of_decide_eq_true h
    exact ⟨by omega,by omega⟩

/-- Behind a value comes another one, or the end. -/
theorem isInt_next (hfrom : IsInt from_) (hto : IsInt to_) (hstep : step ≠ 0) {k : ℕ}
    (hk : k < forCount to_ step from_) (hroom : RoomBehind from_ to_ step) : IsInt (from_+k*step+step) := by
  have hsucc : from_+k*step+step = from_+((k+1:ℕ):ℤ)*step := by
    push_cast
    ring
  rw [hsucc]
  obtain hlt | heq := Nat.lt_or_eq_of_le (Nat.succ_le_of_lt hk)
  · have hmem : from_+((k+1:ℕ):ℤ)*step ∈ forValues to_ step from_ :=
      List.mem_map.mpr ⟨k+1,List.mem_range.mpr hlt,rfl⟩
    obtain ⟨-,-,htest⟩ := (mem_forValues hstep).mp hmem
    exact isInt_of_test hfrom hto htest
  · rw [← Nat.succ_eq_add_one,heq]
    apply hroom
    by_contra htest
    rw [forCount_of_not_test hstep (Bool.eq_false_iff.mpr htest)] at hk
    exact Nat.not_lt_zero k hk

/-- Where the counter overflows, the loop does not end. -/
theorem forLoop_overflows (hstep : step ≠ 0) (htest : forTest to_ step i = true)
    (hover : ¬IsInt (i+forCount to_ step i*step)) (n : ℕ) :
    ((forLoop (fun _ => true) (fun _ => pure ()) to_ step n i : SmxM Unit (Option ForEnd)).run ()).result ≠
      .ok (some .done) := by
  induction n generalizing i with
  | zero => exact nofun
  | succ n ih =>
    rw [forLoop,htest]
    by_cases hnext : IsInt (i+step)
    · simp only [and_self,if_true,if_pos hnext,pure_bind]
      have hcount := forCount_of_test hstep htest
      have hsame : i+step+forCount to_ step (i+step)*step = i+forCount to_ step i*step := by
        rw [hcount]
        push_cast
        ring
      cases hmore : forTest to_ step (i+step) with
      | true =>
        apply ih hmore
        rwa [hsame]
      | false =>
        rw [forCount_of_not_test hstep hmore] at hsame
        rw [← hsame] at hover
        exact absurd (by simpa using hnext) hover
    · simp only [and_self,if_true,if_neg hnext,pure_bind]
      exact nofun

theorem stepOf_ne_zero (step : ℤ) : stepOf step ≠ 0 := by
  rw [stepOf]
  split_ifs with h
  · exact one_ne_zero
  · exact h

theorem evalFor_eq {ο : Type} (H : Host σ ο) (enter : Bytes → SmxM σ Unit) (parse : Bytes → ℤ → SmxM σ Unit)
    (n : ℕ) {args : List Bytes} (hargs : 4 ≤ args.length ∧ args.length ≤ 5) (hvar : args.getD 0 [] ≠ []) :
    evalFor ok H enter parse n args = enter (args.getD 0 []) >>= fun _ =>
      forLoop ok (parse (args.getD 3 [])) (atoi (args.getD 2 [])) (stepOf (atoi (args.getD 4 []))) n
        (atoi (args.getD 1 [])) := by
  have hcount : validArgc "for" 4 5 args.length = none := (validArgc_eq_none _ _ _ _).mpr hargs
  rw [evalFor,hcount]
  simp only [if_neg hvar]

/-- Without room behind the last value, not even an empty body makes the loop end. -/
theorem not_visitsAll {args : List Bytes} (hargs : 4 ≤ args.length ∧ args.length ≤ 5)
    (hvar : args.getD 0 [] ≠ [])
    (htest : forTest (atoi (args.getD 2 [])) (stepOf (atoi (args.getD 4 []))) (atoi (args.getD 1 [])) = true)
    (hover : ¬IsInt (atoi (args.getD 1 [])+forCount (atoi (args.getD 2 [])) (stepOf (atoi (args.getD 4 [])))
      (atoi (args.getD 1 []))*stepOf (atoi (args.getD 4 [])))) : ¬VisitsAll args := by
  intro h
  obtain ⟨f,hf⟩ := h Unit Empty (emptyHost false) (fun _ => true) (fun _ => pure ()) fun _ _ => pure ()
  have hne := forLoop_overflows (stepOf_ne_zero _) htest hover f
  have hall : ∀ is : List ℤ, visits (fun _ => true) (fun _ => pure ()) is = (pure () : SmxM Unit Unit) := by
    intro is
    induction is with
    | nil => rfl
    | cons i is ih =>
      rw [visits,ih]
      rfl
  have heq := hf f le_rfl
  rw [evalFor_eq _ _ _ _ hargs hvar,hall] at heq
  rw [pure_bind,pure_bind,pure_bind] at heq
  rw [heq] at hne
  exact hne rfl

/-- `%for` is right where its counter can go beyond the last value, and nowhere else. -/
theorem visitsAll_iff (args : List Bytes) (hargs : 4 ≤ args.length ∧ args.length ≤ 5)
    (hvar : args.getD 0 [] ≠ []) : VisitsAll args ↔
      RoomBehind (atoi (args.getD 1 [])) (atoi (args.getD 2 [])) (stepOf (atoi (args.getD 4 []))) := by
  constructor
  · intro h htest
    by_contra hover
    exact not_visitsAll hargs hvar htest hover h
  · intro hroom σ ο H ok enter parse
    refine ⟨forCount (atoi (args.getD 2 [])) (stepOf (atoi (args.getD 4 []))) (atoi (args.getD 1 []))+1,
      fun n hn => ?_⟩
    rw [evalFor_eq H enter parse n hargs hvar]
    congr 1
    funext _
    apply forLoop_visits (stepOf_ne_zero _) _ (Nat.lt_of_succ_le hn)
    intro v hv
    obtain ⟨k,hk,rfl⟩ := List.mem_map.mp hv
    exact isInt_next (int32_mem _) (int32_mem _) (stepOf_ne_zero _) (List.mem_range.mp hk) hroom

theorem visitsAll_iff_three : VisitsAll [str "i",str "1",str "3",str "%i%"] ↔
    RoomBehind (atoi (str "1")) (atoi (str "3")) (stepOf (atoi [])) :=
  visitsAll_iff _ (by decide) (by decide)

/-- Up to the greatest `int` the loop does not end. -/
theorem for_greatest : ¬VisitsAll [str "i",str "2147483646",str "2147483647",str "%i%"] := by
  apply not_visitsAll
  · decide
  · decide
  · decide
  · decide

end
end Smx
