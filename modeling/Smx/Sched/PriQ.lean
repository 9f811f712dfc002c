import Smx.Lib.MaxHeap
import Smx.Lib.Run

/-! `qPriQ`: a priority queue in an array whose position 0 holds the sentinel `compMAX`. -/
namespace Smx
open MaxHeap

/-- `posType`: a priority with what is stored under it. -/
structure Pos (γ ο : Type) where
  c : γ
  s : ο
  deriving DecidableEq, Repr

structure PriQ (γ ο : Type) where
  p : ℕ → Pos γ ο
  N : ℕ
  Max : ℕ
  compMAX : γ

namespace PriQ
variable {γ ο : Type} [LinearOrder γ]

/-- The priorities by position. -/
def key (p : ℕ → Pos γ ο) (k : ℕ) : γ := (p k).c

/-- The loop of `upheap`, with `k/2` halved at most `fuel` times. -/
def upLoop (v : Pos γ ο) : ℕ → ℕ → (ℕ → Pos γ ο) → ℕ → Pos γ ο
  | 0,_,p => p
  | fuel+1,k,p =>
    if (p (k/2)).c ≤ v.c then upLoop v fuel (k/2) (Function.update p k (p (k/2)))
    else Function.update p k v

def upheap (q : PriQ γ ο) (k : ℕ) : PriQ γ ο :=
  let v := q.p k
  { q with p := upLoop v (k+1) k (Function.update q.p 0 { q.p 0 with c := q.compMAX }) }

/-- The greater child of `k`, the left one when they are equal. -/
def child (p : ℕ → Pos γ ο) (N k : ℕ) : ℕ :=
  let j := k+k
  if j < N ∧ (p j).c < (p (j+1)).c then j+1 else j

/-- The loop of `downheap`. -/
def downLoop (v : Pos γ ο) (N : ℕ) : ℕ → ℕ → (ℕ → Pos γ ο) → ℕ → Pos γ ο
  | 0,_,p => p
  | fuel+1,k,p =>
    if k ≤ N/2 then
      let j := child p N k
      if (p j).c ≤ v.c then Function.update p k v
      else downLoop v N fuel j (Function.update p k (p j))
    else Function.update p k v

def downheap (q : PriQ γ ο) (k : ℕ) : PriQ γ ο :=
  { q with p := downLoop (q.p k) q.N (q.N+1) k q.p }

variable (blank : ℕ → Pos γ ο)

/-- `new posType[newMax+1]` holds anything at first. -/
def grow (q : PriQ γ ο) (newMax : ℕ) : PriQ γ ο :=
  { q with p := fun i => if 1 ≤ i ∧ i ≤ q.N then q.p i else blank i, Max := newMax }

def minGrow : ℕ := 4

/-- The constructor. -/
def new (mComp : γ) (mElem : ℕ) : PriQ γ ο := ⟨blank,0,mElem,mComp⟩

/-- `insert`; the source asserts `c < compMAX`. -/
def insert (q : PriQ γ ο) (c : γ) (x : ο) : PriQ γ ο :=
  let q := if q.Max ≤ q.N then
    grow blank q (if q.Max < minGrow then minGrow else q.Max*2) else q
  upheap { q with p := Function.update q.p (q.N+1) ⟨c,x⟩, N := q.N+1 } (q.N+1)

/-- `remove(i)`: the last leaf takes the place of position `i` and sinks. -/
def remove (q : PriQ γ ο) (i : ℕ) : ο × PriQ γ ο :=
  ((q.p i).s,downheap { q with p := Function.update q.p i (q.p q.N), N := q.N-1 } i)

/-- `operator =`, and the copy constructor. -/
def copy (q : PriQ γ ο) : PriQ γ ο :=
  ⟨fun i => if 1 ≤ i ∧ i ≤ q.N then q.p i else blank i,q.N,q.N,q.compMAX⟩

def peek (q : PriQ γ ο) : ο := (q.p 1).s

theorem child_div (p : ℕ → Pos γ ο) (N k : ℕ) : child p N k/2 = k := by
  simp only [child]
  split_ifs <;> omega

theorem child_le {p : ℕ → Pos γ ο} {N k : ℕ} (h : k ≤ N/2) : child p N k ≤ N := by
  simp only [child]
  split_ifs with hright
  · exact hright.1
  · omega

theorem le_child {p : ℕ → Pos γ ο} {N k i : ℕ} (hi : i ≤ N) (hik : i/2 = k) (h2 : 2 ≤ i) :
    (p i).c ≤ (p (child p N k)).c := by
  have hcases : i = k+k ∨ i = k+k+1 := by omega
  simp only [child]
  split_ifs with hright
  · obtain rfl | rfl := hcases
    · exact hright.2.le
    · exact le_refl _
  · obtain rfl | rfl := hcases
    · exact le_refl _
    · exact not_lt.mp fun hlt => hright ⟨hi,hlt⟩

omit [LinearOrder γ] in
theorem key_update (p : ℕ → Pos γ ο) (k : ℕ) (v : Pos γ ο) :
    key (Function.update p k v) = Function.update (key p) k v.c := by
  funext i
  by_cases h : i = k
  · subst h
    simp [key]
  · simp [key,h]

/-- On the way up: the value is no less than the children of its hole. -/
theorem upLoop_isHeap {v : Pos γ ο} {n fuel k : ℕ} {p : ℕ → Pos γ ο} (hfuel : k < fuel)
    (hk : 1 ≤ k) (h0 : v.c < (p 0).c) (haround : Around (key p) n k)
    (hbelow : ∀ j, 2 ≤ j → j ≤ n → j/2 = k → key p j ≤ v.c) :
    IsHeap (key (upLoop v fuel k p)) n := by
  induction fuel generalizing k p with
  | zero => omega
  | succ fuel ih =>
    rw [upLoop]
    by_cases hle : (p (k/2)).c ≤ v.c
    · have h2 : 2 ≤ k := by
        by_contra hlt
        obtain rfl : k = 1 := by omega
        exact absurd hle (not_le.mpr h0)
      rw [if_pos hle]
      have hne : k ≠ 0 := by omega
      refine ih (by omega) (by omega) ?_ ?_ ?_
      · rwa [Function.update_of_ne hne.symm]
      · rw [key_update]
        exact haround.up h2
      · intro j hj2 hjn hjk
        rw [key_update]
        by_cases hj : j = k
        · rw [hj,Function.update_self]
          exact hle
        · rw [Function.update_of_ne hj]
          have hparent := haround.off j hj2 hjn hj (by omega)
          rw [hjk] at hparent
          exact hparent.trans hle
    · rw [if_neg hle,key_update]
      exact haround.fill (fun _ => (not_le.mp hle).le) hbelow

theorem upLoop_contents {v : Pos γ ο} {n fuel k : ℕ} {p : ℕ → Pos γ ο} (hfuel : k < fuel)
    (hk : 1 ≤ k) (hn : k ≤ n) (h0 : v.c < (p 0).c) :
    contents (upLoop v fuel k p) n = contents (Function.update p k v) n := by
  induction fuel generalizing k p with
  | zero => omega
  | succ fuel ih =>
    rw [upLoop]
    by_cases hle : (p (k/2)).c ≤ v.c
    · have h2 : 2 ≤ k := by
        by_contra hlt
        obtain rfl : k = 1 := by omega
        exact absurd hle (not_le.mpr h0)
      have hne : k ≠ 0 := by omega
      rw [if_pos hle,ih (by omega) (by omega) (by omega) (by rwa [Function.update_of_ne hne.symm])]
      exact contents_move (Finset.mem_Icc.mpr ⟨hk,hn⟩) (Finset.mem_Icc.mpr ⟨by omega,by omega⟩) v
    · rw [if_neg hle]

/-- On the way down: the value is no more than the parent of its hole. -/
theorem downLoop_isHeap {v : Pos γ ο} {n fuel k : ℕ} {p : ℕ → Pos γ ο} (hfuel : n < fuel+k)
    (hk : 1 ≤ k) (haround : Around (key p) n k) (habove : 2 ≤ k → v.c ≤ key p (k/2)) :
    IsHeap (key (downLoop v n fuel k p)) n := by
  induction fuel generalizing k p with
  | zero =>
    rw [downLoop]
    intro j h2 hn
    exact haround.off j h2 hn (by omega) (by omega)
  | succ fuel ih =>
    rw [downLoop]
    by_cases hin : k ≤ n/2
    · have hdiv := child_div p n k
      have hle := child_le (p := p) hin
      rw [if_pos hin]
      by_cases hstop : (p (child p n k)).c ≤ v.c
      · rw [if_pos hstop,key_update]
        exact haround.fill habove fun j h2 hn hj => (le_child hn hj h2).trans hstop
      · rw [if_neg hstop]
        have hne : k ≠ child p n k := by omega
        refine ih (by omega) (by omega) ?_ fun _ => ?_
        · rw [key_update]
          exact haround.down hk hdiv hle fun i h2 hi hik => le_child hi hik h2
        · rw [key_update,hdiv,Function.update_self]
          exact (not_le.mp hstop).le
    · rw [if_neg hin,key_update]
      exact haround.fill habove fun j h2 hn hj => by omega

theorem downLoop_contents {v : Pos γ ο} {n fuel k : ℕ} {p : ℕ → Pos γ ο} (hfuel : n < fuel+k)
    (hk : 1 ≤ k) (hn : k ≤ n) : contents (downLoop v n fuel k p) n =
      contents (Function.update p k v) n := by
  induction fuel generalizing k p with
  | zero => omega
  | succ fuel ih =>
    rw [downLoop]
    by_cases hin : k ≤ n/2
    · have hdiv := child_div p n k
      have hle := child_le (p := p) hin
      rw [if_pos hin]
      by_cases hstop : (p (child p n k)).c ≤ v.c
      · rw [if_pos hstop]
      · rw [if_neg hstop,ih (by omega) (by omega) hle]
        exact contents_move (Finset.mem_Icc.mpr ⟨hk,hn⟩) (Finset.mem_Icc.mpr ⟨by omega,hle⟩) v
    · rw [if_neg hin]

theorem upheap_isHeap {q : PriQ γ ο} {n k : ℕ} (hk : 1 ≤ k) (hn : k ≤ n)
    (hmax : (q.p k).c < q.compMAX) (haround : Around (key q.p) n k)
    (hbelow : ∀ j, 2 ≤ j → j ≤ n → j/2 = k → key q.p j ≤ (q.p k).c) :
    IsHeap (key (upheap q k).p) n := by
  have hne (j : ℕ) (hj : 1 ≤ j) : j ≠ 0 := by omega
  refine upLoop_isHeap (by omega) hk ?_ (haround.congr (fun j hj _ => ?_) (by omega)) ?_
  · rw [Function.update_self]
    exact hmax
  · rw [key_update,Function.update_of_ne (hne j hj)]
  · intro j h2 hjn hjk
    rw [key_update,Function.update_of_ne (hne j (by omega))]
    exact hbelow j h2 hjn hjk

theorem upheap_contents {q : PriQ γ ο} {n k : ℕ} (hk : 1 ≤ k) (hn : k ≤ n)
    (hmax : (q.p k).c < q.compMAX) : contents (upheap q k).p n = contents q.p n := by
  rw [upheap,upLoop_contents (by omega) hk hn (by rw [Function.update_self]; exact hmax)]
  refine contents_congr fun j hj _ => ?_
  have hj0 : j ≠ 0 := by omega
  by_cases hjk : j = k
  · rw [hjk,Function.update_self]
  · rw [Function.update_of_ne hjk,Function.update_of_ne hj0]

omit [LinearOrder γ] in
theorem grow_p (q : PriQ γ ο) (newMax : ℕ) {k : ℕ} (h1 : 1 ≤ k) (hn : k ≤ q.N) :
    (grow blank q newMax).p k = q.p k := if_pos ⟨h1,hn⟩

/-- The queue with a free position after the last one. -/
def roomy (q : PriQ γ ο) : PriQ γ ο :=
  if q.Max ≤ q.N then grow blank q (if q.Max < minGrow then minGrow else q.Max*2) else q

omit [LinearOrder γ] in
theorem roomy_spec {q : PriQ γ ο} (h : q.N ≤ q.Max) :
    (roomy blank q).N = q.N ∧ (roomy blank q).compMAX = q.compMAX ∧
      q.N+1 ≤ (roomy blank q).Max ∧ ∀ k, 1 ≤ k → k ≤ q.N → (roomy blank q).p k = q.p k := by
  unfold roomy
  split_ifs with hfull hsmall
  · refine ⟨rfl,rfl,?_,fun k h1 hn => grow_p blank q _ h1 hn⟩
    change q.N+1 ≤ minGrow
    omega
  · refine ⟨rfl,rfl,?_,fun k h1 hn => grow_p blank q _ h1 hn⟩
    change q.N+1 ≤ q.Max*2
    have hpos : minGrow = 4 := rfl
    omega
  · exact ⟨rfl,rfl,by omega,fun _ _ _ => rfl⟩

theorem insert_eq (q : PriQ γ ο) (c : γ) (x : ο) : insert blank q c x =
    upheap { roomy blank q with
      p := Function.update (roomy blank q).p ((roomy blank q).N+1) ⟨c,x⟩
      N := (roomy blank q).N+1 } ((roomy blank q).N+1) := rfl

theorem insert_N {q : PriQ γ ο} (h : q.N ≤ q.Max) (c : γ) (x : ο) :
    (insert blank q c x).N = q.N+1 ∧ q.N+1 ≤ (insert blank q c x).Max ∧
      (insert blank q c x).compMAX = q.compMAX := by
  obtain ⟨hN,hmax,hroom,-⟩ := roomy_spec blank h
  exact ⟨congrArg (· + 1) hN,hroom,hmax⟩

theorem insert_isHeap {q : PriQ γ ο} (h : q.N ≤ q.Max) (hheap : IsHeap (key q.p) q.N) {c : γ}
    (hc : c < q.compMAX) (x : ο) : IsHeap (key (insert blank q c x).p) (q.N+1) := by
  obtain ⟨hN,hmax,-,hp⟩ := roomy_spec blank h
  rw [insert_eq,hN]
  refine upheap_isHeap (by omega) le_rfl ?_ ⟨fun j h2 hjn hj hjp => ?_,fun _ j hjn hj => ?_⟩
    fun j h2 hjn hj => ?_
  · simp only [Function.update_self,hmax]
    exact hc
  · have hj2 : j/2 ≠ q.N+1 := by omega
    rw [key_update,Function.update_of_ne hj,Function.update_of_ne hj2]
    have hpj : (roomy blank q).p j = q.p j := hp j (by omega) (by omega)
    have hpp : (roomy blank q).p (j/2) = q.p (j/2) := hp (j/2) (by omega) (by omega)
    rw [key,key,hpj,hpp]
    exact hheap j h2 (by omega)
  · omega
  · omega

theorem insert_contents {q : PriQ γ ο} (h : q.N ≤ q.Max) {c : γ} (hc : c < q.compMAX) (x : ο) :
    contents (insert blank q c x).p (q.N+1) = ⟨c,x⟩::ₘcontents q.p q.N := by
  obtain ⟨hN,hmax,-,hp⟩ := roomy_spec blank h
  rw [insert_eq,hN,upheap_contents (by omega) le_rfl,contents_succ]
  · simp only [Function.update_self]
    refine congrArg (Multiset.cons _) (contents_congr fun k h1 hk => ?_)
    have hne : k ≠ q.N+1 := by omega
    rw [Function.update_of_ne hne]
    exact hp k h1 hk
  · simp only [Function.update_self,hmax]
    exact hc

theorem remove_p (q : PriQ γ ο) (i : ℕ) : (remove q i).2.p =
    downLoop (q.p q.N) (q.N-1) (q.N-1+1) i (Function.update q.p i (q.p q.N)) := by
  simp only [remove,downheap,Function.update_self]

/-- Nothing but the entry at `i` goes. -/
theorem remove_contents {q : PriQ γ ο} {i : ℕ} (h1 : 1 ≤ i) (hi : i ≤ q.N) :
    contents q.p q.N = q.p i::ₘcontents (remove q i).2.p (q.N-1) := by
  obtain ⟨n,hN⟩ : ∃ n, q.N = n+1 := ⟨q.N-1,by omega⟩
  have hsub : q.N-1 = n := by omega
  rw [remove_p,hsub]
  by_cases hlast : i = q.N
  · have hout : ¬ i ≤ n/2 := by omega
    have hrest : contents (Function.update q.p i (q.p i)) n = contents q.p n := by
      rw [Function.update_eq_self]
    rw [downLoop,if_neg hout,Function.update_idem,← hlast,hrest,hlast,hN]
    exact contents_succ q.p n
  · have hin : i ≤ n := by omega
    have hmem : i ∈ Finset.Icc 1 n := Finset.mem_Icc.mpr ⟨h1,hin⟩
    rw [downLoop_contents (by omega) h1 hin,Function.update_idem,contents_update hmem,hN,
      contents_succ,contents_eq_cons hmem,Multiset.cons_swap]

theorem downLoop_of_stop {v : Pos γ ο} {n k : ℕ} {p : ℕ → Pos γ ο}
    (h : k ≤ n/2 → (p (child p n k)).c ≤ v.c) (fuel : ℕ) :
    downLoop v n (fuel+1) k p = Function.update p k v := by
  rw [downLoop]
  by_cases hin : k ≤ n/2
  · rw [if_pos hin]
    exact if_pos (h hin)
  · rw [if_neg hin]

/-- The order survives unless the last leaf is greater than the parent of the freed position. -/
theorem remove_isHeap_iff {q : PriQ γ ο} (hheap : IsHeap (key q.p) q.N) {i : ℕ} (h1 : 1 ≤ i)
    (hi : i ≤ q.N) : IsHeap (key (remove q i).2.p) (q.N-1) ↔
      (2 ≤ i → i < q.N → (q.p q.N).c ≤ (q.p (i/2)).c) := by
  have hshort : IsHeap (key q.p) (q.N-1) := fun k h2 hk => hheap k h2 (by omega)
  have haround : Around (key (Function.update q.p i (q.p q.N))) (q.N-1) i := by
    rw [key_update]
    refine ⟨fun j h2 hj hji hjp => ?_,fun h2 j hj hji => ?_⟩
    · rw [Function.update_of_ne hji,Function.update_of_ne hjp]
      exact hshort j h2 hj
    · have hne : j ≠ i := by omega
      have hpne : i/2 ≠ i := by omega
      rw [Function.update_of_ne hne,Function.update_of_ne hpne]
      exact (hshort.around i).across h2 j hj hji
  rw [remove_p]
  constructor
  · intro h h2 hlt
    by_contra hgt
    have hpne : i/2 ≠ i := by omega
    have hstop (hin : i ≤ (q.N-1)/2) :
        key (Function.update q.p i (q.p q.N)) (child (Function.update q.p i (q.p q.N)) (q.N-1) i) ≤
          (q.p q.N).c := by
      have hover := haround.across h2 _ (child_le hin) (child_div (Function.update q.p i (q.p q.N)) _ _)
      refine hover.trans ?_
      rw [key_update,Function.update_of_ne hpne]
      exact (not_le.mp hgt).le
    -- the leaf is greater than all children of `i` and stays there, below its lesser parent
    have hstay := downLoop_of_stop hstop (q.N-1)
    have hi' := h i h2 (by omega)
    rw [hstay,key,key,Function.update_self,Function.update_of_ne hpne,
      Function.update_of_ne hpne] at hi'
    exact hgt hi'
  · intro hle
    refine downLoop_isHeap (by omega) h1 haround fun h2 => ?_
    have hpne : i/2 ≠ i := by omega
    rw [key_update,Function.update_of_ne hpne]
    by_cases hlast : i = q.N
    · rw [← hlast]
      exact hheap i h2 hi
    · exact hle h2 (by omega)

end PriQ

/-- The calls of a queue's user. -/
inductive QueueOp (γ ο : Type)
  | insert (c : γ) (x : ο)
  | remove (i : ℕ)
  /-- going on with a copy -/
  | copy

/-- A queue with everything that was inserted and not removed again. -/
structure QueueRun (γ ο : Type) where
  q : PriQ γ ο
  bag : Multiset (Pos γ ο)

namespace QueueRun
variable {γ ο : Type} [LinearOrder γ] [DecidableEq ο] (blank : ℕ → Pos γ ο)

def step (r : QueueRun γ ο) : QueueOp γ ο → Option (QueueRun γ ο)
  | .insert c x =>
    if c < r.q.compMAX then some ⟨r.q.insert blank c x,⟨c,x⟩::ₘr.bag⟩ else none
  | .remove i =>
    if 1 ≤ i ∧ i ≤ r.q.N then some ⟨(r.q.remove i).2,r.bag.erase (r.q.p i)⟩ else none
  | .copy => some ⟨r.q.copy blank,r.bag⟩

omit [DecidableEq ο] in
/-- What a priority queue is for. -/
structure Correct (r : QueueRun γ ο) : Prop where
  heap : IsHeap (PriQ.key r.q.p) r.q.N
  stored : contents r.q.p r.q.N = r.bag
  /-- the array has a place for every entry -/
  room : r.q.N ≤ r.q.Max
  greatest : r.q.N ≠ 0 →
    ∃ e ∈ r.bag, r.q.peek = e.s ∧ (r.q.remove 1).1 = e.s ∧ ∀ d ∈ r.bag, d.c ≤ e.c

/-- The last leaf is no greater than the parent of the position that is freed. -/
def Sinks (r : QueueRun γ ο) : QueueOp γ ο → Prop
  | .remove i => 2 ≤ i → i < r.q.N → (r.q.p r.q.N).c ≤ (r.q.p (i/2)).c
  | _ => True

omit [DecidableEq ο] in
theorem correct_iff {r : QueueRun γ ο} (hstored : contents r.q.p r.q.N = r.bag)
    (hroom : r.q.N ≤ r.q.Max) : r.Correct ↔ IsHeap (PriQ.key r.q.p) r.q.N := by
  refine ⟨Correct.heap,fun hheap => ⟨hheap,hstored,hroom,fun hpos => ?_⟩⟩
  refine ⟨r.q.p 1,?_,rfl,rfl,fun d hd => ?_⟩
  · rw [← hstored]
    exact mem_contents.mpr ⟨1,le_rfl,by omega,rfl⟩
  · rw [← hstored] at hd
    obtain ⟨k,h1,hk,rfl⟩ := mem_contents.mp hd
    exact hheap.le_root h1 hk

theorem step_correct_iff {r r' : QueueRun γ ο} {op : QueueOp γ ο} (h : r.Correct)
    (hstep : step blank r op = some r') : r'.Correct ↔ r.Sinks op := by
  cases op with
  | insert c x =>
    simp only [step,Option.ite_none_right_eq_some] at hstep
    obtain ⟨hc,hr⟩ := hstep
    cases hr
    obtain ⟨hN,hroom,-⟩ := PriQ.insert_N blank h.room c x
    refine iff_of_true ((correct_iff ?_ ?_).mpr ?_) trivial
    · rw [hN,PriQ.insert_contents blank h.room hc,h.stored]
    · rwa [hN]
    · rw [hN]
      exact PriQ.insert_isHeap blank h.room h.heap hc x
  | remove i =>
    simp only [step,Option.ite_none_right_eq_some] at hstep
    obtain ⟨⟨h1,hi⟩,hr⟩ := hstep
    cases hr
    have hN : (r.q.remove i).2.N = r.q.N-1 := rfl
    rw [correct_iff,hN]
    · exact PriQ.remove_isHeap_iff h.heap h1 hi
    · rw [← h.stored,PriQ.remove_contents h1 hi,Multiset.erase_cons_head,hN]
    · exact (Nat.sub_le _ _).trans h.room
  | copy =>
    cases hstep
    have hp (k : ℕ) (h1 : 1 ≤ k) (hk : k ≤ r.q.N) : (r.q.copy blank).p k = r.q.p k :=
      if_pos ⟨h1,hk⟩
    refine iff_of_true ((correct_iff ?_ le_rfl).mpr fun k h2 hk => ?_) trivial
    · exact (contents_congr hp).trans h.stored
    · have hk' : k ≤ r.q.N := hk
      rw [PriQ.key,PriQ.key,hp k (by omega) hk',hp (k/2) (by omega) (by omega)]
      exact h.heap k h2 hk'

theorem sinks_of_refused {r : QueueRun γ ο} {op : QueueOp γ ο} (h : step blank r op = none) :
    r.Sinks op := by
  cases op with
  | remove i =>
    intro h2 hlt
    simp only [step,ite_eq_right_iff,reduceCtorEq,imp_false] at h
    exact absurd ⟨by omega,hlt.le⟩ h
  | _ => trivial

omit [DecidableEq ο] in
theorem new_correct (mComp : γ) (mElem : ℕ) :
    QueueRun.Correct ⟨PriQ.new blank mComp mElem,0⟩ :=
  (correct_iff rfl (Nat.zero_le _)).mpr (isHeap_zero _)

/-- The queue is correct all along a run exactly when no removal brings up a leaf that is greater
than the parent of the freed position: `remove` only sinks it. -/
theorem queue_correct_iff (mComp : γ) (mElem : ℕ) (ops : List (QueueOp γ ο)) :
    (∀ pre r, pre <+: ops →
      runFrom (step blank) ⟨PriQ.new blank mComp mElem,0⟩ pre = some r → r.Correct) ↔
        MeetsOnly (step blank) Sinks ⟨PriQ.new blank mComp mElem,0⟩ ops :=
  reached_iff_meetsOnly (new_correct blank mComp mElem)
    (fun _ _ _ h hstep => step_correct_iff blank h hstep) fun _ _ => sinks_of_refused blank

/-- They stay where they are put: position 5 lies below the 4 in position 2, and the last leaf, a 7,
below the 9 in position 3. -/
def unevenInserts : List (QueueOp ℤ ℕ) :=
  [.insert 10 1,.insert 4 2,.insert 9 3,.insert 1 4,.insert 2 5,.insert 8 6,.insert 7 7]

/-- After the removal of position 5 the leaf with 7 lies below a parent with 4. -/
theorem queue_breaks_order :
    ¬ ∀ (ops : List (QueueOp ℤ ℕ)) (r : QueueRun ℤ ℕ),
      runFrom (step fun _ => ⟨0,0⟩) ⟨PriQ.new (fun _ => ⟨0,0⟩) 100 100,0⟩ ops = some r →
        r.Correct := by
  intro h
  obtain ⟨r,hr⟩ : ∃ r, runFrom (step fun _ => ⟨0,0⟩) ⟨PriQ.new (fun _ => ⟨0,0⟩) 100 100,0⟩
      (unevenInserts ++ [.remove 5]) = some r := ⟨_,rfl⟩
  have hheap := (h _ r hr).heap 5 (by decide) (by cases hr; decide)
  cases hr
  revert hheap
  decide

end QueueRun
end Smx
