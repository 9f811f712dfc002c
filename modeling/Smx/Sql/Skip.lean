import Mathlib.Order.Lattice
import Mathlib.Data.Int.Order.Basic
import Mathlib.Tactic.Common

/-! `CDbStmt::Next` and `Skip`: the rows of a result set, fetched as many at a time as fit in a buffer. -/
namespace Smx

/-- A result set: its rows, and how many of them the driver agrees to fetch at a time. -/
structure ResultSet where
  rows : ℕ
  size : ℕ
  size_pos : 0 < size

/-- `CDbStmt`, and the cursor of the driver: the result sets from the open one on, and the row at which the rowset
starts, -1 in front of the first. -/
structure CDbStmt where
  sets : List ResultSet
  start : ℤ
  myRow : ℤ
  myDone : Bool
  myRowsetSize : ℤ
  myBufIndex : ℤ

namespace CDbStmt

/-- The rowset that starts at a row; `SQL_ATTR_ROWS_FETCHED_PTR` is `myRowsetSize`. Without rows there is no data. -/
def fetchAt (s : CDbStmt) (start : ℤ) : Option CDbStmt :=
  match s.sets with
  | [] => none
  | set::_ =>
    if 0 ≤ start ∧ start < set.rows then
      some { s with start := start, myRowsetSize := min set.size (set.rows-start) }
    else none

/-- `SQLFetch`: the next rowset. -/
def sqlFetch (s : CDbStmt) : Option CDbStmt :=
  match s.sets with
  | [] => none
  | set::_ => s.fetchAt (if s.start = -1 then 0 else s.start+set.size)

/-- `SQLFetchScroll` with `SQL_FETCH_RELATIVE`. -/
def sqlFetchRelative (s : CDbStmt) (k : ℤ) : Option CDbStmt := s.fetchAt (s.start+k)

/-- `Bind`, where a row of -1 calls for it; it fails when there is no result set. -/
def bound (s : CDbStmt) : CDbStmt :=
  if s.myRow = -1 then
    match s.sets with
    | [] => s
    | set::_ => { s with myRow := 0, myRowsetSize := set.size, myBufIndex := set.size }
  else s

theorem sets_bound (s : CDbStmt) : s.bound.sets = s.sets := by
  rw [bound]
  split_ifs
  · cases hsets : s.sets with
    | nil => exact hsets
    | cons set more => rfl
  · rfl

/-- `SQLMoreResults` with success, and `FreeMem`. -/
def moreResults (s : CDbStmt) (sets : List ResultSet) : CDbStmt := { s with sets := sets, start := -1, myRow := -1 }

/-- `Next`. -/
def next (s : CDbStmt) : Bool × CDbStmt :=
  if s.myDone then (false,s)
  else if s.bound.myRow = -1 then (false,{ s.bound with myDone := true })
  else if s.bound.myBufIndex < s.bound.myRowsetSize-1 then
    (true,{ s.bound with myRow := s.bound.myRow+1, myBufIndex := s.bound.myBufIndex+1 })
  else
    match s.bound.sqlFetch with
    | some t => (true,{ t with myRow := t.myRow+1, myBufIndex := 0 })
    | none =>
      match _h : s.bound.sets with
      | _::set::more => (s.bound.moreResults (set::more)).next
      | _ => (false,{ s.bound with myDone := true })
termination_by s.sets.length
decreasing_by
  rw [← sets_bound s,_h]
  exact Nat.lt_succ_self _

/-- `while (n-- > 0 && Next());` -/
def nextWhile : ℕ → CDbStmt → CDbStmt
  | 0,s => s
  | n+1,s => if s.next.1 then nextWhile n s.next.2 else s.next.2

/-- `Skip`. A driver that does not take `SQL_FETCH_RELATIVE` refuses it with the state HY106. -/
def skip (relative : Bool) (s : CDbStmt) (n : ℤ) : Bool × CDbStmt :=
  if n < 0 then (false,s)
  else if n = 0 then (true,s)
  else if s.myDone then (false,s)
  else if s.bound.myRow = -1 then (false,{ s.bound with myDone := true })
  else if s.bound.myBufIndex < s.bound.myRowsetSize-n then
    (true,{ s.bound with myRow := s.bound.myRow+n, myBufIndex := s.bound.myBufIndex+n })
  else if relative then
    match s.bound.sqlFetchRelative (n-s.bound.myRowsetSize+s.bound.myBufIndex) with
    | some t => (true,{ t with myRow := t.myRow+n, myBufIndex := 0 })
    | none => (false,{ s.bound with myDone := true })
  else (true,nextWhile n.toNat s.bound)

/-- The statement that `Execute` returns. -/
def opened (sets : List ResultSet) : CDbStmt := ⟨sets,-1,-1,false,0,0⟩

/-- The calls by which a position is reached. -/
inductive Call
  | next
  | skip (n : ℤ)

def call (relative : Bool) (s : CDbStmt) : Call → CDbStmt
  | .next => s.next.2
  | .skip n => (s.skip relative n).2

def run (relative : Bool) (sets : List ResultSet) (calls : List Call) :
    CDbStmt := calls.foldl (call relative) (opened sets)

/-- `n` calls of `Next`. -/
def nexts : ℕ → CDbStmt → CDbStmt
  | 0,s => s
  | n+1,s => nexts n s.next.2

/-- The row of the open result set on which the statement is. -/
def row (s : CDbStmt) : ℤ := if s.start = -1 then -1 else s.start+s.myBufIndex

/-- The rows behind it. -/
def rowsLeft (s : CDbStmt) : ℤ :=
  match s.sets with
  | [] => 0
  | set::_ => if s.myDone then 0 else set.rows-(s.row+1)

/-- What can be told of a position: the result sets, the row, its number, and whether the statement is done. -/
structure Place where
  sets : List ResultSet
  row : ℤ
  myRow : ℤ
  myDone : Bool

def place (s : CDbStmt) : Place := ⟨s.sets,s.row,s.myRow,s.myDone⟩

/-- `Skip(n)` leads where `n` calls of `Next` lead, as also the calls of `Next` behind it show. -/
def SkipsRows (relative : Bool) (s : CDbStmt) (n : ℕ) : Prop :=
  ∀ m, (nexts m (s.skip relative n).2).place = (nexts m (nexts n s)).place

/-- A statement that is bound to its open result set, in front of the first rowset or on a row of one. -/
structure Ready (s : CDbStmt) (set : ResultSet) (more : List ResultSet) : Prop where
  myDone : s.myDone = false
  sets : s.sets = set::more
  myRow : 0 ≤ s.myRow
  cursor : s.start = -1 ∧ s.myRowsetSize = set.size ∧ s.myBufIndex = set.size ∨
    0 ≤ s.start ∧ s.start < set.rows ∧ s.myRowsetSize = min (set.size : ℤ) (set.rows-s.start) ∧
      0 ≤ s.myBufIndex ∧ s.myBufIndex < s.myRowsetSize

/-- What every call keeps. -/
inductive Valid (s : CDbStmt) : Prop
  | done (h : s.myDone = true)
  | unbound (hdone : s.myDone = false) (hrow : s.myRow = -1) (hstart : s.start = -1)
  | ready {set : ResultSet} {more : List ResultSet} (h : s.Ready set more)

variable {s t : CDbStmt} {set : ResultSet} {more : List ResultSet} {relative : Bool} {n : ℕ}

theorem Ready.bound (h : s.Ready set more) : s.bound = s := by
  rw [CDbStmt.bound,if_neg]
  have hrow := h.myRow
  omega

theorem bound_unbound (hrow : s.myRow = -1) (hsets : s.sets = set::more) :
    s.bound = { s with myRow := 0, myRowsetSize := set.size, myBufIndex := set.size } := by
  rw [bound,if_pos hrow]
  simp only [hsets]

theorem ready_bound (hdone : s.myDone = false) (hrow : s.myRow = -1) (hstart : s.start = -1)
    (hsets : s.sets = set::more) : s.bound.Ready set more := by
  rw [bound_unbound hrow hsets]
  exact ⟨hdone,hsets,le_rfl,.inl ⟨hstart,rfl,rfl⟩⟩

theorem Ready.place_eq (h : s.Ready set more) : s.place = ⟨set::more,s.row,s.myRow,false⟩ := by
  rw [place,h.sets,h.myDone]

theorem Ready.row_eq (h : s.Ready set more) :
    s.start = -1 ∧ s.row = -1 ∨ 0 ≤ s.start ∧ s.row = s.start+s.myBufIndex := by
  rw [row]
  rcases h.cursor with ⟨hstart,-⟩ | ⟨hstart,-⟩
  · exact .inl ⟨hstart,if_pos hstart⟩
  · exact .inr ⟨hstart,if_neg (by omega)⟩

/-- A rowset that is fetched, on its first row. -/
theorem ready_fetchAt {start k : ℤ} (hdone : s.myDone = false) (hrow : 0 ≤ s.myRow) (hk : 0 ≤ k)
    (hsets : s.sets = set::more) (h : s.fetchAt start = some t) : Ready { t with myRow := t.myRow+k, myBufIndex := 0 } set more ∧
      row { t with myRow := t.myRow+k, myBufIndex := 0 } = start ∧ t.myRow = s.myRow := by
  rw [fetchAt] at h
  simp only [hsets] at h
  split_ifs at h with hstart
  obtain rfl := Option.some.inj h
  have hpos := set.size_pos
  refine ⟨⟨hdone,rfl,?_,.inr ⟨hstart.1,hstart.2,rfl,le_rfl,?_⟩⟩,?_,rfl⟩
  · simp only
    omega
  · simp only
    omega
  · rw [row,if_neg (by simp only; omega)]
    simp

theorem fetchAt_of_mem (start : ℤ) (hsets : s.sets = set::more) (h : 0 ≤ start) (hlt : start < set.rows) :
    ∃ t, s.fetchAt start = some t := by
  rw [fetchAt]
  simp only [hsets,h,hlt,and_self,if_true]
  exact ⟨_,rfl⟩

theorem sqlFetch_eq (hsets : s.sets = set::more) :
    s.sqlFetch = s.fetchAt (if s.start = -1 then 0 else s.start+set.size) := by
  rw [sqlFetch]
  simp only [hsets]

/-- `Next` leads to the next row, in the buffer or in front of the next rowset. -/
theorem Ready.next (h : s.Ready set more) (hlt : s.row+1 < set.rows) :
    ∃ t, s.next = (true,t) ∧ t.Ready set more ∧ t.row = s.row+1 ∧ t.myRow = s.myRow+1 := by
  have hrow := h.myRow
  have hpos := set.size_pos
  rw [CDbStmt.next,h.bound,if_neg (by simp [h.myDone]),if_neg (by omega)]
  split_ifs with hbuf
  · refine ⟨_,rfl,?_,?_,rfl⟩
    · refine ⟨h.myDone,h.sets,by simp only; omega,?_⟩
      rcases h.cursor with ⟨hstart,hsize,hidx⟩ | ⟨hstart,hrows,hsize,hidx,hlast⟩
      · omega
      · right
        exact ⟨hstart,hrows,hsize,by simp only; omega,by simp only; omega⟩
    · rcases h.cursor with ⟨hstart,hsize,hidx⟩ | ⟨hstart,hrows,hsize,hidx,hlast⟩
      · omega
      · rw [row,row,if_neg (by simp only; omega),if_neg (by omega)]
        simp only
        omega
  · have hfetch : ∃ t, s.fetchAt (s.row+1) = some t := by
      apply fetchAt_of_mem _ h.sets _ hlt
      rcases h.row_eq with ⟨-,hr⟩ | ⟨hstart,hr⟩
      · omega
      · rcases h.cursor with ⟨hstart',-⟩ | ⟨-,-,-,hidx,-⟩ <;> omega
    obtain ⟨t,ht⟩ := hfetch
    have hnext : s.sqlFetch = some t := by
      rw [sqlFetch_eq h.sets,← ht]
      congr 1
      rcases h.cursor with ⟨hstart,hsize,hidx⟩ | ⟨hstart,hrows,hsize,hidx,hlast⟩
      · rw [row,if_pos hstart,if_pos hstart]
        rfl
      · rw [row,if_neg (by omega)] at hlt ⊢
        rw [if_neg (by omega)]
        omega
    obtain ⟨hready,hr,hmy⟩ := ready_fetchAt h.myDone hrow (by decide : (0 : ℤ) ≤ 1) h.sets ht
    rw [hnext]
    exact ⟨_,rfl,hready,hr,by simp only [hmy]⟩

/-- Behind the last row nothing is left in the buffer, and nothing is fetched. -/
theorem Ready.exhausted (h : s.Ready set more) (hend : set.rows ≤ s.row+1) :
    ¬s.myBufIndex < s.myRowsetSize-1 ∧ s.sqlFetch = none := by
  have hpos := set.size_pos
  constructor
  · rcases h.cursor with ⟨hstart,hsize,hidx⟩ | ⟨hstart,hrows,hsize,hidx,hlast⟩
    · omega
    · rw [row,if_neg (by omega)] at hend
      omega
  · rw [sqlFetch_eq h.sets,fetchAt]
    simp only [h.sets]
    rw [if_neg]
    rintro ⟨-,hlt⟩
    rcases h.cursor with ⟨hstart,hsize,hidx⟩ | ⟨hstart,hrows,hsize,hidx,hlast⟩
    · rw [row,if_pos hstart] at hend
      rw [if_pos hstart] at hlt
      omega
    · rw [row,if_neg (by omega)] at hend
      rw [if_neg (by omega)] at hlt
      omega

theorem Ready.next_last (h : s.Ready set []) (hend : set.rows ≤ s.row+1) :
    s.next = (false,{ s with myDone := true }) := by
  obtain ⟨hbuf,hfetch⟩ := h.exhausted hend
  have hrow := h.myRow
  rw [CDbStmt.next,h.bound,if_neg (by simp [h.myDone]),if_neg (by omega),if_neg hbuf,hfetch]
  simp only
  split
  · rename_i set₀ set' more' hsets
    rw [h.sets] at hsets
    cases hsets
  · rfl

/-- `Next` goes on to the next result set. -/
theorem Ready.next_more {set' : ResultSet} (h : s.Ready set (set'::more)) (hend : set.rows ≤ s.row+1) :
    s.next = (s.moreResults (set'::more)).next := by
  obtain ⟨hbuf,hfetch⟩ := h.exhausted hend
  have hrow := h.myRow
  rw [CDbStmt.next,h.bound,if_neg (by simp [h.myDone]),if_neg (by omega),if_neg hbuf,hfetch]
  simp only
  split
  · rename_i set₀ set₁ more₁ hsets
    rw [h.sets] at hsets
    obtain ⟨-,hmore⟩ := List.cons.inj hsets
    rw [hmore]
  · rename_i hsets
    exact absurd h.sets (hsets set set' more)

/-- Binding is what `Next` begins with. -/
theorem next_bound (hdone : s.myDone = false) (hrow : s.myRow = -1) (hstart : s.start = -1)
    (hsets : s.sets = set::more) : s.next = s.bound.next := by
  have hready := ready_bound hdone hrow hstart hsets
  have hnot : ¬s.bound.myDone = true := by
    rw [hready.myDone]
    exact Bool.false_ne_true
  rw [next,next,hready.bound,if_neg (by simp [hdone]),if_neg hnot]

theorem next_unbound (hdone : s.myDone = false) (hrow : s.myRow = -1) (hsets : s.sets = []) :
    s.next = (false,{ s with myDone := true }) := by
  have hbound : s.bound = s := by
    rw [bound,if_pos hrow]
    simp only [hsets]
  rw [next,if_neg (by simp [hdone]),hbound,if_pos hrow]

theorem Valid.next (h : s.Valid) : s.next.2.Valid := by
  induction hlen : s.sets.length using Nat.strong_induction_on generalizing s with
  | _ len ih =>
    have hready {s : CDbStmt} {set : ResultSet} {more : List ResultSet} (h : s.Ready set more)
        (hlen : s.sets.length = len) : s.next.2.Valid := by
      by_cases hlt : s.row+1 < set.rows
      · obtain ⟨t,ht,hready,-,-⟩ := h.next hlt
        rw [ht]
        exact .ready hready
      · cases more with
        | nil =>
          rw [h.next_last (by omega)]
          exact .done rfl
        | cons set' more' =>
          rw [h.next_more (by omega)]
          refine ih (more'.length+1) ?_ (s := s.moreResults (set'::more')) (.unbound h.myDone rfl rfl) rfl
          rw [← hlen,h.sets]
          exact Nat.lt_succ_self _
    cases h with
    | done h =>
      rw [CDbStmt.next,if_pos h]
      exact .done h
    | unbound hdone hrow hstart =>
      cases hsets : s.sets with
      | nil =>
        rw [next_unbound hdone hrow hsets]
        exact .done rfl
      | cons set more =>
        rw [next_bound hdone hrow hstart hsets]
        exact hready (ready_bound hdone hrow hstart hsets) (by rw [sets_bound,hlen])
    | ready h => exact hready h hlen

theorem Valid.nextWhile (h : s.Valid) : (nextWhile n s).Valid := by
  induction n generalizing s with
  | zero => exact h
  | succ n ih =>
    rw [CDbStmt.nextWhile]
    split_ifs
    · exact ih h.next
    · exact h.next

/-- Two unbound statements with the same result sets are the same once they are bound. -/
theorem next_eq_of_unbound (hs : s.myDone = false) (ht : t.myDone = false) (hs' : s.myRow = -1) (ht' : t.myRow = -1)
    (hs'' : s.start = -1) (ht'' : t.start = -1) (hsets : s.sets = set::more) (htsets : t.sets = set::more) :
    s.next = t.next := by
  rw [next_bound hs hs' hs'' hsets,next_bound ht ht' ht'' htsets,bound_unbound hs' hsets,bound_unbound ht' htsets]
  simp only [hs,ht,hs'',ht'',hsets,htsets]

/-- From one place `Next` leads to one place. -/
theorem next_place (hs : s.Valid) (ht : t.Valid) (h : s.place = t.place) : s.next.2.place = t.next.2.place := by
  simp only [place,Place.mk.injEq] at h
  obtain ⟨hsets,hrow,hmy,hdone⟩ := h
  cases hs with
  | done hs =>
    have ht : t.myDone = true := by rw [← hdone,hs]
    rw [next,if_pos hs,next,if_pos ht]
    simp only [place,hsets,hrow,hmy,hdone]
  | unbound hsd hsr hss =>
    have htd : t.myDone = false := by rw [← hdone,hsd]
    have htr : t.myRow = -1 := by rw [← hmy,hsr]
    have hts : t.start = -1 := by
      cases ht with
      | done ht =>
        rw [htd] at ht
        cases ht
      | unbound _ _ hts => exact hts
      | ready ht =>
        have hrow := ht.myRow
        omega
    cases hsq : s.sets with
    | nil =>
      have hrow' : row { s with myDone := true } = row { t with myDone := true } := hrow
      rw [next_unbound hsd hsr hsq,next_unbound htd htr (hsets ▸ hsq),place,place,Place.mk.injEq]
      exact ⟨hsets,hrow',hmy,rfl⟩
    | cons set more => rw [next_eq_of_unbound hsd htd hsr htr hss hts hsq (hsets ▸ hsq)]
  | @ready set more hs =>
    have ht : t.Ready set more := by
      cases ht with
      | done ht =>
        rw [← hdone,hs.myDone] at ht
        cases ht
      | unbound _ htr _ =>
        have hpos := hs.myRow
        omega
      | ready ht =>
        have heq := ht.sets
        rw [← hsets,hs.sets] at heq
        obtain ⟨rfl,rfl⟩ := List.cons.inj heq
        exact ht
    by_cases hlt : s.row+1 < set.rows
    · obtain ⟨s',hs',hsr,hrow',hmy'⟩ := hs.next hlt
      obtain ⟨t',ht',htr,hrow'',hmy''⟩ := ht.next (by rw [← hrow]; exact hlt)
      rw [hs',ht']
      simp only [place,hsr.sets,htr.sets,hsr.myDone,htr.myDone,hrow',hrow'',hmy',hmy'',hrow,hmy]
    · cases more with
      | nil =>
        rw [hs.next_last (by omega),ht.next_last (by omega)]
        have hrow' : row { s with myDone := true } = row { t with myDone := true } := hrow
        rw [place,place,Place.mk.injEq]
        exact ⟨hsets,hrow',hmy,rfl⟩
      | cons set' more' =>
        have hsame : (s.moreResults (set'::more')).next = (t.moreResults (set'::more')).next :=
          next_eq_of_unbound hs.myDone ht.myDone rfl rfl rfl rfl rfl rfl
        rw [hs.next_more (by omega),ht.next_more (by omega),hsame]

theorem nexts_place (hs : s.Valid) (ht : t.Valid) (h : s.place = t.place) (m : ℕ) :
    (nexts m s).place = (nexts m t).place := by
  induction m generalizing s t with
  | zero => exact h
  | succ m ih => exact ih hs.next ht.next (next_place hs ht h)

theorem Valid.nexts (h : s.Valid) (n : ℕ) : (nexts n s).Valid := by
  induction n generalizing s with
  | zero => exact h
  | succ n ih => exact ih h.next

/-- While there are rows, `Next` moves on by one. -/
theorem Ready.nexts (h : s.Ready set more) (hn : s.row+n < set.rows) :
    (nexts n s).place = ⟨set::more,s.row+n,s.myRow+n,false⟩ ∧ nextWhile n s = nexts n s := by
  induction n generalizing s with
  | zero => exact ⟨by simp [CDbStmt.nexts,place,h.sets,h.myDone],rfl⟩
  | succ n ih =>
    obtain ⟨t,ht,hready,hrow,hmy⟩ := h.next (by push_cast at hn; omega)
    obtain ⟨hplace,hwhile⟩ := ih hready (by push_cast at hn ⊢; omega)
    rw [CDbStmt.nexts,CDbStmt.nextWhile,ht,if_pos rfl]
    refine ⟨?_,hwhile⟩
    rw [hplace,hrow,hmy]
    simp only [Place.mk.injEq,true_and,and_true]
    push_cast
    constructor <;> omega

/-- `Skip` from a bound statement: right without a rowset, in the buffer, and when the driver does not move. -/
theorem Ready.skip_iff (h : s.Ready set more) (hpos : 0 < n) (hn : s.row+n < set.rows) :
    (s.skip relative n).2.place = (CDbStmt.nexts n s).place ↔
      relative = false ∨ s.start = -1 ∨ s.myBufIndex+n < s.myRowsetSize := by
  have hrow := h.myRow
  obtain ⟨hplace,hwhile⟩ := h.nexts hn
  rw [hplace,skip,h.bound,if_neg (by omega),if_neg (by omega),if_neg (by simp [h.myDone]),if_neg (by omega)]
  split_ifs with hbuf hrel
  · refine iff_of_true ?_ (.inr (.inr (by omega)))
    have hstart : s.start ≠ -1 := by
      rcases h.cursor with ⟨-,hsize,hidx⟩ | ⟨hstart,-⟩ <;> omega
    simp only [place,row,Place.mk.injEq,h.sets,h.myDone,true_and,and_true,if_neg hstart]
    omega
  · rw [sqlFetchRelative]
    rcases h.cursor with ⟨hstart,hsize,hidx⟩ | ⟨hstart,hrows,hsize,hidx,hlast⟩
    · refine iff_of_true ?_ (.inr (.inl hstart))
      rw [row,if_pos hstart] at hn
      obtain ⟨t,ht⟩ := fetchAt_of_mem (s.start+(n-s.myRowsetSize+s.myBufIndex)) h.sets (by omega) (by omega)
      obtain ⟨hready,hr,hmy⟩ := ready_fetchAt (k := n) h.myDone hrow (by omega) h.sets ht
      have hplace' := hready.place_eq
      rw [hr] at hplace'
      rw [ht]
      refine hplace'.trans ?_
      rw [row,if_pos hstart,Place.mk.injEq]
      simp only [hmy,true_and,and_true]
      omega
    · refine iff_of_false ?_ ?_
      · rw [row,if_neg (by omega)]
        cases ht : s.fetchAt (s.start+(n-s.myRowsetSize+s.myBufIndex)) with
        | none => simp [place]
        | some t =>
          obtain ⟨hready,hr,hmy⟩ := ready_fetchAt (k := n) h.myDone hrow (by omega) h.sets ht
          simp only [hready.place_eq,hr,Place.mk.injEq]
          rintro ⟨-,heq,-⟩
          omega
      · rintro (hr | hr | hr)
        · rw [hrel] at hr
          cases hr
        · omega
        · omega
  · refine iff_of_true ?_ (.inl (by simpa using hrel))
    simp only [Int.toNat_natCast,hwhile,hplace]

theorem Valid.exists_ready (h : s.Valid) (hdone : ¬s.myDone = true) (hrow : ¬s.bound.myRow = -1) :
    ∃ set more, s.bound.Ready set more := by
  cases h with
  | done h => exact absurd h hdone
  | unbound hd hr hstart =>
    cases hsets : s.sets with
    | nil =>
      refine absurd ?_ hrow
      rw [bound,if_pos hr]
      simp only [hsets,hr]
    | cons set more => exact ⟨set,more,ready_bound hd hr hstart hsets⟩
  | ready h => exact ⟨_,_,by rwa [h.bound]⟩

/-- A call keeps what is valid. -/
theorem Valid.skip (h : s.Valid) (n : ℤ) : (s.skip relative n).2.Valid := by
  rw [CDbStmt.skip]
  split_ifs with hneg hzero hdone hrow hbuf hrel
  · exact h
  · exact h
  · exact h
  · exact .done rfl
  all_goals
    obtain ⟨set,more,hready⟩ : ∃ set more, s.bound.Ready set more := h.exists_ready hdone hrow
  · refine .ready ⟨hready.myDone,hready.sets,by have hpos := hready.myRow; simp only; omega,?_⟩
    rcases hready.cursor with ⟨-,hsize,hidx⟩ | ⟨hstart,hrows,hsize,hidx,hlast⟩
    · omega
    · exact .inr ⟨hstart,hrows,hsize,by simp only; omega,by simp only; omega⟩
  · rw [sqlFetchRelative]
    cases ht : s.bound.fetchAt (s.bound.start+(n-s.bound.myRowsetSize+s.bound.myBufIndex)) with
    | none => exact .done rfl
    | some t => exact .ready (ready_fetchAt hready.myDone hready.myRow (by omega) hready.sets ht).1
  · exact (Valid.ready hready).nextWhile

theorem Valid.run (sets : List ResultSet) (calls : List Call) : (run relative sets calls).Valid := by
  have hall (s : CDbStmt) (h : s.Valid) : (calls.foldl (call relative) s).Valid := by
    induction calls generalizing s with
    | nil => exact h
    | cons c calls ih =>
      apply ih
      cases c with
      | next => exact h.next
      | skip n => exact h.skip n
  exact hall _ (.unbound rfl rfl rfl)

theorem skipsRows_iff_place (h : s.Valid) : SkipsRows relative s n ↔ (s.skip relative n).2.place = (nexts n s).place :=
  ⟨fun hall => hall 0,fun hplace m => nexts_place (h.skip n) (h.nexts n) hplace m⟩

/-- Skipping some rows begins with binding, as does stepping over them. -/
theorem skip_bound (relative : Bool) (hpos : 0 < n) (hdone : s.myDone = false) (hrow : s.myRow = -1)
    (hstart : s.start = -1) (hsets : s.sets = set::more) : s.skip relative n = s.bound.skip relative n ∧ nexts n s = nexts n s.bound := by
  have hready := ready_bound hdone hrow hstart hsets
  have hnot : ¬s.bound.myDone = true := by
    rw [hready.myDone]
    exact Bool.false_ne_true
  have hneg : ¬(n : ℤ) < 0 := by omega
  have hzero : ¬(n : ℤ) = 0 := by omega
  constructor
  · rw [skip,skip,hready.bound,if_neg hneg,if_neg hneg,if_neg hzero,if_neg hzero,if_neg (by simp [hdone]),if_neg hnot]
  · obtain ⟨n,rfl⟩ := Nat.exists_eq_succ_of_ne_zero hpos.ne'
    rw [nexts,nexts,next_bound hdone hrow hstart hsets]

/-- Wherever a statement has got by calls of `Next` and `Skip`, `Skip(n)` is `n` times `Next` just if `n` is 0, the driver
refuses to move, no row of the result set has been fetched, or the buffer has `n` more rows. -/
theorem skipsRows_iff (relative : Bool) (sets : List ResultSet) (calls : List Call) (n : ℕ)
    (hn : n < (run relative sets calls).rowsLeft) : SkipsRows relative (run relative sets calls) n ↔
      n = 0 ∨ relative = false ∨ (run relative sets calls).start = -1 ∨
        (run relative sets calls).myBufIndex+n < (run relative sets calls).myRowsetSize := by
  have hvalid : (run relative sets calls).Valid := Valid.run sets calls
  generalize run relative sets calls = s at hn hvalid
  rcases Nat.eq_zero_or_pos n with rfl | hpos
  · refine iff_of_true ((skipsRows_iff_place hvalid).mpr ?_) (.inl rfl)
    rw [skip,if_neg (by omega),if_pos Int.natCast_zero]
    rfl
  · rw [or_iff_right hpos.ne',skipsRows_iff_place hvalid]
    cases hvalid with
    | done h =>
      rw [rowsLeft] at hn
      split at hn
      · omega
      · rw [if_pos h] at hn
        omega
    | unbound hdone hrow hstart =>
      cases hsets : s.sets with
      | nil =>
        rw [rowsLeft] at hn
        simp only [hsets] at hn
        omega
      | cons set more =>
        have hready := ready_bound hdone hrow hstart hsets
        obtain ⟨hskip,hnexts⟩ := skip_bound relative hpos hdone hrow hstart hsets
        have hstart' : s.bound.start = -1 := by rw [bound_unbound hrow hsets,hstart]
        have hrow' : s.bound.row = s.row := by rw [row,row,hstart,hstart']; rfl
        rw [rowsLeft] at hn
        simp only [hsets,hdone] at hn
        rw [hskip,hnexts,hready.skip_iff hpos (by simp at hn; omega)]
        simp [hstart,hstart']
    | @ready set more h =>
      rw [rowsLeft] at hn
      simp only [h.sets,h.myDone] at hn
      exact h.skip_iff hpos (by simp at hn; omega)

theorem run_next : run true [⟨5,2,by decide⟩] [.next] = ⟨[⟨5,2,by decide⟩],0,1,false,2,0⟩ := by
  simp [run,call,opened,next,bound,sqlFetch,fetchAt]

/-- Five rows, two at a time, on the first of them. -/
theorem skipsRows_one : SkipsRows true (run true [⟨5,2,by decide⟩] [.next]) 1 := by
  refine (skipsRows_iff true [⟨5,2,by decide⟩] [.next] 1 ?_).mpr ?_
  · rw [run_next]
    decide
  · rw [run_next]
    decide

/-- From the first of five rows `Skip(2)` leads back to the first; it should lead to the third. -/
theorem skip_stays : ¬∀ (relative : Bool) (sets : List ResultSet) (calls : List Call) (n : ℕ),
    n < (run relative sets calls).rowsLeft → SkipsRows relative (run relative sets calls) n := by
  intro hall
  have hskip : SkipsRows true (run true [⟨5,2,by decide⟩] [.next]) 2 := by
    apply hall
    rw [run_next]
    decide
  have hrow := congrArg Place.row (hskip 0)
  rw [run_next] at hrow
  simp [nexts,place,row,skip,next,bound,sqlFetch,sqlFetchRelative,fetchAt] at hrow

end CDbStmt

end Smx
