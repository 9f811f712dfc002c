import Smx.Base.Number
import Mathlib.Algebra.BigOperators.Group.List.Basic
import Mathlib.Algebra.Order.Field.Rat
import Mathlib.Tactic.Ring

/-! `CTabFmt`: the totals of a table, and the subtotals of each level. -/
namespace Smx

def MAX_SUB : ℕ := 35

/-- `ColTot`. -/
structure ColTot where
  ssq : ℚ := 0
  tot : ℚ := 0
  ssqx : Fin MAX_SUB → ℚ := fun _ => 0
  totx : Fin MAX_SUB → ℚ := fun _ => 0

namespace ColTot

/-- A value is added up. -/
def add (c : ColTot) (val : ℚ) : ColTot := { c with tot := c.tot+val, ssq := c.ssq+val*val }

/-- The totals so far are kept for a level. -/
def keep (c : ColTot) (l : Fin MAX_SUB) : ColTot :=
  { c with ssqx := Function.update c.ssqx l c.ssq, totx := Function.update c.totx l c.tot }

end ColTot

/-- A table: of each format it has its `sum`, and of what it has counted, the totals. -/
structure TabFmt where
  cFmt : List Bool := []
  cTot : List ColTot := []
  cntx : Fin MAX_SUB → ℤ := fun _ => 0
  nRows : ℤ := 0
  nCols : ℕ := 0
  alloc : cFmt.length = cTot.length := by decide
  cols_le : nCols ≤ cTot.length := by decide

/-- The cells of a row, added to the columns that are summed. -/
def addCells : List Bool → List ℚ → List ColTot → List ColTot
  | sum::fmts,val::cells,c::tots => (if sum then c.add val else c)::addCells fmts cells tots
  | _,_,tots => tots

theorem length_addCells (fmts : List Bool) (cells : List ℚ) (tots : List ColTot) :
    (addCells fmts cells tots).length = tots.length := by
  fun_induction addCells fmts cells tots with
  | case1 sum fmts val cells c tots ih => rw [List.length_cons,ih,List.length_cons]
  | case2 => rfl

/-- `VALIDL`. -/
def validL (l : ℤ) : Option (Fin MAX_SUB) :=
  if h : 0 ≤ l ∧ l < MAX_SUB then some ⟨l.toNat,by omega⟩ else none

theorem validL_of_fin (l : Fin MAX_SUB) : validL l.val = some l := by
  have hl : (0 : ℤ) ≤ l.val ∧ (l.val : ℤ) < MAX_SUB := ⟨Int.natCast_nonneg _,by exact_mod_cast l.isLt⟩
  rw [validL,dif_pos hl]
  rfl

namespace TabFmt

/-- `RowDef`, where at least one format is given. -/
def rowDef (t : TabFmt) (fmts : List Bool) : TabFmt :=
  if fmts = [] then t
  else
    { t with
      cFmt := fmts ++ t.cFmt.drop fmts.length
      cTot := t.cTot ++ List.replicate (fmts.length-t.cTot.length) {}
      nCols := fmts.length
      alloc := by
        have h := t.alloc
        simp only [List.length_append,List.length_drop,List.length_replicate]
        omega
      cols_le := by
        simp only [List.length_append,List.length_replicate]
        omega }

/-- `Row`; a cell is the number that it shows, and 0 when it is empty. -/
def row (t : TabFmt) (cells : List ℚ) : TabFmt :=
  if 0 < min cells.length t.nCols then
    { t with
      cTot := addCells (t.cFmt.take t.nCols) cells t.cTot
      nRows := int32 (t.nRows+1)
      alloc := by rw [length_addCells,t.alloc]
      cols_le := by rw [length_addCells]; exact t.cols_le }
  else t

/-- `RowS`, which formats its cells with `sum` off. -/
def rowS (t : TabFmt) (_cells : List ℚ) : TabFmt := t

/-- `RowH`, which does so too. -/
def rowH (t : TabFmt) (_cells : List ℚ) : TabFmt := t

/-- The loop of `CalcSub`, in which the rows are counted too. -/
def keep (t : TabFmt) (l : Fin MAX_SUB) : TabFmt :=
  { t with
    cTot := t.cTot.map fun c => c.keep l
    cntx := if t.cTot = [] then t.cntx else Function.update t.cntx l t.nRows
    alloc := by rw [List.length_map,t.alloc]
    cols_le := by rw [List.length_map]; exact t.cols_le }

/-- `CalcSub`. -/
def calcSub (t : TabFmt) (nLev : ℤ) : TabFmt := (validL nLev).elim t t.keep

/-- A column, where `VALIDI` holds. -/
def col (t : TabFmt) (i : ℤ) : Option ColTot := if 0 ≤ i then t.cTot[i.toNat]? else none

/-- `Sum(i)`. -/
def sum (t : TabFmt) (i : ℤ) : ℚ :=
  match t.col i with
  | some c => c.tot
  | none => 0

/-- `Cnt()`. -/
def cnt (t : TabFmt) : ℤ := t.nRows

/-- `Sum(l,i)`. -/
def sumL (t : TabFmt) (l i : ℤ) : ℚ :=
  match t.col i,validL l with
  | some c,some l => c.tot-c.totx l
  | _,_ => 0

/-- `Ssq(l,i)`. -/
def ssqL (t : TabFmt) (l i : ℤ) : ℚ :=
  match t.col i,validL l with
  | some c,some l => c.ssq-c.ssqx l
  | _,_ => 0

/-- `Cnt(l)`. -/
def cntL (t : TabFmt) (l : ℤ) : ℤ :=
  match validL l with
  | some l => int32 (t.nRows-t.cntx l)
  | none => 0

/-- `Avg(l,i)`. -/
def avgL (t : TabFmt) (l i : ℤ) : ℚ :=
  match t.col i,validL l with
  | some _,some _ => t.sumL l i/t.nRows
  | _,_ => 0

/-- `Dev(l,i)`, with the library's `sqrt`. -/
def devL (sqrt : ℚ → ℚ) (t : TabFmt) (l i : ℤ) : ℚ :=
  match t.col i,validL l with
  | some _,some _ =>
    sqrt ((t.cntL l*t.ssqL l i-t.sumL l i*t.sumL l i)/(t.cntL l*(t.cntL l-1)))
  | _,_ => 0

end TabFmt

/-- What can be done to a table. -/
inductive TabOp
  | rowDef (fmts : List Bool)
  | row (cells : List ℚ)
  | rowS (cells : List ℚ)
  | rowH (cells : List ℚ)
  | calcSub (l : ℤ)

def TabFmt.step (t : TabFmt) : TabOp → TabFmt
  | .rowDef fmts => t.rowDef fmts
  | .row cells => t.row cells
  | .rowS cells => t.rowS cells
  | .rowH cells => t.rowH cells
  | .calcSub l => t.calcSub l

/-- The table after a sequence of operations. -/
def TabFmt.run (ops : List TabOp) : TabFmt := ops.foldl TabFmt.step {}

/-- A row as it was passed, with the formats that were in force. -/
structure TabRow where
  fmts : List Bool
  cells : List ℚ

namespace TabRow

/-- What a row adds to column `i`. -/
def value (r : TabRow) (i : ℕ) : ℚ := if r.fmts[i]? = some true then r.cells[i]?.getD 0 else 0

/-- The row has a cell that is shown. -/
def Shown (r : TabRow) : Prop := r.fmts ≠ [] ∧ r.cells ≠ []

instance (r : TabRow) : Decidable r.Shown := inferInstanceAs (Decidable (_ ∧ _))

end TabRow

/-- The books of a table: all rows, and for each level those since it was last cleared. -/
structure Ledger where
  fmts : List Bool := []
  rows : List TabRow := []
  since : Fin MAX_SUB → List TabRow := fun _ => []

namespace Ledger

def clear (k : Ledger) (l : Fin MAX_SUB) : Ledger :=
  { k with since := Function.update k.since l [] }

def step (k : Ledger) : TabOp → Ledger
  | .rowDef fmts => if fmts = [] then k else { k with fmts := fmts }
  | .row cells =>
    { k with rows := k.rows ++ [⟨k.fmts,cells⟩], since := fun l => k.since l ++ [⟨k.fmts,cells⟩] }
  | .rowS _ => k
  | .rowH _ => k
  | .calcSub l => (validL l).elim k k.clear

def run (ops : List TabOp) : Ledger := ops.foldl step {}

/-- The sum of column `i` over some rows. -/
def total (rows : List TabRow) (i : ℕ) : ℚ := (rows.map fun r => r.value i).sum

/-- The sum of its squares. -/
def totalSq (rows : List TabRow) (i : ℕ) : ℚ := (rows.map fun r => r.value i*r.value i).sum

/-- The number of rows that are shown. -/
def shown (rows : List TabRow) : ℕ := rows.countP fun r => r.Shown

def Summed (k : Ledger) (i : ℕ) : Prop := k.fmts[i]? = some true

end Ledger

namespace ColTot

@[simp] theorem add_zero (c : ColTot) : c.add 0 = c := by simp [add]

/-- A column's totals are those of the books. -/
structure Agrees (c : ColTot) (k : Ledger) (i : ℕ) : Prop where
  tot : c.tot = Ledger.total k.rows i
  ssq : c.ssq = Ledger.totalSq k.rows i
  totx : ∀ l, c.tot-c.totx l = Ledger.total (k.since l) i
  ssqx : ∀ l, c.ssq-c.ssqx l = Ledger.totalSq (k.since l) i

end ColTot

namespace Ledger
variable {r : TabRow} {rows : List TabRow} {i : ℕ}

theorem total_append (rows rows' : List TabRow) (i : ℕ) :
    total (rows ++ rows') i = total rows i + total rows' i := by simp [total]

theorem totalSq_append (rows rows' : List TabRow) (i : ℕ) :
    totalSq (rows ++ rows') i = totalSq rows i + totalSq rows' i := by simp [totalSq]

theorem shown_append (rows rows' : List TabRow) :
    shown (rows ++ rows') = shown rows + shown rows' := List.countP_append

theorem total_eq_zero (h : ∀ r ∈ rows, r.value i = 0) : total rows i = 0 := by
  apply List.sum_eq_zero
  simpa using h

theorem totalSq_eq_zero (h : ∀ r ∈ rows, r.value i = 0) : totalSq rows i = 0 := by
  apply List.sum_eq_zero
  simpa using h

theorem shown_eq_length_iff : shown rows = rows.length ↔ ∀ r ∈ rows, r.Shown := by
  rw [shown,List.countP_eq_length]
  simp

end Ledger

theorem TabRow.value_of_length_le {r : TabRow} {i : ℕ} (h : r.fmts.length ≤ i) : r.value i = 0 := by
  rw [value,List.getElem?_eq_none h,if_neg nofun]

theorem TabRow.value_of_not_shown {r : TabRow} (h : ¬r.Shown) (i : ℕ) : r.value i = 0 := by
  obtain ⟨fmts,cells⟩ := r
  unfold Shown at h
  by_cases hfmts : fmts = []
  · subst hfmts
    exact value_of_length_le (Nat.zero_le i)
  · obtain rfl : cells = [] := by
      by_contra hcells
      exact h ⟨hfmts,hcells⟩
    simp [value]

/-- Every column gets what the row adds to it. -/
theorem getElem?_addCells (fmts : List Bool) (cells : List ℚ) (tots : List ColTot) (i : ℕ) :
    (addCells fmts cells tots)[i]? =
      tots[i]?.map fun c => c.add (TabRow.value ⟨fmts,cells⟩ i) := by
  fun_induction addCells fmts cells tots generalizing i with
  | case1 sum fmts val cells c tots ih =>
    cases i with
    | zero => cases sum <;> simp [TabRow.value]
    | succ i => simpa [TabRow.value] using ih i
  | case2 fmts cells tots hshape =>
    have hzero : ∀ c ∈ tots[i]?, c.add (TabRow.value ⟨fmts,cells⟩ i) = c := by
      intro c hc
      rw [TabRow.value]
      cases fmts with
      | nil => simp
      | cons sum fmts =>
        cases cells with
        | nil => simp
        | cons val cells =>
          cases tots with
          | nil => cases hc
          | cons c tots => exact absurd rfl (hshape _ _ _ _ _ _ rfl rfl)
    cases h : tots[i]? with
    | none => rfl
    | some c => rw [Option.map_some,hzero c h]

/-- What a table knows after a run is in its books, but it counts only the rows that are shown, in
an `int`. -/
structure Books (t : TabFmt) (k : Ledger) : Prop where
  fmts : t.cFmt.take t.nCols = k.fmts
  cols : k.fmts.length = t.nCols
  totals : ∀ (i : ℕ) (c : ColTot), t.cTot[i]? = some c → c.Agrees k i
  rows_le : ∀ r ∈ k.rows, r.fmts.length ≤ t.cTot.length
  since_le : ∀ l, ∀ r ∈ k.since l, r.fmts.length ≤ t.cTot.length
  nRows : t.nRows = int32 (Ledger.shown k.rows)
  cntx : ∀ l, t.cntx l = int32 (Ledger.shown k.rows-Ledger.shown (k.since l))

namespace Books
variable {t : TabFmt} {k : Ledger}

theorem start : Books {} {} where
  fmts := rfl
  cols := rfl
  totals := nofun
  rows_le := nofun
  since_le := nofun
  nRows := rfl
  cntx _ := rfl

theorem fmts_le (h : Books t k) : k.fmts.length ≤ t.cTot.length := by
  rw [h.cols]
  exact t.cols_le

/-- A new column has no totals, and no row had a cell in it. -/
theorem rowDef (h : Books t k) (fmts : List Bool) : Books (t.rowDef fmts) (k.step (.rowDef fmts)) := by
  unfold TabFmt.rowDef Ledger.step
  by_cases hnil : fmts = []
  · simpa only [if_pos hnil] using h
  simp only [if_neg hnil]
  have hlen : t.cTot.length ≤
      (t.cTot ++ List.replicate (fmts.length-t.cTot.length) ({} : ColTot)).length := by
    rw [List.length_append]
    exact Nat.le_add_right _ _
  constructor
  · exact List.take_left
  · rfl
  · intro i c hc
    by_cases hi : i < t.cTot.length
    · rw [List.getElem?_append_left hi] at hc
      obtain ⟨htot,hssq,htotx,hssqx⟩ := h.totals i c hc
      exact ⟨htot,hssq,htotx,hssqx⟩
    · rw [List.getElem?_append_right (by omega)] at hc
      obtain rfl := List.eq_of_mem_replicate (List.mem_of_getElem? hc)
      have hrows : ∀ r ∈ k.rows, r.value i = 0 := fun r hr =>
        TabRow.value_of_length_le ((h.rows_le r hr).trans (by omega))
      have hsince : ∀ l, ∀ r ∈ k.since l, r.value i = 0 := fun l r hr =>
        TabRow.value_of_length_le ((h.since_le l r hr).trans (by omega))
      constructor
      · exact (Ledger.total_eq_zero hrows).symm
      · exact (Ledger.totalSq_eq_zero hrows).symm
      · intro l
        rw [Ledger.total_eq_zero (hsince l),sub_zero]
      · intro l
        rw [Ledger.totalSq_eq_zero (hsince l),sub_zero]
  · intro r hr
    exact (h.rows_le r hr).trans hlen
  · intro l r hr
    exact (h.since_le l r hr).trans hlen
  · exact h.nRows
  · exact h.cntx

/-- What a row adds to a column is added to its books. -/
theorem add_agrees {c : ColTot} {i : ℕ} (h : c.Agrees k i) (cells : List ℚ) :
    (c.add (TabRow.value ⟨k.fmts,cells⟩ i)).Agrees (k.step (.row cells)) i := by
  have htot (rows : List TabRow) : Ledger.total (rows ++ [⟨k.fmts,cells⟩]) i =
      Ledger.total rows i + TabRow.value ⟨k.fmts,cells⟩ i := by
    rw [Ledger.total_append]
    simp [Ledger.total]
  have hssq (rows : List TabRow) : Ledger.totalSq (rows ++ [⟨k.fmts,cells⟩]) i =
      Ledger.totalSq rows i + TabRow.value ⟨k.fmts,cells⟩ i * TabRow.value ⟨k.fmts,cells⟩ i := by
    rw [Ledger.totalSq_append]
    simp [Ledger.totalSq]
  constructor
  · rw [ColTot.add,Ledger.step,htot,h.tot]
  · rw [ColTot.add,Ledger.step,hssq,h.ssq]
  · intro l
    rw [ColTot.add,Ledger.step,htot,← h.totx]
    ring
  · intro l
    rw [ColTot.add,Ledger.step,hssq,← h.ssqx]
    ring

theorem row (h : Books t k) (cells : List ℚ) : Books (t.row cells) (k.step (.row cells)) := by
  have hlen : ∀ r ∈ [(⟨k.fmts,cells⟩ : TabRow)], r.fmts.length ≤ t.cTot.length := by
    intro r hr
    rw [List.mem_singleton.mp hr]
    exact h.fmts_le
  have hone : Ledger.shown [⟨k.fmts,cells⟩] = if 0 < min cells.length t.nCols then 1 else 0 := by
    have hiff : (⟨k.fmts,cells⟩ : TabRow).Shown ↔ 0 < min cells.length t.nCols := by
      rw [TabRow.Shown,lt_min_iff,List.length_pos_iff,← h.cols,List.length_pos_iff,and_comm]
    rw [Ledger.shown,List.countP_singleton]
    simp only [decide_eq_true_eq,hiff]
  have hcntx (n : ℕ) (l : Fin MAX_SUB) : t.cntx l = int32
      ((Ledger.shown k.rows+n : ℕ)-(Ledger.shown (k.since l)+n : ℕ)) := by
    rw [h.cntx l]
    congr 1
    push_cast
    ring
  have htotals : ∀ (i : ℕ) (c : ColTot), (addCells (t.cFmt.take t.nCols) cells t.cTot)[i]? = some c →
      c.Agrees (k.step (.row cells)) i := by
    intro i c hc
    rw [getElem?_addCells,h.fmts,Option.map_eq_some_iff] at hc
    obtain ⟨c,hc,rfl⟩ := hc
    exact add_agrees (h.totals i c hc) cells
  unfold TabFmt.row
  by_cases hpos : 0 < min cells.length t.nCols
  · simp only [if_pos hpos] at hone ⊢
    constructor
    · exact h.fmts
    · exact h.cols
    · exact htotals
    · intro r hr
      rw [length_addCells]
      exact (List.mem_append.mp hr).elim (h.rows_le r) (hlen r)
    · intro l r hr
      rw [length_addCells]
      exact (List.mem_append.mp hr).elim (h.since_le l r) (hlen r)
    · rw [Ledger.step,Ledger.shown_append,hone,h.nRows,int32_add,Nat.cast_add,Nat.cast_one]
    · intro l
      rw [Ledger.step,Ledger.shown_append,Ledger.shown_append,hone]
      exact hcntx 1 l
  · simp only [if_neg hpos] at hone ⊢
    -- the row is not looked at, and has nothing to add
    have hzero (i : ℕ) : TabRow.value ⟨k.fmts,cells⟩ i = 0 := by
      apply TabRow.value_of_not_shown
      rw [TabRow.Shown,← List.length_pos_iff,← List.length_pos_iff,h.cols]
      dsimp only
      omega
    constructor
    · exact h.fmts
    · exact h.cols
    · intro i c hc
      have hadd := add_agrees (h.totals i c hc) cells
      rwa [hzero,ColTot.add_zero] at hadd
    · intro r hr
      exact (List.mem_append.mp hr).elim (h.rows_le r) (hlen r)
    · intro l r hr
      exact (List.mem_append.mp hr).elim (h.since_le l r) (hlen r)
    · rw [Ledger.step,Ledger.shown_append,hone]
      exact h.nRows
    · intro l
      rw [Ledger.step,Ledger.shown_append,Ledger.shown_append,hone]
      exact hcntx 0 l

/-- Without columns no row was shown. -/
theorem shown_eq_zero {rows : List TabRow} (h : ∀ r ∈ rows, r.fmts.length ≤ 0) :
    Ledger.shown rows = 0 := by
  apply List.countP_eq_zero.mpr
  intro r hr
  have hfmts : r.fmts = [] := List.length_eq_zero_iff.mp (Nat.le_zero.mp (h r hr))
  simp [TabRow.Shown,hfmts]

theorem keep_agrees {c : ColTot} {i : ℕ} (h : c.Agrees k i) (l : Fin MAX_SUB) :
    (c.keep l).Agrees (k.clear l) i := by
  obtain ⟨htot,hssq,htotx,hssqx⟩ := h
  refine ⟨htot,hssq,fun l' => ?_,fun l' => ?_⟩
  · by_cases hl : l' = l
    · subst hl
      simp [ColTot.keep,Ledger.clear,Ledger.total]
    · simpa only [ColTot.keep,Ledger.clear,Function.update_of_ne hl] using htotx l'
  · by_cases hl : l' = l
    · subst hl
      simp [ColTot.keep,Ledger.clear,Ledger.totalSq]
    · simpa only [ColTot.keep,Ledger.clear,Function.update_of_ne hl] using hssqx l'

theorem keep (h : Books t k) (l : Fin MAX_SUB) : Books (t.keep l) (k.clear l) := by
  have hlen : (t.keep l).cTot.length = t.cTot.length := List.length_map _
  constructor
  · exact h.fmts
  · exact h.cols
  · intro i c hc
    rw [TabFmt.keep,List.getElem?_map,Option.map_eq_some_iff] at hc
    obtain ⟨c,hc,rfl⟩ := hc
    exact keep_agrees (h.totals i c hc) l
  · intro r hr
    rw [hlen]
    exact h.rows_le r hr
  · intro l' r hr
    rw [hlen]
    change r ∈ Function.update k.since l [] l' at hr
    by_cases hl : l' = l
    · subst hl
      rw [Function.update_self] at hr
      cases hr
    · rw [Function.update_of_ne hl] at hr
      exact h.since_le l' r hr
  · exact h.nRows
  · intro l'
    rw [TabFmt.keep,Ledger.clear]
    dsimp only
    by_cases hl : l' = l
    · subst hl
      have hnone : Ledger.shown ([] : List TabRow) = 0 := rfl
      rw [Function.update_self,hnone]
      split_ifs with hnil
      · have hrows := h.rows_le
        have hsince := h.since_le l'
        rw [hnil] at hrows hsince
        rw [h.cntx,shown_eq_zero hrows,shown_eq_zero hsince]
      · rw [Function.update_self,h.nRows,Nat.cast_zero,sub_zero]
    · rw [Function.update_of_ne hl]
      split_ifs
      · exact h.cntx l'
      · rw [Function.update_of_ne hl]
        exact h.cntx l'

theorem calcSub (h : Books t k) (l : ℤ) : Books (t.calcSub l) (k.step (.calcSub l)) := by
  rw [TabFmt.calcSub,Ledger.step]
  cases validL l with
  | none => exact h
  | some l => exact h.keep l

theorem step (h : Books t k) (op : TabOp) : Books (t.step op) (k.step op) := by
  cases op with
  | rowDef fmts => exact h.rowDef fmts
  | row cells => exact h.row cells
  | rowS cells => exact h
  | rowH cells => exact h
  | calcSub l => exact h.calcSub l

theorem run (ops : List TabOp) : Books (TabFmt.run ops) (Ledger.run ops) := by
  induction ops using List.reverseRecOn with
  | nil => exact start
  | append_singleton ops op ih =>
    rw [TabFmt.run,Ledger.run,List.foldl_append,List.foldl_append]
    exact ih.step op

/-- What the functions say of the totals. -/
theorem sum_eq (h : Books t k) (i : ℕ) : t.sum i = Ledger.total k.rows i := by
  rw [TabFmt.sum,TabFmt.col,if_pos (Int.natCast_nonneg i),Int.toNat_natCast]
  cases hc : t.cTot[i]? with
  | some c => exact (h.totals i c hc).tot
  | none =>
    have hi := List.getElem?_eq_none_iff.mp hc
    refine (Ledger.total_eq_zero fun r hr => ?_).symm
    exact TabRow.value_of_length_le ((h.rows_le r hr).trans hi)

theorem sumL_eq (h : Books t k) (l : Fin MAX_SUB) (i : ℕ) :
    t.sumL l.val i = Ledger.total (k.since l) i := by
  rw [TabFmt.sumL,TabFmt.col,if_pos (Int.natCast_nonneg i),Int.toNat_natCast,validL_of_fin]
  cases hc : t.cTot[i]? with
  | some c => exact (h.totals i c hc).totx l
  | none =>
    have hi := List.getElem?_eq_none_iff.mp hc
    refine (Ledger.total_eq_zero fun r hr => ?_).symm
    exact TabRow.value_of_length_le ((h.since_le l r hr).trans hi)

theorem cntL_eq (h : Books t k) (l : Fin MAX_SUB) :
    t.cntL l.val = int32 (Ledger.shown (k.since l)) := by
  rw [TabFmt.cntL,validL_of_fin]
  dsimp only
  rw [h.nRows,h.cntx,int32_sub,sub_sub_cancel]

theorem avgL_eq (h : Books t k) (l : Fin MAX_SUB) {i : ℕ} (hi : k.Summed i) :
    t.avgL l.val i = Ledger.total (k.since l) i/t.nRows := by
  have hlt : i < t.cTot.length :=
    (List.getElem?_eq_some_iff.mp hi).1.trans_le h.fmts_le
  rw [TabFmt.avgL,h.sumL_eq,TabFmt.col,if_pos (Int.natCast_nonneg i),Int.toNat_natCast,validL_of_fin,
    List.getElem?_eq_getElem hlt]

end Books

/-- The totals of a table are those of its books. -/
structure TotalsRight (t : TabFmt) (k : Ledger) : Prop where
  sum : ∀ i, k.Summed i → t.sum i = Ledger.total k.rows i
  cnt : t.cnt = k.rows.length
  sumL : ∀ (l : Fin MAX_SUB) (i : ℕ), k.Summed i → t.sumL l.val i = Ledger.total (k.since l) i
  cntL : ∀ l : Fin MAX_SUB, t.cntL l.val = (k.since l).length
  avgL : ∀ (l : Fin MAX_SUB) (i : ℕ), k.Summed i → k.since l ≠ [] →
    t.avgL l.val i = Ledger.total (k.since l) i/(k.since l).length
  outside : ∀ l : ℤ, ¬(0 ≤ l ∧ l < MAX_SUB) → t.cntL l = 0 ∧ t.calcSub l = t ∧
    ∀ i, t.sumL l i = 0 ∧ t.ssqL l i = 0 ∧ t.avgL l i = 0 ∧ ∀ sqrt, t.devL sqrt l i = 0

theorem TabFmt.outside (t : TabFmt) {l : ℤ} (h : ¬(0 ≤ l ∧ l < MAX_SUB)) :
    t.cntL l = 0 ∧ t.calcSub l = t ∧
      ∀ i, t.sumL l i = 0 ∧ t.ssqL l i = 0 ∧ t.avgL l i = 0 ∧ ∀ sqrt, t.devL sqrt l i = 0 := by
  have hl : validL l = none := dif_neg h
  unfold cntL calcSub sumL ssqL avgL devL
  rw [hl]
  refine ⟨rfl,rfl,fun i => ?_⟩
  cases t.col i with
  | none => exact ⟨rfl,rfl,rfl,fun _ => rfl⟩
  | some c => exact ⟨rfl,rfl,rfl,fun _ => rfl⟩

/-- The rows since a level was cleared are rows of the table, and no more than these. -/
theorem Ledger.since_suffix (ops : List TabOp) (l : Fin MAX_SUB) :
    (Ledger.run ops).since l <:+ (Ledger.run ops).rows := by
  induction ops using List.reverseRecOn with
  | nil => exact List.suffix_rfl
  | append_singleton ops op ih =>
    rw [run,List.foldl_append]
    change ((run ops).step op).since l <:+ ((run ops).step op).rows
    cases op with
    | rowDef fmts =>
      rw [step]
      split_ifs
      · exact ih
      · exact ih
    | row cells =>
      obtain ⟨before,hbefore⟩ := ih
      refine ⟨before,?_⟩
      rw [step,← hbefore]
      exact (List.append_assoc before _ _).symm
    | rowS cells => exact ih
    | rowH cells => exact ih
    | calcSub l' =>
      rw [step]
      cases validL l' with
      | none => exact ih
      | some l' =>
        change Function.update (run ops).since l' [] l <:+ (run ops).rows
        by_cases hl : l = l'
        · subst hl
          rw [Function.update_self]
          exact List.nil_suffix
        · rw [Function.update_of_ne hl]
          exact ih

/-- The totals are right exactly when every row is shown, the rows fit an `int`, and each average is
one over all rows or over cells that add up to nothing. -/
theorem totals_iff (ops : List TabOp) : TotalsRight (TabFmt.run ops) (Ledger.run ops) ↔
    (∀ r ∈ (Ledger.run ops).rows, r.Shown) ∧ (Ledger.run ops).rows.length < 2^31 ∧
      ∀ l i, (Ledger.run ops).Summed i → (Ledger.run ops).since l ≠ [] →
        (Ledger.run ops).since l = (Ledger.run ops).rows ∨
          Ledger.total ((Ledger.run ops).since l) i = 0 := by
  have hbooks : Books (TabFmt.run ops) (Ledger.run ops) := .run ops
  have hsuffix := Ledger.since_suffix ops
  generalize TabFmt.run ops = t at *
  generalize Ledger.run ops = k at *
  have hle : Ledger.shown k.rows ≤ k.rows.length := List.countP_le_length
  constructor
  · intro h
    have hcnt : int32 (Ledger.shown k.rows) = k.rows.length := by rw [← hbooks.nRows]; exact h.cnt
    obtain ⟨-,hhigh⟩ := int32_mem (Ledger.shown k.rows)
    have hself : int32 (Ledger.shown k.rows) = Ledger.shown k.rows := int32_of_mem ⟨by omega,by omega⟩
    refine ⟨Ledger.shown_eq_length_iff.mp (by omega),by omega,fun l i hi hsince => ?_⟩
    have havg := (hbooks.avgL_eq l hi).symm.trans (h.avgL l i hi hsince)
    have hrows : t.nRows = k.rows.length := h.cnt
    by_cases hzero : Ledger.total (k.since l) i = 0
    · exact .inr hzero
    · refine .inl ((hsuffix l).eq_of_length ?_)
      rw [hrows,Int.cast_natCast,div_eq_mul_inv,div_eq_mul_inv,mul_right_inj' hzero,inv_inj] at havg
      exact_mod_cast havg.symm
  · rintro ⟨hshown,hshort,havg⟩
    have hcount (rows : List TabRow) (hsub : rows <:+ k.rows) :
        int32 (Ledger.shown rows) = rows.length := by
      have hall : Ledger.shown rows = rows.length :=
        Ledger.shown_eq_length_iff.mpr fun r hr => hshown r (hsub.subset hr)
      have hlen := hsub.length_le
      rw [hall]
      exact int32_of_mem ⟨by omega,by omega⟩
    have hcnt : t.nRows = k.rows.length := hbooks.nRows.trans (hcount _ List.suffix_rfl)
    constructor
    · intro i _
      exact hbooks.sum_eq i
    · exact hcnt
    · intro l i _
      exact hbooks.sumL_eq l i
    · intro l
      rw [hbooks.cntL_eq,hcount _ (hsuffix l)]
    · intro l i hi hsince
      rw [hbooks.avgL_eq l hi,hcnt,Int.cast_natCast]
      rcases havg l i hi hsince with hsame | hzero
      · rw [← hsame]
      · rw [hzero,zero_div,zero_div]
    · intro l hl
      exact t.outside hl

/-- After two rows of 10 and a subtotal in between, the average of the second one is 5. -/
theorem average_halved : ¬TotalsRight
    (TabFmt.run [.rowDef [true],.row [10],.calcSub 0,.row [10]])
    (Ledger.run [.rowDef [true],.row [10],.calcSub 0,.row [10]]) := by
  intro h
  have hone := h.cntL ⟨0,by decide⟩
  have havg := h.avgL ⟨0,by decide⟩ 0 rfl fun hnil => by
    rw [hnil] at hone
    exact absurd hone (by decide)
  exact absurd havg (by decide +kernel)

end Smx
