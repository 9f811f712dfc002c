import Smx.Base.Bytes
import Mathlib.Data.List.Range
import Mathlib.Logic.Function.Basic

/-! `CSqlGrp`: the headers and footers of `%sqlg`, which groups the rows of a query. -/
namespace Smx

/-- What `%sqlg` expands, row by row. -/
inductive GrpEvent
  | head (level : ℕ)
  | foot (level : ℕ)
  | detail
  deriving DecidableEq, Repr

/-- The first index from `i` on that has `p`, among the next `k`. -/
def firstFrom (p : ℕ → Bool) : ℕ → ℕ → ℕ
  | 0,i => i
  | k+1,i => if p i then i else firstFrom p k (i+1)

def MAX_PREV : ℕ := 128

/-- What `strncpy` keeps of a value. -/
def cutPrev (value : Bytes) : Bytes := (cstr value).take MAX_PREV

/-- `value.Clear()` and `col->Eval`: the buffer is NULL until something is put into it. -/
def evalCol (value : Option Bytes) (text : Bytes) : Option Bytes :=
  if value = none ∧ text = [] then none else some text

/-- `CSqlGrp`, with the number of group columns and of the texts for them. -/
structure SqlGrp where
  nCols : ℕ
  nGrps : ℕ
  nRows : ℕ := 0
  nRowsX : ℕ → ℕ := fun _ => 0
  szPrev : ℕ → Bytes := fun _ => []

namespace SqlGrp

/-- The text `c` is expanded, if there is one. -/
def parse (g : SqlGrp) (c : ℕ) (ev : GrpEvent) : List GrpEvent := if c < g.nGrps then [ev] else []

/-- The footers of the groups below level `k` that are open, down to level `i`. -/
def footLoop (i : ℕ) : ℕ → SqlGrp → List GrpEvent × SqlGrp
  | 0,g => ([],g)
  | j+1,g =>
    if j < i then ([],g)
    else if g.nRowsX j < g.nRows then
      let r := footLoop i j { g with nRowsX := Function.update g.nRowsX j g.nRows }
      (g.parse (j*2+1) (.foot j) ++ r.1,r.2)
    else footLoop i j g

/-- The headers of `k` levels from level `j` on; `strncpy` does not copy from NULL. -/
def headLoop (row : ℕ → Bytes) : ℕ → ℕ → Option Bytes → SqlGrp → Option (List GrpEvent × SqlGrp)
  | 0,_,_,g => some ([],g)
  | k+1,j,value,g =>
    (evalCol value (row j)).bind fun text =>
      (headLoop row k (j+1) (some text)
        { g with szPrev := Function.update g.szPrev j (cutPrev text) }).map
          fun r => (g.parse (j*2) (.head j) ++ r.1,r.2)

/-- The loop over the columns, `k` of them from column `i` on. -/
def colLoop (g : SqlGrp) (row : ℕ → Bytes) : ℕ → ℕ → Option Bytes → Option (List GrpEvent × SqlGrp)
  | 0,_,_ => some ([],g)
  | k+1,i,value =>
    let value := evalCol value (row i)
    if cstr (value.getD []) ≠ g.szPrev i then
      let foots := footLoop i g.nCols g
      (headLoop row (k+1) i value foots.2).map fun r => (foots.1 ++ r.1,r.2)
    else colLoop g row k (i+1) value

/-- `SqlDetail`. -/
def sqlDetail (g : SqlGrp) (row : ℕ → Bytes) : Option (List GrpEvent × SqlGrp) :=
  (colLoop g row g.nCols 0 none).map fun r => (r.1 ++ [.detail],{ r.2 with nRows := r.2.nRows+1 })

/-- `SqlFoot`, up to the text at the end. -/
def sqlFoot (g : SqlGrp) : List GrpEvent := (footLoop 0 g.nCols g).1

/-- What is expanded for each row, and at the end. -/
def run (g : SqlGrp) : List (ℕ → Bytes) → Option (List (List GrpEvent))
  | [] => some [g.sqlFoot]
  | row::rows => (g.sqlDetail row).bind fun r => (r.2.run rows).map fun evs => r.1::evs

end SqlGrp

/-- The footers from level `n-1` down to level `d`. -/
def footers (d n : ℕ) : List GrpEvent := (List.range' d (n-d)).reverse.map .foot

/-- The headers from level `d` up to level `n-1`. -/
def headers (d n : ℕ) : List GrpEvent := (List.range' d (n-d)).map .head

/-- The first group column in which two rows differ. -/
def firstDiff (n : ℕ) (prev row : ℕ → Bytes) : ℕ := firstFrom (fun i => row i ≠ prev i) n 0

/-- What a row is to expand: the groups from the first column that differs on are closed and opened
again; before the first row none is open. -/
def rowEvents (n : ℕ) : Option (ℕ → Bytes) → (ℕ → Bytes) → List GrpEvent
  | none,_ => headers 0 n ++ [.detail]
  | some prev,row => footers (firstDiff n prev row) n ++ headers (firstDiff n prev row) n ++ [.detail]

/-- What is to be expanded for each row, and at the end for all groups that are open. -/
def groupEvents (n : ℕ) : Option (ℕ → Bytes) → List (ℕ → Bytes) → List (List GrpEvent)
  | none,[] => [[]]
  | some _,[] => [footers 0 n]
  | prev,row::rows => rowEvents n prev row::groupEvents n (some row) rows

/-- The levels that are open after some events, the last one first; a header opens the next level
and a footer closes the last one. -/
def nest : List ℕ → List GrpEvent → Option (List ℕ)
  | open_,[] => some open_
  | open_,.head j::evs => if j = open_.length then nest (j::open_) evs else none
  | i::open_,.foot j::evs => if j = i then nest open_ evs else none
  | [],.foot _::_ => none
  | open_,.detail::evs => nest open_ evs

section
variable {p : ℕ → Bool} {k i j : ℕ}

theorem le_firstFrom : i ≤ firstFrom p k i := by
  induction k generalizing i with
  | zero => exact le_rfl
  | succ k ih =>
    rw [firstFrom]
    split_ifs
    · exact le_rfl
    · exact (Nat.le_succ i).trans ih

theorem firstFrom_le : firstFrom p k i ≤ i+k := by
  induction k generalizing i with
  | zero => exact le_rfl
  | succ k ih =>
    rw [firstFrom]
    split_ifs
    · exact Nat.le_add_right i _
    · have h : firstFrom p k (i+1) ≤ i+1+k := ih
      omega

theorem not_of_lt_firstFrom (hi : i ≤ j) (hj : j < firstFrom p k i) : p j = false := by
  induction k generalizing i with
  | zero => exact absurd hj (not_lt_of_ge hi)
  | succ k ih =>
    rw [firstFrom] at hj
    split_ifs at hj with h
    · omega
    · rcases Nat.eq_or_lt_of_le hi with rfl | hlt
      · exact Bool.eq_false_iff.mpr h
      · exact ih hlt hj

theorem firstFrom_congr {q : ℕ → Bool} (h : ∀ j, i ≤ j → j < i+k → p j = q j) :
    firstFrom p k i = firstFrom q k i := by
  induction k generalizing i with
  | zero => rfl
  | succ k ih =>
    rw [firstFrom,firstFrom,h i le_rfl (by omega),ih fun j hj hk => h j (by omega) (by omega)]

theorem firstFrom_spec (h : firstFrom p k i < i+k) : p (firstFrom p k i) = true := by
  induction k generalizing i with
  | zero => exact absurd h (lt_irrefl _)
  | succ k ih =>
    rw [firstFrom] at h ⊢
    split_ifs at h ⊢ with hi
    · exact hi
    · exact ih (by omega)

theorem firstFrom_eq_self_iff : firstFrom p k i = i ↔ k = 0 ∨ p i = true := by
  cases k with
  | zero => exact iff_of_true rfl (.inl rfl)
  | succ k =>
    rw [firstFrom]
    split_ifs with h
    · exact iff_of_true rfl (.inr h)
    · have hlow : i+1 ≤ firstFrom p k (i+1) := le_firstFrom
      exact iff_of_false (by omega) (by simpa using h)

/-- A level has a new group exactly when the row differs in a column up to it. -/
theorem firstDiff_le_iff {n : ℕ} {prev row : ℕ → Bytes} (hj : j < n) :
    firstDiff n prev row ≤ j ↔ ∃ i ≤ j, row i ≠ prev i := by
  constructor
  · intro h
    have hlt : firstDiff n prev row < 0+n := by omega
    have hdiff := firstFrom_spec hlt
    exact ⟨_,h,of_decide_eq_true hdiff⟩
  · rintro ⟨i,hi,hdiff⟩
    by_contra hlt
    have hsame := not_of_lt_firstFrom (Nat.zero_le i) (hi.trans_lt (not_le.mp hlt))
    simp [hdiff] at hsame

end

/-- The code's own look at where a row differs: it compares with the values that were cut. -/
def firstDiffCut (n : ℕ) (prev row : ℕ → Bytes) : ℕ :=
  firstFrom (fun i => cstr (row i) ≠ prev i) n 0

/-- A row is taken as it should be: the first one is not empty in the first column, and another one
does not differ earlier or later from values that were cut, nor has it only empty values up to there. -/
def RowTaken (n : ℕ) : Option (ℕ → Bytes) → (ℕ → Bytes) → Prop
  | none,row => n = 0 ∨ cstr (row 0) ≠ []
  | some prev,row => firstDiffCut n (fun i => cutPrev (prev i)) row = firstDiff n prev row ∧
      (firstDiff n prev row = n ∨ ∃ i ≤ firstDiff n prev row, row i ≠ [])

/-- All rows are taken so, each one after the row before it. -/
def RowsTaken (n : ℕ) : Option (ℕ → Bytes) → List (ℕ → Bytes) → Prop
  | _,[] => True
  | prev,row::rows => RowTaken n prev row ∧ RowsTaken n (some row) rows

theorem footers_of_le {d n : ℕ} (h : n ≤ d) : footers d n = [] := by
  rw [footers,Nat.sub_eq_zero_of_le h]
  rfl

theorem footers_succ {d n : ℕ} (h : d ≤ n) : footers d (n+1) = .foot n::footers d n := by
  have hsub : n+1-d = n-d+1 := by omega
  have hlast : d+(n-d) = n := by omega
  rw [footers,footers,hsub,List.range'_concat,Nat.one_mul,hlast,List.reverse_append]
  rfl

theorem headers_of_le {d n : ℕ} (h : n ≤ d) : headers d n = [] := by
  rw [headers,Nat.sub_eq_zero_of_le h]
  rfl

theorem headers_of_lt {d n : ℕ} (h : d < n) : headers d n = .head d::headers (d+1) n := by
  have hsub : n-d = n-(d+1)+1 := by omega
  rw [headers,headers,hsub,List.range'_succ]
  rfl

@[simp] theorem length_footers (d n : ℕ) : (footers d n).length = n-d := by simp [footers]

@[simp] theorem length_headers (d n : ℕ) : (headers d n).length = n-d := by simp [headers]

namespace SqlGrp
variable {g : SqlGrp} {row : ℕ → Bytes} {i j k : ℕ}

theorem parse_of_lt {c : ℕ} (h : c < g.nGrps) (ev : GrpEvent) : g.parse c ev = [ev] := if_pos h

/-- The groups of the levels from `i` up to `k` are closed. -/
def setRows (g : SqlGrp) (i k : ℕ) : SqlGrp :=
  { g with nRowsX := fun j => if i ≤ j ∧ j < k then g.nRows else g.nRowsX j }

theorem setRows_of_le (h : k ≤ i) : g.setRows i k = g := by
  have hsame : (fun j => if i ≤ j ∧ j < k then g.nRows else g.nRowsX j) = g.nRowsX := by
    funext j
    exact if_neg (by omega)
  rw [setRows,hsame]

theorem setRows_succ (h : i ≤ k) :
    ({ g with nRowsX := Function.update g.nRowsX k g.nRows }).setRows i k = g.setRows i (k+1) := by
  unfold setRows
  congr 1
  funext j
  dsimp only
  by_cases hj : j = k
  · subst hj
    rw [if_neg (by omega),if_pos (by omega),Function.update_self]
  · rw [Function.update_of_ne hj]
    exact if_congr (by omega) rfl rfl

/-- The groups from level `i` on are closed where they are all open. -/
theorem footLoop_open (hopen : ∀ j < k, g.nRowsX j < g.nRows) (hgrps : k*2 ≤ g.nGrps) :
    footLoop i k g = (footers i k,g.setRows i k) := by
  induction k generalizing g with
  | zero => rw [footLoop,footers_of_le (Nat.zero_le i),setRows_of_le (Nat.zero_le i)]
  | succ k ih =>
    rw [footLoop]
    by_cases hk : k < i
    · rw [if_pos hk,footers_of_le hk,setRows_of_le hk]
    · have hrest := ih (g := { g with nRowsX := Function.update g.nRowsX k g.nRows }) (by
        intro j hj
        dsimp only
        rw [Function.update_of_ne (by omega)]
        exact hopen j (by omega)) ((Nat.mul_le_mul_right 2 (Nat.le_succ k)).trans hgrps)
      rw [if_neg hk,if_pos (hopen k (Nat.lt_succ_self k)),hrest,setRows_succ (not_lt.mp hk),
        footers_succ (not_lt.mp hk),parse_of_lt (by omega)]
      rfl

theorem footLoop_nGrps : (footLoop i k g).2.nGrps = g.nGrps := by
  induction k generalizing g with
  | zero => rfl
  | succ k ih =>
    rw [footLoop]
    split_ifs
    · rfl
    · exact ih
    · exact ih

/-- None is closed where none is open. -/
theorem footLoop_closed (hclosed : ∀ j < k, g.nRows ≤ g.nRowsX j) : footLoop i k g = ([],g) := by
  induction k with
  | zero => rfl
  | succ k ih =>
    rw [footLoop,if_neg (not_lt.mpr (hclosed k (Nat.lt_succ_self k))),
      ih fun j hj => hclosed j (by omega),ite_self]

theorem evalCol_some (v text : Bytes) : evalCol (some v) text = some text :=
  if_neg fun h => Option.some_ne_none v h.1

/-- The values of `k` levels from `j` on are kept. -/
def setPrev (g : SqlGrp) (row : ℕ → Bytes) (j k : ℕ) : SqlGrp :=
  { g with szPrev := fun m => if j ≤ m ∧ m < j+k then cutPrev (row m) else g.szPrev m }

theorem setPrev_zero : g.setPrev row j 0 = g := by
  have hsame : (fun m => if j ≤ m ∧ m < j+0 then cutPrev (row m) else g.szPrev m) = g.szPrev := by
    funext m
    exact if_neg (by omega)
  rw [setPrev,hsame]

theorem setPrev_succ :
    ({ g with szPrev := Function.update g.szPrev j (cutPrev (row j)) }).setPrev row (j+1) k =
      g.setPrev row j (k+1) := by
  unfold setPrev
  congr 1
  funext m
  dsimp only
  by_cases hm : m = j
  · subst hm
    rw [if_neg (by omega),if_pos (by omega),Function.update_self]
  · rw [Function.update_of_ne hm]
    exact if_congr (by omega) rfl rfl

theorem headLoop_some (v : Bytes) (hgrps : (j+k)*2 ≤ g.nGrps) :
    headLoop row k j (some v) g = some (headers j (j+k),g.setPrev row j k) := by
  induction k generalizing j v g with
  | zero =>
    rw [Nat.add_zero,headLoop,headers_of_le le_rfl,setPrev_zero]
  | succ k ih =>
    have hlen : j+1+k = j+(k+1) := by omega
    rw [headLoop,evalCol_some,Option.bind_some,ih _ (by rw [hlen]; exact hgrps),Option.map_some,
      parse_of_lt (by omega),headers_of_lt (by omega : j < j+(k+1)),hlen,setPrev_succ]
    rfl

/-- `strncpy` from NULL. -/
theorem headLoop_none (hrow : row j = []) : headLoop row (k+1) j none g = none := by
  rw [headLoop,evalCol,if_pos ⟨rfl,hrow⟩]
  rfl

/-- Where the row differs from what is kept. -/
def differsAt (g : SqlGrp) (row : ℕ → Bytes) : ℕ := firstDiffCut g.nCols g.szPrev row

theorem colLoop_eq (hgrps : g.nCols*2 ≤ g.nGrps) (hk : i+k = g.nCols) (value : Option Bytes) :
    colLoop g row k i value =
      let d := firstFrom (fun i => cstr (row i) ≠ g.szPrev i) k i
      if d = g.nCols then some ([],g)
      else if value = none ∧ ∀ m, i ≤ m → m ≤ d → row m = [] then none
      else
        let foots := footLoop d g.nCols g
        some (foots.1 ++ headers d g.nCols,foots.2.setPrev row d (g.nCols-d)) := by
  induction k generalizing i value with
  | zero =>
    rw [colLoop,firstFrom]
    exact (if_pos hk).symm
  | succ k ih =>
    have htext : (evalCol value (row i)).getD [] = row i := by
      unfold evalCol
      split_ifs with h
      · exact h.2.symm
      · rfl
    rw [colLoop,firstFrom]
    simp only [htext,decide_eq_true_eq]
    by_cases hdiff : cstr (row i) ≠ g.szPrev i
    · have hi : i ≠ g.nCols := by omega
      rw [if_pos hdiff,if_pos hdiff,if_neg hi]
      by_cases hnull : value = none ∧ row i = []
      · rw [evalCol,if_pos hnull,headLoop_none hnull.2,if_pos]
        · rfl
        · refine ⟨hnull.1,fun m him hmi => ?_⟩
          rw [le_antisymm hmi him]
          exact hnull.2
      · rw [evalCol,if_neg hnull,headLoop_some,if_neg,hk]
        · have hsub : k+1 = g.nCols-i := by omega
          rw [hsub]
          rfl
        · rintro ⟨hnone,hall⟩
          exact hnull ⟨hnone,hall i le_rfl le_rfl⟩
        · rw [hk,footLoop_nGrps]
          exact hgrps
    · have hlow : i+1 ≤ firstFrom (fun i => cstr (row i) ≠ g.szPrev i) k (i+1) := le_firstFrom
      rw [if_neg hdiff,if_neg hdiff,ih (by omega)]
      dsimp only
      refine if_congr Iff.rfl rfl (if_congr ?_ rfl rfl)
      -- what was put into the buffer at column `i` stays there
      constructor
      · rintro ⟨hnone,hall⟩
        have hnull : value = none ∧ row i = [] := by
          by_contra hnull
          rw [evalCol,if_neg hnull] at hnone
          cases hnone
        refine ⟨hnull.1,fun m him hmd => ?_⟩
        rcases Nat.eq_or_lt_of_le him with rfl | hlt
        · exact hnull.2
        · exact hall m hlt hmd
      · rintro ⟨hnone,hall⟩
        exact ⟨if_pos ⟨hnone,hall i le_rfl (by omega)⟩,fun m him hmd => hall m (by omega) hmd⟩

/-- What `SqlDetail` does with a row. -/
theorem sqlDetail_eq (hgrps : g.nCols*2 ≤ g.nGrps) : g.sqlDetail row =
    let d := g.differsAt row
    if d = g.nCols then some ([.detail],{ g with nRows := g.nRows+1 })
    else if ∀ m ≤ d, row m = [] then none
    else
      let foots := footLoop d g.nCols g
      let kept := foots.2.setPrev row d (g.nCols-d)
      some (foots.1 ++ headers d g.nCols ++ [.detail],{ kept with nRows := kept.nRows+1 }) := by
  rw [sqlDetail,colLoop_eq hgrps (Nat.zero_add _)]
  simp only [true_and,Nat.zero_le,true_implies]
  unfold differsAt firstDiffCut
  split_ifs <;> rfl

/-- Between two rows: the values of the row before are kept, cut, and all groups are open; before
the first row nothing is kept, and none is open. -/
structure Follows (g : SqlGrp) (prev : Option (ℕ → Bytes)) : Prop where
  texts : g.nCols*2 ≤ g.nGrps
  kept : ∀ j < g.nCols, g.szPrev j = (prev.map fun p => cutPrev (p j)).getD []
  opened : prev ≠ none → ∀ j < g.nCols, g.nRowsX j < g.nRows
  none_open : prev = none → ∀ j < g.nCols, g.nRowsX j = g.nRows

theorem differsAt_le : g.differsAt row ≤ g.nCols := by
  have hle : g.differsAt row ≤ 0+g.nCols := firstFrom_le
  omega

/-- The footers of the groups that are open. -/
def footersOf (prev : Option (ℕ → Bytes)) (d n : ℕ) : List GrpEvent :=
  if prev = none then [] else footers d n

section
variable {prev : Option (ℕ → Bytes)} (h : g.Follows prev)
include h

theorem Follows.footLoop_eq (d : ℕ) : ∃ nRowsX, (∀ j < g.nCols, nRowsX j ≤ g.nRows) ∧
    footLoop d g.nCols g = (footersOf prev d g.nCols,{ g with nRowsX := nRowsX }) := by
  cases prev with
  | none =>
    have hclosed := h.none_open rfl
    exact ⟨g.nRowsX,fun j hj => (hclosed j hj).le,footLoop_closed fun j hj => (hclosed j hj).ge⟩
  | some p =>
    have hopen := h.opened nofun
    refine ⟨_,fun j hj => ?_,footLoop_open hopen h.texts⟩
    split_ifs
    · exact le_rfl
    · exact (hopen j hj).le

/-- A value that is kept is short enough to be kept as it is. -/
theorem Follows.cutPrev_of_same {j : ℕ} (hj : j < g.nCols) (hsame : cstr (row j) = g.szPrev j) :
    g.szPrev j = cutPrev (row j) := by
  have hshort : (g.szPrev j).length ≤ MAX_PREV := by
    rw [h.kept j hj]
    cases prev with
    | none => exact Nat.zero_le _
    | some p => exact List.length_take_le _ _
  rw [cutPrev,hsame,List.take_of_length_le hshort]

/-- A row is lost where `strncpy` copies from NULL, and else all groups are open after it. -/
theorem Follows.detail (row : ℕ → Bytes) :
    let d := g.differsAt row
    if d < g.nCols ∧ ∀ m ≤ d, row m = [] then g.sqlDetail row = none
    else ∃ g', g'.nCols = g.nCols ∧ g'.Follows (some row) ∧
      g.sqlDetail row = some (footersOf prev d g.nCols ++ headers d g.nCols ++ [.detail],g') := by
  have hle : g.differsAt row ≤ g.nCols := differsAt_le
  have hsame : ∀ j < g.differsAt row, cstr (row j) = g.szPrev j := by
    intro j hj
    simpa using not_of_lt_firstFrom (Nat.zero_le j) hj
  obtain ⟨nRowsX,hrows,hfoot⟩ := h.footLoop_eq (g.differsAt row)
  have hdetail : g.sqlDetail row = _ := sqlDetail_eq h.texts
  generalize g.differsAt row = d at *
  dsimp only at hdetail ⊢
  rw [hfoot] at hdetail
  by_cases hd : d = g.nCols
  · -- nothing differs
    subst hd
    have hnone : footersOf prev g.nCols g.nCols = [] := by
      unfold footersOf
      split_ifs
      · rfl
      · exact footers_of_le le_rfl
    rw [if_pos rfl] at hdetail
    rw [if_neg fun hlt => lt_irrefl _ hlt.1,hnone,headers_of_le le_rfl]
    refine ⟨{ g with nRows := g.nRows+1 },rfl,⟨h.texts,?_,?_,nofun⟩,hdetail⟩
    · intro j hj
      exact h.cutPrev_of_same hj (hsame j hj)
    · intro _ j hj
      apply Nat.lt_succ_of_le
      by_cases hprev : prev = none
      · exact (h.none_open hprev j hj).le
      · exact (h.opened hprev j hj).le
  · rw [if_neg hd] at hdetail
    have hlt : d < g.nCols := lt_of_le_of_ne hle hd
    by_cases hnull : ∀ m ≤ d, row m = []
    · rw [if_pos hnull] at hdetail
      rwa [if_pos ⟨hlt,hnull⟩]
    · rw [if_neg hnull] at hdetail
      rw [if_neg fun h => hnull h.2]
      refine ⟨{ ({ g with nRowsX := nRowsX } : SqlGrp).setPrev row d (g.nCols-d) with
        nRows := g.nRows+1 },rfl,⟨h.texts,?_,?_,nofun⟩,hdetail⟩
      · intro j hj
        change (if d ≤ j ∧ j < d+(g.nCols-d) then cutPrev (row j) else g.szPrev j) = cutPrev (row j)
        have hj : j < g.nCols := hj
        split_ifs with hdj
        · rfl
        · exact h.cutPrev_of_same hj (hsame j (by omega))
      · intro _ j hj
        exact Nat.lt_succ_of_le (hrows j hj)

end

variable {prev : Option (ℕ → Bytes)}

/-- A row that is taken as it should be has no effect but the events it is to have. -/
theorem Follows.rowTaken_iff (h : g.Follows prev) (row : ℕ → Bytes) :
    RowTaken g.nCols prev row ↔ ¬(g.differsAt row < g.nCols ∧ ∀ m ≤ g.differsAt row, row m = []) ∧
      footersOf prev (g.differsAt row) g.nCols ++ headers (g.differsAt row) g.nCols ++ [.detail] =
        rowEvents g.nCols prev row := by
  have hle : g.differsAt row ≤ g.nCols := differsAt_le
  cases prev with
  | none =>
    have hzero : g.differsAt row = 0 ↔ g.nCols = 0 ∨ cstr (row 0) ≠ [] := by
      rw [differsAt,firstDiffCut,firstFrom_eq_self_iff,decide_eq_true_eq]
      refine or_congr_right' fun hn => ?_
      rw [h.kept 0 (Nat.pos_of_ne_zero hn)]
      rfl
    rw [RowTaken,← hzero]
    generalize g.differsAt row = d at *
    constructor
    · intro hd
      refine ⟨fun hnull => ?_,?_⟩
      · have hrow : row 0 = [] := hnull.2 0 (Nat.zero_le d)
        rw [hd,hrow] at hzero
        rcases hzero.mp rfl with hn | hne
        · omega
        · exact hne rfl
      · rw [hd]
        rfl
    · rintro ⟨-,hevents⟩
      have hlen := congrArg List.length hevents
      simp only [footersOf,if_true,rowEvents,List.length_append,length_headers,List.length_nil,
        List.length_singleton] at hlen
      have hn : g.nCols = 0 ∨ d = 0 := by omega
      rcases hn with hn | hn
      · omega
      · exact hn
  | some p =>
    have hcut : g.differsAt row = firstDiffCut g.nCols (fun i => cutPrev (p i)) row := by
      apply firstFrom_congr
      intro j _ hj
      rw [h.kept j (by omega)]
      rfl
    have hdiff : firstDiff g.nCols p row ≤ 0+g.nCols := firstFrom_le
    rw [RowTaken,← hcut,footersOf,if_neg nofun,rowEvents]
    generalize g.differsAt row = d at *
    constructor
    · rintro ⟨rfl,htaken⟩
      refine ⟨?_,rfl⟩
      rintro ⟨hlt,hnull⟩
      rcases htaken with hn | ⟨i,hi,hne⟩
      · omega
      · exact hne (hnull i hi)
    · rintro ⟨hnull,hevents⟩
      have hlen := congrArg List.length hevents
      simp only [List.length_append,length_headers,length_footers,List.length_singleton] at hlen
      have hd : d = firstDiff g.nCols p row := by omega
      refine ⟨hd,?_⟩
      rw [← hd]
      by_contra htaken
      rw [not_or] at htaken
      refine hnull ⟨lt_of_le_of_ne hle htaken.1,fun m hm => ?_⟩
      by_contra hne
      exact htaken.2 ⟨m,hm,hne⟩

theorem Follows.foot (h : g.Follows prev) : [g.sqlFoot] = groupEvents g.nCols prev [] := by
  obtain ⟨nRowsX,-,hfoot⟩ := h.footLoop_eq 0
  rw [sqlFoot,hfoot]
  cases prev <;> rfl

/-- The events of all rows are right exactly when every row is taken as it should be. -/
theorem Follows.run_iff (h : g.Follows prev) (rows : List (ℕ → Bytes)) :
    g.run rows = some (groupEvents g.nCols prev rows) ↔ RowsTaken g.nCols prev rows := by
  induction rows generalizing g prev with
  | nil =>
    rw [run,h.foot]
    exact iff_of_true rfl trivial
  | cons row rows ih =>
    have hdetail := h.detail row
    have htaken := h.rowTaken_iff row
    have hevents : groupEvents g.nCols prev (row::rows) =
        rowEvents g.nCols prev row::groupEvents g.nCols (some row) rows := by
      cases prev <;> rfl
    rw [run,hevents,RowsTaken,htaken]
    dsimp only at hdetail
    split_ifs at hdetail with hnull
    · rw [hdetail]
      exact iff_of_false nofun fun hrows => hrows.1.1 hnull
    · obtain ⟨g',hcols,hfollows,hdetail⟩ := hdetail
      rw [hdetail,Option.bind_some,← hcols,← ih hfollows,hcols,Option.map_eq_some_iff]
      constructor
      · rintro ⟨evs,hrun,hcons⟩
        obtain ⟨hrow,rfl⟩ := List.cons.inj hcons
        exact ⟨⟨hnull,hrow⟩,hrun⟩
      · rintro ⟨⟨-,hrow⟩,hrun⟩
        exact ⟨_,hrun,by rw [hrow]⟩

end SqlGrp

/-- The levels below `n`, all open. -/
def levels (n : ℕ) : List ℕ := (List.range n).reverse

@[simp] theorem length_levels (n : ℕ) : (levels n).length = n := by simp [levels]

theorem levels_succ (n : ℕ) : levels (n+1) = n::levels n := by simp [levels,List.range_succ]

theorem nest_append (open_ : List ℕ) (evs evs' : List GrpEvent) :
    nest open_ (evs ++ evs') = (nest open_ evs).bind fun open_ => nest open_ evs' := by
  fun_induction nest open_ evs with
  | case1 open_ => rfl
  | case2 open_ evs ih => rw [List.cons_append,nest,if_pos rfl,ih]
  | case3 open_ j evs hj =>
    rw [List.cons_append,nest,if_neg hj]
    rfl
  | case4 i open_ evs ih => rw [List.cons_append,nest,if_pos rfl,ih]
  | case5 i open_ j evs hj =>
    rw [List.cons_append,nest,if_neg hj]
    rfl
  | case6 => rfl
  | case7 open_ evs ih => rw [List.cons_append,nest,ih]

theorem nest_headers {d n : ℕ} (h : d ≤ n) : nest (levels d) (headers d n) = some (levels n) := by
  induction k : n-d generalizing d with
  | zero =>
    obtain rfl : d = n := by omega
    rw [headers_of_le le_rfl]
    rfl
  | succ k ih =>
    rw [headers_of_lt (by omega),nest,if_pos (length_levels d).symm,← levels_succ]
    exact ih (by omega) (by omega)

theorem nest_footers {d n : ℕ} (h : d ≤ n) : nest (levels n) (footers d n) = some (levels d) := by
  induction n with
  | zero =>
    obtain rfl := Nat.le_zero.mp h
    rfl
  | succ n ih =>
    rcases Nat.eq_or_lt_of_le h with rfl | hlt
    · rw [footers_of_le le_rfl]
      rfl
    · rw [footers_succ (by omega),levels_succ,nest,if_pos rfl]
      exact ih (by omega)

/-- The levels that are open before a row. -/
def openLevels (n : ℕ) : Option (ℕ → Bytes) → List ℕ
  | none => []
  | some _ => levels n

theorem nest_rowEvents (n : ℕ) (prev : Option (ℕ → Bytes)) (row : ℕ → Bytes) :
    nest (openLevels n prev) (rowEvents n prev row) = some (levels n) := by
  cases prev with
  | none =>
    have hhead := nest_headers (Nat.zero_le n)
    rw [rowEvents,openLevels,nest_append]
    change (nest (levels 0) (headers 0 n)).bind _ = _
    rw [hhead]
    rfl
  | some p =>
    have hle : firstDiff n p row ≤ n := by
      have h : firstDiff n p row ≤ 0+n := firstFrom_le
      omega
    rw [rowEvents,openLevels,nest_append,nest_append,nest_footers hle,Option.bind_some,
      nest_headers hle]
    rfl

/-- Every header is closed by a footer of its own. -/
theorem nest_groupEvents (n : ℕ) (prev : Option (ℕ → Bytes)) (rows : List (ℕ → Bytes)) :
    nest (openLevels n prev) (groupEvents n prev rows).flatten = some [] := by
  induction rows generalizing prev with
  | nil =>
    cases prev with
    | none => rfl
    | some p =>
      have hfoot := nest_footers (Nat.zero_le n)
      rw [groupEvents,List.flatten_singleton,openLevels,hfoot]
      rfl
  | cons row rows ih =>
    have hevents : groupEvents n prev (row::rows) =
        rowEvents n prev row::groupEvents n (some row) rows := by
      cases prev <;> rfl
    rw [hevents,List.flatten_cons,nest_append,nest_rowEvents,Option.bind_some]
    exact ih (some row)

/-- A report is grouped: every row has its headers and footers, and these nest. -/
structure Grouped (n : ℕ) (rows : List (ℕ → Bytes)) (out : Option (List (List GrpEvent))) : Prop where
  events : out = some (groupEvents n none rows)
  nested : ∀ evs, out = some evs → nest [] evs.flatten = some []

end Smx
