import Smx.Table.Pre

/-! `CTabFmt`: rows that are put together in `m_buf`, piece by piece, by one of the two renderers. -/
namespace Smx

open Memory

/-- The classes that render a table, `CTabTD` with what `SetRowEx` has set. -/
inductive Renderer
  | pre
  | td (trex tdex : Option Bytes)

/-- `if (flag) r += sprintf(r, "…");` -/
def putIf (flag : Bool) (text : Bytes) : List (Put Byte) := if flag then [.printed text] else []

namespace CTabTD

/-- `memcpy(r, tdx, tdn)`, which has no end where the length is negative. -/
def copyTdx (col : ColFmt) : Option (List (Put Byte)) :=
  match col.tdx with
  | none => some []
  | some tdx => if col.tdn < 0 then none else some [.chars [ch ' '],.chars (tdx.take col.tdn.toNat)]

def colB (col : ColFmt) (tdex : Option Bytes) : Option (List (Put Byte)) := do
  let tdx ← copyTdx col
  some ([.chars (str "\n  <T"),.chars [if col.hdr = 0 then ch 'D' else ch 'H']] ++
    (if col.pad = ch 'r' ∨ col.pad = ch 'd' then [.printed (str " Align=Right")]
      else if col.pad = ch 'c' then [.printed (str " Align=Center")]
      else putIf (col.hdr ≠ 0) (str " Align=Left")) ++
    (match tdex with
      | none => []
      | some tdex => [.chars [ch ' '],.chars tdex]) ++ tdx ++ [.chars [ch '>']])

def colE (col : ColFmt) : List (Put Byte) :=
  [.chars (str "</T"),.chars [if col.hdr = 0 then ch 'D' else ch 'H'],.chars [ch '>']]

def colN (col : ColFmt) : List (Put Byte) := putIf (col.att &&& ATT_NULL = 0) (str "&nbsp;")

def colV (col : ColFmt) (rgb : ℤ) (p : Bytes) : List (Put Byte) :=
  putIf (rgb ≠ 0) (str "<font color=" ++ hex06 rgb ++ [ch '>']) ++ [.chars (putSet col.pre)] ++
    putIf (col.att &&& ATT_B ≠ 0) (str "<b>") ++ putIf (col.att &&& ATT_U ≠ 0) (str "<u>") ++
    putIf (col.att &&& ATT_I ≠ 0) (str "<u>") ++ [.chars p] ++ putIf (col.att &&& ATT_I ≠ 0) (str "</i>") ++
    putIf (col.att &&& ATT_U ≠ 0) (str "</u>") ++ putIf (col.att &&& ATT_B ≠ 0) (str "</b>") ++
    [.chars (putSet col.pos)] ++ putIf (rgb ≠ 0) (str "</font>")

def rowB (trex : Option Bytes) : List (Put Byte) :=
  [.printed (str "\n <TR")] ++
    (match trex with
      | none => []
      | some trex => [.chars [ch ' '],.printed trex]) ++ [.printed (str ">")]

end CTabTD

namespace CTabPre

def colN (col : ColFmt) : List (Put Byte) :=
  [.chars (if col.pos = 0 then [] else [ch ' ']),.chars (if col.pre = 0 then [] else [ch ' ']),
    .chars (blanks col.wid),.chars (blanks col.spc)]

def rowE (pRgb : ℤ) : List (Put Byte) := putIf (pRgb ≠ 0) (str "</font>") ++ [.chars (str "\n")]

end CTabPre

/-- A column, and the text for it, which is NULL where there is none. -/
abbrev TabCell := ColFmt × Option Bytes

section
variable (r : Renderer) (nf : ColFmt → Bytes → Bytes × ℚ) (cd : ColFmt → Bytes → ColFmt)

def rowB : List (Put Byte) :=
  match r with
  | .pre => []
  | .td trex _ => CTabTD.rowB trex

def rowE (pRgb : ℤ) : List (Put Byte) :=
  match r with
  | .pre => CTabPre.rowE pRgb
  | .td _ _ => [.printed (str " </TR>")]

/-- The colour that is left behind a cell: only `CTabPre` keeps it. -/
def rgbAfter (pRgb : ℤ) : TabCell → ℤ
  | (_,none) => pRgb
  | (_,some []) => pRgb
  | (col,some (c::dat)) =>
    match r with
    | .pre => CTabPre.rgbOf col (nf col (htIncr (c::dat)).2).2
    | .td _ _ => pRgb

/-- The colour that is left behind a row. -/
def rgbEnd (pRgb : ℤ) : ℤ :=
  match r with
  | .pre => 0
  | .td _ _ => pRgb

/-- What `Col` puts out, where `NumFmt` returns the text and the value `nf`. -/
def cellPuts (pRgb : ℤ) : TabCell → Option (List (Put Byte))
  | (col,dat) =>
    let dat := dat.getD []
    let lead := (htIncr dat).1
    let (shown,val) := nf col (htIncr dat).2
    match r with
    | .pre =>
      if dat = [] then some (CTabPre.colN col) else some (CTabPre.cell col pRgb (CTabPre.rgbOf col val) lead shown)
    | .td _ tdex =>
      (CTabTD.colB col tdex).map fun begin => begin ++
        (if dat = [] then CTabTD.colN col else [.chars lead] ++ CTabTD.colV col (CTabPre.rgbOf col val) shown) ++
        CTabTD.colE col

/-- `m_cFmt`, `m_buf`, `m_cbBuf`, `m_pRgb`, and the rows that `Out` has been given. -/
structure TabBuf where
  cols : List ColFmt
  mem : ℕ → Byte
  cb : ℕ
  pRgb : ℤ
  rows : List Bytes

/-- A table that is new, with whatever `malloc` returned. -/
def TabBuf.new (mem : ℕ → Byte) : TabBuf := ⟨[],mem,2048,0,[]⟩

/-- The size of the buffer when a cell begins at `n`. -/
def reserve (n cb : ℕ) : ℕ := if cb < n+1024 then cb+1024 else cb

/-- The cells of a row, from the `n`-th byte of the buffer on. -/
def putCells : List TabCell → ℕ → TabBuf → Option (ℕ × TabBuf)
  | [],n,t => some (n,t)
  | cell::cells,n,t => do
    let cb := reserve n t.cb
    let puts ← cellPuts r nf t.pRgb cell
    let (n,mem) ← putAll 0 cb puts n t.mem
    putCells cells n { t with mem := mem,cb := cb,pRgb := rgbAfter r nf t.pRgb cell }

/-- A row, unless there are no cells for it. -/
def putRow (cells : List TabCell) (t : TabBuf) : Option TabBuf :=
  if cells = [] then some t
  else do
    let (n,mem) ← putAll 0 t.cb (rowB r) 0 t.mem
    let (n,t) ← putCells r nf cells n { t with mem := mem }
    let (n,mem) ← putAll 0 t.cb (rowE r t.pRgb) n t.mem
    some { t with mem := mem,pRgb := rgbEnd r t.pRgb,rows := t.rows ++ [(List.range n).map mem] }

/-- The calls that put out rows, and the one that defines the columns. -/
inductive TabCall
  | rowDef (fmts : List Bytes)
  | row (dat : List (Option Bytes))
  | rowS (dat : List (Option Bytes))
  | rowH (fmt : Bytes) (dat : List (Option Bytes))

/-- The columns that `RowDef` makes, where `ColDef` is `cd`. -/
def rowDef (fmts : List Bytes) : List ColFmt :=
  fmts.mapIdx fun i fmt =>
    cd { spc := if i+1 = fmts.length then 0 else 1,neg := 0xFF0000,rgb := -1,tho := ch ',' } fmt

/-- A column under the headers that `hf` formats. -/
def headCol (hf cf : ColFmt) : ColFmt :=
  { cf with
    pad := if hf.pad = 0 then cf.pad else hf.pad
    rgb := if hf.rgb = -1 then cf.rgb else hf.rgb
    wid := cf.wid+cf.spc
    spc := 0
    sum := 0
    dec := -1
    hdr := ch 'h' }

/-- The cells of the row that a call puts out. -/
def rowCells (cols : List ColFmt) : TabCall → List TabCell
  | .rowDef _ => []
  | .row dat => cols.zip dat
  | .rowS dat => (cols.map fun cf => { cf with sum := 0 }).zip dat
  | .rowH fmt dat => (cols.map (headCol (cd { pad := ch 'c',rgb := -1,tho := ch ',' } fmt))).zip dat

def colsAfter (cols : List ColFmt) : TabCall → List ColFmt
  | .rowDef fmts => rowDef cd fmts
  | _ => cols

def TabBuf.call (t : TabBuf) (c : TabCall) : Option TabBuf :=
  (putRow r nf (rowCells cd t.cols c) t).map fun t' => { t' with cols := colsAfter cd t.cols c }

def TabBuf.calls (t : TabBuf) (cs : List TabCall) : Option TabBuf := cs.foldlM (TabBuf.call r nf cd) t

/-! ### What is to be put out, and the room for it -/

/-- The pieces of the cells one behind the other, and the colour that is left. -/
def cellsText : List TabCell → ℤ → Bytes × ℤ
  | [],pRgb => ([],pRgb)
  | cell::cells,pRgb =>
    let (text,rgb) := cellsText cells (rgbAfter r nf pRgb cell)
    (flat ((cellPuts r nf pRgb cell).getD []) ++ text,rgb)

/-- The rows that a call is to put out. -/
def rowsText (pRgb : ℤ) (cells : List TabCell) : List Bytes :=
  if cells = [] then []
  else
    let (text,rgb) := cellsText r nf cells pRgb
    [flat (rowB r) ++ text ++ flat (rowE r rgb)]

/-- Each cell has room where it begins, and so has the end of the row. -/
def CellsFit : List TabCell → ℕ → ℕ → ℤ → Prop
  | [],n,cb,pRgb => n+need 0 (rowE r pRgb) ≤ cb
  | cell::cells,n,cb,pRgb =>
    ∃ puts, cellPuts r nf pRgb cell = some puts ∧ n+need 0 puts ≤ reserve n cb ∧
      CellsFit cells (n+(flat puts).length) (reserve n cb) (rgbAfter r nf pRgb cell)

/-- The size of the buffer behind the cells. -/
def capAfter : List TabCell → ℕ → ℕ → ℤ → ℕ
  | [],_,cb,_ => cb
  | cell::cells,n,cb,pRgb =>
    capAfter cells (n+(flat ((cellPuts r nf pRgb cell).getD [])).length) (reserve n cb) (rgbAfter r nf pRgb cell)

/-- What the room for the next row depends on. -/
structure TabPlan where
  cols : List ColFmt
  cb : ℕ
  pRgb : ℤ

/-- A call has room for its row. -/
def TabPlan.Fits (p : TabPlan) (c : TabCall) : Prop :=
  rowCells cd p.cols c = [] ∨
    need 0 (rowB r) ≤ p.cb ∧ CellsFit r nf (rowCells cd p.cols c) (flat (rowB r)).length p.cb p.pRgb

def TabPlan.after (p : TabPlan) (c : TabCall) : TabPlan :=
  let cells := rowCells cd p.cols c
  { cols := colsAfter cd p.cols c
    cb := if cells = [] then p.cb else capAfter r nf cells (flat (rowB r)).length p.cb p.pRgb
    pRgb := if cells = [] then p.pRgb else rgbEnd r (cellsText r nf cells p.pRgb).2 }

def TabPlan.AllFit : TabPlan → List TabCall → Prop
  | _,[] => True
  | p,c::cs => p.Fits r nf cd c ∧ (p.after r nf cd c).AllFit cs

def TabPlan.texts : TabPlan → List TabCall → List Bytes
  | _,[] => []
  | p,c::cs => rowsText r nf p.pRgb (rowCells cd p.cols c) ++ (p.after r nf cd c).texts cs

end

section
variable {r : Renderer} {nf : ColFmt → Bytes → Bytes × ℚ} {cd : ColFmt → Bytes → ColFmt} {n : ℕ} {t t' : TabBuf}
  {cells : List TabCell} {front : Bytes}

/-- There is room for a cell of a kilobyte, wherever it begins. -/
theorem room_le_reserve {cb : ℕ} (h : n ≤ cb) : n+1024 ≤ reserve n cb := by
  rw [reserve]
  split_ifs <;> omega

theorem le_reserve (n cb : ℕ) : cb ≤ reserve n cb := by
  rw [reserve]
  split_ifs <;> omega

theorem putCells_some (hfit : CellsFit r nf cells n t.cb t.pRgb) (hle : n ≤ t.cb) (hfront : Cells t.mem 0 front)
    (hn : front.length = n) :
    ∃ t', putCells r nf cells n t = some (n+(cellsText r nf cells t.pRgb).1.length,t') ∧
      Cells t'.mem 0 (front ++ (cellsText r nf cells t.pRgb).1) ∧
      t'.pRgb = (cellsText r nf cells t.pRgb).2 ∧ t'.cb = capAfter r nf cells n t.cb t.pRgb ∧
      t'.cols = t.cols ∧ t'.rows = t.rows ∧
      n+(cellsText r nf cells t.pRgb).1.length+need 0 (rowE r t'.pRgb) ≤ t'.cb := by
  induction cells generalizing n t front with
  | nil => exact ⟨t,rfl,by simpa [cellsText] using hfront,rfl,rfl,rfl,rfl,hfit⟩
  | cons cell cells ih =>
    obtain ⟨puts,hputs,hroom,hmore⟩ := hfit
    obtain ⟨mem,hput,hcells⟩ := putAll_some hfront hn hroom
    have hflat := length_flat_le 0 puts
    have hlen : (front ++ flat puts).length = n+(flat puts).length := by
      rw [List.length_append,hn]
    obtain ⟨t',hrest,hmem,hrgb,hcap,hcols,hrows,hend⟩ :=
      ih (t := { t with mem := mem,cb := reserve n t.cb,pRgb := rgbAfter r nf t.pRgb cell }) hmore
        (le_trans (Nat.add_le_add_left hflat n) hroom) hcells hlen
    have htext : (cellsText r nf (cell::cells) t.pRgb).1 =
        flat puts ++ (cellsText r nf cells (rgbAfter r nf t.pRgb cell)).1 := by
      rw [cellsText,hputs]
      rfl
    rw [htext,List.length_append,← Nat.add_assoc,← List.append_assoc]
    refine ⟨t',?_,hmem,hrgb,?_,hcols,hrows,hend⟩
    · rw [putCells]
      simp only [hputs,Option.bind_eq_bind,Option.bind_some,hput]
      exact hrest
    · rw [hcap,capAfter,hputs]
      rfl

theorem cellsFit_of_putCells {n' : ℕ} (hle : n ≤ t.cb) (h : putCells r nf cells n t = some (n',t'))
    (hend : (putAll 0 t'.cb (rowE r t'.pRgb) n' t'.mem).isSome = true) : CellsFit r nf cells n t.cb t.pRgb := by
  induction cells generalizing n t with
  | nil =>
    cases h
    exact (putAll_iff hle).mp hend
  | cons cell cells ih =>
    obtain ⟨puts,hputs,h₁⟩ := Option.bind_eq_some_iff.mp h
    obtain ⟨⟨m,mem⟩,hput,h₂⟩ := Option.bind_eq_some_iff.mp h₁
    have hroom : n+need 0 puts ≤ reserve n t.cb := by
      have hsome : (putAll 0 (reserve n t.cb) puts n t.mem).isSome = true := by
        rw [hput]
        rfl
      exact (putAll_iff (hle.trans (le_reserve n t.cb))).mp hsome
    obtain rfl := putAll_end hput
    have hflat := length_flat_le 0 puts
    exact ⟨puts,hputs,hroom,ih (le_trans (Nat.add_le_add_left hflat n) hroom) h₂⟩

/-- What the next row depends on. -/
def TabBuf.plan (t : TabBuf) : TabPlan := ⟨t.cols,t.cb,t.pRgb⟩

theorem TabPlan.after_of_ne {p : TabPlan} {c : TabCall} (h : rowCells cd p.cols c ≠ []) : p.after r nf cd c =
    ⟨colsAfter cd p.cols c,capAfter r nf (rowCells cd p.cols c) (flat (rowB r)).length p.cb p.pRgb,
      rgbEnd r (cellsText r nf (rowCells cd p.cols c) p.pRgb).2⟩ := by
  rw [TabPlan.after]
  simp only [if_neg h]

theorem call_some (c : TabCall) (hfit : t.plan.Fits r nf cd c) :
    ∃ t', t.call r nf cd c = some t' ∧ t'.plan = t.plan.after r nf cd c ∧
      t'.rows = t.rows ++ rowsText r nf t.pRgb (rowCells cd t.cols c) := by
  by_cases hnone : rowCells cd t.cols c = []
  · refine ⟨{ t with cols := colsAfter cd t.cols c },?_,?_,?_⟩
    · rw [TabBuf.call,putRow,if_pos hnone]
      rfl
    · simp [TabBuf.plan,TabPlan.after,hnone]
    · simp [rowsText,hnone]
  · obtain ⟨hbegin,hcells⟩ := hfit.resolve_left hnone
    have hbegin' : 0+need 0 (rowB r) ≤ t.cb := by
      rw [Nat.zero_add]
      exact hbegin
    have hempty : Cells t.mem 0 [] := trivial
    obtain ⟨mem,hput,hmem⟩ := putAll_some hempty rfl hbegin'
    have hput : putAll 0 t.cb (rowB r) 0 t.mem = some ((flat (rowB r)).length,mem) := by simpa using hput
    have hle : (flat (rowB r)).length ≤ t.cb := (length_flat_le 0 (rowB r)).trans hbegin
    obtain ⟨t₁,hloop,hmem₁,hrgb,hcap,hcols,hrows,hend⟩ : ∃ t₁,
        putCells r nf (rowCells cd t.cols c) (flat (rowB r)).length { t with mem := mem } =
          some ((flat (rowB r)).length+(cellsText r nf (rowCells cd t.cols c) t.pRgb).1.length,t₁) ∧
        Cells t₁.mem 0 (flat (rowB r) ++ (cellsText r nf (rowCells cd t.cols c) t.pRgb).1) ∧
        t₁.pRgb = (cellsText r nf (rowCells cd t.cols c) t.pRgb).2 ∧
        t₁.cb = capAfter r nf (rowCells cd t.cols c) (flat (rowB r)).length t.cb t.pRgb ∧
        t₁.cols = t.cols ∧ t₁.rows = t.rows ∧
        (flat (rowB r)).length+(cellsText r nf (rowCells cd t.cols c) t.pRgb).1.length+need 0 (rowE r t₁.pRgb) ≤ t₁.cb :=
      putCells_some (t := { t with mem := mem }) hcells hle hmem rfl
    obtain ⟨mem₂,hput₂,hmem₂⟩ := putAll_some hmem₁ (List.length_append ..) hend
    have hrow := range_map_eq hmem₂
    rw [List.length_append,List.length_append] at hrow
    have hcall : t.call r nf cd c = some { t₁ with
        mem := mem₂
        pRgb := rgbEnd r t₁.pRgb
        rows := t₁.rows ++ [flat (rowB r) ++ (cellsText r nf (rowCells cd t.cols c) t.pRgb).1 ++ flat (rowE r t₁.pRgb)]
        cols := colsAfter cd t.cols c } := by
      rw [TabBuf.call,putRow,if_neg hnone]
      simp only [hput,hloop,hput₂,hrow,Option.bind_eq_bind,Option.bind_some,Option.map_some]
    refine ⟨_,hcall,?_,?_⟩
    · have hafter : t.plan.after r nf cd c = _ := TabPlan.after_of_ne hnone
      rw [hafter,TabBuf.plan,hcap,hrgb]
      rfl
    · rw [rowsText,if_neg hnone,hrows,hrgb]

theorem fits_of_call {c : TabCall} (h : t.call r nf cd c = some t') : t.plan.Fits r nf cd c := by
  by_cases hnone : rowCells cd t.cols c = []
  · exact Or.inl hnone
  · right
    obtain ⟨t₁,h₁,-⟩ := Option.map_eq_some_iff.mp h
    rw [putRow,if_neg hnone] at h₁
    obtain ⟨⟨n,mem⟩,hput,h₂⟩ := Option.bind_eq_some_iff.mp h₁
    obtain ⟨⟨n',t₂⟩,hloop,h₃⟩ := Option.bind_eq_some_iff.mp h₂
    obtain ⟨⟨n₃,mem₃⟩,hend,-⟩ := Option.bind_eq_some_iff.mp h₃
    have hbegin : need 0 (rowB r) ≤ t.cb := by
      have hsome : (putAll 0 t.cb (rowB r) 0 t.mem).isSome = true := by
        rw [hput]
        rfl
      have := (putAll_iff (Nat.zero_le _)).mp hsome
      omega
    have hn := putAll_end hput
    rw [Nat.zero_add] at hn
    subst hn
    refine ⟨hbegin,cellsFit_of_putCells (t := { t with mem := mem }) ?_ hloop ?_⟩
    · exact (length_flat_le 0 (rowB r)).trans hbegin
    · rw [hend]
      rfl

theorem calls_iff (cs : List TabCall) :
    (∃ t', t.calls r nf cd cs = some t' ∧ t'.rows = t.rows ++ t.plan.texts r nf cd cs) ↔ t.plan.AllFit r nf cd cs := by
  induction cs generalizing t with
  | nil => exact ⟨fun _ => trivial,fun _ => ⟨t,rfl,(List.append_nil _).symm⟩⟩
  | cons c cs ih =>
    constructor
    · rintro ⟨t',hrun,hrows⟩
      obtain ⟨t₁,hcall,hrest⟩ := Option.bind_eq_some_iff.mp hrun
      have hfit := fits_of_call hcall
      obtain ⟨t₂,hcall₂,hplan,htext⟩ := call_some c hfit
      cases hcall.symm.trans hcall₂
      refine ⟨hfit,?_⟩
      rw [← hplan]
      refine ih.mp ⟨t',hrest,?_⟩
      rw [hrows,htext,TabPlan.texts,hplan,List.append_assoc]
      rfl
    · rintro ⟨hfit,hall⟩
      obtain ⟨t₁,hcall,hplan,htext⟩ := call_some c hfit
      rw [← hplan] at hall
      obtain ⟨t',hrest,hrows⟩ := ih.mpr hall
      refine ⟨t',?_,?_⟩
      · change (t.call r nf cd c).bind _ = some t'
        rw [hcall]
        exact hrest
      · rw [hrows,htext,TabPlan.texts,hplan,List.append_assoc]
        rfl

/-- A cell that leaves room for the end of the row in a kilobyte, whatever the colour before it. -/
def SmallCell (r : Renderer) (nf : ColFmt → Bytes → Bytes × ℚ) (cell : TabCell) : Prop :=
  ∀ pRgb, ∃ puts, cellPuts r nf pRgb cell = some puts ∧ need 0 puts ≤ 1016

theorem need_rowE_le (r : Renderer) (pRgb : ℤ) : need 0 (rowE r pRgb) ≤ 8 := by
  cases r with
  | pre =>
    rw [rowE,CTabPre.rowE,putIf]
    split_ifs <;> decide
  | td trex tdex => exact (by decide : need 0 [Put.printed (str " </TR>")] ≤ 8)

theorem cellsFit_of_small {cb : ℕ} {pRgb : ℤ} (hle : n ≤ cb) (hend : cells = [] → n+8 ≤ cb)
    (hsmall : ∀ cell ∈ cells, SmallCell r nf cell) : CellsFit r nf cells n cb pRgb := by
  induction cells generalizing n cb pRgb with
  | nil => exact (Nat.add_le_add_left (need_rowE_le r pRgb) n).trans (hend rfl)
  | cons cell cells ih =>
    obtain ⟨hcell,hcells⟩ := List.forall_mem_cons.mp hsmall
    obtain ⟨puts,hputs,hneed⟩ := hcell pRgb
    have hroom := room_le_reserve hle
    have hflat := length_flat_le 0 puts
    exact ⟨puts,hputs,by omega,ih (by omega) (fun _ => by omega) hcells⟩

/-- A row of small cells has room. -/
theorem fits_of_small {p : TabPlan} {c : TabCall} (hbegin : need 0 (rowB r) ≤ p.cb)
    (hsmall : ∀ cell ∈ rowCells cd p.cols c, SmallCell r nf cell) : p.Fits r nf cd c := by
  by_cases hnone : rowCells cd p.cols c = []
  · exact Or.inl hnone
  · refine Or.inr ⟨hbegin,cellsFit_of_small ?_ (fun h => absurd h hnone) hsmall⟩
    exact (length_flat_le 0 (rowB r)).trans hbegin

theorem wid_le_colN {w : ℕ} (col : ColFmt) (h : col.wid = w) : w ≤ (flat (CTabPre.colN col)).length := by
  simp only [CTabPre.colN,flat_cons,Put.text,List.length_append,blanks,List.length_replicate,h]
  omega

end

end Smx
