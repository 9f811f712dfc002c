import Smx.Base.Number
import Smx.Context.Bindings
import Smx.Lib.Run

/-! `qObjSqlite`: the columns of a row by their names, through a map that outlives the query. -/
namespace Smx

/-- A column of a row as SQLite sends it; a null has no text. -/
structure Column where
  name : Bytes
  value : Option Bytes

/-- `qObjSqlite`: the last row, and the map of the names. -/
structure QObjSqlite where
  myColNames : List Bytes
  myArgV : List (Option Bytes)
  myMapped : Bool
  myColMap : Bytes → Option ℤ

/-- The loop of `MakeColMap`, from the index `i` on. -/
def mapColumns : ℕ → List Bytes → (Bytes → Option ℤ) → Bytes → Option ℤ
  | _,[],m => m
  | i,name::names,m => mapColumns (i+1) names (Function.update m (mapKey name) (some i))

/-- A value as `EvalCol` leaves it in the row: cut off behind its last letter, unless it is all blank. -/
def cut (p : Bytes) : Bytes := p.takeWhile isspace ++ trim p

/-- `isdigit(name[0])`. -/
def byNumber (name : Bytes) : Bool := name.head?.any isdigit

namespace QObjSqlite

def makeColMap (q : QObjSqlite) : QObjSqlite :=
  { q with myColMap := mapColumns 0 q.myColNames q.myColMap, myMapped := true }

/-- `if (!myMapped) MakeColMap();` -/
def ensureMap (q : QObjSqlite) : QObjSqlite := if q.myMapped then q else q.makeColMap

/-- `Execute`, up to the first row. -/
def execute (q : QObjSqlite) : QObjSqlite := { q with myMapped := false }

def callback (q : QObjSqlite) (cols : List Column) : QObjSqlite :=
  { q with myColNames := cols.map Column.name, myArgV := cols.map Column.value }

/-- The index by which `EvalCol` and `EvalColumn` go; `junk` is what a `new int` happens to hold. -/
def colIndex (q : QObjSqlite) (name : Bytes) (junk : ℤ) : ℤ × QObjSqlite :=
  if byNumber name then (int32 (atoi name-1),q)
  else
    let q := q.ensureMap
    match q.myColMap (mapKey name) with
    | some i => (i,q)
    | none => (junk,{ q with myColMap := Function.update q.myColMap (mapKey name) (some junk) })

/-- `myArgV[col]`, for `col >= 0 && col < myArgC`. -/
def argAt (q : QObjSqlite) (col : ℤ) : Option Bytes := if 0 ≤ col then q.myArgV[col.toNat]?.join else none

def evalCol (q : QObjSqlite) (name : Bytes) (junk : ℤ) : Bytes × QObjSqlite :=
  let (col,q) := q.colIndex name junk
  match q.argAt col with
  | some p => (trim p,{ q with myArgV := q.myArgV.set col.toNat (some (cut p)) })
  | none => ([],q)

def evalColumn (q : QObjSqlite) (name : Bytes) (junk : ℤ) : Bytes × QObjSqlite :=
  let (col,q) := q.colIndex name junk
  ((q.argAt col).getD [],q)

/-- `EvalColumn`, or `EvalCol`. -/
def eval (raw : Bool) (q : QObjSqlite) (name : Bytes) (junk : ℤ) : Bytes × QObjSqlite :=
  if raw then q.evalColumn name junk else q.evalCol name junk

end QObjSqlite

/-- The object, the row that SQLite has sent, from `Execute` to the first row none, and the names of the row from which
the map was made. -/
structure SqliteState where
  obj : QObjSqlite
  row : Option (List Column)
  mapped : List Bytes

/-- A query begins, it sends a row, or the text for a row asks for a column. -/
inductive SqliteEvent
  | execute
  | callback (cols : List Column)
  | eval (raw : Bool) (name : Bytes) (junk : ℤ)

namespace SqliteState

/-- The names from which the map that the next name meets is made. -/
def made (s : SqliteState) : List Bytes := if s.obj.myMapped then s.mapped else s.obj.myColNames

/-- Columns are asked for in the texts that `Callback` parses, and nowhere else. -/
def step (s : SqliteState) : SqliteEvent → Option SqliteState
  | .execute => some { s with obj := s.obj.execute, row := none }
  | .callback cols => some { s with obj := s.obj.callback cols, row := some cols }
  | .eval raw name junk =>
    if s.row.isNone then none
    else some { s with obj := (s.obj.eval raw name junk).2, mapped := if byNumber name then s.mapped else s.made }

/-- The object as it is constructed. -/
def opened : SqliteState := ⟨⟨[],[],false,fun _ => none⟩,none,[]⟩

/-- The text of a value, trimmed or raw. -/
def shown (raw : Bool) : Option Bytes → Bytes
  | some p => if raw then p else trim p
  | none => []

/-- A name gives the value of a column that has it, and nothing when none has. -/
def ByName (s : SqliteState) : SqliteEvent → Prop
  | .eval raw name junk => byNumber name = false → ∀ cols, s.row = some cols →
    (∃ c ∈ cols, mapKey c.name = mapKey name ∧ (s.obj.eval raw name junk).1 = shown raw c.value) ∨
      (∀ c ∈ cols, mapKey c.name ≠ mapKey name) ∧ (s.obj.eval raw name junk).1 = []
  | _ => True

/-- The last index at which a name stands. -/
def IsLast (names : List Bytes) (key : Bytes) (j : ℕ) : Prop :=
  (names.map mapKey)[j]? = some key ∧ ∀ i, (names.map mapKey)[i]? = some key → i ≤ j

/-- Where the row has the name, it has it at the last index that the name had when the map was made, and its raw value is
still as it was sent; where it has not, the map or a `new int` sends the name out of the row. -/
def Meets (s : SqliteState) : SqliteEvent → Prop
  | .eval raw name junk => byNumber name = false → ∀ cols, s.row = some cols →
    ((∃ c ∈ cols, mapKey c.name = mapKey name) → ∃ j c, IsLast s.made (mapKey name) j ∧ cols[j]? = some c ∧
      mapKey c.name = mapKey name ∧ (raw = true → s.obj.myArgV[j]? = some c.value)) ∧
    ((∀ c ∈ cols, mapKey c.name ≠ mapKey name) →
      (s.obj.myColMap (mapKey name)).getD junk < 0 ∨ cols.length ≤ (s.obj.myColMap (mapKey name)).getD junk)
  | _ => True

/-- A value as it was, or cut. -/
def CutOf (v v' : Option Bytes) : Prop := v' = v ∨ v' = v.map cut

/-- The map describes the row it was made from, and the values are those that were sent, some of them cut. -/
structure Sound (s : SqliteState) : Prop where
  mapped : s.obj.myMapped = true → ∀ key j, IsLast s.mapped key j → s.obj.myColMap key = some (j : ℤ)
  names : ∀ cols, s.row = some cols → s.obj.myColNames = cols.map Column.name
  length : ∀ cols, s.row = some cols → s.obj.myArgV.length = cols.length
  values : ∀ cols, s.row = some cols → ∀ (i : ℕ) c v, cols[i]? = some c → s.obj.myArgV[i]? = some v → CutOf c.value v

variable {s : SqliteState} {q : QObjSqlite} {names : List Bytes} {cols : List Column} {name key : Bytes}
  {junk : ℤ} {j : ℕ} {raw : Bool}

theorem mapColumns_of_not_mem (i : ℕ) (m : Bytes → Option ℤ) (h : key ∉ names.map mapKey) :
    mapColumns i names m key = m key := by
  induction names generalizing i m with
  | nil => rfl
  | cons name names ih =>
    rw [List.map_cons,List.mem_cons,not_or] at h
    rw [mapColumns,ih _ _ h.2,Function.update_of_ne h.1]

theorem mapColumns_of_isLast (i : ℕ) (m : Bytes → Option ℤ) (h : IsLast names key j) :
    mapColumns i names m key = some (i+j : ℤ) := by
  induction names generalizing i m j with
  | nil => simp [IsLast] at h
  | cons name names ih =>
    obtain ⟨hj,hlast⟩ := h
    cases j with
    | zero =>
      have hnot : key ∉ names.map mapKey := by
        intro hmem
        obtain ⟨i,hi⟩ := List.getElem?_of_mem hmem
        have hle := hlast (i+1) hi
        omega
      have hname : mapKey name = key := by simpa using hj
      rw [mapColumns,mapColumns_of_not_mem _ _ hnot,hname,Function.update_self]
      simp
    | succ j =>
      rw [mapColumns,ih (i+1) _ ⟨hj,fun i hi => Nat.le_of_succ_le_succ (hlast (i+1) hi)⟩]
      push_cast
      exact congrArg some (by omega)

theorem exists_isLast (h : key ∈ names.map mapKey) : ∃ j, IsLast names key j := by
  induction names with
  | nil => cases h
  | cons name names ih =>
    by_cases hmem : key ∈ names.map mapKey
    · obtain ⟨j,hj,hlast⟩ := ih hmem
      refine ⟨j+1,hj,fun i hi => ?_⟩
      cases i with
      | zero => omega
      | succ i => exact Nat.succ_le_succ (hlast i hi)
    · have hname : mapKey name = key := by
        rw [List.map_cons,List.mem_cons] at h
        exact (h.resolve_right hmem).symm
      refine ⟨0,by simp [hname],fun i hi => ?_⟩
      cases i with
      | zero => exact le_rfl
      | succ i => exact absurd (List.mem_of_getElem? (l := names.map mapKey) (i := i) hi) hmem

theorem trim_cut (p : Bytes) : trim (cut p) = trim p := by
  have hdrop : (cut p).dropWhile isspace = (trim p).dropWhile isspace := by
    rw [cut,List.dropWhile_append_of_pos]
    intro c hc
    exact List.mem_takeWhile_imp hc
  rw [trim,hdrop]
  exact trim_trim p

theorem argAt_natCast (q : QObjSqlite) (j : ℕ) : q.argAt j = q.myArgV[j]?.join := by
  rw [QObjSqlite.argAt,if_pos (Int.natCast_nonneg j),Int.toNat_natCast]

theorem argAt_of_out {col : ℤ} (h : col < 0 ∨ q.myArgV.length ≤ col) : q.argAt col = none := by
  rw [QObjSqlite.argAt]
  split_ifs with hpos
  · rw [List.getElem?_eq_none (by omega)]
    rfl
  · rfl

@[simp] theorem ensureMap_myArgV (q : QObjSqlite) : q.ensureMap.myArgV = q.myArgV := by
  rw [QObjSqlite.ensureMap]
  split_ifs <;> rfl

@[simp] theorem ensureMap_myColNames (q : QObjSqlite) : q.ensureMap.myColNames = q.myColNames := by
  rw [QObjSqlite.ensureMap]
  split_ifs <;> rfl

theorem colIndex_fst (hname : byNumber name = false) :
    (q.colIndex name junk).1 = (q.ensureMap.myColMap (mapKey name)).getD junk := by
  rw [QObjSqlite.colIndex,if_neg (by simp [hname])]
  dsimp only
  cases q.ensureMap.myColMap (mapKey name) <;> rfl

@[simp] theorem colIndex_myArgV (q : QObjSqlite) (name : Bytes) (junk : ℤ) :
    (q.colIndex name junk).2.myArgV = q.myArgV := by
  rw [QObjSqlite.colIndex]
  split_ifs
  · rfl
  · dsimp only
    cases q.ensureMap.myColMap (mapKey name) <;> simp

@[simp] theorem colIndex_myColNames (q : QObjSqlite) (name : Bytes) (junk : ℤ) :
    (q.colIndex name junk).2.myColNames = q.myColNames := by
  rw [QObjSqlite.colIndex]
  split_ifs
  · rfl
  · dsimp only
    cases q.ensureMap.myColMap (mapKey name) <;> simp

/-- A name that has an index keeps it. -/
theorem colIndex_myColMap (hname : byNumber name = false) {i : ℤ} (h : q.ensureMap.myColMap key = some i) :
    (q.colIndex name junk).2.myColMap key = some i := by
  rw [QObjSqlite.colIndex,if_neg (by simp [hname])]
  dsimp only
  cases hentry : q.ensureMap.myColMap (mapKey name) with
  | some k => exact h
  | none =>
    have hne : key ≠ mapKey name := by
      rintro rfl
      rw [hentry] at h
      cases h
    simpa [Function.update_of_ne hne] using h

theorem cut_cut (p : Bytes) : cut (cut p) = cut p := by
  have hnil : (trim p).takeWhile isspace = [] := by
    have hsplit := List.takeWhile_append_dropWhile (p := isspace) (l := trim p)
    rw [dropWhile_trim] at hsplit
    exact List.append_left_eq_self.mp hsplit
  have htake : (cut p).takeWhile isspace = p.takeWhile isspace := by
    rw [cut,List.takeWhile_append_of_pos fun c hc => List.mem_takeWhile_imp hc,hnil,List.append_nil]
  rw [cut,htake,trim_cut,cut]

theorem eval_fst (raw : Bool) (q : QObjSqlite) (name : Bytes) (junk : ℤ) :
    (q.eval raw name junk).1 = shown raw (q.argAt (q.colIndex name junk).1) := by
  have harg (col : ℤ) : (q.colIndex name junk).2.argAt col = q.argAt col := by
    rw [QObjSqlite.argAt,QObjSqlite.argAt,colIndex_myArgV]
  cases raw with
  | true =>
    show ((q.colIndex name junk).2.argAt (q.colIndex name junk).1).getD [] = _
    rw [harg]
    cases q.argAt (q.colIndex name junk).1 <;> rfl
  | false =>
    simp only [QObjSqlite.eval,QObjSqlite.evalCol,harg]
    cases q.argAt (q.colIndex name junk).1 <;> rfl

theorem CutOf.trans {u v w : Option Bytes} (h : CutOf u v) (h' : CutOf v w) : CutOf u w := by
  rcases h' with rfl | rfl
  · exact h
  · right
    rcases h with rfl | rfl
    · rfl
    · cases u with
      | none => rfl
      | some p => exact congrArg some (cut_cut p)

/-- Trimmed, a value that was cut is what it was. -/
theorem CutOf.shown {u v : Option Bytes} (h : CutOf u v) : shown false v = shown false u := by
  rcases h with rfl | rfl
  · rfl
  · cases u with
    | none => rfl
    | some p => exact trim_cut p

/-- A column that is asked for has its value left as it was, or cut. -/
theorem eval_snd (raw : Bool) (q : QObjSqlite) (name : Bytes) (junk : ℤ) :
    ∃ argV, (q.eval raw name junk).2 = { (q.colIndex name junk).2 with myArgV := argV } ∧
      argV.length = q.myArgV.length ∧
      ∀ (i : ℕ) v', argV[i]? = some v' → ∃ v, q.myArgV[i]? = some v ∧ CutOf v v' := by
  have harg (col : ℤ) : (q.colIndex name junk).2.argAt col = q.argAt col := by
    rw [QObjSqlite.argAt,QObjSqlite.argAt,colIndex_myArgV]
  have hsame : ∃ argV, (q.colIndex name junk).2 = { (q.colIndex name junk).2 with myArgV := argV } ∧
      argV.length = q.myArgV.length ∧
      ∀ (i : ℕ) v', argV[i]? = some v' → ∃ v, q.myArgV[i]? = some v ∧ CutOf v v' := by
    refine ⟨q.myArgV,?_,rfl,fun i v' hv => ⟨v',hv,.inl rfl⟩⟩
    rw [← colIndex_myArgV q name junk]
  cases raw with
  | true => exact hsame
  | false =>
    simp only [QObjSqlite.eval,QObjSqlite.evalCol,harg,colIndex_myArgV]
    cases hcol : q.argAt (q.colIndex name junk).1 with
    | none => exact hsame
    | some p =>
      refine ⟨_,rfl,List.length_set,fun i v' hv => ?_⟩
      rw [List.getElem?_set] at hv
      split_ifs at hv with hi hlt
      · subst hi
        rw [QObjSqlite.argAt] at hcol
        split_ifs at hcol with hpos
        refine ⟨some p,?_,.inr (Option.some.inj hv).symm⟩
        exact Option.join_eq_some_iff.mp hcol
      · exact ⟨v',hv,.inl rfl⟩

/-- The map that the names meet tells the last index of each name in the row it was made from. -/
theorem Sound.ensureMap (hs : s.Sound) (h : IsLast s.made key j) : s.obj.ensureMap.myColMap key = some (j : ℤ) := by
  rw [made] at h
  rw [QObjSqlite.ensureMap]
  split_ifs at h ⊢ with hmap
  · exact hs.mapped hmap key j h
  · refine (mapColumns_of_isLast 0 _ h).trans ?_
    simp

theorem ensureMap_of_not_mem (h : key ∉ q.myColNames.map mapKey) : q.ensureMap.myColMap key = q.myColMap key := by
  rw [QObjSqlite.ensureMap]
  split_ifs
  · rfl
  · exact mapColumns_of_not_mem 0 _ h

/-- A column that is asked for leaves the map as good as it was. -/
theorem Sound.colIndex_map (hs : s.Sound) (hlast : IsLast (if byNumber name then s.mapped else s.made) key j)
    (hmap : (s.obj.colIndex name junk).2.myMapped = true) :
    (s.obj.colIndex name junk).2.myColMap key = some (j : ℤ) := by
  cases hname : byNumber name with
  | true =>
    rw [if_pos hname] at hlast
    rw [QObjSqlite.colIndex,if_pos hname] at hmap ⊢
    exact hs.mapped hmap key j hlast
  | false =>
    rw [if_neg (by simp [hname])] at hlast
    exact colIndex_myColMap hname (hs.ensureMap hlast)

/-- Every step keeps what is sound. -/
theorem Sound.step {t : SqliteState} (hs : s.Sound) (ev : SqliteEvent) (h : s.step ev = some t) : t.Sound := by
  cases ev with
  | execute =>
    obtain rfl := Option.some.inj h
    exact ⟨fun hmap => (by cases hmap),fun _ hrow => (by cases hrow),fun _ hrow => (by cases hrow),
      fun _ hrow => (by cases hrow)⟩
  | callback cols =>
    obtain rfl := Option.some.inj h
    refine ⟨hs.mapped,?_,?_,?_⟩
    · rintro _ ⟨⟩
      rfl
    · rintro _ ⟨⟩
      exact List.length_map _
    · rintro _ ⟨⟩ i c v hc hv
      left
      simpa [QObjSqlite.callback,hc,eq_comm] using hv
  | eval raw name junk =>
    have hrow : ¬s.row.isNone = true := by
      intro hrow
      rw [SqliteState.step,if_pos hrow] at h
      cases h
    rw [SqliteState.step,if_neg hrow] at h
    obtain rfl := Option.some.inj h
    obtain ⟨argV,hobj,hlen,hval⟩ := eval_snd raw s.obj name junk
    refine ⟨?_,?_,?_,?_⟩
    · intro hmap key j hlast
      rw [hobj]
      exact hs.colIndex_map hlast (by simpa [hobj] using hmap)
    · intro cols hcols
      rw [hobj]
      exact (colIndex_myColNames s.obj name junk).trans (hs.names cols hcols)
    · intro cols hcols
      rw [hobj]
      exact hlen.trans (hs.length cols hcols)
    · intro cols hcols i c v hc hv
      rw [hobj] at hv
      obtain ⟨v',hv',hcut⟩ := hval i v hv
      exact (hs.values cols hcols i c v' hc hv').trans hcut

/-- A name finds a value of the row, or nothing. -/
theorem Sound.byName {ev : SqliteEvent} (hs : s.Sound) (h : s.Meets ev) : s.ByName ev := by
  cases ev with
  | execute => trivial
  | callback cols => trivial
  | eval raw name junk =>
    intro hname cols hcols
    obtain ⟨hknown,hunknown⟩ := h hname cols hcols
    rw [eval_fst,colIndex_fst hname]
    by_cases hcol : ∃ c ∈ cols, mapKey c.name = mapKey name
    · obtain ⟨j,c,hlast,hc,hkey,hraw⟩ := hknown hcol
      have hlen : j < s.obj.myArgV.length := by
        rw [hs.length cols hcols]
        exact (List.getElem?_eq_some_iff.mp hc).1
      have hv : s.obj.myArgV[j]? = some s.obj.myArgV[j] := List.getElem?_eq_getElem hlen
      refine .inl ⟨c,List.mem_of_getElem? hc,hkey,?_⟩
      rw [hs.ensureMap hlast,Option.getD_some,argAt_natCast,hv,Option.join_some]
      cases raw with
      | true =>
        have hsame := hraw rfl
        rw [hv] at hsame
        rw [Option.some.inj hsame]
      | false => exact (hs.values cols hcols j c _ hc hv).shown
    · have hnone : ∀ c ∈ cols, mapKey c.name ≠ mapKey name := fun c hc hkey => hcol ⟨c,hc,hkey⟩
      have hmem : mapKey name ∉ s.obj.myColNames.map mapKey := by
        rw [hs.names cols hcols,List.map_map,List.mem_map]
        rintro ⟨c,hc,hkey⟩
        exact hnone c hc hkey
      refine .inr ⟨hnone,?_⟩
      rw [ensureMap_of_not_mem hmem,argAt_of_out]
      · rfl
      · rw [hs.length cols hcols]
        exact hunknown hnone

theorem opened_sound : opened.Sound :=
  ⟨fun hmap => (by cases hmap),fun _ hrow => (by cases hrow),fun _ hrow => (by cases hrow),
    fun _ hrow => (by cases hrow)⟩

/-- The names of one query are found, as long as they are asked for trimmed. -/
theorem meets_of_column (hs : s.Sound) (hmade : s.obj.myMapped = true → s.mapped = s.obj.myColNames)
    (hrow : s.row = some cols) (hcol : ∃ c ∈ cols, mapKey c.name = mapKey name) : s.Meets (.eval false name junk) := by
  rintro - cols' hcols
  obtain rfl := Option.some.inj (hrow.symm.trans hcols)
  refine ⟨fun _ => ?_,fun hnone => ?_⟩
  · have hmade' : s.made = cols.map Column.name := by
      rw [made]
      split_ifs with hmap
      · rw [hmade hmap,hs.names cols hrow]
      · exact hs.names cols hrow
    have hmem : mapKey name ∈ (cols.map Column.name).map mapKey := by
      obtain ⟨c,hc,hkey⟩ := hcol
      rw [List.map_map]
      exact List.mem_map.mpr ⟨c,hc,hkey⟩
    obtain ⟨j,hlast⟩ := exists_isLast hmem
    obtain ⟨c,hc,hkey⟩ : ∃ c, cols[j]? = some c ∧ mapKey c.name = mapKey name := by
      simpa [Option.map_eq_some_iff] using hlast.1
    exact ⟨j,c,hmade' ▸ hlast,hc,hkey,by simp⟩
  · obtain ⟨c,hc,hkey⟩ := hcol
    exact absurd hkey (hnone c hc)

end SqliteState

end Smx
