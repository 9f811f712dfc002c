import Mathlib.Data.List.GetD
import Smx.File.Safe
import Smx.Lib.Memory

/-! `%mkpath`: the directories that `EvalDirMakePath` makes on the way down a path. -/
namespace Smx

open Memory

/-- `mkdir(tmp, 0777)` for the cells in front of `q`, unless there are none. -/
def makeLevel (mem : ℕ → Byte) (q : ℕ) : List Bytes := if q = 0 then [] else [cstr ((List.range q).map mem)]

/-- The loop of `EvalDirMakePath` with `path` at 0: the arguments of its `mkdir` calls. -/
def mkPathLoop (size : ℕ) (mem : ℕ → Byte) : ℕ → ℕ → Option (List Bytes)
  | 0,_ => none
  | fuel+1,p => do
    let c ← fetch size mem p
    if c = 0 then some []
    else
      let q ← scan size mem (fun c => c != 0 && !isDirSep c) size p
      let made ← mkPathLoop size mem fuel (q+1)
      some (makeLevel mem q ++ made)

/-- A C string in memory, with other bytes behind it. -/
def cellsOf (path behind : Bytes) (i : ℕ) : Byte := (path ++ 0::behind).getD i 0

-- behind the terminator the loop goes on, and makes the whole path again for what it finds there
example : mkPathLoop 9 (cellsOf (str "a/b") (str "c/d")) 5 0 = some [str "a",str "a/b",str "a/b",str "a/b"] := by
  decide

/-- `%mkpath` on a path, where nothing behind its terminator may be read. -/
def evalDirMakePath (path : Bytes) (fuel : ℕ) : Option (List Bytes) :=
  mkPathLoop (path.length+1) (cellsOf path []) fuel 0

/-- The first `n` characters are a directory on the way: a separator comes next, or they are the whole path and it
does not end in one. -/
def Level (path : Bytes) (n : ℕ) : Bool :=
  n != 0 && ((path[n]?.any isDirSep) || n == path.length && !path.getLast?.any isDirSep)

/-- The directories that are to be made, shortest first. -/
def dirLevels (path : Bytes) : List Bytes := ((List.range (path.length+1)).filter (Level path)).map path.take

/-- The call ends without reading behind the path, and makes each directory on the way once. -/
def MakesLevels (path : Bytes) : Prop := ∃ fuel, evalDirMakePath path fuel = some (dirLevels path)

/-- Nothing stands behind the last separator. -/
def Closed (path : Bytes) : Prop := ∀ c ∈ path.getLast?, isDirSep c = true

section
variable {rest seg : Bytes} {s : Byte} {mem : ℕ → Byte} {size fuel p : ℕ}

theorem closed_nil : Closed [] := by
  simp [Closed]

theorem closed_append_cons (hs : isDirSep s = true) : Closed (seg ++ s::rest) ↔ Closed rest := by
  cases rest with
  | nil => simp [Closed,hs]
  | cons c rest => simp [Closed]

theorem not_closed (hne : seg ≠ []) (h : ∀ c ∈ seg, isDirSep c = false) : ¬Closed seg := by
  intro hclosed
  have hlast := hclosed _ (List.getLast?_eq_some_getLast hne)
  rw [h _ (List.getLast_mem hne)] at hlast
  exact Bool.false_ne_true hlast

/-- A text is one segment, or a segment, a separator and the rest. -/
theorem exists_segment (rest : Bytes) : ∃ seg, (∀ c ∈ seg, isDirSep c = false) ∧
    (rest = seg ∨ ∃ s rest', isDirSep s = true ∧ rest = seg ++ s::rest') := by
  induction rest with
  | nil => exact ⟨[],by simp,Or.inl rfl⟩
  | cons c rest ih =>
    by_cases hc : isDirSep c = true
    · exact ⟨[],by simp,Or.inr ⟨c,rest,hc,rfl⟩⟩
    · obtain ⟨seg,hseg,hrest⟩ := ih
      refine ⟨c::seg,List.forall_mem_cons.mpr ⟨Bool.not_eq_true _ ▸ hc,hseg⟩,?_⟩
      rcases hrest with rfl | ⟨s,rest',hs,rfl⟩
      · exact Or.inl rfl
      · exact Or.inr ⟨s,rest',hs,rfl⟩

theorem scan_segment {t : Bytes} (h : Cells mem p (seg ++ s::t)) (hseg : ∀ c ∈ seg, isDirSep c = false)
    (hnul : 0 ∉ seg) (hs : isDirSep s = true ∨ s = 0) (hsize : p+seg.length < size) :
    scan size mem (fun c => c != 0 && !isDirSep c) size p = some (p+seg.length) := by
  rw [List.append_cons] at h
  apply scan_eq (cells_append.mp h).1 _ _ hsize (by omega)
  · intro c hc
    simp [hseg c hc,ne_of_mem_of_not_mem hc hnul]
  · rcases hs with hs | rfl
    · simp [hs]
    · rfl

/-- One round of the loop, over a segment and what ends it. -/
theorem mkPathLoop_segment {t : Bytes} (h : Cells mem p (seg ++ s::t)) (hseg : ∀ c ∈ seg, isDirSep c = false)
    (hnul : 0 ∉ seg) (hs : isDirSep s = true ∨ s = 0 ∧ seg ≠ []) (hsize : p+seg.length < size) :
    mkPathLoop size mem (fuel+1) p =
      (mkPathLoop size mem fuel (p+seg.length+1)).map (makeLevel mem (p+seg.length) ++ ·) := by
  have hfirst : mem p ≠ 0 := by
    cases seg with
    | nil =>
      rcases hs with hs | ⟨-,hs⟩
      · intro hp
        rw [← h.1,hp] at hs
        exact absurd hs (by decide)
      · exact absurd rfl hs
    | cons c seg => exact fun hp => hnul (h.1.symm.trans hp ▸ List.mem_cons_self)
  have hscan := scan_segment h hseg hnul (hs.imp_right And.left) hsize
  cases hmade : mkPathLoop size mem fuel (p+seg.length+1) <;>
    simp [mkPathLoop,fetch_of_lt (show p < size by omega),hfirst,hscan,hmade]

theorem mkPathLoop_nil (h : mem p = 0) (hsize : p < size) : mkPathLoop size mem (fuel+1) p = some [] := by
  simp [mkPathLoop,fetch_of_lt hsize,h]

theorem mkPathLoop_outside (h : size ≤ p) : mkPathLoop size mem fuel p = none := by
  cases fuel with
  | zero => rfl
  | succ fuel => simp [mkPathLoop,fetch,h.not_gt]

/-- A text that does not end in a separator takes the loop past its terminator. -/
theorem closed_of_mkPathLoop {made : List Bytes} (h : Cells mem p (rest ++ [0])) (hnul : 0 ∉ rest)
    (hsize : p+rest.length+1 = size) (hrun : mkPathLoop size mem fuel p = some made) : Closed rest := by
  induction fuel generalizing p rest made with
  | zero => cases hrun
  | succ fuel ih =>
    obtain ⟨seg,hseg,rfl | ⟨s,rest',hs,rfl⟩⟩ := exists_segment rest
    · by_cases hne : rest = []
      · exact hne ▸ closed_nil
      · rw [mkPathLoop_segment h hseg hnul (Or.inr ⟨rfl,hne⟩) (by omega),mkPathLoop_outside (by omega)] at hrun
        cases hrun
    · rw [List.append_assoc] at h
      obtain ⟨hnul,hnul'⟩ := not_or.mp (mt List.mem_append.mpr hnul)
      rw [List.length_append,List.length_cons] at hsize
      rw [mkPathLoop_segment h hseg hnul (Or.inl hs) (by omega)] at hrun
      obtain ⟨made',hrun,-⟩ := Option.map_eq_some_iff.mp hrun
      apply (closed_append_cons hs).mpr
      apply ih (cells_append.mp h).2.2 (mt (List.mem_cons_of_mem _) hnul') _ hrun
      omega

theorem filter_segment (h : Cells mem p seg) (hseg : ∀ c ∈ seg, isDirSep c = false) :
    (List.range' p seg.length).filter (fun k => isDirSep (mem k)) = [] := by
  induction seg generalizing p with
  | nil => rfl
  | cons c seg ih =>
    obtain ⟨hc,hseg⟩ := List.forall_mem_cons.mp hseg
    rw [List.length_cons,List.range'_succ,List.filter_cons_of_neg,ih h.2 hseg]
    simp [h.1,hc]

/-- The loop stops at each separator. -/
theorem mkPathLoop_eq (h : Cells mem p (rest ++ [0])) (hnul : 0 ∉ rest) (hsize : p+rest.length+1 = size)
    (hclosed : Closed rest) (hfuel : rest.length < fuel) :
    mkPathLoop size mem fuel p =
      some (((List.range' p rest.length).filter fun k => isDirSep (mem k)).flatMap (makeLevel mem)) := by
  induction fuel generalizing p rest with
  | zero => exact absurd hfuel (Nat.not_lt_zero _)
  | succ fuel ih =>
    obtain ⟨seg,hseg,rfl | ⟨s,rest',hs,rfl⟩⟩ := exists_segment rest
    · by_cases hne : rest = []
      · subst hne
        rw [mkPathLoop_nil h.1 (by omega)]
        rfl
      · exact absurd hclosed (not_closed hne hseg)
    · rw [List.append_assoc] at h
      obtain ⟨hnul,hnul'⟩ := not_or.mp (mt List.mem_append.mpr hnul)
      obtain ⟨hcells,hs',hrest⟩ := cells_append.mp h
      have hlen : (seg ++ s::rest').length = seg.length+(rest'.length+1) := by
        rw [List.length_append,List.length_cons]
      have hsep : isDirSep (mem (p+seg.length)) = true := by rw [hs',hs]
      rw [hlen] at hsize hfuel
      rw [mkPathLoop_segment h hseg hnul (Or.inl hs) (by omega),
        ih hrest (mt (List.mem_cons_of_mem _) hnul') (by omega) ((closed_append_cons hs).mp hclosed) (by omega),hlen,
        ← List.range'_append_1,List.filter_append,filter_segment hcells hseg,List.nil_append,List.range'_succ,
        List.filter_cons,if_pos hsep,List.flatMap_cons,Option.map_some]

end

section
variable {path : Bytes}

theorem cells_cellsOf (path : Bytes) : Cells (cellsOf path []) 0 (path ++ [0]) := by
  have h := cells_getD (path ++ [0]) [] 0
  rwa [List.nil_append] at h

theorem cellsOf_of_lt {k : ℕ} (h : k < path.length) : cellsOf path [] k = path[k] := by
  rw [cellsOf,List.getD_append _ _ _ _ h,List.getD_eq_getElem _ _ h]

theorem makeLevel_eq {n : ℕ} (hnul : 0 ∉ path) (h : n ≤ path.length) :
    makeLevel (cellsOf path []) n = if n = 0 then [] else [path.take n] := by
  have htake : (List.range n).map (cellsOf path []) = path.take n := by
    apply List.ext_getElem
    · simp [h]
    · intro i hi hi'
      rw [List.length_take] at hi'
      have hlt : i < path.length := by omega
      rw [List.getElem_map,List.getElem_range,List.getElem_take,cellsOf_of_lt hlt]
  rw [makeLevel,htake,cstr_of_nul_free (mt List.mem_of_mem_take hnul)]

theorem dirLevels_eq (hclosed : Closed path) (hnul : 0 ∉ path) :
    ((List.range' 0 path.length).filter fun k => isDirSep (cellsOf path [] k)).flatMap (makeLevel (cellsOf path [])) =
      dirLevels path := by
  have hwhole : Level path path.length = false := by
    cases path using List.reverseRecOn with
    | nil => rfl
    | append_singleton path c =>
      have hc : isDirSep c = true := hclosed c (by simp)
      simp [Level,hc]
  rw [dirLevels,List.range_succ,List.filter_append,List.filter_singleton,hwhole,cond_false,List.append_nil,
    List.range_eq_range']
  have hall : ∀ k ∈ List.range' 0 path.length, k < path.length := by
    intro k hk
    simpa using hk
  generalize List.range' 0 path.length = ks at hall
  induction ks with
  | nil => rfl
  | cons k ks ih =>
    obtain ⟨hk,hall⟩ := List.forall_mem_cons.mp hall
    have hcell : isDirSep (cellsOf path [] k) = path[k]?.any isDirSep := by
      rw [cellsOf_of_lt hk,List.getElem?_eq_getElem hk]
      rfl
    have hlevel : Level path k = (k != 0 && isDirSep (cellsOf path [] k)) := by
      have hend : (k == path.length) = false := beq_false_of_ne hk.ne
      rw [Level,hcell,hend,Bool.false_and,Bool.or_false]
    cases hsep : isDirSep (cellsOf path [] k) with
    | false =>
      rw [List.filter_cons,if_neg (by simp [hsep]),List.filter_cons_of_neg (by simp [hlevel,hsep]),ih hall]
    | true =>
      rw [List.filter_cons,if_pos hsep,List.flatMap_cons,ih hall,makeLevel_eq hnul hk.le]
      by_cases hzero : k = 0
      · rw [List.filter_cons_of_neg (by rw [hlevel,hzero]; exact Bool.false_ne_true),if_pos hzero,List.nil_append]
      · rw [List.filter_cons_of_pos (by simp [hlevel,hzero,hsep]),if_neg hzero]
        rfl

/-- `%mkpath` is right on the empty path and on the paths that end in a separator. -/
theorem makesLevels_iff (hnul : 0 ∉ path) : MakesLevels path ↔ Closed path := by
  constructor
  · rintro ⟨fuel,h⟩
    exact closed_of_mkPathLoop (cells_cellsOf path) hnul (by omega) h
  · intro hclosed
    refine ⟨path.length+1,?_⟩
    rw [evalDirMakePath,mkPathLoop_eq (cells_cellsOf path) hnul (by omega) hclosed (by omega),
      dirLevels_eq hclosed hnul]

theorem makesLevels_slash : MakesLevels (str "/a//b/") ↔ Closed (str "/a//b/") := makesLevels_iff (by decide)

theorem not_makesLevels : ¬∀ path, 0 ∉ path → MakesLevels path := by
  intro h
  have hclosed := (makesLevels_iff (by decide)).mp (h (str "a/b") (by decide))
  exact absurd (hclosed (ch 'b') rfl) (by decide)

end

end Smx
