import Smx.File.Safe
import Smx.Mail.Data

/-! `%ext`, `%base`, `%filename` and `%filepath`: the parts of a path. -/
namespace Smx

/-- `ISPATHSEP` -/
def isPathSep (c : Byte) : Bool := isDirSep c || c == ch ':'

def DIRSEP : Byte := ch '/'

/-- What a built-in with one argument puts out. -/
def evalPath (name : String) (f : Bytes → Bytes) (args : List Bytes) : Except CtxEx Bytes :=
  match validArgc name 1 1 args.length with
  | some e => .error e
  | none => .ok (f (args.getD 0 []))

theorem evalPath_one (name : String) (f : Bytes → Bytes) (p : Bytes) : evalPath name f [p] = .ok (f p) := rfl

/-- `EvalExt` -/
def evalExt : List Bytes → Except CtxEx Bytes :=
  evalPath "ext" fun path => ((strrchr (cstr path) (ch '.')).getD []).drop 1

/-- `EvalBase` -/
def evalBase : List Bytes → Except CtxEx Bytes :=
  evalPath "base" fun path =>
    match strrchr (cstr path) (ch '.') with
    | some r => path.take ((cstr path).length-r.length)
    | none => path

/-- `while (r >= b && !(ISPATHSEP(*r))) --r;`, with a pointer counted from one: how many characters there are up to
where it stops. -/
def backToSep (path : Bytes) : ℕ → ℕ
  | 0 => 0
  | n+1 => if path[n]?.any isPathSep then n+1 else backToSep path n

/-- `EvalFileName` -/
def evalFileName : List Bytes → Except CtxEx Bytes :=
  evalPath "filename" fun path => path.drop (backToSep path path.length)

/-- `EvalFilePath` -/
def evalFilePath : List Bytes → Except CtxEx Bytes :=
  evalPath "filepath" fun path =>
    let r := backToSep path path.length
    -- `r < b` in the source
    if r = 0 then [] else (path.set (r-1) DIRSEP).take r

/-- A path with all its separators written alike. -/
def normSep (path : Bytes) : Bytes := path.map fun c => if isPathSep c then DIRSEP else c

/-- How the parts of `p` are to fit together. -/
structure PartsFit (p path name base ext : Bytes) : Prop where
  whole : normSep (path ++ name) = normSep p
  plain : ∀ c ∈ name, isPathSep c = false
  ext_eq : evalExt [name] = .ok ext
  dotted : ch '.' ∈ name → base ++ ch '.'::ext = p
  bare : ch '.' ∉ name → base = p ∧ ext = []

/-- The four built-ins give parts that fit. -/
def FitsTogether (p : Bytes) : Prop := ∃ path name base ext,
  evalFilePath [p] = .ok path ∧ evalFileName [p] = .ok name ∧ evalBase [p] = .ok base ∧ evalExt [p] = .ok ext ∧
    PartsFit p path name base ext

/-- No separator stands behind the last dot. -/
def LastDotInName (p : Bytes) : Prop := ∀ front ext, p = front ++ ch '.'::ext → ch '.' ∉ ext →
  ∀ c ∈ ext, isPathSep c = false

section
variable {p dir name front ext : Bytes} {c : Byte}

theorem backToSep_append (hplain : ∀ c ∈ name, isPathSep c = false) :
    backToSep (dir ++ name) (dir ++ name).length = backToSep (dir ++ name) dir.length := by
  have hback (k : ℕ) (hk : k ≤ name.length) :
      backToSep (dir ++ name) (dir.length+k) = backToSep (dir ++ name) dir.length := by
    induction k with
    | zero => rfl
    | succ k ih =>
      have hget : (dir ++ name)[dir.length+k]? = some name[k] := by
        rw [List.getElem?_append_right (Nat.le_add_right _ _),Nat.add_sub_cancel_left,List.getElem?_eq_getElem hk]
      rw [← Nat.add_assoc,backToSep,hget,Option.any_some,hplain _ (List.getElem_mem hk)]
      exact ih (Nat.le_of_succ_le hk)
  rw [List.length_append]
  exact hback name.length le_rfl

/-- A path is a file name, or a directory that ends with a separator and a file name. -/
theorem exists_parts (p : Bytes) : ∃ dir name, p = dir ++ name ∧ (∀ c ∈ name, isPathSep c = false) ∧
    (dir = [] ∨ ∃ d s, dir = d ++ [s] ∧ isPathSep s = true) := by
  induction p using List.reverseRecOn with
  | nil => exact ⟨[],[],rfl,by simp,Or.inl rfl⟩
  | append_singleton p c ih =>
    by_cases hc : isPathSep c = true
    · exact ⟨p ++ [c],[],(List.append_nil _).symm,by simp,Or.inr ⟨p,c,rfl,hc⟩⟩
    · rw [Bool.not_eq_true] at hc
      obtain ⟨dir,name,rfl,hplain,hdir⟩ := ih
      refine ⟨dir,name ++ [c],List.append_assoc ..,?_,hdir⟩
      simpa [or_imp,forall_and] using ⟨hplain,hc⟩

theorem backToSep_eq (hplain : ∀ c ∈ name, isPathSep c = false)
    (hdir : dir = [] ∨ ∃ d s, dir = d ++ [s] ∧ isPathSep s = true) :
    backToSep (dir ++ name) (dir ++ name).length = dir.length := by
  rw [backToSep_append hplain]
  obtain rfl | ⟨d,s,rfl,hs⟩ := hdir
  · rfl
  · have hget : (d ++ [s] ++ name)[d.length]? = some s := by simp
    rw [List.length_append,List.length_singleton,backToSep,hget,Option.any_some,if_pos hs]

theorem evalFileName_eq (hplain : ∀ c ∈ name, isPathSep c = false)
    (hdir : dir = [] ∨ ∃ d s, dir = d ++ [s] ∧ isPathSep s = true) : evalFileName [dir ++ name] = .ok name := by
  rw [evalFileName,evalPath_one,backToSep_eq hplain hdir,List.drop_left]

/-- The directory comes back but for its last separator. -/
theorem evalFilePath_eq (hplain : ∀ c ∈ name, isPathSep c = false)
    (hdir : dir = [] ∨ ∃ d s, dir = d ++ [s] ∧ isPathSep s = true) :
    ∃ path, evalFilePath [dir ++ name] = .ok path ∧ normSep path = normSep dir := by
  have hback := backToSep_eq hplain hdir
  refine ⟨_,evalPath_one ..,?_⟩
  simp only [hback]
  obtain rfl | ⟨d,s,rfl,hs⟩ := hdir
  · rfl
  · have hset : (d ++ [s] ++ name).set d.length DIRSEP = d ++ [DIRSEP] ++ name := by simp
    rw [List.length_append,List.length_singleton,if_neg (Nat.succ_ne_zero _),Nat.add_sub_cancel,hset,
      List.take_left' (by simp)]
    have hsep : isPathSep DIRSEP = true := rfl
    simp [normSep,hs,hsep]

theorem strrchr_append (hext : c ∉ ext) : strrchr (front ++ c::ext) c = some (c::ext) := by
  have htake : (ext.reverse ++ c::front.reverse).takeWhile (· ≠ c) = ext.reverse := by
    rw [List.takeWhile_append_of_pos (by simpa using fun b hb => ne_of_mem_of_not_mem hb hext)]
    simp
  rw [strrchr,if_pos (by simp),List.reverse_append,List.reverse_cons,List.append_assoc,List.singleton_append,htake,
    List.reverse_reverse]

theorem strrchr_none (h : c ∉ p) : strrchr p c = none := if_neg h

theorem evalExt_dot (hnul : 0 ∉ front ++ ch '.'::ext) (hext : ch '.' ∉ ext) :
    evalExt [front ++ ch '.'::ext] = .ok ext := by
  rw [evalExt,evalPath_one,cstr_of_nul_free hnul,strrchr_append hext]
  rfl

theorem evalBase_dot (hnul : 0 ∉ front ++ ch '.'::ext) (hext : ch '.' ∉ ext) :
    evalBase [front ++ ch '.'::ext] = .ok front := by
  rw [evalBase,evalPath_one,cstr_of_nul_free hnul,strrchr_append hext]
  simp

theorem evalExt_plain (hnul : 0 ∉ p) (hdot : ch '.' ∉ p) : evalExt [p] = .ok [] := by
  rw [evalExt,evalPath_one,cstr_of_nul_free hnul,strrchr_none hdot]
  rfl

theorem evalBase_plain (hnul : 0 ∉ p) (hdot : ch '.' ∉ p) : evalBase [p] = .ok p := by
  rw [evalBase,evalPath_one,cstr_of_nul_free hnul,strrchr_none hdot]

/-- A text with a dot is one with a last dot. -/
theorem exists_lastDot (h : ch '.' ∈ p) : ∃ front ext, p = front ++ ch '.'::ext ∧ ch '.' ∉ ext := by
  induction p with
  | nil => cases h
  | cons c p ih =>
    by_cases hp : ch '.' ∈ p
    · obtain ⟨front,ext,rfl,hext⟩ := ih hp
      exact ⟨c::front,ext,rfl,hext⟩
    · obtain rfl := (List.mem_cons.mp h).resolve_right hp
      exact ⟨[],p,rfl,hp⟩

/-- Letters behind a last dot that are no separators belong to the file name. -/
theorem name_of_lastDot (hdir : dir = [] ∨ ∃ d s, dir = d ++ [s] ∧ isPathSep s = true)
    (h : dir ++ name = front ++ ch '.'::ext) (hext : ∀ c ∈ ext, isPathSep c = false) :
    ∃ f, name = f ++ ch '.'::ext := by
  obtain ⟨f,-,hf⟩ | ⟨a,ha,hname⟩ := List.append_eq_append_iff.mp h
  · exact ⟨f,hf⟩
  · obtain rfl | ⟨a,s,rfl⟩ := List.eq_nil_or_concat' a
    · exact ⟨[],hname.symm⟩
    · obtain rfl | ⟨d,s',rfl,hs⟩ := hdir
      · simp at ha
      · rw [← List.append_assoc] at ha
        obtain rfl : s' = s := (List.append_inj' ha rfl).2 |> List.singleton_inj.mp
        have hmem : s' ∈ ch '.'::ext := by
          rw [hname]
          simp
        rcases List.mem_cons.mp hmem with rfl | hmem
        · cases hs
        · rw [hext s' hmem] at hs
          cases hs

/-- There is only one last dot. -/
theorem lastDotInName_dot (hext : ch '.' ∉ ext) :
    LastDotInName (front ++ ch '.'::ext) ↔ ∀ c ∈ ext, isPathSep c = false := by
  refine ⟨fun h => h front ext rfl hext,fun h front' ext' hp hext' => ?_⟩
  have hsame := (strrchr_append hext).symm.trans (hp ▸ strrchr_append hext')
  rw [← (List.cons.inj (Option.some.inj hsame)).2]
  exact h

/-- With no separator behind the last dot the parts fit, and with one there the extension is not that of the name. -/
theorem fitsTogether_iff (p : Bytes) (hnul : 0 ∉ p) : FitsTogether p ↔ LastDotInName p := by
  obtain ⟨dir,name,rfl,hplain,hdir⟩ := exists_parts p
  have hname := evalFileName_eq hplain hdir
  have hnul' : 0 ∉ name := fun h => hnul (List.mem_append_right _ h)
  constructor
  · rintro ⟨path,name',base,ext,-,hname',-,hext,hfit⟩ front e hp he c hc
    obtain rfl : name = name' := Except.ok.inj (hname.symm.trans hname')
    rw [hp] at hnul hext
    obtain rfl : e = ext := Except.ok.inj ((evalExt_dot hnul he).symm.trans hext)
    by_cases hdot : ch '.' ∈ name
    · obtain ⟨f,e',rfl,he'⟩ := exists_lastDot hdot
      obtain rfl : e' = e := Except.ok.inj ((evalExt_dot hnul' he').symm.trans hfit.ext_eq)
      exact hplain c (by simp [hc])
    · rw [(hfit.bare hdot).2] at hc
      cases hc
  · intro hlast
    obtain ⟨path,hpath,hnorm⟩ := evalFilePath_eq hplain hdir
    have hwhole : normSep (path ++ name) = normSep (dir ++ name) := by
      simp only [normSep,List.map_append] at hnorm ⊢
      rw [hnorm]
    by_cases hdot : ch '.' ∈ dir ++ name
    · obtain ⟨front,ext,hp,hext⟩ := exists_lastDot hdot
      obtain ⟨f,hf⟩ := name_of_lastDot hdir hp (hlast front ext hp hext)
      have hbase := evalBase_dot (hp ▸ hnul) hext
      have hpext := evalExt_dot (hp ▸ hnul) hext
      have hnext : evalExt [name] = .ok ext := by
        rw [hf] at hnul' ⊢
        exact evalExt_dot hnul' hext
      rw [← hp] at hbase hpext
      exact ⟨path,name,front,ext,hpath,hname,hbase,hpext,hwhole,hplain,hnext,fun _ => hp.symm,
        fun hn => absurd (by simp [hf]) hn⟩
    · have hname' : ch '.' ∉ name := fun h => hdot (List.mem_append_right _ h)
      exact ⟨path,name,_,_,hpath,hname,evalBase_plain hnul hdot,evalExt_plain hnul hdot,hwhole,hplain,
        evalExt_plain hnul' hname',fun hd => absurd hd hname',fun _ => ⟨rfl,rfl⟩⟩

end

theorem fitsTogether_dotted : (0 : Byte) ∉ str "a.d/b.c" ∧ FitsTogether (str "a.d/b.c") := by
  have hnul : (0 : Byte) ∉ str "a.d/b.c" := by decide
  have hlast : LastDotInName (str "a.d/b" ++ ch '.'::str "c") :=
    (lastDotInName_dot (by simp [str,ch])).mpr (by simp [str,ch,isPathSep,isDirSep])
  exact ⟨hnul,(fitsTogether_iff _ hnul).mpr hlast⟩

/-- The directory has a dot, and the file name has none. -/
theorem not_fitsTogether : (0 : Byte) ∉ str "a.d/b" ∧ ¬FitsTogether (str "a.d/b") := by
  refine ⟨by decide,?_⟩
  rintro ⟨path,name,base,ext,-,hname,-,hext,hfit⟩
  obtain rfl : str "b" = name := Except.ok.inj hname
  have hbare := (hfit.bare (by decide)).2
  rw [hbare] at hext
  exact absurd (Except.ok.inj hext) (by decide)

end Smx
