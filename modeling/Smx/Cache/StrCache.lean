import Smx.Context.Lookup

/-! The cache of texts read from files. An entry is kept under the name as it was given, found again
under the trimmed one, and taken for fresh when its time is the time of the file. -/
namespace Smx

/-- A file as `safe_fopen` opens it. -/
structure File where
  content : Bytes
  mtime : ℤ

/-- What can be opened at a moment, and where `ResolvePath` finds a path. -/
structure Files where
  fopen : Bytes → Option File
  openURL : Bytes → Option File
  resolve : Bytes → Bytes
  nameless : fopen [] = none

/-- `qObjTimed` of a text. -/
structure Timed where
  time : ℤ
  obj : Bytes

/-- The map of a cache; its keys ignore the case of letters. -/
abbrev StrCache := Bytes → Option Timed

def lower (s : Bytes) : Bytes := s.map tolower

namespace StrCache

def empty : StrCache := fun _ => none

/-- `qObjCache::MapObj`. -/
def mapObj (cache : StrCache) (name : Bytes) (t : Timed) : StrCache :=
  Function.update cache (lower name) (some t)

def scopes (cache : StrCache) : Scopes Unit Timed := ⟨fun _ name => cache (lower name),fun _ => false⟩

/-- `myCtx->Find`. -/
def find (cache : StrCache) (name : Bytes) : Option Timed :=
  (Smx.find cache.scopes name none [()]).map Prod.fst

end StrCache

/-- `http:` or `https:`. -/
def isUrl (path : Bytes) : Bool :=
  lower (path.take 4) == str "http" &&
    (path[4]? == some (ch ':') || path[4]? == some (ch 's') && path[5]? == some (ch ':'))

/-- `qObjCache::OpenFileFQ`: the entry that was found and is as new as the file, and the file. -/
def cachedOpen (F : Files) (cache : StrCache) (p : Bytes) : Option (Option Timed × File) :=
  if p = [] then none
  else
    let path := fslash (trim p)
    let timed := cache.find path
    if isUrl path then (F.openURL path).map fun file => (none,file)
    else (F.fopen path).map fun file => (timed.filter fun t => file.mtime == t.time,file)

/-- What `qStrCache` makes of it: a file without an entry is read, and mapped under `path`. -/
def readThrough (cache : StrCache) (path : Bytes) : Option (Option Timed × File) → Bytes × StrCache
  | none => ([],cache)
  | some (none,file) => (file.content,cache.mapObj path ⟨file.mtime,file.content⟩)
  | some (some t,_) => (t.obj,cache)

/-- `qStrCache::OpenFileFQ`. -/
def openFileFQ (F : Files) (cache : StrCache) (p : Bytes) : Bytes × StrCache :=
  let path := fslash (cstr p)
  readThrough cache path (cachedOpen F cache path)

/-- `qStrCache::OpenFile`. -/
def openFile (F : Files) (cache : StrCache) (path : Bytes) : Bytes × StrCache :=
  if path = [] then ([],cache)
  else
    let path := cstr (F.resolve path)
    readThrough cache (fslash path) (cachedOpen F cache path)

/-- The files change, or one of them is opened. -/
inductive CacheOp
  | files (F : Files)
  | openFileFQ (p : Bytes)
  | openFile (path : Bytes)

/-- The file that is named by a path. -/
def named (path : Bytes) : Bytes := fslash (trim (cstr path))

/-- The path that is opened, after `ResolvePath` where that is called. -/
def CacheOp.path (F : Files) : CacheOp → Option Bytes
  | .files _ => none
  | .openFileFQ p => some p
  | .openFile path => some (if path = [] then [] else F.resolve path)

/-- The text a call gives, and the cache it leaves. -/
def CacheOp.open (F : Files) (cache : StrCache) : CacheOp → Bytes × StrCache
  | .files _ => ([],cache)
  | .openFileFQ p => Smx.openFileFQ F cache p
  | .openFile path => Smx.openFile F cache path

/-- The files after an operation. -/
def CacheOp.next (F : Files) : CacheOp → Files
  | .files F' => F'
  | _ => F

/-- Each call gives the content the file has at that time, or nothing when there is no such file. -/
def AllFresh : Files → StrCache → List CacheOp → Prop
  | _,_,[] => True
  | F,cache,op::ops =>
    (∀ p, op.path F = some p → (op.open F cache).1 = ((F.fopen (named p)).map File.content).getD []) ∧
      AllFresh (op.next F) (op.open F cache).2 ops

/-- Only files of `U` are there, and only local paths are opened. -/
def Over (U : Bytes → File → Prop) : Files → List CacheOp → Prop
  | F,[] => ∀ p f, F.fopen p = some f → U p f
  | F,op::ops =>
    (∀ p f, F.fopen p = some f → U p f) ∧ (∀ p, op.path F = some p → isUrl (named p) = false) ∧
      Over U (op.next F) ops

/-- The content of a file changes with its modification time. -/
def Dated (U : Bytes → File → Prop) : Prop :=
  ∀ p f g, U p f → U p g → f.mtime = g.mtime → f.content = g.content

/-- A path that names itself, and no page of a server. -/
structure LocalName (p : Bytes) : Prop where
  ne_nil : p ≠ []
  named : named p = p
  local_ : isUrl p = false

/-- An entry of `q` is found under `p`: the names differ in the case of letters, or `p` has colons in
front that `Find` pops. -/
def Shares (p q : Bytes) : Prop :=
  SameName p q ∨ p.head? = some (ch ':') ∧ SameName (trim (p.dropWhile isColon)) q

/-- Files that share an entry and have the same time have the same content. -/
def Unmistaken (U : Bytes → File → Prop) : Prop :=
  ∀ p f q g, LocalName p → LocalName q → U p f → U q g → Shares p q → f.mtime = g.mtime →
    f.content = g.content

section
variable {a b p q s : Bytes}

theorem isspace_tolower (c : Byte) : isspace (tolower c) = isspace c := by
  grind [isspace,tolower]

theorem isspace_fslash (c : Byte) : isspace (if c = ch '\\' then ch '/' else c) = isspace c := by
  split_ifs with hc
  · rw [hc]
    decide
  · rfl

/-- Trimming commutes with what changes characters and leaves blanks blank. -/
theorem trim_map {f : Byte → Byte} (hf : ∀ c, isspace (f c) = isspace c) (s : Bytes) :
    trim (s.map f) = (trim s).map f := by
  have hcomp : isspace ∘ f = isspace := funext hf
  simp only [trim,rtrim,List.rdropWhile,List.dropWhile_map,← List.map_reverse,hcomp]

theorem fslash_fslash (s : Bytes) : fslash (fslash s) = fslash s := by
  rw [fslash,fslash,List.map_map]
  apply List.map_congr_left
  intro c _
  by_cases hc : c = ch '\\'
  · simp only [Function.comp_apply,if_pos hc]
    decide
  · simp only [Function.comp_apply,if_neg hc]

theorem trim_fslash (s : Bytes) : trim (fslash s) = fslash (trim s) := trim_map isspace_fslash s

theorem lower_trim (s : Bytes) : lower (trim s) = trim (lower s) := (trim_map isspace_tolower s).symm

theorem nul_not_mem_named (p : Bytes) : 0 ∉ named p := by
  intro hmem
  obtain ⟨c,hc,hzero⟩ := List.mem_map.mp hmem
  have hsub : c ∈ cstr p := (List.dropWhile_suffix _).subset ((List.rdropWhile_prefix _ _).subset hc)
  have hne : c ≠ 0 := fun h => nul_not_mem_cstr p (h ▸ hsub)
  split_ifs at hzero
  · revert hzero
    decide
  · exact hne hzero

theorem named_named (p : Bytes) : named (named p) = named p := by
  have hcstr : cstr (named p) = named p := cstr_of_nul_free (nul_not_mem_named p)
  have htrim : trim (named p) = named p := by rw [named,trim_fslash,trim_trim]
  rw [named,hcstr,htrim]
  exact fslash_fslash _

/-- `Find` in a context without a parent. -/
theorem StrCache.find_eq (cache : StrCache) (name : Bytes) : cache.find name =
    ((if name.head? = some (ch ':') then cache (lower (name.dropWhile isColon)) else none).or
      (cache (lower name))) := by
  have hlocal (name : Bytes) : cache.scopes.findL () name = cache (lower name) := rfl
  simp only [StrCache.find,Smx.find,findC,popWalk,hlocal]
  have hsafe : cache.scopes.safeMode () = false := rfl
  by_cases hcolon : name.head? = some (ch ':')
  · have hlt : ch ':' ≠ ch '<' := by decide
    cases hdrop : cache (lower (name.dropWhile isColon)) with
    | none => cases hname : cache (lower name) <;> simp [hcolon,hsafe,hlt]
    | some t => simp [hcolon,hsafe,hlt]
  · cases hname : cache (lower name) <;> simp [hcolon,hsafe]

end

section
variable {U : Bytes → File → Prop} {F : Files} {cache : StrCache} {p : Bytes} {op : CacheOp}

/-- Every entry is the content of a file at its time, kept under a name that is trimmed to that of the
file. -/
def Holds (U : Bytes → File → Prop) (cache : StrCache) : Prop :=
  ∀ key t, cache key = some t → ∃ r, key = lower r ∧ LocalName (trim r) ∧ U (trim r) ⟨t.obj,t.time⟩

theorem cachedOpen_eq {p' : Bytes} (hp : fslash (trim p') = named p) (hlocal : isUrl (named p) = false) :
    cachedOpen F cache p' = (F.fopen (named p)).map fun file =>
      ((cache.find (named p)).filter fun t => file.mtime == t.time,file) := by
  by_cases hnil : p' = []
  · have hnamed : named p = [] := by rw [← hp,hnil]; rfl
    rw [cachedOpen,if_pos hnil,hnamed,F.nameless]
    rfl
  · rw [cachedOpen,if_neg hnil]
    simp only [hp,hlocal]
    rfl

/-- What both calls do on a local path. -/
theorem CacheOp.open_eq (hp : op.path F = some p) (hlocal : isUrl (named p) = false) :
    op.open F cache = readThrough cache (fslash (cstr p)) ((F.fopen (named p)).map fun file =>
      ((cache.find (named p)).filter fun t => file.mtime == t.time,file)) := by
  cases op with
  | files F' => cases hp
  | openFileFQ p' =>
    cases hp
    have htrim : fslash (trim (fslash (cstr p))) = named p := by
      rw [trim_fslash]
      exact fslash_fslash _
    exact congrArg (readThrough cache _) (cachedOpen_eq htrim hlocal)
  | openFile path =>
    by_cases hpath : path = []
    · rw [CacheOp.path,if_pos hpath] at hp
      cases hp
      have hnone : F.fopen (named []) = none := F.nameless
      rw [hnone,CacheOp.open,Smx.openFile,if_pos hpath]
      rfl
    · rw [CacheOp.path,if_neg hpath] at hp
      cases hp
      rw [CacheOp.open,Smx.openFile,if_neg hpath]
      exact congrArg (readThrough cache _) (cachedOpen_eq rfl hlocal)

/-- What is found under the name of a file is an entry of a file it shares. -/
theorem Holds.find (h : Holds U cache) {t : Timed} (ht : cache.find (named p) = some t) :
    ∃ q, LocalName q ∧ U q ⟨t.obj,t.time⟩ ∧ Shares (named p) q := by
  have htrim : trim (named p) = named p := by rw [named,trim_fslash,trim_trim]
  have hname (name : Bytes) (ht : cache (lower name) = some t) :
      ∃ q, LocalName q ∧ U q ⟨t.obj,t.time⟩ ∧ SameName (trim name) q := by
    obtain ⟨r,hr,hlocal,hU⟩ := h _ _ ht
    refine ⟨trim r,hlocal,hU,?_⟩
    have hsame : lower (trim name) = lower (trim r) := by rw [lower_trim,lower_trim,hr]
    exact hsame
  rw [StrCache.find_eq] at ht
  split_ifs at ht with hcolon
  · obtain ht | ⟨-,ht⟩ := Option.or_eq_some_iff.mp ht
    · obtain ⟨q,hq,hU,hsame⟩ := hname _ ht
      exact ⟨q,hq,hU,.inr ⟨hcolon,hsame⟩⟩
    · obtain ⟨q,hq,hU,hsame⟩ := hname _ ht
      rw [htrim] at hsame
      exact ⟨q,hq,hU,.inl hsame⟩
  · obtain ⟨q,hq,hU,hsame⟩ := hname _ ht
    rw [htrim] at hsame
    exact ⟨q,hq,hU,.inl hsame⟩

/-- One call gives what is in the file, and its entry is what is in the file. -/
theorem Holds.step (h : Holds U cache) (hU : Unmistaken U) (hF : ∀ p f, F.fopen p = some f → U p f)
    (hp : op.path F = some p) (hlocal : isUrl (named p) = false) :
    (op.open F cache).1 = ((F.fopen (named p)).map File.content).getD [] ∧
      Holds U (op.open F cache).2 := by
  rw [CacheOp.open_eq hp hlocal]
  cases hfile : F.fopen (named p) with
  | none => exact ⟨rfl,h⟩
  | some file =>
    have hname : LocalName (named p) := by
      refine ⟨fun hnil => ?_,named_named p,hlocal⟩
      rw [hnil,F.nameless] at hfile
      cases hfile
    cases hentry : (cache.find (named p)).filter fun t => file.mtime == t.time with
    | none =>
      rw [Option.map_some,hentry]
      refine ⟨rfl,fun key t ht => ?_⟩
      change Function.update cache (lower (fslash (cstr p))) (some ⟨file.mtime,file.content⟩) key = some t at ht
      by_cases hkey : key = lower (fslash (cstr p))
      · rw [hkey,Function.update_self] at ht
        cases ht
        have htrim : trim (fslash (cstr p)) = named p := trim_fslash _
        refine ⟨fslash (cstr p),hkey,?_⟩
        rw [htrim]
        exact ⟨hname,hF _ _ hfile⟩
      · rw [Function.update_of_ne hkey] at ht
        exact h key t ht
    | some t =>
      obtain ⟨hfound,htime⟩ := Option.filter_eq_some_iff.mp hentry
      obtain ⟨q,hq,hUq,hshares⟩ := h.find hfound
      have hcontent := hU _ file q _ hname hq (hF _ _ hfile) hUq hshares (eq_of_beq htime)
      rw [Option.map_some,hentry]
      exact ⟨hcontent.symm,h⟩

theorem Unmistaken.allFresh (hU : Unmistaken U) {ops : List CacheOp} (h : Holds U cache)
    (hops : Over U F ops) : AllFresh F cache ops := by
  induction ops generalizing F cache with
  | nil => trivial
  | cons op ops ih =>
    obtain ⟨hF,hlocal,hops⟩ := hops
    cases hpath : op.path F with
    | none =>
      have hcache : (op.open F cache).2 = cache := by
        cases op with
        | files F' => rfl
        | openFileFQ p => cases hpath
        | openFile p => cases hpath
      refine ⟨fun p hp => ?_,?_⟩
      · rw [hp] at hpath
        cases hpath
      · rw [hcache]
        exact ih h hops
    | some p =>
      obtain ⟨hfresh,hstep⟩ := h.step hU hF hpath (hlocal p hpath)
      refine ⟨fun p' hp' => ?_,ih hstep hops⟩
      rw [hpath] at hp'
      cases hp'
      exact hfresh

theorem rtrim_of_suffix {s t : Bytes} (h : rtrim s = s) (hsuf : t <:+ s) : rtrim t = t := by
  apply List.rdropWhile_eq_self_iff.mpr
  intro ht
  have hlast := List.rdropWhile_eq_self_iff.mp h (hsuf.ne_nil ht)
  rwa [← hsuf.getLast ht] at hlast

/-- The name of a file can be given so that it agrees with a path that shares its entry. -/
theorem Shares.exists_given {q : Bytes} (hp : LocalName p) (hq : LocalName q) (h : Shares p q) :
    ∃ r, fslash (cstr r) = r ∧ trim r = q ∧
      (SameName p r ∨ p.head? = some (ch ':') ∧ SameName (p.dropWhile isColon) r) := by
  have hself (q : Bytes) (hq : LocalName q) : trim q = q ∧ fslash (cstr q) = q := by
    have hcstr : cstr q = q := cstr_of_nul_free (hq.named ▸ nul_not_mem_named q)
    have hnamed := hq.named
    rw [named,hcstr] at hnamed
    rw [hcstr]
    constructor
    · rw [← hnamed,trim_fslash,trim_trim]
    · rw [← hnamed]
      exact fslash_fslash _
  obtain ⟨hqtrim,hqslash⟩ := hself q hq
  obtain hsame | ⟨hcolon,hsame⟩ := h
  · exact ⟨q,hqslash,hqtrim,.inl hsame⟩
  · have hend : rtrim (p.dropWhile isColon) = p.dropWhile isColon := by
      have hp' : rtrim p = p := by
        have htrim := (hself p hp).1
        have hdrop : p.dropWhile isspace = p := by
          rw [← htrim]
          exact dropWhile_trim p
        rwa [trim,hdrop] at htrim
      exact rtrim_of_suffix hp' (List.dropWhile_suffix _)
    have hsplit : p.dropWhile isColon =
        (p.dropWhile isColon).takeWhile isspace ++ trim (p.dropWhile isColon) := by
      have htrim : trim (p.dropWhile isColon) = (p.dropWhile isColon).dropWhile isspace :=
        rtrim_of_suffix hend (List.dropWhile_suffix _)
      rw [htrim,List.takeWhile_append_dropWhile]
    have hblank (c : Byte) (hc : c ∈ (p.dropWhile isColon).takeWhile isspace) : isspace c = true :=
      List.mem_takeWhile_imp hc
    refine ⟨(p.dropWhile isColon).takeWhile isspace ++ q,?_,?_,.inr ⟨hcolon,?_⟩⟩
    · have hnul : ∀ c ∈ (p.dropWhile isColon).takeWhile isspace, c ≠ 0 := by
        intro c hc hzero
        have hsp := hblank c hc
        rw [hzero] at hsp
        cases hsp
      have hslash : fslash ((p.dropWhile isColon).takeWhile isspace) =
          (p.dropWhile isColon).takeWhile isspace := by
        refine (List.map_congr_left fun c hc => ?_).trans (List.map_id _)
        apply if_neg
        intro hback
        have hsp := hblank c hc
        rw [hback] at hsp
        revert hsp
        decide
      have hcstr : cstr ((p.dropWhile isColon).takeWhile isspace ++ q) =
          (p.dropWhile isColon).takeWhile isspace ++ cstr q :=
        List.takeWhile_append_of_pos fun c hc => by simpa using hnul c hc
      have happend (a b : Bytes) : fslash (a ++ b) = fslash a ++ fslash b := List.map_append
      rw [hcstr,happend,hslash,hqslash]
    · have hdrop : ((p.dropWhile isColon).takeWhile isspace ++ q).dropWhile isspace = q.dropWhile isspace :=
        List.dropWhile_append_of_pos hblank
      rw [trim,hdrop]
      exact hqtrim
    · have hpad : lower ((p.dropWhile isColon).takeWhile isspace ++ trim (p.dropWhile isColon)) =
          lower ((p.dropWhile isColon).takeWhile isspace ++ q) := by
        rw [lower,lower,List.map_append,List.map_append]
        exact congrArg _ hsame
      rwa [← hsplit] at hpad

/-- The only entry of a cache is found under all the names that share it. -/
theorem find_mapObj {r : Bytes} (t : Timed)
    (h : SameName p r ∨ p.head? = some (ch ':') ∧ SameName (p.dropWhile isColon) r) :
    (StrCache.empty.mapObj r t).find p = some t := by
  have hone (name : Bytes) : (StrCache.empty.mapObj r t) (lower name) =
      if SameName name r then some t else none := Function.update_apply _ _ _ _
  rw [StrCache.find_eq,hone,hone]
  obtain hsame | ⟨hcolon,hsame⟩ := h
  · rw [if_pos hsame]
    split_ifs <;> rfl
  · rw [if_pos hcolon,if_pos hsame]
    rfl

/-- Two files at a time. -/
def twoFiles (p q : Bytes) (f g : File) (hp : p ≠ []) (hq : q ≠ []) : Files where
  fopen r := if r = p then some f else if r = q then some g else none
  openURL _ := none
  resolve path := path
  nameless := by rw [if_neg hp.symm,if_neg hq.symm]

/-- A cache that never serves the wrong text has no two files that could be mistaken. -/
theorem unmistaken_of_allFresh (hU : Dated U)
    (h : ∀ F ops, Over U F ops → AllFresh F StrCache.empty ops) : Unmistaken U := by
  intro p f q g hp hq hf hg hshares htime
  by_cases hpq : p = q
  · exact hU p f g hf (hpq ▸ hg) htime
  obtain ⟨r,hr,htrim,hsame⟩ := hshares.exists_given hp hq
  have hF : ∀ p' f', (twoFiles p q f g hp.ne_nil hq.ne_nil).fopen p' = some f' → U p' f' := by
    intro p' f' hopen
    change (if p' = p then some f else if p' = q then some g else none) = some f' at hopen
    split_ifs at hopen with hp' hq'
    · cases hopen
      exact hp' ▸ hf
    · cases hopen
      exact hq' ▸ hg
  have hgiven : named r = q := by rw [named,← trim_fslash,hr,htrim]
  have hfirst : (twoFiles p q f g hp.ne_nil hq.ne_nil).fopen q = some g :=
    (if_neg (Ne.symm hpq)).trans (if_pos rfl)
  have hsecond : (twoFiles p q f g hp.ne_nil hq.ne_nil).fopen p = some f := if_pos rfl
  have hlocal : ∀ p', CacheOp.path (twoFiles p q f g hp.ne_nil hq.ne_nil) (.openFileFQ r) = some p' →
      isUrl (named p') = false := by
    intro p' hp'
    cases hp'
    exact hgiven ▸ hq.local_
  have hlocal' : ∀ p', CacheOp.path (twoFiles p q f g hp.ne_nil hq.ne_nil) (.openFileFQ p) = some p' →
      isUrl (named p') = false := by
    intro p' hp'
    cases hp'
    exact hp.named.symm ▸ hp.local_
  have hfresh := (h _ [.openFileFQ r,.openFileFQ p] ⟨hF,hlocal,hF,hlocal',hF⟩).2.1 p rfl
  have hcache : (CacheOp.open (twoFiles p q f g hp.ne_nil hq.ne_nil) StrCache.empty
      (.openFileFQ r)).2 = StrCache.empty.mapObj r ⟨g.mtime,g.content⟩ := by
    have hnone : StrCache.empty.find q = none := by
      rw [StrCache.find_eq]
      split_ifs <;> rfl
    rw [CacheOp.open_eq rfl (hlocal r rfl),hgiven,hfirst,hnone,hr]
    rfl
  rw [hcache] at hfresh
  change (CacheOp.open (twoFiles p q f g hp.ne_nil hq.ne_nil) _ (.openFileFQ p)).1 =
    (((twoFiles p q f g hp.ne_nil hq.ne_nil).fopen (named p)).map File.content).getD [] at hfresh
  rw [CacheOp.open_eq rfl (hlocal' p rfl),hp.named,hsecond,find_mapObj _ hsame] at hfresh
  have hnew : (f.mtime == g.mtime) = true := beq_iff_eq.mpr htime
  simp only [Option.map_some,Option.filter_some,hnew,if_true] at hfresh
  exact hfresh.symm

/-- Every text that is served is the content of its file, whatever changes in between, just if no two
files that share an entry have different contents at the same time. -/
theorem cache_fresh_iff (hU : Dated U) :
    (∀ F ops, Over U F ops → AllFresh F StrCache.empty ops) ↔ Unmistaken U := by
  constructor
  · intro h
    exact unmistaken_of_allFresh hU h
  · intro h F ops hops
    exact h.allFresh (fun key t ht => by cases ht) hops

end

theorem cache_fresh_one : (∀ F ops, Over (fun p f => p = str "page" ∧ f = ⟨str "text",0⟩) F ops →
    AllFresh F StrCache.empty ops) ↔ Unmistaken fun p f => p = str "page" ∧ f = ⟨str "text",0⟩ := by
  apply cache_fresh_iff
  intro p f g hf hg _
  rw [hf.2,hg.2]

/-- `a` is served with the text of `A`. -/
theorem other_file_served : ¬∀ U, Dated U → ∀ F ops, Over U F ops → AllFresh F StrCache.empty ops := by
  intro h
  have hU : Dated fun p f => f = ⟨p,0⟩ := by
    intro p f g hf hg _
    rw [hf,hg]
  have hshares : Shares (str "a") (str "A") := .inl (by decide)
  have hcontent := unmistaken_of_allFresh hU (h _ hU) (str "a") _ (str "A") _
    ⟨by decide,by decide,by decide⟩ ⟨by decide,by decide,by decide⟩ rfl rfl hshares rfl
  revert hcontent
  decide

end Smx
