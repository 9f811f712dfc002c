import Smx.Cache.StrCache
import Smx.Context.Bindings
import Smx.Context.Names
import Smx.Lib.RefCount
import Smx.Lib.Run

/-! The references that `OpenFileFQ` takes on the objects of a cache, and where its three callers give them back. -/
namespace Smx

/-- `qObjCache`: the objects are numbered as they are made; `myRefs` of one that has been deleted is 0. -/
structure ObjCache where
  entry : Bytes → Option ℕ
  time : ℕ → ℤ
  refs : ℕ → ℕ
  next : ℕ

namespace ObjCache

def scopes (s : ObjCache) : Scopes Unit ℕ := ⟨fun _ name => s.entry (mapKey name),fun _ => false⟩

/-- `myCtx->Find`. -/
def find (s : ObjCache) (name : Bytes) : Option ℕ := (Smx.find s.scopes name none [()]).map Prod.fst

def addRef (s : ObjCache) (id : ℕ) : ObjCache := { s with refs := Function.update s.refs id (s.refs id+1) }

/-- `qObjTS::Free`. -/
def free (s : ObjCache) (id : ℕ) : ObjCache := { s with refs := Function.update s.refs id (s.refs id-1) }

/-- What a map does with the object that it held under a key. -/
def freeOld (s : ObjCache) : Option ℕ → ObjCache
  | some id => s.free id
  | none => s

/-- `MapObj`: a new `qObjTimed`, with the time of its file. -/
def mapObj (s : ObjCache) (name : Bytes) (time : ℤ) : ObjCache :=
  freeOld ⟨Function.update s.entry (mapKey name) (some s.next),Function.update s.time s.next time,
    Function.update s.refs s.next 1,s.next+1⟩ (s.entry (mapKey name))

/-- An entry is dropped. -/
def drop (s : ObjCache) (name : Bytes) : ObjCache :=
  freeOld { s with entry := Function.update s.entry (mapKey name) none } (s.entry (mapKey name))

/-- `qObjCache::OpenFileFQ`: `*found`, the file, and the cache. -/
def openFileFQ (F : Files) (s : ObjCache) (p : Bytes) : Option ℕ × Option File × ObjCache :=
  if cstr p = [] then (none,none,s)
  else
    let path := named p
    match s.find path with
    | none => if isUrl path then (none,F.openURL path,s) else (none,F.fopen path,s)
    | some timed =>
      let s := s.addRef timed
      if isUrl path then (none,F.openURL path,s)
      else
        match F.fopen path with
        | some fp => if fp.mtime = s.time timed then (some timed,some fp,s) else (none,some fp,s.free timed)
        | none => (some timed,none,s)

/-- `qObjCache::OpenFile`. -/
def openFile (F : Files) (s : ObjCache) (path : Bytes) : Option ℕ × Option File × ObjCache :=
  if path = [] then (none,none,s) else s.openFileFQ F (F.resolve path)

end ObjCache

/-- `SHARED_LIB_EXT`. -/
def sharedLibExt : Bytes := str ".so"

/-- `is_ext`; `front` is what stands in front of the text of `path`. -/
def isExt (front path : Bytes) : Bool :=
  SameName (cstr ((front ++ path).drop (front.length+path.length-sharedLibExt.length))) sharedLibExt

/-- `qStrCache::OpenFile`, `qStrCache::OpenFileFQ` and `qObjCache::EvalModule`. -/
inductive Caller
  | openFile
  | openFileFQ
  | evalModule (front : Bytes)

/-- A caller that has opened a file and has not returned: whether it is `EvalModule`, and for a shared library, the name
under which it maps an object, and what was found and opened. -/
structure User where
  isModule : Bool
  isExt : Bool
  name : Bytes
  found : Option ℕ
  fin : Option File

/-- A caller as far as the file is opened; an empty path makes `EvalModule` return. -/
def Caller.enter (F : Files) (s : ObjCache) (p : Bytes) : Caller → Option User × ObjCache
  | .openFile =>
    let (found,fin,s) := s.openFile F p
    (some ⟨false,false,fslash (F.resolve p),found,fin⟩,s)
  | .openFileFQ =>
    let path := fslash (cstr p)
    let (found,fin,s) := s.openFileFQ F path
    (some ⟨false,false,path,found,fin⟩,s)
  | .evalModule front =>
    if p = [] then (none,s)
    else
      let is_ext := isExt front p
      let (found,fin,s) := s.openFile F p
      (some ⟨true,is_ext,if is_ext then F.resolve p else fslash (F.resolve p),found,fin⟩,s)

/-- What is left to do when the file has been opened; a module that cannot be loaded, or whose text throws, is not
mapped. -/
def User.leave (u : User) (s : ObjCache) (loaded : Bool) (now : ℤ) : ObjCache :=
  if u.fin.isNone && !u.isExt then s
  else
    match u.found with
    | some timed => s.free timed
    | none => if !u.isModule || loaded then s.mapObj u.name ((u.fin.map File.mtime).getD now) else s

/-- The path with which `qObjCache::OpenFileFQ` is called. -/
def Caller.path (F : Files) (p : Bytes) : Caller → Bytes
  | .openFileFQ => fslash (cstr p)
  | _ => if p = [] then [] else F.resolve p

variable {ι : Type}

/-- The cache, and the calls that are on the way. -/
structure CacheState (ι : Type) where
  cache : ObjCache
  inside : ι → Option User

/-- A call opens its file, a call returns, or an entry is dropped. -/
inductive CacheEvent (ι : Type)
  | enter (i : ι) (F : Files) (caller : Caller) (p : Bytes)
  | leave (i : ι) (loaded : Bool) (now : ℤ)
  | drop (name : Bytes)

namespace CacheState
variable [DecidableEq ι]

def step (s : CacheState ι) : CacheEvent ι → Option (CacheState ι)
  | .enter i F caller p =>
    if (s.inside i).isSome then none
    else some ⟨(caller.enter F s.cache p).2,Function.update s.inside i (caller.enter F s.cache p).1⟩
  | .leave i loaded now =>
    (s.inside i).map fun u => ⟨u.leave s.cache loaded now,Function.update s.inside i none⟩
  | .drop name => some { s with cache := s.cache.drop name }

/-- An empty cache, and no call. -/
def new : CacheState ι := ⟨⟨fun _ => none,fun _ => 0,fun _ => 0,0⟩,fun _ => none⟩

variable [Fintype ι]

/-- The calls that have found an object. -/
def users (inside : ι → Option User) (id : ℕ) : ℕ := RefCount.refs (fun i => (inside i).bind User.found) id

/-- The count of an object is that of the calls that have found it, and one more for the map; without either the object
is gone. -/
def Balanced (s : CacheState ι) : Prop :=
  (∀ key id, s.cache.entry key = some id → s.cache.refs id = users s.inside id+1) ∧
    ∀ id < s.cache.next, (∀ key, s.cache.entry key ≠ some id) → s.cache.refs id = users s.inside id

/-- No page of a server is opened that has an entry, and no call returns for want of a file when it has found an
entry. -/
def GivesBack (s : CacheState ι) : CacheEvent ι → Prop
  | .enter i F caller p => s.inside i = none → isUrl (named (caller.path F p)) = true →
    s.cache.find (named (caller.path F p)) = none
  | .leave i _ _ => ∀ u, s.inside i = some u → u.fin = none → u.isExt = true ∨ u.found = none
  | .drop _ => True

/-- The count of every object is right, and a number is that of one object. -/
structure Sound (s : CacheState ι) : Prop where
  balanced : s.Balanced
  inj : ∀ key key' id, s.cache.entry key = some id → s.cache.entry key' = some id → key = key'
  mapped : ∀ key id, s.cache.entry key = some id → id < s.cache.next
  held : ∀ i id, (s.inside i).bind User.found = some id → id < s.cache.next

end CacheState

section
variable {s : ObjCache} {F : Files} {p : Bytes} {id : ℕ}

/-- What is found is in the map. -/
theorem ObjCache.exists_entry_of_find (h : s.find p = some id) : ∃ key, s.entry key = some id := by
  obtain ⟨r,hr,rfl⟩ := Option.map_eq_some_iff.mp h
  obtain ⟨name,hname⟩ := exists_findL_of_find hr
  exact ⟨mapKey name,hname⟩

/-- The reference of a caller on what it has found. -/
def ObjCache.hold (s : ObjCache) : Option ℕ → ObjCache
  | some id => s.addRef id
  | none => s

theorem ObjCache.free_addRef (s : ObjCache) (id : ℕ) : (s.addRef id).free id = s := by
  simp [ObjCache.free,ObjCache.addRef]

/-- Apart from pages of a server, the reference that is taken is the one on the object that is handed out. -/
theorem ObjCache.openFileFQ_hold (h : isUrl (named p) = true → s.find (named p) = none) :
    (s.openFileFQ F p).2.2 = s.hold (s.openFileFQ F p).1 ∧
      ∀ id, (s.openFileFQ F p).1 = some id → s.find (named p) = some id := by
  rw [ObjCache.openFileFQ]
  split_ifs with hp
  · exact ⟨rfl,fun _ hid => (by cases hid)⟩
  · dsimp only
    cases hfind : s.find (named p) with
    | none =>
      dsimp only
      split_ifs
      · exact ⟨rfl,fun _ hid => (by cases hid)⟩
      · exact ⟨rfl,fun _ hid => (by cases hid)⟩
    | some timed =>
      dsimp only
      split_ifs with hurl
      · rw [h hurl] at hfind
        cases hfind
      · cases F.fopen (named p) with
        | none => exact ⟨rfl,fun _ hid => hid⟩
        | some fp =>
          dsimp only
          split_ifs
          · exact ⟨rfl,fun _ hid => hid⟩
          · exact ⟨s.free_addRef timed,fun _ hid => (by cases hid)⟩

/-- A page of a server that has an entry is opened with a reference on it, but without handing it out. -/
theorem ObjCache.openFileFQ_url (hurl : isUrl (named p) = true) (hfind : s.find (named p) = some id) :
    (s.openFileFQ F p).2.2 = s.addRef id ∧ (s.openFileFQ F p).1 = none := by
  have hp : cstr p ≠ [] := by
    intro hp
    rw [named,hp] at hurl
    exact absurd hurl (by decide)
  rw [ObjCache.openFileFQ,if_neg hp]
  simp only [hfind,if_pos hurl,and_self]

theorem ObjCache.openFile_eq (s : ObjCache) (F : Files) (p : Bytes) :
    s.openFile F p = s.openFileFQ F (if p = [] then [] else F.resolve p) := by
  rw [ObjCache.openFile]
  split_ifs
  · rfl
  · rfl

theorem Caller.enter_eq (F : Files) (s : ObjCache) (p : Bytes) (caller : Caller) :
    (caller.enter F s p).2 = (s.openFileFQ F (caller.path F p)).2.2 ∧
      (caller.enter F s p).1.bind User.found = (s.openFileFQ F (caller.path F p)).1 := by
  cases caller with
  | openFile => exact ⟨by rw [Caller.enter,ObjCache.openFile_eq]; rfl,by rw [Caller.enter,ObjCache.openFile_eq]; rfl⟩
  | openFileFQ => exact ⟨rfl,rfl⟩
  | evalModule front =>
    simp only [Caller.enter,Caller.path,ObjCache.openFile_eq]
    split_ifs <;> exact ⟨rfl,rfl⟩

@[simp] theorem ObjCache.hold_entry (s : ObjCache) (found : Option ℕ) : (s.hold found).entry = s.entry := by
  cases found <;> rfl

@[simp] theorem ObjCache.hold_next (s : ObjCache) (found : Option ℕ) : (s.hold found).next = s.next := by
  cases found <;> rfl

theorem ObjCache.hold_refs (s : ObjCache) (found : Option ℕ) (id : ℕ) :
    (s.hold found).refs id = s.refs id+if found = some id then 1 else 0 := by
  cases found with
  | none => simp [ObjCache.hold]
  | some timed =>
    simp only [ObjCache.hold,ObjCache.addRef,Function.update_apply,Option.some.injEq,eq_comm (a := timed)]
    split_ifs with hid
    · rw [hid]
    · rfl

end

namespace CacheState
variable [Fintype ι] {s : CacheState ι} {i : ι} {u : User}

theorem free_refs (cache : ObjCache) (old id : ℕ) :
    (cache.free old).refs id = if id = old then cache.refs old-1 else cache.refs id :=
  Function.update_apply _ _ _ _

/-- Without its entry an object has the references of the calls only. -/
theorem Sound.drop (hs : s.Sound) (name : Bytes) : Sound { s with cache := s.cache.drop name } := by
  rw [ObjCache.drop]
  cases hold : s.cache.entry (mapKey name) with
  | none =>
    rw [ObjCache.freeOld,Function.update_eq_self_iff.mpr hold.symm]
    exact hs
  | some old =>
    have hentry {key : Bytes} {id : ℕ} (hkey : Function.update s.cache.entry (mapKey name) none key = some id) :
        s.cache.entry key = some id ∧ id ≠ old := by
      have hne : key ≠ mapKey name := by
        rintro rfl
        rw [Function.update_self] at hkey
        cases hkey
      rw [Function.update_of_ne hne] at hkey
      refine ⟨hkey,?_⟩
      rintro rfl
      exact hne (hs.inj key _ id hkey hold)
    refine ⟨⟨fun key id hkey => ?_,fun id hlt hnone => ?_⟩,?_,?_,hs.held⟩
    · obtain ⟨hkey',hne⟩ := hentry hkey
      rw [ObjCache.freeOld,free_refs,if_neg hne]
      exact hs.balanced.1 key id hkey'
    · rw [ObjCache.freeOld,free_refs]
      split_ifs with hid
      · rw [hid]
        simp only
        rw [hs.balanced.1 _ old hold,Nat.add_sub_cancel]
      · refine hs.balanced.2 id hlt fun key hkey => hnone key ?_
        have hne : key ≠ mapKey name := by
          rintro rfl
          rw [hold] at hkey
          exact hid (Option.some.inj hkey).symm
        exact (Function.update_of_ne hne _ _).trans hkey
    · intro key key' id hkey hkey'
      exact hs.inj key key' id (hentry hkey).1 (hentry hkey').1
    · intro key id hkey
      exact hs.mapped key id (hentry hkey).1

/-- An object that is made has its entry and no call. -/
theorem users_next (hs : s.Sound) : users s.inside s.cache.next = 0 := by
  have hnone : ∀ i, ¬(s.inside i).bind User.found = some s.cache.next := fun i hi => (hs.held i _ hi).false
  rw [users,RefCount.refs]
  exact Finset.sum_eq_zero fun i _ => if_neg (hnone i)

/-- An object is made, and mapped under a name that has no entry. -/
theorem Sound.alloc (hs : s.Sound) {key₀ : Bytes} (hkey₀ : s.cache.entry key₀ = none) (time : ℕ → ℤ) :
    Sound { s with cache := ⟨Function.update s.cache.entry key₀ (some s.cache.next),time,
      Function.update s.cache.refs s.cache.next 1,s.cache.next+1⟩ } := by
  have hentry {key : Bytes} {id : ℕ} (hkey : Function.update s.cache.entry key₀ (some s.cache.next) key = some id) :
      key = key₀ ∧ id = s.cache.next ∨ s.cache.entry key = some id ∧ id < s.cache.next := by
    by_cases hk : key = key₀
    · rw [hk,Function.update_self] at hkey
      exact .inl ⟨hk,(Option.some.inj hkey).symm⟩
    · rw [Function.update_of_ne hk] at hkey
      exact .inr ⟨hkey,hs.mapped key id hkey⟩
  refine ⟨⟨fun key id hkey => ?_,fun id hlt hnone => ?_⟩,?_,?_,?_⟩
  · rcases hentry hkey with ⟨-,rfl⟩ | ⟨hkey',hlt⟩
    · simp only [Function.update_self,users_next hs]
    · simp only [Function.update_of_ne hlt.ne]
      exact hs.balanced.1 key id hkey'
  · have hne : id ≠ s.cache.next := by
      rintro rfl
      exact hnone key₀ (Function.update_self _ _ _)
    simp only [Function.update_of_ne hne]
    have hlt' : id < s.cache.next := Nat.lt_of_le_of_ne (Nat.le_of_lt_succ hlt) hne
    refine hs.balanced.2 id hlt' fun key hkey => hnone key ?_
    have hk : key ≠ key₀ := by
      rintro rfl
      rw [hkey₀] at hkey
      cases hkey
    exact (Function.update_of_ne hk _ _).trans hkey
  · intro key key' id hkey hkey'
    rcases hentry hkey with ⟨rfl,rfl⟩ | ⟨hold,hlt⟩
    · rcases hentry hkey' with ⟨rfl,-⟩ | ⟨-,hlt⟩
      · rfl
      · exact absurd hlt (lt_irrefl _)
    · rcases hentry hkey' with ⟨-,rfl⟩ | ⟨hold',-⟩
      · exact absurd hlt (lt_irrefl _)
      · exact hs.inj key key' id hold hold'
  · intro key id hkey
    rcases hentry hkey with ⟨-,rfl⟩ | ⟨-,hlt⟩
    · exact Nat.lt_succ_self _
    · exact Nat.lt_succ_of_lt hlt
  · intro i id hid
    exact Nat.lt_succ_of_lt (hs.held i id hid)

/-- The entry that is replaced is dropped. -/
theorem Sound.mapObj (hs : s.Sound) (name : Bytes) (time : ℤ) : Sound { s with cache := s.cache.mapObj name time } := by
  have hdrop := hs.drop name
  have hnone : (s.cache.drop name).entry (mapKey name) = none := by
    rw [ObjCache.drop]
    cases s.cache.entry (mapKey name) <;> exact Function.update_self _ _ _
  have halloc := hdrop.alloc hnone (Function.update s.cache.time s.cache.next time)
  suffices heq : s.cache.mapObj name time = ⟨Function.update (s.cache.drop name).entry (mapKey name)
      (some (s.cache.drop name).next),Function.update s.cache.time s.cache.next time,
      Function.update (s.cache.drop name).refs (s.cache.drop name).next 1,(s.cache.drop name).next+1⟩ by
    rw [heq]
    exact halloc
  rw [ObjCache.mapObj,ObjCache.drop]
  cases hold : s.cache.entry (mapKey name) with
  | none => simp [ObjCache.freeOld]
  | some old =>
    have hne : old ≠ s.cache.next := (hs.mapped _ old hold).ne
    simp only [ObjCache.freeOld,ObjCache.free,Function.update_idem,Function.update_of_ne hne,
      Function.update_comm hne.symm]

theorem new_sound : (new : CacheState ι).Sound :=
  ⟨⟨fun _ _ hkey => (by cases hkey),fun _ hlt => absurd hlt (Nat.not_lt_zero _)⟩,fun _ _ _ hkey => (by cases hkey),
    fun _ _ hkey => (by cases hkey),fun _ _ hid => (by cases hid)⟩

variable [DecidableEq ι]

theorem users_update (inside : ι → Option User) (i : ι) (x : Option User) (id : ℕ) :
    users (Function.update inside i x) id + (if (inside i).bind User.found = some id then 1 else 0) =
      users inside id + if x.bind User.found = some id then 1 else 0 := by
  have hhandle : (fun j => (Function.update inside i x j).bind User.found) =
      Function.update (fun j => (inside j).bind User.found) i (x.bind User.found) := by
    funext j
    by_cases hj : j = i
    · rw [hj,Function.update_self,Function.update_self]
    · rw [Function.update_of_ne hj,Function.update_of_ne hj]
  rw [users,hhandle]
  exact RefCount.refs_update _ i _ id

theorem users_pos (hu : s.inside i = some u) {id : ℕ} (hid : u.found = some id) : 0 < users s.inside id := by
  have hupdate := users_update s.inside i none id
  rw [if_pos (by rw [hu]; exact hid)] at hupdate
  simp at hupdate
  omega

/-- An object in use has not been deleted. -/
theorem Sound.refs_pos (hs : s.Sound) (hu : s.inside i = some u) {id : ℕ} (hid : u.found = some id) :
    0 < s.cache.refs id := by
  have hpos := users_pos hu hid
  by_cases hmapped : ∃ key, s.cache.entry key = some id
  · obtain ⟨key,hkey⟩ := hmapped
    rw [hs.balanced.1 key id hkey]
    exact Nat.succ_pos _
  · have hlt : id < s.cache.next := hs.held i id (by rw [hu]; exact hid)
    rw [hs.balanced.2 id hlt fun key hkey => hmapped ⟨key,hkey⟩]
    exact hpos

/-- A call that comes or goes with its reference keeps the counts right. -/
theorem Sound.update (hs : s.Sound) {cache : ObjCache} {x : Option User} (hentry : cache.entry = s.cache.entry)
    (hnext : cache.next = s.cache.next) (hheld : ∀ id, x.bind User.found = some id → id < s.cache.next)
    (hrefs : ∀ id, cache.refs id + (if (s.inside i).bind User.found = some id then 1 else 0) =
      s.cache.refs id + if x.bind User.found = some id then 1 else 0) :
    Sound ⟨cache,Function.update s.inside i x⟩ := by
  refine ⟨⟨fun key id hkey => ?_,fun id hlt hnone => ?_⟩,?_,?_,fun j id hj => ?_⟩
  · rw [hentry] at hkey
    have hbal := hs.balanced.1 key id hkey
    have hr := hrefs id
    have hu := users_update s.inside i x id
    simp only
    omega
  · simp only [hentry,hnext] at hlt hnone
    have hbal := hs.balanced.2 id hlt hnone
    have hr := hrefs id
    have hu := users_update s.inside i x id
    simp only
    omega
  · simp only [hentry]
    exact hs.inj
  · simp only [hentry,hnext]
    exact hs.mapped
  · simp only [hnext] at hj ⊢
    by_cases hji : j = i
    · rw [hji,Function.update_self] at hj
      exact hheld id hj
    · rw [Function.update_of_ne hji] at hj
      exact hs.held j id hj

/-- A call that opens no page of a server with an entry holds what it has found. -/
theorem Sound.enter (hs : s.Sound) {F : Files} {caller : Caller} {p : Bytes} (hi : s.inside i = none)
    (h : isUrl (named (caller.path F p)) = true → s.cache.find (named (caller.path F p)) = none) :
    Sound ⟨(caller.enter F s.cache p).2,Function.update s.inside i (caller.enter F s.cache p).1⟩ := by
  obtain ⟨hcache,hfound⟩ := caller.enter_eq F s.cache p
  obtain ⟨hhold,hfind⟩ := ObjCache.openFileFQ_hold h
  rw [hcache,hhold]
  apply hs.update
  · simp
  · simp
  · intro id hid
    obtain ⟨key,hkey⟩ := ObjCache.exists_entry_of_find (hfind id (hfound ▸ hid))
    exact hs.mapped key id hkey
  · intro id
    rw [ObjCache.hold_refs,hfound,hi]
    simp

/-- A call that returns has no reference, or gives it back. -/
theorem Sound.leave (hs : s.Sound) (hu : s.inside i = some u) (h : u.fin = none → u.isExt = true ∨ u.found = none)
    (loaded : Bool) (now : ℤ) : Sound ⟨u.leave s.cache loaded now,Function.update s.inside i none⟩ := by
  have hnone (hfound : u.found = none) {cache : ObjCache} (hs' : Sound { s with cache := cache }) :
      Sound ⟨cache,Function.update s.inside i none⟩ := by
    refine hs'.update rfl rfl (fun _ hid => by cases hid) fun id => ?_
    simp [hu,hfound]
  by_cases hret : (u.fin.isNone && !u.isExt) = true
  · rw [User.leave,if_pos hret]
    have hmiss : u.fin = none ∧ u.isExt = false := by simpa using hret
    rcases h hmiss.1 with hext | hfound
    · rw [hmiss.2] at hext
      cases hext
    · exact hnone hfound hs
  · rw [User.leave,if_neg hret]
    cases hfound : u.found with
    | none =>
      dsimp only
      split_ifs
      · exact hnone hfound (hs.mapObj _ _)
      · exact hnone hfound hs
    | some timed =>
      have hpos := hs.refs_pos hu hfound
      refine hs.update rfl rfl (fun _ hid => by cases hid) fun id => ?_
      rw [free_refs,hu]
      by_cases hid : id = timed
      · rw [hid]
        simp [hfound]
        omega
      · simp [hfound,hid,Ne.symm hid]

/-- The allowed steps keep the counts right. -/
theorem Sound.step {ev : CacheEvent ι} {t : CacheState ι} (hs : s.Sound) (h : s.GivesBack ev)
    (hstep : s.step ev = some t) : t.Sound := by
  cases ev with
  | enter i F caller p =>
    rw [CacheState.step] at hstep
    split_ifs at hstep with hi
    obtain rfl := Option.some.inj hstep
    have hi' : s.inside i = none := by simpa using hi
    exact hs.enter hi' (h hi')
  | leave i loaded now =>
    obtain ⟨u,hu,rfl⟩ := Option.map_eq_some_iff.mp hstep
    exact hs.leave hu (h u hu) loaded now
  | drop name =>
    obtain rfl := Option.some.inj hstep
    exact hs.drop name

/-- Every other step leaves a reference behind. -/
theorem Sound.leaks {ev : CacheEvent ι} (hs : s.Sound) (h : ¬s.GivesBack ev) :
    ∃ t, s.step ev = some t ∧ ¬t.Balanced := by
  cases ev with
  | enter i F caller p =>
    obtain ⟨hi,hurl,hfind⟩ : s.inside i = none ∧ isUrl (named (caller.path F p)) = true ∧
        s.cache.find (named (caller.path F p)) ≠ none := by
      simpa only [GivesBack,Classical.not_imp] using h
    obtain ⟨id,hid⟩ := Option.ne_none_iff_exists'.mp hfind
    obtain ⟨key,hkey⟩ := ObjCache.exists_entry_of_find hid
    obtain ⟨hcache,hfound⟩ := caller.enter_eq F s.cache p
    obtain ⟨hadd,hnone⟩ := ObjCache.openFileFQ_url hurl hid
    refine ⟨_,if_neg (by simp [hi]),fun hbal => ?_⟩
    rw [hcache.trans hadd] at hbal
    have hafter := hbal.1 key id hkey
    have hbefore := hs.balanced.1 key id hkey
    have hu := users_update s.inside i (caller.enter F s.cache p).1 id
    rw [hfound,hnone,hi] at hu
    simp only [ObjCache.addRef,Function.update_self] at hafter
    simp at hu
    omega
  | leave i loaded now =>
    obtain ⟨u,hu,hfin,hnot⟩ : ∃ u, s.inside i = some u ∧ u.fin = none ∧ ¬(u.isExt = true ∨ u.found = none) := by
      simpa only [GivesBack,Classical.not_forall,Classical.not_imp,exists_prop] using h
    rw [not_or] at hnot
    obtain ⟨id,hid⟩ := Option.ne_none_iff_exists'.mp hnot.2
    have hleave : u.leave s.cache loaded now = s.cache := by
      rw [User.leave,if_pos (by simp [hfin,hnot.1])]
    refine ⟨⟨s.cache,Function.update s.inside i none⟩,?_,fun hbal => ?_⟩
    · rw [CacheState.step,hu,Option.map_some,hleave]
    · have hupdate := users_update s.inside i none id
      rw [if_pos (by rw [hu]; exact hid)] at hupdate
      simp at hupdate
      by_cases hmapped : ∃ key, s.cache.entry key = some id
      · obtain ⟨key,hkey⟩ := hmapped
        have hafter := hbal.1 key id hkey
        have hbefore := hs.balanced.1 key id hkey
        simp only at hafter
        omega
      · have hnone : ∀ key, s.cache.entry key ≠ some id := fun key hkey => hmapped ⟨key,hkey⟩
        have hlt : id < s.cache.next := hs.held i id (by rw [hu]; exact hid)
        have hafter := hbal.2 id hlt hnone
        have hbefore := hs.balanced.2 id hlt hnone
        simp only at hafter
        omega
  | drop name => exact absurd trivial h

/-- Whatever calls go on at once, the counts are right all along exactly when no page of a server that has an entry is
opened, and no call returns for want of a file when it has found an entry. -/
theorem balanced_iff (evs : List (CacheEvent ι)) :
    (∀ pre t, pre <+: evs → runFrom CacheState.step new pre = some t → t.Balanced) ↔
      MeetsOnly CacheState.step GivesBack new evs :=
  reached_iff_of_invariant new_sound (fun _ hs => hs.balanced) (fun _ _ _ hs hok hstep => hs.step hok hstep)
    fun _ _ hs hnot => hs.leaks hnot

/-- A text is read into the cache, its file is removed, and it is asked for again: the entry has two references. -/
theorem reference_kept : ¬∀ evs : List (CacheEvent Unit), ∀ pre t, pre <+: evs →
    runFrom CacheState.step new pre = some t → t.Balanced := by
  intro hall
  let F : Files := ⟨fun p => if p = str "a" then some ⟨[],1⟩ else none,fun _ => none,id,by decide⟩
  let gone : Files := ⟨fun _ => none,fun _ => none,id,rfl⟩
  have hbal := hall [.enter () F .openFileFQ (str "a"),.leave () true 0,.enter () gone .openFileFQ (str "a"),
    .leave () true 0] _ _ (List.prefix_refl _) rfl
  have hcount := hbal.1 (str "a") 0 (by decide)
  exact absurd hcount (by decide)

end CacheState

end Smx
