import Smx.Base.Bytes
import Smx.Lib.KeyMap

/-! `%hset`, `%hget`, `%hdel` and `%hexists` on a store whose path is set. The library under the
drivers is taken to store byte strings as they are and to report no errors. -/
namespace Smx

/-- The two drivers. -/
inductive Driver
  | sqlite
  | tdb
  deriving DecidableEq, Repr

/-- `CDBHash`, with what is in its file. -/
structure CDBHash where
  isOpen : Bool := false
  tried : ℕ := 0
  db : Bytes → Option Bytes := fun _ => none

/-- A key without what `KEY_CLEAN` drops. -/
def cleaned (key : Bytes) : Bytes := key.dropWhile fun c => c == ch '/' || isspace c

/-- `KEY_CLEAN`, on the C string that the store is given. -/
def keyClean (key : Bytes) : Bytes := (cstr key).dropWhile fun c => c == ch '/' || isspace c

namespace CDBHash

/-- `CDBHash::Open`. -/
def open_ (s : CDBHash) : Bool × CDBHash :=
  if s.isOpen then (true,s)
  else if 5 < s.tried+1 then (false,{ s with tried := s.tried+1 })
  else (true,{ s with isOpen := true, tried := 0 })

/-- `CDBHash::Close`. -/
def close (s : CDBHash) : CDBHash := { s with isOpen := false }

/-- `Get` of the drivers; none where it ends without a result. -/
def driverGet (d : Driver) (db : Bytes → Option Bytes) (name : Bytes) : Option Bytes :=
  match db name,d with
  | some data,_ => some data
  | none,.sqlite => some []
  | none,.tdb => none

/-- `CDBHash::Get`. -/
def get (d : Driver) (s : CDBHash) (key : Bytes) : Option Bytes × CDBHash :=
  let (ok,s) := s.open_
  (if ok then driverGet d s.db (keyClean key) else some [],s)

def exists_ (s : CDBHash) (key : Bytes) : Bool × CDBHash :=
  let (ok,s) := s.open_
  (ok && (s.db (keyClean key)).isSome,s)

/-- `CDBHash::Set` with the length of the C string. -/
def set (s : CDBHash) (key val : Bytes) : CDBHash :=
  let (ok,s) := s.open_
  if ok then { s with db := Function.update s.db (keyClean key) (some (cstr val)) } else s

def del (s : CDBHash) (key : Bytes) : CDBHash :=
  let (ok,s) := s.open_
  if ok then { s with db := Function.update s.db (keyClean key) none } else s

end CDBHash

/-- `qObjHCtx::HGet`: what is put out, where that is defined. -/
def hGet (d : Driver) (s : CDBHash) (args : List Bytes) : Option Bytes × CDBHash :=
  match args with
  | [] => (some [],s)
  | key::_ => if key = [] then (some [],s) else s.get d key

/-- `qObjHCtx::HExists`. -/
def hExists (s : CDBHash) (args : List Bytes) : Bytes × CDBHash :=
  match args with
  | [] => ([],s)
  | key::_ =>
    if key = [] then ([],s)
    else
      let (found,s) := s.exists_ key
      (if found then str "T" else [],s)

/-- `qObjHCtx::HSet`. -/
def hSet (s : CDBHash) (args : List Bytes) : CDBHash :=
  match args with
  | [] => s
  | key::rest =>
    if key = [] then s
    else
      match rest with
      | [] => s.del key
      | val::_ => if val = [] then s.del key else s.set key val

/-- `qObjHCtx::HDel`. -/
def hDel (s : CDBHash) (args : List Bytes) : CDBHash :=
  match args with
  | [] => s
  | key::_ => if key = [] then s else s.del key

/-- A call, or the store is closed and opened again by the next one. -/
inductive HashOp
  | hset (key val : Bytes)
  | hdel (key : Bytes)
  | hget (key : Bytes)
  | hexists (key : Bytes)
  | close

/-- What an operation puts out, and the store after it. -/
def HashOp.eval (d : Driver) (s : CDBHash) : HashOp → Option Bytes × CDBHash
  | .hset key val => (some [],hSet s [key,val])
  | .hdel key => (some [],hDel s [key])
  | .hget key => hGet d s [key]
  | .hexists key =>
    let (out,s) := hExists s [key]
    (some out,s)
  | .close => (some [],s.close)

/-- What an operation is meant to put out, and the map after it. The keys are cleaned. -/
def HashOp.meant (m : Bytes → Option Bytes) : HashOp → Bytes × (Bytes → Option Bytes)
  | .hset key val => ([],Function.update m (cleaned key) (if val = [] then none else some val))
  | .hdel key => ([],Function.update m (cleaned key) none)
  | .hget key => ((m (cleaned key)).getD [],m)
  | .hexists key => (if (m (cleaned key)).isSome then str "T" else [],m)
  | .close => ([],m)

/-- All that is put out is defined, and is what it is meant to be. -/
def IsMap (d : Driver) : CDBHash → (Bytes → Option Bytes) → List HashOp → Prop
  | _,_,[] => True
  | s,m,op::ops => (op.eval d s).1 = some (op.meant m).1 ∧ IsMap d (op.eval d s).2 (op.meant m).2 ops

/-- `%hget` asks for nothing but keys that are there. -/
def AsksPresent : (Bytes → Option Bytes) → List HashOp → Prop
  | _,[] => True
  | m,op::ops =>
    (∀ key, op = .hget key → key ≠ [] → (m (cleaned key)).isSome) ∧ AsksPresent (op.meant m).2 ops

/-- The keys and values of the calls. -/
def HashOp.Over (K V : Set Bytes) : HashOp → Prop
  | .hset key val => key ∈ K ∧ val ∈ V
  | .hdel key | .hget key | .hexists key => key ∈ K
  | .close => True

/-- Where something can be stored at all, no key is empty and no two keys are one C string when they
are cleaned, and the values are C strings. -/
def Kept (K V : Set Bytes) : Prop :=
  ∀ val ∈ V, val ≠ [] → ∀ key ∈ K, key ≠ [] ∧ 0 ∉ val ∧
    ∀ key' ∈ K, cstr (cleaned key') = cstr (cleaned key) → cleaned key' = cleaned key

/-- Cleaning does not look behind a NUL. -/
theorem keyClean_eq (key : Bytes) : keyClean key = cstr (cleaned key) := by
  change cleaned (cstr key) = _
  induction key with
  | nil => rfl
  | cons c key ih =>
    by_cases hc : c = 0
    · have hclean : cleaned (c::key) = c::key := List.dropWhile_cons_of_neg (by rw [hc]; decide)
      have hcstr : cstr (c::key) = [] := List.takeWhile_cons_of_neg (by simp [hc])
      rw [hclean,hcstr]
      rfl
    · have hcstr : cstr (c::key) = c::cstr key := List.takeWhile_cons_of_pos (by simpa using hc)
      rw [hcstr]
      cases hblank : (c == ch '/' || isspace c) with
      | true =>
        have hdrop (s : Bytes) : cleaned (c::s) = cleaned s := List.dropWhile_cons_of_pos hblank
        rw [hdrop,hdrop,ih]
      | false =>
        have hkeep (s : Bytes) : cleaned (c::s) = c::s :=
          List.dropWhile_cons_of_neg (ne_true_of_eq_false hblank)
        rw [hkeep,hkeep,hcstr]

namespace CDBHash
variable {s : CDBHash}

theorem open_spec (h : s.tried = 0) : s.open_.1 = true ∧ s.open_.2.db = s.db ∧ s.open_.2.tried = 0 := by
  unfold open_
  rw [h]
  split_ifs with hopen hfive
  · exact ⟨rfl,rfl,h⟩
  · exact absurd hfive (by decide)
  · exact ⟨rfl,rfl,rfl⟩

theorem set_spec (h : s.tried = 0) (key val : Bytes) : (s.set key val).tried = 0 ∧
    (s.set key val).db = Function.update s.db (cstr (cleaned key)) (some (cstr val)) := by
  obtain ⟨hok,hdb,htried⟩ := open_spec h
  simp only [set,hok,if_true,hdb,keyClean_eq]
  exact ⟨htried,trivial⟩

theorem del_spec (h : s.tried = 0) (key : Bytes) : (s.del key).tried = 0 ∧
    (s.del key).db = Function.update s.db (cstr (cleaned key)) none := by
  obtain ⟨hok,hdb,htried⟩ := open_spec h
  simp only [del,hok,if_true,hdb,keyClean_eq]
  exact ⟨htried,trivial⟩

theorem get_spec (d : Driver) (h : s.tried = 0) (key : Bytes) :
    (s.get d key).1 = driverGet d s.db (cstr (cleaned key)) ∧ (s.get d key).2.tried = 0 ∧
      (s.get d key).2.db = s.db := by
  obtain ⟨hok,hdb,htried⟩ := open_spec h
  simp only [get,hok,if_true,hdb,keyClean_eq]
  exact ⟨trivial,htried,trivial⟩

theorem exists_spec (h : s.tried = 0) (key : Bytes) :
    (s.exists_ key).1 = (s.db (cstr (cleaned key))).isSome ∧ (s.exists_ key).2.tried = 0 ∧
      (s.exists_ key).2.db = s.db := by
  obtain ⟨hok,hdb,htried⟩ := open_spec h
  simp only [exists_,hok,Bool.true_and,hdb,keyClean_eq]
  exact ⟨trivial,htried,trivial⟩

end CDBHash

/-- The store serves the map for the keys of `K`, with values of `V`. -/
structure Serves (K V : Set Bytes) (s : CDBHash) (m : Bytes → Option Bytes) : Prop where
  tried : s.tried = 0
  tells : KeyMap.Tells (cleaned '' K) cstr s.db m
  value : ∀ key val, m key = some val → val ∈ V ∧ val ≠ []
  empty : [] ∈ K → m [] = none

section
variable {K V : Set Bytes} {s s' : CDBHash} {m : Bytes → Option Bytes} {key val : Bytes}

/-- A store with the same contents. -/
theorem Serves.congr (h : Serves K V s m) (htried : s'.tried = 0) (hdb : s'.db = s.db) : Serves K V s' m :=
  ⟨htried,hdb ▸ h.tells,h.value,h.empty⟩

theorem Serves.set (hkept : Kept K V) (h : Serves K V s m) (hkey : key ∈ K) (hval : val ∈ V)
    (hne : val ≠ []) : Serves K V (s.set key val) (Function.update m (cleaned key) (some val)) := by
  obtain ⟨hkeyne,hnul,hinj⟩ := hkept val hval hne key hkey
  obtain ⟨htried,hdb⟩ := s.set_spec h.tried key val
  rw [cstr_of_nul_free hnul] at hdb
  refine ⟨htried,?_,?_,?_⟩
  · rw [hdb]
    apply h.tells.update
    intro k' hk' heq
    obtain ⟨key',hkey',rfl⟩ := hk'
    exact hinj key' hkey' heq
  · intro k v hv
    rw [Function.update_apply] at hv
    split_ifs at hv
    · cases hv
      exact ⟨hval,hne⟩
    · exact h.value k v hv
  · intro hnil
    exact absurd rfl (hkept val hval hne [] hnil).1

theorem Serves.del (hkept : Kept K V) (h : Serves K V s m) (hkey : key ∈ K) :
    Serves K V (s.del key) (Function.update m (cleaned key) none) := by
  obtain ⟨htried,hdb⟩ := s.del_spec h.tried key
  refine ⟨htried,?_,?_,?_⟩
  · rw [hdb]
    by_cases hm : ∀ k, m k = none
    · exact h.tells.erase_of_none hm
    · obtain ⟨k,hk⟩ := not_forall.mp hm
      obtain ⟨v,hv⟩ := Option.ne_none_iff_exists'.mp hk
      obtain ⟨hvV,hvne⟩ := h.value k v hv
      apply h.tells.update
      intro k' hk' heq
      obtain ⟨key',hkey',rfl⟩ := hk'
      exact (hkept v hvV hvne key hkey).2.2 key' hkey' heq
  · intro k v hv
    rw [Function.update_apply] at hv
    split_ifs at hv
    exact h.value k v hv
  · intro hnil
    rw [Function.update_apply]
    split_ifs
    · rfl
    · exact h.empty hnil

/-- An empty key removes nothing. -/
theorem Serves.del_nil (h : Serves K V s m) (hnil : [] ∈ K) :
    Serves K V s (Function.update m (cleaned []) none) := by
  have hm : Function.update m (cleaned []) none = m := Function.update_eq_self_iff.mpr (h.empty hnil).symm
  rwa [hm]

/-- What is found for a key is what the map has for it, but where the driver gives no result. -/
theorem Serves.driverGet (d : Driver) (h : Serves K V s m) (hkey : key ∈ K) :
    CDBHash.driverGet d s.db (cstr (cleaned key)) = some ((m (cleaned key)).getD []) ↔
      (d = .tdb → (m (cleaned key)).isSome) := by
  have htells := h.tells (cleaned key) (Set.mem_image_of_mem _ hkey)
  simp only [CDBHash.driverGet,htells]
  cases hm : m (cleaned key) with
  | some v => exact iff_of_true rfl fun _ => rfl
  | none =>
    cases d with
    | sqlite => exact iff_of_true rfl nofun
    | tdb =>
      apply iff_of_false nofun
      intro hsome
      cases hsome rfl

/-- One operation puts out what is meant, but where a driver gives no result, and the store goes on to
serve the map. -/
theorem Serves.step (hkept : Kept K V) (d : Driver) (h : Serves K V s m) {op : HashOp}
    (hop : op.Over K V) : ((op.eval d s).1 = some (op.meant m).1 ↔
      (d = .tdb → ∀ key, op = .hget key → key ≠ [] → (m (cleaned key)).isSome)) ∧
        Serves K V (op.eval d s).2 (op.meant m).2 := by
  cases op with
  | hset key val =>
    refine ⟨iff_of_true rfl nofun,?_⟩
    simp only [HashOp.eval,HashOp.meant,hSet]
    by_cases hkey : key = []
    · rw [if_pos hkey]
      by_cases hval : val = []
      · rw [if_pos hval,hkey]
        exact h.del_nil (hkey ▸ hop.1)
      · exact absurd hkey (hkept val hop.2 hval key hop.1).1
    · rw [if_neg hkey]
      by_cases hval : val = []
      · rw [if_pos hval,if_pos hval]
        exact h.del hkept hop.1
      · rw [if_neg hval,if_neg hval]
        exact h.set hkept hop.1 hop.2 hval
  | hdel key =>
    refine ⟨iff_of_true rfl nofun,?_⟩
    simp only [HashOp.eval,HashOp.meant,hDel]
    split_ifs with hkey
    · rw [hkey]
      exact h.del_nil (hkey ▸ hop)
    · exact h.del hkept hop
  | hget key =>
    simp only [HashOp.eval,HashOp.meant,hGet]
    split_ifs with hkey
    · refine ⟨iff_of_true ?_ ?_,h⟩
      · have hnone : m (cleaned key) = none := by
          rw [hkey]
          exact h.empty (hkey ▸ hop)
        rw [hnone]
        rfl
      · intro _ key' heq hne
        cases heq
        exact absurd hkey hne
    · obtain ⟨hout,htried,hdb⟩ := s.get_spec d h.tried key
      refine ⟨?_,h.congr htried hdb⟩
      rw [hout,h.driverGet d hop]
      apply imp_congr_right
      intro _
      constructor
      · intro hsome key' heq _
        cases heq
        exact hsome
      · intro hall
        exact hall key rfl hkey
  | hexists key =>
    simp only [HashOp.eval,HashOp.meant,hExists]
    by_cases hkey : key = []
    · rw [if_pos hkey]
      refine ⟨iff_of_true ?_ nofun,h⟩
      have hnone : m (cleaned key) = none := by
        rw [hkey]
        exact h.empty (hkey ▸ hop)
      rw [hnone]
      rfl
    · rw [if_neg hkey]
      obtain ⟨hfound,htried,hdb⟩ := s.exists_spec h.tried key
      refine ⟨iff_of_true ?_ nofun,h.congr htried hdb⟩
      rw [hfound,h.tells (cleaned key) (Set.mem_image_of_mem _ hop)]
  | close => exact ⟨iff_of_true rfl nofun,h.congr h.tried rfl⟩

theorem Serves.isMap_iff (hkept : Kept K V) (d : Driver) {ops : List HashOp} (h : Serves K V s m)
    (hops : ∀ op ∈ ops, op.Over K V) : IsMap d s m ops ↔ (d = .tdb → AsksPresent m ops) := by
  induction ops generalizing s m with
  | nil => exact iff_of_true trivial fun _ => trivial
  | cons op ops ih =>
    obtain ⟨hop,hrest⟩ := List.forall_mem_cons.mp hops
    obtain ⟨hout,hnext⟩ := h.step hkept d hop
    rw [IsMap,hout,ih hnext hrest]
    exact forall_and.symm

theorem serves_empty (K V : Set Bytes) : Serves K V {} fun _ => none :=
  ⟨rfl,fun _ _ => rfl,nofun,fun _ => rfl⟩

end

/-- The runs over these keys and values are right, for one of the drivers as far as it is asked for keys
that are there. -/
def MapLaw (d : Driver) (K V : Set Bytes) : Prop :=
  ∀ ops : List HashOp, (∀ op ∈ ops, op.Over K V) →
    (IsMap d {} (fun _ => none) ops ↔ (d = .tdb → AsksPresent (fun _ => none) ops))

section
variable {d : Driver} {K V : Set Bytes}

/-- What is kept after one value has been set. -/
theorem hSet_empty {key val : Bytes} (hkey : key ≠ []) (hval : val ≠ []) : (hSet {} [key,val]).tried = 0 ∧
    (hSet {} [key,val]).db (cstr (cleaned key)) = some (cstr val) := by
  obtain ⟨htried,hdb⟩ := CDBHash.set_spec (s := {}) rfl key val
  simp only [hSet,if_neg hkey,if_neg hval]
  exact ⟨htried,by rw [hdb,Function.update_self]⟩

/-- A value that is set has to be given back. -/
theorem MapLaw.given_back (h : MapLaw d K V) {key val : Bytes} (hkey : key ∈ K) (hval : val ∈ V)
    (hne : val ≠ []) : key ≠ [] ∧ 0 ∉ val := by
  have hops : ∀ op ∈ [HashOp.hset key val,.hget key], op.Over K V := by
    intro op hop
    obtain rfl | hop := List.mem_cons.mp hop
    · exact ⟨hkey,hval⟩
    · rw [List.mem_singleton.mp hop]
      exact hkey
  have hmeant : (HashOp.meant (fun _ => none) (.hset key val)).2 (cleaned key) = some val := by
    simp only [HashOp.meant,if_neg hne,Function.update_self]
  have hasks : AsksPresent (fun _ => none) [HashOp.hset key val,.hget key] := by
    refine ⟨nofun,fun key' heq _ => ?_,trivial⟩
    cases heq
    rw [hmeant]
    rfl
  have hout : (HashOp.eval d (hSet {} [key,val]) (.hget key)).1 =
      some (((HashOp.meant (fun _ => none) (.hset key val)).2 (cleaned key)).getD []) :=
    ((h _ hops).mpr fun _ => hasks).2.1
  rw [hmeant,Option.getD_some] at hout
  have hkeyne : key ≠ [] := by
    intro hnil
    simp only [HashOp.eval,hGet,if_pos hnil] at hout
    exact hne (Option.some.inj hout).symm
  refine ⟨hkeyne,?_⟩
  obtain ⟨htried,hdb⟩ := hSet_empty hkeyne hne
  simp only [HashOp.eval,hGet,if_neg hkeyne] at hout
  rw [(CDBHash.get_spec d htried key).1] at hout
  simp only [CDBHash.driverGet,hdb] at hout
  rw [← Option.some.inj hout]
  exact nul_not_mem_cstr val

/-- A key for which nothing was set must not be found. -/
theorem MapLaw.kept (h : MapLaw d K V) : Kept K V := by
  intro val hval hne key hkey
  obtain ⟨hkeyne,hnul⟩ := h.given_back hkey hval hne
  refine ⟨hkeyne,hnul,fun key' hkey' heq => ?_⟩
  have hkeyne' : key' ≠ [] := (h.given_back hkey' hval hne).1
  have hops : ∀ op ∈ [HashOp.hset key val,.hexists key'], op.Over K V := by
    intro op hop
    obtain rfl | hop := List.mem_cons.mp hop
    · exact ⟨hkey,hval⟩
    · rw [List.mem_singleton.mp hop]
      exact hkey'
  have hout : (HashOp.eval d (hSet {} [key,val]) (.hexists key')).1 =
      some (HashOp.meant (HashOp.meant (fun _ => none) (.hset key val)).2 (.hexists key')).1 :=
    ((h _ hops).mpr fun _ => ⟨nofun,nofun,trivial⟩).2.1
  obtain ⟨htried,hdb⟩ := hSet_empty hkeyne hne
  simp only [HashOp.eval,hExists,if_neg hkeyne'] at hout
  rw [(CDBHash.exists_spec htried key').1,heq,hdb] at hout
  simp only [HashOp.meant,if_neg hne] at hout
  by_contra hother
  rw [Function.update_of_ne hother] at hout
  cases hout

end

/-- The store is a map over some keys and values just if these are kept apart and whole; one driver has
to be asked for keys that are there only. -/
theorem mapLaw_iff (d : Driver) (K V : Set Bytes) : MapLaw d K V ↔ Kept K V := by
  constructor
  · intro h
    exact h.kept
  · intro hkept ops hops
    exact (serves_empty K V).isMap_iff hkept d hops

/-- A value comes back up to its NUL. -/
theorem value_cut : ¬∀ d ops, IsMap d {} (fun _ => none) ops := by
  intro h
  have hout := (h .sqlite [.hset (str "k") [97,0,98],.hget (str "k")]).2.1
  revert hout
  decide

end Smx
