import Smx.Context.Lookup
import Mathlib.Data.List.Nodup

/-! The maps of plain contexts and the operations that write them: `MapObj`, `DelObj` and
their walks along the parent chain. A map compares its keys with `stricmp`, as C strings. -/
namespace Smx

/-- The key a `CMapStr` files a name under: the C string, without regard to case. -/
def mapKey (name : Bytes) : Bytes := (name.takeWhile (· != 0)).map tolower

/-- The bindings of all contexts of a process. -/
abbrev Bindings (κ ο : Type) := κ → Bytes → Option ο

variable {κ ο : Type}

/-- Contexts whose `FindL` is that of `qCtx`: the own map and nothing else. -/
def plain (m : Bindings κ ο) (safeMode : κ → Bool) : Scopes κ ο :=
  ⟨fun c name => m c (mapKey name),safeMode⟩

@[simp] theorem plain_findL (m : Bindings κ ο) (safeMode : κ → Bool) (c : κ) (name : Bytes) :
    (plain m safeMode).findL c name = m c (mapKey name) := rfl

variable [DecidableEq κ]

/-- Put or remove the entry of one key in one context. -/
def setKey (m : Bindings κ ο) (c : κ) (key : Bytes) (v : Option ο) : Bindings κ ο :=
  Function.update m c (Function.update (m c) key v)

theorem setKey_apply (m : Bindings κ ο) (c : κ) (key : Bytes) (v : Option ο) (d : κ) (k : Bytes) :
    setKey m c key v d k = if d = c ∧ k = key then v else m d k := by
  by_cases hd : d = c
  · subst hd
    by_cases hk : k = key <;> simp [setKey,hk]
  · simp [setKey,hd]

@[simp] theorem setKey_self (m : Bindings κ ο) (c : κ) (key : Bytes) (v : Option ο) :
    setKey m c key v c key = v := by simp [setKey]

def mapObj (m : Bindings κ ο) (c : κ) (obj : ο) (name : Bytes) : Bindings κ ο :=
  setKey m c (mapKey name) (some obj)

/-- `DelObj`: whether the name was there, and the map without it. -/
def delObj (m : Bindings κ ο) (c : κ) (name : Bytes) : Bool × Bindings κ ο :=
  ((m c (mapKey name)).isSome,setKey m c (mapKey name) none)

/-- `DelObjLet`: delete in the nearest context that has the name, not above `top`. -/
def delObjLet (m : Bindings κ ο) (name : Bytes) (top : Option κ) :
    List κ → Option κ × Bindings κ ο
  | [] => (none,m)
  | w::up =>
    let r := delObj m w name
    if r.1 then (some w,r.2)
    else if top = some w then (none,r.2)
    else delObjLet r.2 name top up

/-- `MapObjLet`: rebind where the name was deleted, in the current context if nowhere. -/
def mapObjLet (m : Bindings κ ο) (this : κ) (up : List κ) (obj : ο) (name : Bytes)
    (top : Option κ) : Bindings κ ο :=
  let r := delObjLet m name top (this::up)
  match r.1 with
  | some w => mapObj r.2 w obj name
  | none => mapObj r.2 this obj name

/-- `DelObjTop`: delete on the way up, stopping at `top` or at the root. -/
def delObjTop (m : Bindings κ ο) (name : Bytes) (top : Option κ) (this : κ) :
    List κ → κ × Bindings κ ο
  | [] => (this,m)
  | parent::up =>
    if top = some this then (this,m)
    else delObjTop (delObj m this name).2 name top parent up

def mapObjTop (m : Bindings κ ο) (this : κ) (up : List κ) (obj : ο) (name : Bytes)
    (top : Option κ) : Bindings κ ο :=
  let r := delObjTop m name top this up
  mapObj r.2 r.1 obj name

/-- The nearest context that has the name, looking no further than `top`. -/
def nearest (m : Bindings κ ο) (key : Bytes) (top : Option κ) (cs : List κ) : Option κ :=
  (searched top cs).find? fun c => (m c key).isSome

theorem setKey_none_of_unbound {m : Bindings κ ο} {c : κ} {key : Bytes} (h : m c key = none) :
    setKey m c key none = m := by
  funext d k
  rw [setKey_apply]
  split_ifs with hk
  · rw [hk.1,hk.2,h]
  · rfl

theorem delObjLet_eq (m : Bindings κ ο) (name : Bytes) (top : Option κ) (cs : List κ) :
    delObjLet m name top cs = (nearest m (mapKey name) top cs,
      match nearest m (mapKey name) top cs with
      | some w => setKey m w (mapKey name) none
      | none => m) := by
  induction cs with
  | nil => rfl
  | cons w up ih =>
    by_cases hw : (m w (mapKey name)).isSome
    · have hn : nearest m (mapKey name) top (w::up) = some w := by
        simp only [nearest,searched]
        split_ifs <;> simp [hw]
      rw [hn,delObjLet,delObj,if_pos hw]
    · have hm : setKey m w (mapKey name) none = m :=
        setKey_none_of_unbound (Option.not_isSome_iff_eq_none.mp hw)
      simp only [delObjLet,delObj,if_neg hw,hm]
      split_ifs with ht
      · simp [nearest,searched,ht,hw]
      · rw [ih]
        simp [nearest,searched,ht,hw]

theorem mapObjLet_apply (m : Bindings κ ο) (this : κ) (up : List κ) (obj : ο) (name : Bytes)
    (top : Option κ) (c : κ) (k : Bytes) :
    mapObjLet m this up obj name top c k =
      if c = (nearest m (mapKey name) top (this::up)).getD this ∧ k = mapKey name then some obj
      else m c k := by
  simp only [mapObjLet,delObjLet_eq]
  cases nearest m (mapKey name) top (this::up) with
  | none => simp only [mapObj,setKey_apply,Option.getD_none]
  | some w =>
    simp only [mapObj,setKey_apply,Option.getD_some]
    split_ifs <;> rfl

/-- Where `DelObjTop` stops: at `top` when the chain meets it, else at the root. -/
def topOf (top : Option κ) (this : κ) (up : List κ) : κ :=
  match top with
  | some t => if t ∈ this::up then t else (this::up).getLast (List.cons_ne_nil _ _)
  | none => (this::up).getLast (List.cons_ne_nil _ _)

theorem topOf_self (this : κ) (up : List κ) : topOf (some this) this up = this := by
  simp [topOf]

theorem topOf_cons {top : Option κ} {this : κ} (h : top ≠ some this) (parent : κ) (up : List κ) :
    topOf top this (parent::up) = topOf top parent up := by
  cases top with
  | none => simp [topOf]
  | some t =>
    have ht : t ≠ this := fun he => h (by rw [he])
    simp [topOf,ht]

theorem topOf_mem (top : Option κ) (this : κ) (up : List κ) : topOf top this up ∈ this::up := by
  unfold topOf
  split
  · split_ifs with h
    · exact h
    · exact List.getLast_mem _
  · exact List.getLast_mem _

/-- The contexts strictly below a given one. -/
def below (t : κ) (cs : List κ) : List κ := cs.takeWhile (· ≠ t)

theorem below_cons {t c : κ} (h : c ≠ t) (cs : List κ) : below t (c::cs) = c::below t cs :=
  List.takeWhile_cons_of_pos (by simpa using h)

theorem below_self (t : κ) (cs : List κ) : below t (t::cs) = [] := by simp [below]

/-- Deletion up to `top` clears the key in exactly the contexts below it. -/
theorem delObjTop_spec (m : Bindings κ ο) (name : Bytes) (top : Option κ) (this : κ) (up : List κ)
    (hcs : (this::up).Nodup) :
    (delObjTop m name top this up).1 = topOf top this up ∧
      ∀ c k, (delObjTop m name top this up).2 c k =
        if c ∈ below (topOf top this up) (this::up) ∧ k = mapKey name then none else m c k := by
  induction up generalizing m this with
  | nil =>
    have htop : topOf top this [] = this := by simpa using topOf_mem top this []
    exact ⟨htop.symm,fun c k => by simp [delObjTop,htop,below_self]⟩
  | cons parent up ih =>
    by_cases ht : top = some this
    · subst ht
      simp [delObjTop,topOf_self,below_self]
    · obtain ⟨hw,hm⟩ := ih (delObj m this name).2 parent (List.nodup_cons.mp hcs).2
      have hne : this ≠ topOf top parent up := fun he =>
        (List.nodup_cons.mp hcs).1 (he ▸ topOf_mem top parent up)
      simp only [delObjTop,if_neg ht,topOf_cons ht,below_cons hne]
      refine ⟨hw,fun c k => ?_⟩
      rw [hm c k]
      simp only [delObj,setKey_apply,List.mem_cons]
      split_ifs <;> simp_all

theorem mapObjTop_apply (m : Bindings κ ο) (this : κ) (up : List κ) (obj : ο) (name : Bytes)
    (top : Option κ) (hcs : (this::up).Nodup) (c : κ) (k : Bytes) :
    mapObjTop m this up obj name top c k =
      if k = mapKey name then
        if c = topOf top this up then some obj
        else if c ∈ below (topOf top this up) (this::up) then none
        else m c k
      else m c k := by
  obtain ⟨hw,hm⟩ := delObjTop_spec m name top this up hcs
  simp only [mapObjTop,mapObj,setKey_apply,hw,hm]
  split_ifs <;> simp_all

end Smx
