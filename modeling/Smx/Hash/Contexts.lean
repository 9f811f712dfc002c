import Smx.Hash.Objects

/-! The maps of all contexts in their tables, and the operations of `qCtx` on them, with their walks along the
parents: together they are the bindings that lookups and assignments are told by. -/
namespace Smx
variable {κ ο : Type}

section
variable [DecidableEq κ]

namespace Tables

def MapObj (t : κ → Hash Bytes (Option ο)) (c : κ) (obj : ο) (name : Bytes) (new : ℕ) (newtable : Newtable) :
    Option (κ → Hash Bytes (Option ο)) :=
  (Qctx.MapObj (t c) (some obj) name new newtable).map fun q => Function.update t c q.1

/-- Whether the name was there. -/
def DelObj (t : κ → Hash Bytes (Option ο)) (c : κ) (name : Bytes) (newtable : Newtable) :
    Option (Bool × (κ → Hash Bytes (Option ο))) :=
  (CMap.Del cmapStrFns (t c) name newtable).map fun q => (q.2.isSome,Function.update t c q.1)

/-- The loop of `DelObjLet`; `newtable` is what `realloc` returns in each context. -/
def DelObjLet (t : κ → Hash Bytes (Option ο)) (name : Bytes) (top : Option κ) (newtable : κ → Newtable) :
    List κ → Option (Option κ × (κ → Hash Bytes (Option ο)))
  | [] => some (none,t)
  | w::up => (DelObj t w name (newtable w)).bind fun r =>
    if r.1 then some (some w,r.2)
    else if top = some w then some (none,r.2)
    else DelObjLet r.2 name top newtable up

def MapObjLet (t : κ → Hash Bytes (Option ο)) (this : κ) (up : List κ) (obj : ο) (name : Bytes) (top : Option κ) (new : ℕ)
    (newtable : κ → Newtable) (grown : Newtable) : Option (κ → Hash Bytes (Option ο)) :=
  (DelObjLet t name top newtable (this::up)).bind fun r => MapObj r.2 (r.1.getD this) obj name new grown

/-- The loop of `DelObjTop`. -/
def DelObjTop (t : κ → Hash Bytes (Option ο)) (name : Bytes) (top : Option κ) (newtable : κ → Newtable) (this : κ) :
    List κ → Option (κ × (κ → Hash Bytes (Option ο)))
  | [] => some (this,t)
  | parent::up =>
    if top = some this then some (this,t)
    else (DelObj t this name (newtable this)).bind fun r => DelObjTop r.2 name top newtable parent up

/-- With the context that gets the object. -/
def MapObjTop (t : κ → Hash Bytes (Option ο)) (this : κ) (up : List κ) (obj : ο) (name : Bytes) (top : Option κ) (new : ℕ)
    (newtable : κ → Newtable) (grown : Newtable) : Option (κ × (κ → Hash Bytes (Option ο))) :=
  (DelObjTop t name top newtable this up).bind fun r => (MapObj r.2 r.1 obj name new grown).map fun t => (r.1,t)

def Clear (t : κ → Hash Bytes (Option ο)) (c : κ) (junk junk' : ℕ) : Option (κ → Hash Bytes (Option ο)) :=
  (Qctx.Clear (t c) junk junk').map fun q => Function.update t c q.1

end Tables

end

/-- The contexts as a lookup sees them, where no assertion fails. -/
def tableScopes (t : κ → Hash Bytes (Option ο)) (safeMode : κ → Bool) : Scopes κ ο :=
  ⟨fun c name => (Qctx.FindL (t c) name).join,safeMode⟩

/-- The tables hold what the bindings say. -/
def TablesOk (t : κ → Hash Bytes (Option ο)) (m : Bindings κ ο) : Prop :=
  ∀ c, ∃ nodes lost, MapOk cmapStrFns (t c) nodes (fun key => (m c key).map some) lost

/-- The memory that is in use does not change. -/
def SameMemory (t t' : κ → Hash Bytes (Option ο)) : Prop := ∀ c, (t' c).live = (t c).live

/-- A node that `Del` takes out of a table is not freed. -/
theorem MapOk.live_of_del {γ ν σ : Type} {f : MapFns σ γ} {h h' : Hash σ ν} {nodes : Finset ℕ} {m : γ → Option ν}
    {lost : List ℕ} {k : σ} {newtable : Newtable} {q : Option (ℕ × ν)} (hm : MapOk f h nodes m lost)
    (hrun : CMap.Del f h k newtable = some (h',q)) : h'.live = h.live := by
  obtain ⟨bits,hok⟩ := hm.ok
  rcases hm.lookup k with ⟨n,hn,hlook,-,-⟩ | ⟨hlook,-,-⟩
  · obtain ⟨g,hdel,-,hframe,-,-⟩ := hok.hash_delete_spec hn newtable
    rw [CMap.Del,hlook,Option.bind_some,Option.elim_some,hm.getData hn,Option.bind_some,hdel] at hrun
    cases hrun
    exact hframe.live
  · rw [CMap.Del,hlook] at hrun
    cases hrun
    rfl

namespace TablesOk
variable {t : κ → Hash Bytes (Option ο)} {m : Bindings κ ο}

theorem findL (ht : TablesOk t m) (c : κ) (name : Bytes) : Qctx.FindL (t c) name = some (m c (mapKey name)) := by
  obtain ⟨nodes,lost,hm⟩ := ht c
  rw [Qctx.FindL,hm.find]
  change some ((m c (mapKey name)).map some).join = _
  cases m c (mapKey name) <;> rfl

theorem scopes_eq (ht : TablesOk t m) (safeMode : κ → Bool) : tableScopes t safeMode = plain m safeMode := by
  unfold tableScopes plain
  congr 1
  funext c name
  rw [ht.findL]
  rfl

variable [DecidableEq κ]

/-- One table changes, and in it one entry. -/
theorem update (ht : TablesOk t m) {c : κ} {h : Hash Bytes (Option ο)} {nodes : Finset ℕ} {lost : List ℕ}
    (key : Bytes) (v : Option ο)
    (hm : MapOk cmapStrFns h nodes (Function.update (fun k => (m c k).map some) key (v.map some)) lost) :
    TablesOk (Function.update t c h) (setKey m c key v) := by
  intro d
  by_cases hd : d = c
  · subst hd
    have hfun : Function.update (fun k => (m d k).map some) key (v.map some) =
        fun k => (setKey m d key v d k).map some := by
      funext k
      rw [setKey_apply,Function.update_apply]
      by_cases hk : k = key
      · rw [if_pos hk,if_pos ⟨rfl,hk⟩]
      · rw [if_neg hk,if_neg fun h => hk h.2]
    rw [Function.update_self]
    exact ⟨nodes,lost,hfun ▸ hm⟩
  · obtain ⟨nodes,lost,hm⟩ := ht d
    rw [Function.update_of_ne hd]
    refine ⟨nodes,lost,?_⟩
    rw [setKey,Function.update_of_ne hd]
    exact hm

theorem mapObj (ht : TablesOk t m) {c : κ} {new : ℕ} (hnew : new ∉ (t c).live) (haddr : new < 2^61) (obj : ο) (name : Bytes)
    (newtable : Newtable) :
    ∃ t', Tables.MapObj t c obj name new newtable = some t' ∧ TablesOk t' (mapObj m c obj name) := by
  obtain ⟨nodes,lost,hm⟩ := ht c
  obtain ⟨h',nodes',hrun,hm'⟩ := hm.set hnew haddr name (some obj) none newtable
  have hset : MapOk cmapStrFns h' nodes'
      (Function.update (fun key => (m c key).map some) (cmapStrFns.cls name) (some (some obj))) lost := by convert hm'
  refine ⟨Function.update t c h',?_,ht.update (cmapStrFns.cls name) (some obj) hset⟩
  rw [Tables.MapObj,Qctx.MapObj,hrun]
  rfl

theorem delObj (ht : TablesOk t m) (c : κ) (name : Bytes) (newtable : Newtable) :
    ∃ t', Tables.DelObj t c name newtable = some ((delObj m c name).1,t') ∧ TablesOk t' (delObj m c name).2 ∧
      SameMemory t t' := by
  obtain ⟨nodes,lost,hm⟩ := ht c
  obtain ⟨h',q,nodes',hrun,hq,hm'⟩ := hm.del name newtable
  have hwas : q.isSome = (m c (mapKey name)).isSome := by
    have hq : q.map Prod.snd = (m c (mapKey name)).map some := hq
    rw [← Option.isSome_map,hq,Option.isSome_map]
  have hset : MapOk cmapStrFns h' nodes' (Function.update (fun key => (m c key).map some) (cmapStrFns.cls name) none)
      ((q.map Prod.fst).toList ++ lost) := by convert hm'
  refine ⟨Function.update t c h',?_,ht.update (cmapStrFns.cls name) none hset,fun d => ?_⟩
  · rw [Tables.DelObj,hrun,Option.map_some,hwas]
    rfl
  · by_cases hd : d = c
    · rw [hd,Function.update_self]
      exact hm.live_of_del hrun
    · rw [Function.update_of_ne hd]

theorem delObjLet (ht : TablesOk t m) (name : Bytes) (top : Option κ) (newtable : κ → Newtable) (cs : List κ) :
    ∃ t', Tables.DelObjLet t name top newtable cs = some ((delObjLet m name top cs).1,t') ∧
      TablesOk t' (delObjLet m name top cs).2 ∧ SameMemory t t' := by
  induction cs generalizing t m with
  | nil => exact ⟨t,rfl,ht,fun _ => rfl⟩
  | cons w up ih =>
    obtain ⟨t',hrun,ht',hmem⟩ := ht.delObj w name (newtable w)
    rw [Tables.DelObjLet,hrun,Option.bind_some,Smx.delObjLet]
    split_ifs with hwas htop
    · exact ⟨t',rfl,ht',hmem⟩
    · exact ⟨t',rfl,ht',hmem⟩
    · obtain ⟨t'',hrun',ht'',hmem'⟩ := ih ht'
      exact ⟨t'',hrun',ht'',fun c => (hmem' c).trans (hmem c)⟩

theorem mapObjLet (ht : TablesOk t m) {new : ℕ} (hnew : ∀ c, new ∉ (t c).live) (haddr : new < 2^61) (this : κ) (up : List κ)
    (obj : ο) (name : Bytes) (top : Option κ) (newtable : κ → Newtable) (grown : Newtable) :
    ∃ t', Tables.MapObjLet t this up obj name top new newtable grown = some t' ∧
      TablesOk t' (mapObjLet m this up obj name top) := by
  obtain ⟨t₁,hrun,ht₁,hmem⟩ := ht.delObjLet name top newtable (this::up)
  rw [Tables.MapObjLet,hrun,Option.bind_some,Smx.mapObjLet]
  have hset (c : κ) := ht₁.mapObj (c := c) (hmem c ▸ hnew c) haddr obj name grown
  cases (Smx.delObjLet m name top (this::up)).1 with
  | none => exact hset this
  | some w => exact hset w

theorem delObjTop (ht : TablesOk t m) (name : Bytes) (top : Option κ) (newtable : κ → Newtable) (this : κ) (up : List κ) :
    ∃ t', Tables.DelObjTop t name top newtable this up = some ((delObjTop m name top this up).1,t') ∧
      TablesOk t' (delObjTop m name top this up).2 ∧ SameMemory t t' := by
  induction up generalizing t m this with
  | nil => exact ⟨t,rfl,ht,fun _ => rfl⟩
  | cons parent up ih =>
    rw [Tables.DelObjTop,Smx.delObjTop]
    split_ifs with htop
    · exact ⟨t,rfl,ht,fun _ => rfl⟩
    · obtain ⟨t',hrun,ht',hmem⟩ := ht.delObj this name (newtable this)
      obtain ⟨t'',hrun',ht'',hmem'⟩ := ih ht' parent
      rw [hrun,Option.bind_some]
      exact ⟨t'',hrun',ht'',fun c => (hmem' c).trans (hmem c)⟩

theorem mapObjTop (ht : TablesOk t m) {new : ℕ} (hnew : ∀ c, new ∉ (t c).live) (haddr : new < 2^61) (this : κ) (up : List κ)
    (obj : ο) (name : Bytes) (top : Option κ) (newtable : κ → Newtable) (grown : Newtable) :
    ∃ t', Tables.MapObjTop t this up obj name top new newtable grown =
        some ((Smx.delObjTop m name top this up).1,t') ∧
      TablesOk t' (mapObjTop m this up obj name top) := by
  obtain ⟨t₁,hrun,ht₁,hmem⟩ := ht.delObjTop name top newtable this up
  obtain ⟨t',hset,ht'⟩ := ht₁.mapObj (hmem _ ▸ hnew _) haddr obj name grown
  rw [Tables.MapObjTop,hrun,Option.bind_some,hset]
  exact ⟨t',rfl,ht'⟩

theorem clear (ht : TablesOk t m) (c : κ) (junk junk' : ℕ) :
    ∃ t', Tables.Clear t c junk junk' = some t' ∧ TablesOk t' (Function.update m c fun _ => none) := by
  obtain ⟨nodes,lost,hm⟩ := ht c
  obtain ⟨g,l,m',-,henum,-,hg⟩ := hm.enum (fun freed _ obj => (obj.toList ++ freed,none)) junk []
  obtain ⟨h',hclear,hm'⟩ := hg.clear junk'
  refine ⟨Function.update t c h',?_,fun d => ?_⟩
  · rw [Tables.Clear,Qctx.Clear,henum,Option.bind_some,hclear]
    rfl
  · by_cases hd : d = c
    · rw [hd,Function.update_self,Function.update_self]
      exact ⟨∅,lost,hm'⟩
    · rw [Function.update_of_ne hd,Function.update_of_ne hd]
      exact ht d

end TablesOk

/-- A call to a context, with its parents up to the root, and what the allocator returns in it. -/
inductive ContextEv (κ ο : Type)
  | mapObj (c : κ) (obj : ο) (name : Bytes) (new : ℕ) (newtable : Newtable)
  | delObj (c : κ) (name : Bytes) (newtable : Newtable)
  | delObjLet (this : κ) (up : List κ) (name : Bytes) (top : Option κ) (newtable : κ → Newtable)
  | mapObjLet (this : κ) (up : List κ) (obj : ο) (name : Bytes) (top : Option κ) (new : ℕ) (newtable : κ → Newtable)
      (grown : Newtable)
  | mapObjTop (this : κ) (up : List κ) (obj : ο) (name : Bytes) (top : Option κ) (new : ℕ) (newtable : κ → Newtable)
      (grown : Newtable)
  | find (this : κ) (up : List κ) (safeMode : κ → Bool) (name : Bytes) (top : Option κ)
  | clear (c : κ) (junk junk' : ℕ)

/-- What a call returns: an object with its context, a context alone, or nothing. -/
inductive ContextAnswer (κ ο : Type)
  | found (r : Option (ο × κ))
  | ctx (c : Option κ)
  | void

/-- The tables of the contexts, and the answers that they have given, the last one first. -/
structure ContextRun (κ ο : Type) where
  tables : κ → Hash Bytes (Option ο)
  answers : List (ContextAnswer κ ο)

/-- The bindings that the contexts are for, with the answers. -/
structure ContextSpec (κ ο : Type) where
  bindings : Bindings κ ο
  answers : List (ContextAnswer κ ο)

section
variable [DecidableEq κ]

def ContextRun.step (r : ContextRun κ ο) : ContextEv κ ο → Option (ContextRun κ ο)
  | .mapObj c obj name new newtable => (Tables.MapObj r.tables c obj name new newtable).map fun t => ⟨t,.void::r.answers⟩
  | .delObj c name newtable => (Tables.DelObj r.tables c name newtable).map fun q =>
      ⟨q.2,.ctx (if q.1 then some c else none)::r.answers⟩
  | .delObjLet this up name top newtable => (Tables.DelObjLet r.tables name top newtable (this::up)).map fun q =>
      ⟨q.2,.ctx q.1::r.answers⟩
  | .mapObjLet this up obj name top new newtable grown =>
      (Tables.MapObjLet r.tables this up obj name top new newtable grown).map fun t => ⟨t,.void::r.answers⟩
  | .mapObjTop this up obj name top new newtable grown =>
      (Tables.MapObjTop r.tables this up obj name top new newtable grown).map fun q => ⟨q.2,.ctx (some q.1)::r.answers⟩
  | .find this up safeMode name top =>
      some ⟨r.tables,.found (find (tableScopes r.tables safeMode) name top (this::up))::r.answers⟩
  | .clear c junk junk' => (Tables.Clear r.tables c junk junk').map fun t => ⟨t,.void::r.answers⟩

/-- The allocator returns memory that is not in use in any context. -/
def ContextRun.Fresh (r : ContextRun κ ο) : ContextEv κ ο → Prop
  | .mapObj _ _ _ new _ | .mapObjLet _ _ _ _ _ new _ _ | .mapObjTop _ _ _ _ _ new _ _ =>
    (∀ c, new ∉ (r.tables c).live) ∧ new < 2^61
  | _ => True

def ContextSpec.after (s : ContextSpec κ ο) : ContextEv κ ο → ContextSpec κ ο
  | .mapObj c obj name _ _ => ⟨mapObj s.bindings c obj name,.void::s.answers⟩
  | .delObj c name _ =>
      ⟨(delObj s.bindings c name).2,.ctx (if (delObj s.bindings c name).1 then some c else none)::s.answers⟩
  | .delObjLet this up name top _ =>
      ⟨(delObjLet s.bindings name top (this::up)).2,.ctx (delObjLet s.bindings name top (this::up)).1::s.answers⟩
  | .mapObjLet this up obj name top _ _ _ => ⟨mapObjLet s.bindings this up obj name top,.void::s.answers⟩
  | .mapObjTop this up obj name top _ _ _ =>
      ⟨mapObjTop s.bindings this up obj name top,.ctx (some (delObjTop s.bindings name top this up).1)::s.answers⟩
  | .find this up safeMode name top =>
      ⟨s.bindings,.found (find (plain s.bindings safeMode) name top (this::up))::s.answers⟩
  | .clear c _ _ => ⟨Function.update s.bindings c fun _ => none,.void::s.answers⟩

def ContextRun.Meets (r : ContextRun κ ο) (s : ContextSpec κ ο) : Prop :=
  TablesOk r.tables s.bindings ∧ r.answers = s.answers

theorem ContextRun.Meets.step {r : ContextRun κ ο} {s : ContextSpec κ ο} {ev : ContextEv κ ο} (hr : r.Meets s)
    (hfresh : r.Fresh ev) : ∃ r', r.step ev = some r' ∧ r'.Meets (s.after ev) := by
  obtain ⟨ht,hans⟩ := hr
  cases ev with
  | mapObj c obj name new newtable =>
    obtain ⟨t,hrun,ht'⟩ := ht.mapObj (hfresh.1 c) hfresh.2 obj name newtable
    rw [ContextRun.step,hrun]
    exact ⟨_,rfl,ht',congrArg _ hans⟩
  | delObj c name newtable =>
    obtain ⟨t,hrun,ht',-⟩ := ht.delObj c name newtable
    rw [ContextRun.step,hrun]
    exact ⟨_,rfl,ht',congrArg _ hans⟩
  | delObjLet this up name top newtable =>
    obtain ⟨t,hrun,ht',-⟩ := ht.delObjLet name top newtable (this::up)
    rw [ContextRun.step,hrun]
    exact ⟨_,rfl,ht',congrArg _ hans⟩
  | mapObjLet this up obj name top new newtable grown =>
    obtain ⟨t,hrun,ht'⟩ := ht.mapObjLet hfresh.1 hfresh.2 this up obj name top newtable grown
    rw [ContextRun.step,hrun]
    exact ⟨_,rfl,ht',congrArg _ hans⟩
  | mapObjTop this up obj name top new newtable grown =>
    obtain ⟨t,hrun,ht'⟩ := ht.mapObjTop hfresh.1 hfresh.2 this up obj name top newtable grown
    rw [ContextRun.step,hrun]
    exact ⟨_,rfl,ht',congrArg _ hans⟩
  | find this up safeMode name top =>
    refine ⟨_,rfl,ht,?_⟩
    rw [ht.scopes_eq,hans]
    rfl
  | clear c junk junk' =>
    obtain ⟨t,hrun,ht'⟩ := ht.clear c junk junk'
    rw [ContextRun.step,hrun]
    exact ⟨_,rfl,ht',congrArg _ hans⟩

/-- Every sequence of lookups, assignments and deletions in any contexts is answered by their tables as the
bindings answer it, and no assertion of a table fails. -/
theorem contexts_refine {h : κ → Hash Bytes (Option ο)} (hlive : ∀ c, (h c).live = []) (junk : κ → ℕ → Option ℕ) :
    ∃ t₀ : κ → Hash Bytes (Option ο), (∀ c, (h c).hash_create HASHCOUNT_T_MAX (junk c) = some (t₀ c)) ∧
      ∀ evs, MeetsOnly ContextRun.step ContextRun.Fresh ⟨t₀,[]⟩ evs →
        ∃ r, runFrom ContextRun.step ⟨t₀,[]⟩ evs = some r ∧
          r.answers = (evs.foldl ContextSpec.after ⟨fun _ _ => none,[]⟩).answers ∧
          ∀ c name, Qctx.FindL (r.tables c) name =
            some ((evs.foldl ContextSpec.after ⟨fun _ _ => none,[]⟩).bindings c (mapKey name)) := by
  choose t₀ hrun hm using fun c => mapOk_create (hlive c) cmapStrFns (junk c)
  refine ⟨t₀,hrun,fun evs hfresh => ?_⟩
  have hstart : (ContextRun.mk t₀ []).Meets ⟨fun _ _ => none,[]⟩ := ⟨fun c => ⟨∅,[],hm c⟩,rfl⟩
  have hsteps : ∀ (r : ContextRun κ ο) (s : ContextSpec κ ο) ev, r.Meets s → r.Fresh ev →
      ∃ r', r.step ev = some r' ∧ r'.Meets (s.after ev) := fun r s ev hr hfresh => hr.step hfresh
  obtain ⟨r,hr,ht,hans⟩ := runFrom_refines hsteps hstart hfresh
  exact ⟨r,hr,hans,ht.findL⟩

end

theorem contexts_refine_two :
    ∃ t₀ : Bool → Hash Bytes (Option ℕ), (∀ c, (Hash.blank none).hash_create HASHCOUNT_T_MAX (fun _ => none) = some (t₀ c)) ∧
      ∃ r, runFrom ContextRun.step ⟨t₀,[]⟩
          [.mapObj false 1 (str "x") 5 none,.find true [false] (fun _ => false) (str "X") none] = some r ∧
        r.answers = [.found (some (1,false)),.void] := by
  obtain ⟨t₀,hrun,hall⟩ := contexts_refine (κ := Bool) (h := fun _ => Hash.blank none) (fun _ => rfl) fun _ _ => none
  have hlive (c : Bool) : (t₀ c).live = [] := live_of_hash_create defaultFns (hrun c)
  have hnew (c : Bool) : 5 ∉ (t₀ c).live := hlive c ▸ List.not_mem_nil
  obtain ⟨r,hr,hans,-⟩ := hall [.mapObj false 1 (str "x") 5 none,.find true [false] (fun _ => false) (str "X") none]
    (meetsOnly_cons.mpr ⟨⟨hnew,by decide⟩,fun _ _ => meetsOnly_cons.mpr ⟨trivial,fun t _ => meetsOnly_nil t⟩⟩)
  refine ⟨t₀,hrun,r,hr,?_⟩
  rw [hans]
  rfl

end Smx
