import Smx.Hash.Sizes

/-! `CMap`, the map that the program keeps its names in, on the table of `hash.c`. It is a finite map from
the classes of keys that compare equal; `Del` takes a node out of the table and frees it not. -/
namespace Smx
variable {κ γ ν : Type}

/-- The functions of a map: those of its table, and what it makes of a key that it keeps. -/
structure MapFns (κ γ : Type) extends KeyFns κ γ where
  CopyKey : κ → κ
  cls_CopyKey : ∀ k, cls (CopyKey k) = cls k

namespace Hash

/-- `*(DATA *) hnode_get(node)` -/
def getData (h : Hash κ ν) (node : ℕ) : Option ν := (h.get node).map fun _ => h.hash_data node

/-- `*(DATA *) hnode_get(node) = d` -/
def putData (h : Hash κ ν) (node : ℕ) (d : ν) : Option (Hash κ ν) :=
  (h.get node).map fun _ => { h with hash_data := Function.update h.hash_data node d }

end Hash

namespace CMap
variable (f : MapFns κ γ)

/-- `node` is what `new(hnode_t)` returns, and `d₀` a new `DATA`. -/
def AddNotFound (h : Hash κ ν) (k : κ) (d₀ : ν) (node : ℕ) (newtable : Newtable) : Option (Hash κ ν) :=
  (h.allocnode node).bind fun h => (h.hnode_init node d₀).bind fun h =>
    h.hash_insert f.toKeyFns node (f.CopyKey k) newtable

def Find (h : Hash κ ν) (k : κ) : Option (Option ν) :=
  (h.hash_lookup f.toKeyFns k).bind fun r => r.elim (some none) fun node => (h.getData node).map some

/-- The data that was there before is what `Set` writes to `*old`. -/
def Set (h : Hash κ ν) (k : κ) (d d₀ : ν) (new : ℕ) (newtable : Newtable) : Option (Hash κ ν × Option ν) :=
  (h.hash_lookup f.toKeyFns k).bind fun r => r.elim
    ((AddNotFound f h k d₀ new newtable).bind fun h => (h.putData new d).map fun h => (h,none))
    fun node => (h.getData node).bind fun old => (h.putData node d).map fun h => (h,some old)

/-- With the node that is taken out; `none` is the `false` of a key that is not there. -/
def Del (h : Hash κ ν) (k : κ) (newtable : Newtable) : Option (Hash κ ν × Option (ℕ × ν)) :=
  (h.hash_lookup f.toKeyFns k).bind fun r => r.elim (some (h,none)) fun node =>
    (h.getData node).bind fun d => (h.hash_delete f.toKeyFns node newtable).map fun h => (h,some (node,d))

/-- `operator []`, with the data that the reference it returns refers to. -/
def Add (h : Hash κ ν) (k : κ) (d₀ : ν) (new : ℕ) (newtable : Newtable) : Option (Hash κ ν × ν) :=
  (h.hash_lookup f.toKeyFns k).bind fun r => r.elim
    ((AddNotFound f h k d₀ new newtable).bind fun h => (h.getData new).map fun d => (h,d))
    fun node => (h.getData node).map fun d => (h,d)

def Clear (h : Hash κ ν) (junk : ℕ) : Option (Hash κ ν) := (h.hash_free_nodes f.toKeyFns junk).map Prod.fst

def Count (h : Hash κ ν) : ℕ := h.hash_nodecount

end CMap

/-- A call to a map, with what the allocator returns in it. -/
inductive MapEv (κ ν : Type)
  | find (k : κ)
  | set (k : κ) (d : ν) (new : ℕ) (newtable : Newtable)
  | add (k : κ) (new : ℕ) (newtable : Newtable)
  | del (k : κ) (newtable : Newtable)
  | clear (junk : ℕ)

/-- A map with the answers that it has given, the last one first, and the nodes that `Del` has taken out. -/
structure MapRun (κ ν : Type) where
  hash : Hash κ ν
  answers : List (Option ν)
  lost : List ℕ

namespace MapRun

def step (f : MapFns κ γ) (d₀ : ν) (r : MapRun κ ν) : MapEv κ ν → Option (MapRun κ ν)
  | .find k => (CMap.Find f r.hash k).map fun d => ⟨r.hash,d::r.answers,r.lost⟩
  | .set k d new newtable => (CMap.Set f r.hash k d d₀ new newtable).map fun q => ⟨q.1,q.2::r.answers,r.lost⟩
  | .add k new newtable => (CMap.Add f r.hash k d₀ new newtable).map fun q => ⟨q.1,some q.2::r.answers,r.lost⟩
  | .del k newtable => (CMap.Del f r.hash k newtable).map fun q =>
      ⟨q.1,q.2.map Prod.snd::r.answers,(q.2.map Prod.fst).toList ++ r.lost⟩
  | .clear junk => (CMap.Clear f r.hash junk).map fun h => ⟨h,none::r.answers,r.lost⟩

/-- The allocator returns memory that is not in use. -/
def Fresh (r : MapRun κ ν) : MapEv κ ν → Prop
  | .set _ _ new _ | .add _ new _ => new ∉ r.hash.live ∧ new < 2^61
  | _ => True

end MapRun

/-- What a map is for: a function on the classes of keys, with the answers it has given. -/
structure MapSpec (γ ν : Type) where
  map : γ → Option ν
  answers : List (Option ν)

open Classical in
noncomputable def MapSpec.after (f : MapFns κ γ) (d₀ : ν) (m : MapSpec γ ν) : MapEv κ ν → MapSpec γ ν
  | .find k => ⟨m.map,m.map (f.cls k)::m.answers⟩
  | .set k d _ _ => ⟨Function.update m.map (f.cls k) (some d),m.map (f.cls k)::m.answers⟩
  | .add k _ _ =>
    ⟨Function.update m.map (f.cls k) (some ((m.map (f.cls k)).getD d₀)),some ((m.map (f.cls k)).getD d₀)::m.answers⟩
  | .del k _ => ⟨Function.update m.map (f.cls k) none,m.map (f.cls k)::m.answers⟩
  | .clear _ => ⟨fun _ => none,none::m.answers⟩

/-- The table of a map, the function that it stands for, and the nodes that are neither in it nor freed. -/
structure MapOk (f : MapFns κ γ) (h : Hash κ ν) (nodes : Finset ℕ) (m : γ → Option ν) (lost : List ℕ) : Prop where
  ok : ∃ bits, h.Ok f.toKeyFns bits nodes
  maxcount : h.hash_maxcount = HASHCOUNT_T_MAX
  map : ∀ c d, m c = some d ↔ ∃ n ∈ nodes, f.cls (h.hash_key n) = c ∧ h.hash_data n = d
  live : ∀ n, n ∈ h.live ↔ n ∈ nodes ∨ n ∈ lost
  apart : ∀ n ∈ lost, n ∉ nodes
  live_nodup : h.live.Nodup
  lost_nodup : lost.Nodup
  aligned : ∀ n ∈ h.live, n < 2^61

namespace MapOk
variable {f : MapFns κ γ} {h h' : Hash κ ν} {nodes : Finset ℕ} {m : γ → Option ν} {lost : List ℕ} {k : κ} {d d₀ : ν}
  {n new : ℕ} {newtable : Newtable}

/-- The search for a key: the node that it is found at, or none that has it. -/
theorem lookup (hm : MapOk f h nodes m lost) (k : κ) :
    (∃ n ∈ nodes, h.hash_lookup f.toKeyFns k = some (some n) ∧ f.cls (h.hash_key n) = f.cls k ∧
        m (f.cls k) = some (h.hash_data n)) ∨
      h.hash_lookup f.toKeyFns k = some none ∧ (∀ a ∈ nodes, f.cls (h.hash_key a) ≠ f.cls k) ∧ m (f.cls k) = none := by
  obtain ⟨bits,hok⟩ := hm.ok
  obtain ⟨r,hrun,hsome,hnone⟩ := hok.hash_lookup_spec k
  cases r with
  | some n =>
    obtain ⟨hn,hcls⟩ := hsome n rfl
    exact Or.inl ⟨n,hn,hrun,hcls,(hm.map _ _).mpr ⟨n,hn,hcls,rfl⟩⟩
  | none =>
    refine Or.inr ⟨hrun,hnone rfl,?_⟩
    rw [Option.eq_none_iff_forall_ne_some]
    intro d hd
    obtain ⟨n,hn,hcls,-⟩ := (hm.map _ _).mp hd
    exact hnone rfl n hn hcls

theorem getData (hm : MapOk f h nodes m lost) (hn : n ∈ nodes) : h.getData n = some (h.hash_data n) := by
  obtain ⟨bits,hok⟩ := hm.ok
  rw [Hash.getData,hok.get hn]
  rfl

/-- The node of a class is the only one. -/
theorem unique (hm : MapOk f h nodes m lost) {a : ℕ} (ha : a ∈ nodes) (hn : n ∈ nodes)
    (hcls : f.cls (h.hash_key a) = f.cls (h.hash_key n)) : a = n := by
  obtain ⟨bits,hok⟩ := hm.ok
  exact hok.unique a ha n hn hcls

theorem find (hm : MapOk f h nodes m lost) (k : κ) : CMap.Find f h k = some (m (f.cls k)) := by
  rcases hm.lookup k with ⟨n,hn,hrun,-,hmap⟩ | ⟨hrun,-,hmap⟩
  · rw [CMap.Find,hrun,Option.bind_some,Option.elim_some,hm.getData hn,hmap]
    rfl
  · rw [CMap.Find,hrun,hmap]
    rfl

open Classical in
/-- The data of a node is written to. -/
theorem putData (hm : MapOk f h nodes m lost) (hn : n ∈ nodes) (d : ν) :
    ∃ h', h.putData n d = some h' ∧
      MapOk f h' nodes (Function.update m (f.cls (h.hash_key n)) (some d)) lost := by
  obtain ⟨bits,hok⟩ := hm.ok
  rw [Hash.putData,hok.get hn]
  refine ⟨_,rfl,⟨bits,hok.congr_mem (fun a => hok.live) fun _ _ => rfl⟩,hm.maxcount,fun c e => ?_,hm.live,hm.apart,
    hm.live_nodup,hm.lost_nodup,hm.aligned⟩
  rw [Function.update_apply]
  split_ifs with hc
  · constructor
    · rintro ⟨⟩
      exact ⟨n,hn,hc.symm,Function.update_self _ _ _⟩
    · rintro ⟨a,ha,hcls,he⟩
      obtain rfl := hm.unique ha hn (hcls.trans hc)
      have he : Function.update h.hash_data a d a = e := he
      rw [← he,Function.update_self]
  · rw [hm.map]
    have hother {a : ℕ} (hcls : f.cls (h.hash_key a) = c) : a ≠ n := by
      rintro rfl
      exact hc hcls.symm
    constructor
    · rintro ⟨a,ha,hcls,he⟩
      exact ⟨a,ha,hcls,(Function.update_of_ne (hother hcls) _ _).trans he⟩
    · rintro ⟨a,ha,hcls,he⟩
      have he : Function.update h.hash_data n d a = e := he
      rw [Function.update_of_ne (hother hcls)] at he
      exact ⟨a,ha,hcls,he⟩

open Classical in
/-- A key that is not there is added. -/
theorem addNotFound (hm : MapOk f h nodes m lost) (hnew : new ∉ h.live) (haddr : new < 2^61)
    (hk : ∀ a ∈ nodes, f.cls (h.hash_key a) ≠ f.cls k) (d₀ : ν) (newtable : Newtable) :
    ∃ h', CMap.AddNotFound f h k d₀ new newtable = some h' ∧ f.cls (h'.hash_key new) = f.cls k ∧
      h'.hash_data new = d₀ ∧ MapOk f h' (insert new nodes) (Function.update m (f.cls k) (some d₀)) lost := by
  obtain ⟨bits,hok⟩ := hm.ok
  have hnode : new ∉ nodes := fun hin => hnew (hok.live hin)
  rw [CMap.AddNotFound,Hash.allocnode,if_pos ⟨hnew,haddr⟩,Option.bind_some,Hash.hnode_init,
    Hash.setNext_of_mem List.mem_cons_self,Option.bind_some]
  have hok₁ : Hash.Ok f.toKeyFns { h with
      toMem := Chain.Mem.put ⟨new::h.live,h.next⟩ new none
      hash_data := Function.update h.hash_data new d₀ } bits nodes :=
    hok.congr_mem (fun a ha => List.mem_cons_of_mem new (hok.live ha))
      fun a ha => Chain.Mem.put_next_of_ne (ne_of_mem_of_not_mem ha hnode) none
  have hroom : h.hash_nodecount < h.hash_maxcount := by
    have hle := hok.nodecount_le
    have hmax : h.hash_maxcount = 2^64-1 := hm.maxcount
    omega
  have hopen : ∀ a ∈ nodes, f.cls (h.hash_key a) ≠ f.cls (f.CopyKey k) := by
    rw [f.cls_CopyKey]
    exact hk
  obtain ⟨h',hrun,hok',hframe,hkey⟩ := hok₁.hash_insert_spec List.mem_cons_self hnode haddr
    (Chain.Mem.put_next_self none) hroom hopen newtable
  have hkeynew : h'.hash_key new = f.CopyKey k := by
    rw [hkey,Function.update_self]
  have hdata : h'.hash_data = Function.update h.hash_data new d₀ := hframe.hash_data
  have hkey : h'.hash_key = Function.update h.hash_key new (f.CopyKey k) := hkey
  have hdatanew : h'.hash_data new = d₀ := by
    rw [hdata,Function.update_self]
  have hother {a : ℕ} (ha : a ∈ nodes) : h'.hash_key a = h.hash_key a ∧ h'.hash_data a = h.hash_data a := by
    have hne := ne_of_mem_of_not_mem ha hnode
    rw [hkey,hdata,Function.update_of_ne hne,Function.update_of_ne hne]
    exact ⟨rfl,rfl⟩
  refine ⟨h',hrun,by rw [hkeynew,f.cls_CopyKey],hdatanew,⟨_,hok'⟩,hframe.hash_maxcount.trans hm.maxcount,fun c e => ?_,
    fun n => ?_,fun n hn => ?_,?_,hm.lost_nodup,?_⟩
  · rw [Function.update_apply]
    split_ifs with hc
    · constructor
      · rintro ⟨⟩
        exact ⟨new,Finset.mem_insert_self new nodes,by rw [hkeynew,f.cls_CopyKey,hc],hdatanew⟩
      · rintro ⟨a,ha,hcls,he⟩
        rcases Finset.mem_insert.mp ha with rfl | ha
        · rw [← he,hdatanew]
        · rw [(hother ha).1,hc] at hcls
          exact absurd hcls (hk a ha)
    · rw [hm.map]
      constructor
      · rintro ⟨a,ha,hcls,he⟩
        exact ⟨a,Finset.mem_insert_of_mem ha,(hother ha).1 ▸ hcls,(hother ha).2 ▸ he⟩
      · rintro ⟨a,ha,hcls,he⟩
        rcases Finset.mem_insert.mp ha with rfl | ha
        · rw [hkeynew,f.cls_CopyKey] at hcls
          exact absurd hcls.symm hc
        · exact ⟨a,ha,(hother ha).1 ▸ hcls,(hother ha).2 ▸ he⟩
  · rw [hframe.live,Finset.mem_insert]
    change n ∈ new::h.live ↔ _
    rw [List.mem_cons,hm.live]
    tauto
  · rw [Finset.mem_insert]
    rintro (rfl | hin)
    · exact hnew ((hm.live n).mpr (Or.inr hn))
    · exact hm.apart n hn hin
  · rw [hframe.live]
    exact List.nodup_cons.mpr ⟨hnew,hm.live_nodup⟩
  · rw [hframe.live]
    intro n hn
    rcases List.mem_cons.mp hn with rfl | hn
    · exact haddr
    · exact hm.aligned n hn

open Classical in
theorem set (hm : MapOk f h nodes m lost) (hnew : new ∉ h.live) (haddr : new < 2^61) (k : κ) (d d₀ : ν)
    (newtable : Newtable) :
    ∃ h' nodes', CMap.Set f h k d d₀ new newtable = some (h',m (f.cls k)) ∧
      MapOk f h' nodes' (Function.update m (f.cls k) (some d)) lost := by
  rcases hm.lookup k with ⟨n,hn,hrun,hcls,hmap⟩ | ⟨hrun,hnone,hmap⟩
  · obtain ⟨h',hput,hm'⟩ := hm.putData hn d
    refine ⟨h',nodes,?_,hcls ▸ hm'⟩
    rw [CMap.Set,hrun,Option.bind_some,Option.elim_some,hm.getData hn,Option.bind_some,hput,hmap]
    rfl
  · obtain ⟨g,hg,hkey,-,hgm⟩ := hm.addNotFound hnew haddr hnone d₀ newtable
    obtain ⟨h',hput,hm'⟩ := hgm.putData (Finset.mem_insert_self new nodes) d
    rw [hkey,Function.update_idem] at hm'
    refine ⟨h',_,?_,hm'⟩
    rw [CMap.Set,hrun,Option.bind_some,Option.elim_none,hg,Option.bind_some,hput,hmap]
    rfl

open Classical in
theorem add (hm : MapOk f h nodes m lost) (hnew : new ∉ h.live) (haddr : new < 2^61) (k : κ) (d₀ : ν)
    (newtable : Newtable) :
    ∃ h' nodes', CMap.Add f h k d₀ new newtable = some (h',(m (f.cls k)).getD d₀) ∧
      MapOk f h' nodes' (Function.update m (f.cls k) (some ((m (f.cls k)).getD d₀))) lost := by
  rcases hm.lookup k with ⟨n,hn,hrun,hcls,hmap⟩ | ⟨hrun,hnone,hmap⟩
  · refine ⟨h,nodes,?_,?_⟩
    · rw [CMap.Add,hrun,Option.bind_some,Option.elim_some,hm.getData hn,hmap]
      rfl
    · rw [hmap,Option.getD_some,Function.update_eq_self_iff.mpr hmap.symm]
      exact hm
  · obtain ⟨h',hrun',-,hdata,hm'⟩ := hm.addNotFound hnew haddr hnone d₀ newtable
    refine ⟨h',insert new nodes,?_,?_⟩
    · rw [CMap.Add,hrun,Option.bind_some,Option.elim_none,hrun',Option.bind_some,
        hm'.getData (Finset.mem_insert_self new nodes),hdata,hmap]
      rfl
    · rw [hmap,Option.getD_none]
      exact hm'

open Classical in
theorem del (hm : MapOk f h nodes m lost) (k : κ) (newtable : Newtable) :
    ∃ h' r nodes', CMap.Del f h k newtable = some (h',r) ∧ r.map Prod.snd = m (f.cls k) ∧
      MapOk f h' nodes' (Function.update m (f.cls k) none) ((r.map Prod.fst).toList ++ lost) := by
  rcases hm.lookup k with ⟨n,hn,hrun,hcls,hmap⟩ | ⟨hrun,-,hmap⟩
  · obtain ⟨bits,hok⟩ := hm.ok
    obtain ⟨h',hdel,hok',hframe,hkey,-⟩ := hok.hash_delete_spec hn newtable
    refine ⟨h',some (n,h.hash_data n),nodes.erase n,?_,hmap.symm,⟨_,hok'⟩,hframe.hash_maxcount.trans hm.maxcount,
      fun c e => ?_,fun a => ?_,fun a ha => ?_,hframe.live ▸ hm.live_nodup,?_,hframe.live ▸ hm.aligned⟩
    · rw [CMap.Del,hrun,Option.bind_some,Option.elim_some,hm.getData hn,Option.bind_some,hdel]
      rfl
    · rw [Function.update_apply,hkey,hframe.hash_data]
      split_ifs with hc
      · refine iff_of_false (by rintro ⟨⟩) ?_
        rintro ⟨a,ha,hacls,-⟩
        obtain ⟨hne,ha⟩ := Finset.mem_erase.mp ha
        exact hne (hm.unique ha hn (hacls.trans (hc.trans hcls.symm)))
      · rw [hm.map]
        constructor
        · rintro ⟨a,ha,hacls,he⟩
          refine ⟨a,Finset.mem_erase.mpr ⟨?_,ha⟩,hacls,he⟩
          rintro rfl
          exact hc (hacls.symm.trans hcls)
        · rintro ⟨a,ha,hacls,he⟩
          exact ⟨a,Finset.mem_of_mem_erase ha,hacls,he⟩
    · rw [hframe.live,hm.live,Finset.mem_erase]
      change _ ↔ _ ∨ a ∈ n::lost
      rw [List.mem_cons]
      by_cases han : a = n
      · simp [han,hn]
      · simp [han]
    · rcases List.mem_cons.mp ha with rfl | ha
      · exact Finset.notMem_erase a nodes
      · exact fun hin => hm.apart a ha (Finset.mem_of_mem_erase hin)
    · exact List.nodup_cons.mpr ⟨fun hin => hm.apart n hin hn,hm.lost_nodup⟩
  · refine ⟨h,none,nodes,?_,hmap.symm,?_⟩
    · rw [CMap.Del,hrun]
      rfl
    · rw [Function.update_eq_self_iff.mpr hmap.symm]
      exact hm

theorem clear (hm : MapOk f h nodes m lost) (junk : ℕ) :
    ∃ h', CMap.Clear f h junk = some h' ∧ MapOk f h' ∅ (fun _ => none) lost := by
  obtain ⟨bits,hok⟩ := hm.ok
  obtain ⟨q,hrun,hok',hfreed,-,-⟩ := hok.hash_free_nodes_spec hm.live_nodup junk
  rw [CMap.Clear,hrun]
  refine ⟨q.1,rfl,⟨bits,hok'⟩,hfreed.hash_maxcount.trans hm.maxcount,fun c e => ?_,fun n => ?_,
    fun n _ => Finset.notMem_empty n,hfreed.nodup,hm.lost_nodup,fun n hn => hm.aligned n ((hfreed.live n).mp hn).1⟩
  · exact iff_of_false (by rintro ⟨⟩) fun hex => by
      obtain ⟨n,hn,-⟩ := hex
      exact Finset.notMem_empty n hn
  · rw [hfreed.live,hm.live]
    have hapart := hm.apart n
    simp only [Finset.notMem_empty,false_or]
    tauto

/-- As many nodes are counted as there are classes with data. -/
theorem count (hm : MapOk f h nodes m lost) : CMap.Count h = {c | m c ≠ none}.ncard := by
  obtain ⟨bits,hok⟩ := hm.ok
  have hset : {c | m c ≠ none} = (fun n => f.cls (h.hash_key n)) '' nodes := by
    ext c
    rw [Set.mem_ofPred_eq,Option.ne_none_iff_exists',Set.mem_image]
    constructor
    · rintro ⟨d,hd⟩
      obtain ⟨n,hn,hcls,-⟩ := (hm.map c d).mp hd
      exact ⟨n,hn,hcls⟩
    · rintro ⟨n,hn,hcls⟩
      exact ⟨h.hash_data n,(hm.map c _).mpr ⟨n,hn,hcls,rfl⟩⟩
  have hinj : Set.InjOn (fun n => f.cls (h.hash_key n)) ↑nodes := fun a ha b hb hcls => hok.unique a ha b hb hcls
  rw [hset,hinj.ncard_image,Set.ncard_coe_finset,CMap.Count,hok.nodecount]

/-- Every allocated node is in the table or has been taken out by `Del`. -/
theorem live_length (hm : MapOk f h nodes m lost) : h.live.length = CMap.Count h+lost.length := by
  obtain ⟨bits,hok⟩ := hm.ok
  have hset : h.live.toFinset = nodes ∪ lost.toFinset := by
    ext n
    rw [List.mem_toFinset,hm.live,Finset.mem_union,List.mem_toFinset]
  have hdisj : Disjoint nodes lost.toFinset := by
    rw [Finset.disjoint_right]
    exact fun n hn => hm.apart n (List.mem_toFinset.mp hn)
  rw [← List.toFinset_card_of_nodup hm.live_nodup,hset,Finset.card_union_of_disjoint hdisj,
    List.toFinset_card_of_nodup hm.lost_nodup,CMap.Count,hok.nodecount]

end MapOk

/-- A map that holds what the function says, and has answered so. -/
def MapRun.Meets (f : MapFns κ γ) (r : MapRun κ ν) (t : MapSpec γ ν) : Prop :=
  (∃ nodes, MapOk f r.hash nodes t.map r.lost) ∧ r.answers = t.answers

theorem MapRun.Meets.step {f : MapFns κ γ} {r : MapRun κ ν} {t : MapSpec γ ν} (d₀ : ν) {ev : MapEv κ ν}
    (hr : r.Meets f t) (hfresh : r.Fresh ev) : ∃ r', r.step f d₀ ev = some r' ∧ r'.Meets f (t.after f d₀ ev) := by
  obtain ⟨⟨nodes,hm⟩,hans⟩ := hr
  cases ev with
  | find k =>
    rw [MapRun.step,hm.find k]
    refine ⟨_,rfl,⟨nodes,hm⟩,?_⟩
    rw [hans]
    rfl
  | set k d new newtable =>
    obtain ⟨h',nodes',hrun,hm'⟩ := hm.set hfresh.1 hfresh.2 k d d₀ newtable
    rw [MapRun.step,hrun]
    refine ⟨_,rfl,⟨nodes',hm'⟩,?_⟩
    rw [hans]
    rfl
  | add k new newtable =>
    obtain ⟨h',nodes',hrun,hm'⟩ := hm.add hfresh.1 hfresh.2 k d₀ newtable
    rw [MapRun.step,hrun]
    refine ⟨_,rfl,⟨nodes',hm'⟩,?_⟩
    rw [hans]
    rfl
  | del k newtable =>
    obtain ⟨h',q,nodes',hrun,hq,hm'⟩ := hm.del k newtable
    rw [MapRun.step,hrun]
    refine ⟨_,rfl,⟨nodes',hm'⟩,?_⟩
    change q.map Prod.snd::r.answers = t.map (f.cls k)::t.answers
    rw [hans,hq]
  | clear junk =>
    obtain ⟨h',hrun,hm'⟩ := hm.clear junk
    rw [MapRun.step,hrun]
    refine ⟨_,rfl,⟨∅,hm'⟩,?_⟩
    rw [hans]
    rfl

section
variable {f : MapFns κ γ} {h : Hash κ ν}

/-- A map that has just been constructed. -/
theorem mapOk_create (hlive : h.live = []) (f : MapFns κ γ) (junk : ℕ → Option ℕ) :
    ∃ h', h.hash_create HASHCOUNT_T_MAX junk = some h' ∧ MapOk f h' ∅ (fun _ => none) [] := by
  obtain ⟨h',hrun,hok,hmem,hmax⟩ := Hash.hash_create_spec f.toKeyFns h HASHCOUNT_T_MAX junk
  have hnil : h'.live = [] := (congrArg Chain.Mem.live hmem).trans hlive
  refine ⟨h',hrun,⟨_,hok⟩,hmax,fun c d => ?_,fun n => by simp [hnil],List.forall_mem_nil _,hnil ▸ List.nodup_nil,
    List.nodup_nil,hnil ▸ List.forall_mem_nil _⟩
  exact iff_of_false (by rintro ⟨⟩) fun hex => by
    obtain ⟨n,hn,-⟩ := hex
    exact Finset.notMem_empty n hn

end

/-- A map from texts that are not copied, in the functions that a table has by default. -/
def charPtrFns : MapFns Bytes Bytes where
  toKeyFns := defaultFns
  CopyKey := id
  cls_CopyKey _ := rfl

/-- A new table allocates no node. -/
theorem live_of_hash_create {h h' : Hash κ ν} {maxcount : ℕ} {junk : ℕ → Option ℕ} (f : KeyFns κ γ)
    (hrun : h.hash_create maxcount junk = some h') : h'.live = h.live := by
  obtain ⟨g,hg,-,hmem,-⟩ := Hash.hash_create_spec f h maxcount junk
  rw [← Option.some.inj (hg.symm.trans hrun)]
  exact congrArg Chain.Mem.live hmem

end Smx
