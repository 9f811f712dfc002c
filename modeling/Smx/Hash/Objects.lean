import Smx.Hash.CMapStr

/-! The objects of a context. `MapObj` owns the object that it is given: it is freed when another one takes
its name, when the name is deleted, or when the context is cleared. -/
namespace Smx
variable {κ γ ν σ ο : Type}

namespace CMap

/-- The loop of `Enum`, and of every other loop over the entries of a map: `proc` gets a reference to the data. -/
def enumLoop (proc : σ → κ → ν → σ × ν) : ℕ → Hash κ ν → HScan → σ → Option (Hash κ ν × σ)
  | 0,h,scan,st => (h.hash_scan_next scan).bind fun r => if r.1 = none then some (h,st) else none
  | fuel+1,h,scan,st => (h.hash_scan_next scan).bind fun r => r.1.elim (some (h,st)) fun node =>
      (h.getData node).bind fun d => (h.putData node (proc st (h.hash_key node) d).2).bind fun h =>
        enumLoop proc fuel h r.2 (proc st (h.hash_key node) d).1

def Enum (proc : σ → κ → ν → σ × ν) (h : Hash κ ν) (junk : ℕ) (st : σ) : Option (Hash κ ν × σ) :=
  (h.hash_scan_begin junk).bind fun scan => enumLoop proc h.live.length h scan st

end CMap

/-- What a loop makes of a list of entries. -/
def enumFold (proc : σ → κ → ν → σ × ν) : σ → List (κ × ν) → σ × List (κ × ν)
  | st,[] => (st,[])
  | st,e::l =>
    let r := enumFold proc (proc st e.1 e.2).1 l
    (r.1,(e.1,(proc st e.1 e.2).2)::r.2)

/-- The entries of a map, each of them once. -/
def Lists (f : KeyFns κ γ) (m : γ → Option ν) (l : List (κ × ν)) : Prop :=
  (l.map fun e => f.cls e.1).Nodup ∧ ∀ c d, m c = some d ↔ ∃ k, (k,d) ∈ l ∧ f.cls k = c

section
variable {f : KeyFns κ γ} {h : Hash κ ν} {bits fuel : ℕ} {nodes left : Finset ℕ} {scan : HScan}

theorem enumLoop_spec (proc : σ → κ → ν → σ × ν) (st : σ) (hok : h.Ok f bits nodes)
    (hs : h.Scans bits nodes scan left) (hfuel : left.card ≤ fuel) :
    ∃ ns : List ℕ, ns.Nodup ∧ (∀ n, n ∈ ns ↔ n ∈ left) ∧ ∃ data : ℕ → ν,
      CMap.enumLoop proc fuel h scan st = some ({ h with hash_data := data },
        (enumFold proc st (ns.map fun n => (h.hash_key n,h.hash_data n))).1) ∧
      (∀ n, n ∉ ns → data n = h.hash_data n) ∧
      ns.map (fun n => (h.hash_key n,data n)) = (enumFold proc st (ns.map fun n => (h.hash_key n,h.hash_data n))).2 := by
  induction fuel generalizing h scan left st with
  | zero =>
    obtain rfl := Finset.card_eq_zero.mp (Nat.le_zero.mp hfuel)
    cases hnext : scan.hash_next with
    | some d => exact absurd (hok.hash_scan_next_spec hs hnext).1 (Finset.notMem_empty d)
    | none =>
      refine ⟨[],List.nodup_nil,by simp,h.hash_data,?_,fun _ _ => rfl,rfl⟩
      rw [CMap.enumLoop,Hash.hash_scan_next,hnext]
      rfl
  | succ fuel ih =>
    cases hnext : scan.hash_next with
    | none =>
      obtain rfl := hs.of_next_none hnext
      refine ⟨[],List.nodup_nil,by simp,h.hash_data,?_,fun _ _ => rfl,rfl⟩
      rw [CMap.enumLoop,Hash.hash_scan_next,hnext]
      rfl
    | some node =>
      obtain ⟨hleft,hnode,scan',hscan,hs'⟩ := hok.hash_scan_next_spec hs hnext
      have hget := hok.get hnode
      have hcard : (left.erase node).card ≤ fuel := by
        rw [Finset.card_erase_of_mem hleft]
        omega
      obtain ⟨ns,hnd,hmem,data,hrun,hother,hlist⟩ := ih
        (h := { h with hash_data := Function.update h.hash_data node (proc st (h.hash_key node) (h.hash_data node)).2 })
        (proc st (h.hash_key node) (h.hash_data node)).1
        (hok.congr_mem (fun a => hok.live) fun _ _ => rfl) hs' hcard
      have hnotin : node ∉ ns := fun hin => Finset.notMem_erase node left ((hmem node).mp hin)
      -- the other nodes have the data that they had
      have hsame : ns.map (fun n => (h.hash_key n,Function.update h.hash_data node
          (proc st (h.hash_key node) (h.hash_data node)).2 n)) = ns.map fun n => (h.hash_key n,h.hash_data n) := by
        apply List.map_congr_left
        intro n hn
        rw [Function.update_of_ne (ne_of_mem_of_not_mem hn hnotin)]
      simp only [hsame] at hrun hlist
      refine ⟨node::ns,List.nodup_cons.mpr ⟨hnotin,hnd⟩,fun n => ?_,data,?_,fun n hn => ?_,?_⟩
      · rw [List.mem_cons,hmem,Finset.mem_erase]
        by_cases hnn : n = node
        · simp [hnn,hleft]
        · simp [hnn]
      · rw [CMap.enumLoop,hscan,Option.bind_some,Option.elim_some,Hash.getData,hget,Option.map_some,Option.bind_some,
          Hash.putData,hget,Option.map_some,Option.bind_some]
        exact hrun
      · obtain ⟨hne,hn⟩ := not_or.mp (mt List.mem_cons.mpr hn)
        exact (hother n hn).trans (Function.update_of_ne hne _ _)
      · rw [List.map_cons,List.map_cons,enumFold,hlist,hother node hnotin]
        simp only [Function.update_self]

end

namespace MapOk
variable {f : MapFns κ γ} {h : Hash κ ν} {nodes : Finset ℕ} {m : γ → Option ν} {lost : List ℕ}

/-- A loop over a map comes by each entry once, in some order, and leaves what it has made of them. -/
theorem enum (hm : MapOk f h nodes m lost) (proc : σ → κ → ν → σ × ν) (junk : ℕ) (st : σ) :
    ∃ h' l m', Lists f.toKeyFns m l ∧ CMap.Enum proc h junk st = some (h',(enumFold proc st l).1) ∧
      Lists f.toKeyFns m' (enumFold proc st l).2 ∧ MapOk f h' nodes m' lost := by
  obtain ⟨bits,hok⟩ := hm.ok
  obtain ⟨scan,hscan,hs⟩ := hok.hash_scan_begin_spec junk
  have hfuel : nodes.card ≤ h.live.length := by
    have hsub : nodes ⊆ h.live.toFinset := fun n hn => List.mem_toFinset.mpr (hok.live hn)
    exact (Finset.card_le_card hsub).trans (List.toFinset_card_le h.live)
  obtain ⟨ns,hnd,hmem,data,hrun,-,hlist⟩ := enumLoop_spec proc st hok hs hfuel
  have hlists (data : ℕ → ν) {m : γ → Option ν}
      (hm : ∀ c d, m c = some d ↔ ∃ n ∈ nodes, f.cls (h.hash_key n) = c ∧ data n = d) :
      Lists f.toKeyFns m (ns.map fun n => (h.hash_key n,data n)) := by
    constructor
    · rw [List.map_map]
      refine hnd.map_on fun a ha b hb hcls => ?_
      exact hok.unique a ((hmem a).mp ha) b ((hmem b).mp hb) hcls
    · intro c d
      rw [hm]
      constructor
      · rintro ⟨n,hn,hcls,hd⟩
        exact ⟨h.hash_key n,List.mem_map.mpr ⟨n,(hmem n).mpr hn,by rw [hd]⟩,hcls⟩
      · rintro ⟨k,hk,hcls⟩
        obtain ⟨n,hn,heq⟩ := List.mem_map.mp hk
        obtain ⟨rfl,hd⟩ := Prod.mk.inj heq
        exact ⟨n,(hmem n).mp hn,hcls,hd⟩
  classical
  -- the function that the table stands for after the loop
  have hm' (c : γ) (d : ν) : (if hex : ∃ n ∈ nodes, f.cls (h.hash_key n) = c then some (data hex.choose) else none) =
      some d ↔ ∃ n ∈ nodes, f.cls (h.hash_key n) = c ∧ data n = d := by
    split_ifs with hex
    · obtain ⟨hn,hcls⟩ := hex.choose_spec
      constructor
      · intro heq
        exact ⟨_,hn,hcls,Option.some.inj heq⟩
      · rintro ⟨n,hn',hcls',hd⟩
        rw [hok.unique _ hn n hn' (hcls.trans hcls'.symm),hd]
    · refine iff_of_false (by rintro ⟨⟩) ?_
      rintro ⟨n,hn,hcls,-⟩
      exact hex ⟨n,hn,hcls⟩
  refine ⟨{ h with hash_data := data },_,_,hlists h.hash_data hm.map,?_,hlist ▸ hlists data hm',⟨bits,hok.congr_mem (fun a => hok.live) fun _ _ => rfl⟩,
    hm.maxcount,hm',hm.live,hm.apart,hm.live_nodup,hm.lost_nodup,hm.aligned⟩
  rw [CMap.Enum,hscan,Option.bind_some,hrun]

end MapOk

namespace Lists
variable {f : KeyFns κ γ} {m : γ → Option ν} {l : List (κ × ν)} {k : κ} {d : ν} {c : γ} [DecidableEq γ]

theorem filter (hl : Lists f m l) (c : γ) :
    Lists f (Function.update m c none) (l.filter fun e => f.cls e.1 ≠ c) := by
  refine ⟨hl.1.sublist (List.filter_sublist.map _),fun c' d => ?_⟩
  rw [Function.update_apply]
  split_ifs with hc
  · refine iff_of_false (by rintro ⟨⟩) ?_
    rintro ⟨k,hk,hcls⟩
    have hne := (List.mem_filter.mp hk).2
    simp [hcls,hc] at hne
  · rw [hl.2]
    refine exists_congr fun k => ?_
    rw [List.mem_filter]
    constructor
    · rintro ⟨hk,rfl⟩
      exact ⟨⟨hk,by simpa using hc⟩,rfl⟩
    · rintro ⟨⟨hk,-⟩,hcls⟩
      exact ⟨hk,hcls⟩

theorem cons (hl : Lists f m l) (hk : m (f.cls k) = none) (d : ν) :
    Lists f (Function.update m (f.cls k) (some d)) ((k,d)::l) := by
  have hnone : ∀ e ∈ l, f.cls e.1 ≠ f.cls k := by
    intro e he hcls
    have hsome := (hl.2 (f.cls k) e.2).mpr ⟨e.1,he,hcls⟩
    rw [hk] at hsome
    cases hsome
  refine ⟨List.nodup_cons.mpr ⟨fun hin => ?_,hl.1⟩,fun c e => ?_⟩
  · obtain ⟨e,he,hcls⟩ := List.mem_map.mp hin
    exact hnone e he hcls
  · rw [Function.update_apply]
    split_ifs with hc
    · constructor
      · rintro ⟨⟩
        exact ⟨k,List.mem_cons_self,hc.symm⟩
      · rintro ⟨k',hk',hcls⟩
        rcases List.mem_cons.mp hk' with heq | hk'
        · rw [(Prod.mk.inj heq).2]
        · exact absurd (hcls.trans hc) (hnone _ hk')
    · rw [hl.2]
      refine exists_congr fun k' => and_congr_left fun hcls => ?_
      rw [List.mem_cons,or_iff_right]
      rintro ⟨⟩
      exact hc hcls.symm

/-- The entry of a class, and all the others. -/
theorem perm (hl : Lists f m l) (hc : m c = some d) :
    ∃ k, f.cls k = c ∧ l.Perm ((k,d)::l.filter fun e => f.cls e.1 ≠ c) := by
  obtain ⟨k,hk,hcls⟩ := (hl.2 c d).mp hc
  refine ⟨k,hcls,?_⟩
  obtain ⟨pre,post,rfl⟩ := List.append_of_mem hk
  have hnd := hl.1
  rw [List.map_append,List.map_cons] at hnd
  have hmid := (List.nodup_cons.mp (List.perm_middle.nodup_iff.mp hnd)).1
  rw [← List.map_append,List.mem_map] at hmid
  have hother : ∀ e ∈ pre ++ post, f.cls e.1 ≠ c := fun e he hcls' => hmid ⟨e,he,hcls'.trans hcls.symm⟩
  have hfilter : (pre ++ (k,d)::post).filter (fun e => f.cls e.1 ≠ c) = pre ++ post := by
    rw [List.filter_append,List.filter_cons_of_neg (by simp [hcls]),← List.filter_append]
    exact List.filter_eq_self.mpr fun e he => by simpa using hother e he
  rw [hfilter]
  exact List.perm_middle

theorem filter_eq_self (hl : Lists f m l) (hc : m c = none) : (l.filter fun e => f.cls e.1 ≠ c) = l := by
  refine List.filter_eq_self.mpr fun e he => ?_
  rw [decide_eq_true_eq]
  intro hcls
  have hsome := (hl.2 c e.2).mpr ⟨e.1,he,hcls⟩
  rw [hc] at hsome
  cases hsome

omit [DecidableEq γ] in
/-- Two lists of the entries of one map have the same data. -/
theorem perm_data {l' : List (κ × ν)} (hl : Lists f m l) (hl' : Lists f m l') :
    (l.map Prod.snd).Perm (l'.map Prod.snd) := by
  have hnd {l : List (κ × ν)} (hl : Lists f m l) : (l.map fun e => (f.cls e.1,e.2)).Nodup := by
    have hfst : ((l.map fun e => (f.cls e.1,e.2)).map Prod.fst).Nodup := by
      rw [List.map_map]
      exact hl.1
    exact hfst.of_map
  have hmem {l : List (κ × ν)} (hl : Lists f m l) (p : γ × ν) : p ∈ l.map (fun e => (f.cls e.1,e.2)) ↔ m p.1 = some p.2 := by
    rw [hl.2,List.mem_map]
    constructor
    · rintro ⟨e,he,rfl⟩
      exact ⟨e.1,he,rfl⟩
    · rintro ⟨k,hk,hcls⟩
      exact ⟨(k,p.2),hk,Prod.ext hcls rfl⟩
  have hperm := (List.perm_ext_iff_of_nodup (hnd hl) (hnd hl')).mpr fun p => (hmem hl p).trans (hmem hl' p).symm
  have hsnd (l : List (κ × ν)) : (l.map fun e => (f.cls e.1,e.2)).map Prod.snd = l.map Prod.snd := by
    rw [List.map_map]
    rfl
  rw [← hsnd l,← hsnd l']
  exact hperm.map Prod.snd

end Lists

/-- The loop of `Clear` over the entries of a map. -/
theorem enumFold_free (st : List ο) (l : List (κ × Option ο)) :
    enumFold (fun freed _ obj => (obj.toList ++ freed,none)) st l =
      ((l.filterMap Prod.snd).reverse ++ st,l.map fun e => (e.1,none)) := by
  induction l generalizing st with
  | nil => rfl
  | cons e l ih =>
    rw [enumFold,ih,List.map_cons]
    cases hobj : e.2 <;> simp [hobj]

namespace Qctx

/-- `myMap.Set(name, obj, &old); if (old) old->Free();`, with the object that is freed. -/
def MapObj (h : Hash Bytes (Option ο)) (obj : Option ο) (name : Bytes) (new : ℕ) (newtable : Newtable) :
    Option (Hash Bytes (Option ο) × Option ο) :=
  (CMap.Set cmapStrFns h name obj none new newtable).map fun q => (q.1,q.2.join)

def FindL (h : Hash Bytes (Option ο)) (name : Bytes) : Option (Option ο) :=
  (CMap.Find cmapStrFns h name).map Option.join

/-- With the object that the entry had. -/
def RemObj (h : Hash Bytes (Option ο)) (name : Bytes) (newtable : Newtable) :
    Option (Hash Bytes (Option ο) × Option ο) :=
  (CMap.Del cmapStrFns h name newtable).map fun q => (q.1,(q.2.map Prod.snd).join)

/-- With the objects that are freed. -/
def Clear (h : Hash Bytes (Option ο)) (junk junk' : ℕ) : Option (Hash Bytes (Option ο) × List ο) :=
  (CMap.Enum (fun freed _ obj => (obj.toList ++ freed,none)) h junk []).bind fun q =>
    (CMap.Clear cmapStrFns q.1 junk').map fun h => (h,q.2)

end Qctx

/-- A call to a context, with what the allocator returns in it. -/
inductive ObjEv (ο : Type)
  | mapObj (obj : Option ο) (name : Bytes) (new : ℕ) (newtable : Newtable)
  | delObj (name : Bytes) (newtable : Newtable)
  | remObj (name : Bytes) (newtable : Newtable)
  | clear (junk junk' : ℕ)

/-- The map of a context with the objects that it has been given, has freed and has given back. -/
structure ObjRun (ο : Type) where
  hash : Hash Bytes (Option ο)
  given : List ο
  freed : List ο
  taken : List ο

namespace ObjRun

def step (r : ObjRun ο) : ObjEv ο → Option (ObjRun ο)
  | .mapObj obj name new newtable => (Qctx.MapObj r.hash obj name new newtable).map fun q =>
      ⟨q.1,obj.toList ++ r.given,q.2.toList ++ r.freed,r.taken⟩
  | .delObj name newtable => (Qctx.RemObj r.hash name newtable).map fun q => ⟨q.1,r.given,q.2.toList ++ r.freed,r.taken⟩
  | .remObj name newtable => (Qctx.RemObj r.hash name newtable).map fun q => ⟨q.1,r.given,r.freed,q.2.toList ++ r.taken⟩
  | .clear junk junk' => (Qctx.Clear r.hash junk junk').map fun q => ⟨q.1,r.given,q.2 ++ r.freed,r.taken⟩

/-- No object is given to the context twice, and the allocator returns memory that is not in use. -/
def May (r : ObjRun ο) : ObjEv ο → Prop
  | .mapObj obj _ new _ => (∀ o ∈ obj, o ∉ r.given) ∧ new ∉ r.hash.live ∧ new < 2^61
  | _ => True

/-- Each object that has been given is bound, or freed, or given back. -/
def Owns (r : ObjRun ο) : Prop :=
  ∃ nodes m lost l, MapOk cmapStrFns r.hash nodes m lost ∧ Lists cmapStrFns.toKeyFns m l ∧ r.given.Nodup ∧
    (l.filterMap Prod.snd ++ (r.freed ++ r.taken)).Perm r.given

variable {r r' : ObjRun ο} {ev : ObjEv ο}

/-- The objects of an entry, and those of all the others. -/
theorem filterMap_perm {l : List (Bytes × Option ο)} {m : Bytes → Option (Option ο)} (hl : Lists cmapStrFns.toKeyFns m l)
    (c : Bytes) : (l.filterMap Prod.snd).Perm
      ((m c).join.toList ++ (l.filter fun e => cmapStrFns.cls e.1 ≠ c).filterMap Prod.snd) := by
  cases hc : m c with
  | none =>
    rw [hl.filter_eq_self hc]
    rfl
  | some obj =>
    obtain ⟨k,-,hperm⟩ := hl.perm hc
    refine (hperm.filterMap Prod.snd).trans ?_
    cases obj <;> rfl

/-- An entry is taken out, and its object goes to one of the two lists. -/
theorem Owns.remObj (hr : r.Owns) (name : Bytes) (newtable : Newtable) :
    ∃ h' o, Qctx.RemObj r.hash name newtable = some (h',o) ∧
      (ObjRun.mk h' r.given (o.toList ++ r.freed) r.taken).Owns ∧
      (ObjRun.mk h' r.given r.freed (o.toList ++ r.taken)).Owns := by
  obtain ⟨nodes,m,lost,l,hm,hl,hnd,hperm⟩ := hr
  obtain ⟨h',q,nodes',hrun,hq,hm'⟩ := hm.del name newtable
  have hsplit := filterMap_perm hl (cmapStrFns.cls name)
  refine ⟨h',(m (cmapStrFns.cls name)).join,?_,
    ⟨_,_,_,l.filter fun e => cmapStrFns.cls e.1 ≠ cmapStrFns.cls name,hm',?_,hnd,?_⟩,
    ⟨_,_,_,l.filter fun e => cmapStrFns.cls e.1 ≠ cmapStrFns.cls name,hm',?_,hnd,?_⟩⟩
  · rw [Qctx.RemObj,hrun,← hq]
    rfl
  · convert hl.filter (cmapStrFns.cls name)
  · refine List.Perm.trans ?_ hperm
    refine List.Perm.trans ?_ (hsplit.symm.append_right _)
    simp only [List.append_assoc]
    exact List.perm_append_comm_assoc _ _ _
  · convert hl.filter (cmapStrFns.cls name)
  · refine List.Perm.trans ?_ hperm
    refine List.Perm.trans ?_ (hsplit.symm.append_right _)
    simp only [List.append_assoc]
    refine List.Perm.trans ?_ (List.perm_append_comm_assoc _ _ _)
    exact List.Perm.append_left _ (List.perm_append_comm_assoc _ _ _)

theorem Owns.mapObj (hr : r.Owns) {obj : Option ο} {new : ℕ} (hobj : ∀ o ∈ obj, o ∉ r.given) (hnew : new ∉ r.hash.live)
    (haddr : new < 2^61) (name : Bytes) (newtable : Newtable) :
    ∃ h' o, Qctx.MapObj r.hash obj name new newtable = some (h',o) ∧
      (ObjRun.mk h' (obj.toList ++ r.given) (o.toList ++ r.freed) r.taken).Owns := by
  obtain ⟨nodes,m,lost,l,hm,hl,hnd,hperm⟩ := hr
  obtain ⟨h',nodes',hrun,hm'⟩ := hm.set hnew haddr name obj none newtable
  have hsplit := filterMap_perm hl (cmapStrFns.cls name)
  have hl' := (hl.filter (cmapStrFns.cls name)).cons (Function.update_self _ _ _) obj
  rw [Function.update_idem] at hl'
  refine ⟨h',(m (cmapStrFns.cls name)).join,?_,
    ⟨nodes',_,_,(name,obj)::l.filter fun e => cmapStrFns.cls e.1 ≠ cmapStrFns.cls name,hm',?_,?_,?_⟩⟩
  · rw [Qctx.MapObj,hrun]
    rfl
  · convert hl'
  · cases obj with
    | none => exact hnd
    | some o => exact List.nodup_cons.mpr ⟨hobj o rfl,hnd⟩
  · have hcons : ((name,obj)::l.filter fun e => cmapStrFns.cls e.1 ≠ cmapStrFns.cls name).filterMap Prod.snd =
        obj.toList ++ (l.filter fun e => cmapStrFns.cls e.1 ≠ cmapStrFns.cls name).filterMap Prod.snd := by
      cases obj <;> rfl
    rw [hcons,List.append_assoc]
    refine List.Perm.append_left _ (List.Perm.trans ?_ hperm)
    refine List.Perm.trans ?_ (hsplit.symm.append_right _)
    simp only [List.append_assoc]
    exact List.perm_append_comm_assoc _ _ _

theorem Owns.clear (hr : r.Owns) (junk junk' : ℕ) :
    ∃ h' os, Qctx.Clear r.hash junk junk' = some (h',os) ∧ (ObjRun.mk h' r.given (os ++ r.freed) r.taken).Owns := by
  obtain ⟨nodes,m,lost,l,hm,hl,hnd,hperm⟩ := hr
  obtain ⟨g,l',m',hl',henum,-,hg⟩ := hm.enum (fun freed _ obj => (obj.toList ++ freed,none)) junk []
  obtain ⟨h',hclear,hm'⟩ := hg.clear junk'
  rw [enumFold_free,List.append_nil] at henum
  have hobjs : (l'.filterMap Prod.snd).Perm (l.filterMap Prod.snd) := by
    have hid (l : List (Bytes × Option ο)) : l.filterMap Prod.snd = (l.map Prod.snd).filterMap id := by
      rw [List.filterMap_map]
      rfl
    rw [hid,hid]
    exact (hl'.perm_data hl).filterMap id
  refine ⟨h',(l'.filterMap Prod.snd).reverse,?_,⟨∅,_,lost,[],hm',⟨List.nodup_nil,by simp⟩,hnd,?_⟩⟩
  · rw [Qctx.Clear,henum,Option.bind_some,hclear]
    rfl
  · refine List.Perm.trans ?_ hperm
    rw [List.filterMap_nil,List.nil_append,List.append_assoc]
    exact ((List.reverse_perm _).trans hobjs).append_right _

theorem Owns.step (hr : r.Owns) (hmay : r.May ev) : ∃ r', r.step ev = some r' ∧ r'.Owns := by
  cases ev with
  | mapObj obj name new newtable =>
    obtain ⟨hobj,hnew,haddr⟩ := hmay
    obtain ⟨h',o,hrun,hr'⟩ := hr.mapObj hobj hnew haddr name newtable
    rw [ObjRun.step,hrun]
    exact ⟨_,rfl,hr'⟩
  | delObj name newtable =>
    obtain ⟨h',o,hrun,hr',-⟩ := hr.remObj name newtable
    rw [ObjRun.step,hrun]
    exact ⟨_,rfl,hr'⟩
  | remObj name newtable =>
    obtain ⟨h',o,hrun,-,hr'⟩ := hr.remObj name newtable
    rw [ObjRun.step,hrun]
    exact ⟨_,rfl,hr'⟩
  | clear junk junk' =>
    obtain ⟨h',os,hrun,hr'⟩ := hr.clear junk junk'
    rw [ObjRun.step,hrun]
    exact ⟨_,rfl,hr'⟩

/-- The name finds the object. -/
def Bound (r : ObjRun ο) (o : ο) : Prop := ∃ name, Qctx.FindL r.hash name = some (some o)

theorem Owns.bound_iff (hr : r.Owns) :
    ∃ l : List ο, (∀ o, o ∈ l ↔ r.Bound o) ∧ (l ++ (r.freed ++ r.taken)).Perm r.given ∧ r.given.Nodup := by
  obtain ⟨nodes,m,lost,l,hm,hl,hnd,hperm⟩ := hr
  refine ⟨_,fun o => ?_,hperm,hnd⟩
  rw [List.mem_filterMap,Bound]
  constructor
  · rintro ⟨e,he,ho⟩
    have hsome := (hl.2 (cmapStrFns.cls e.1) e.2).mpr ⟨e.1,he,rfl⟩
    refine ⟨e.1,?_⟩
    rw [Qctx.FindL,hm.find,hsome,ho]
    rfl
  · rintro ⟨name,hname⟩
    rw [Qctx.FindL,hm.find] at hname
    cases hc : m (cmapStrFns.cls name) with
    | none =>
      rw [hc] at hname
      cases hname
    | some obj =>
      rw [hc] at hname
      obtain ⟨k,hk,-⟩ := (hl.2 _ _).mp hc
      exact ⟨(k,obj),hk,Option.some.inj hname⟩

end ObjRun

/-- No object is freed twice, none that has been freed or given back can be found under any name, and none is
forgotten: what has been given to a context and is not found any more has been freed or given back. -/
theorem objects_freed_once {h : Hash Bytes (Option ο)} (hlive : h.live = []) (junk : ℕ → Option ℕ) :
    ∃ h₀, h.hash_create HASHCOUNT_T_MAX junk = some h₀ ∧
      ∀ evs, MeetsOnly ObjRun.step ObjRun.May ⟨h₀,[],[],[]⟩ evs →
        ∃ r, runFrom ObjRun.step ⟨h₀,[],[],[]⟩ evs = some r ∧ r.freed.Nodup ∧ r.taken.Nodup ∧
          (∀ o ∈ r.freed, o ∈ r.given ∧ o ∉ r.taken ∧ ¬r.Bound o) ∧ (∀ o ∈ r.taken, o ∈ r.given ∧ ¬r.Bound o) ∧
          ∀ o ∈ r.given, r.Bound o ∨ o ∈ r.freed ∨ o ∈ r.taken := by
  obtain ⟨h₀,hrun,hm⟩ := mapOk_create hlive cmapStrFns junk
  refine ⟨h₀,hrun,fun evs hmay => ?_⟩
  have hstart : (ObjRun.mk h₀ [] [] []).Owns :=
    ⟨∅,_,[],[],hm,⟨List.nodup_nil,by simp⟩,List.nodup_nil,List.Perm.refl _⟩
  obtain ⟨r,hr,howns⟩ := exists_of_meetsOnly (fun _ _ hr hmay => ObjRun.Owns.step hr hmay) hstart hmay
  obtain ⟨l,hbound,hperm,hnd⟩ := howns.bound_iff
  have hall := hperm.nodup_iff.mpr hnd
  obtain ⟨-,hrest,hapart⟩ := List.nodup_append.mp hall
  obtain ⟨hfreed,htaken,hdisj⟩ := List.nodup_append.mp hrest
  have hgiven {o : ο} (ho : o ∈ r.freed ∨ o ∈ r.taken) : o ∈ r.given :=
    hperm.mem_iff.mp (List.mem_append_right _ (List.mem_append.mpr ho))
  have hnot {o : ο} (ho : o ∈ r.freed ∨ o ∈ r.taken) : ¬r.Bound o := fun hb =>
    hapart o ((hbound o).mpr hb) o (List.mem_append.mpr ho) rfl
  refine ⟨r,hr,hfreed,htaken,fun o ho => ⟨hgiven (Or.inl ho),fun ht => hdisj o ho o ht rfl,hnot (Or.inl ho)⟩,
    fun o ho => ⟨hgiven (Or.inr ho),hnot (Or.inr ho)⟩,fun o ho => ?_⟩
  rcases List.mem_append.mp (hperm.mem_iff.mpr ho) with hl | hl
  · exact Or.inl ((hbound o).mp hl)
  · exact Or.inr (List.mem_append.mp hl)

theorem objects_freed_once_one :
    ∃ h₀, (Hash.blank none).hash_create HASHCOUNT_T_MAX (fun _ => none) = some h₀ ∧
      ∃ r, runFrom ObjRun.step ⟨h₀,[],[],[]⟩ [.mapObj (some 1) (str "x") 5 none,.delObj (str "X") none] = some r ∧
        r.freed.Nodup := by
  obtain ⟨h₀,hrun,hall⟩ := objects_freed_once (h := Hash.blank none) rfl fun _ => none
  have hlive : h₀.live = [] := live_of_hash_create defaultFns hrun
  have hnew : 5 ∉ h₀.live := hlive ▸ List.not_mem_nil
  obtain ⟨r,hr,hfreed,-⟩ := hall [.mapObj (some 1) (str "x") 5 none,.delObj (str "X") none] (meetsOnly_cons.mpr
    ⟨⟨fun _ _ => List.not_mem_nil,hnew,by decide⟩,fun _ _ => meetsOnly_cons.mpr ⟨trivial,fun t _ => meetsOnly_nil t⟩⟩)
  exact ⟨h₀,hrun,r,hr,hfreed⟩

end Smx
