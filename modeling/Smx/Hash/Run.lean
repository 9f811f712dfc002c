import Smx.Hash.Scan
import Mathlib.Data.Set.Card

/-! Runs of a table. To its client a table is a set of nodes with keys, no two of them the same; and its
size is a function of how many nodes there are and of what has been done. -/
namespace Smx
variable {κ γ ν : Type}

/-- What a node is to the client of a table. -/
inductive NodeState (κ ν : Type)
  | absent
  | idle (data : ν)
  | linked (key : κ) (data : ν)

/-- A call, with what `malloc` and `realloc` return in it. -/
inductive HashEv (κ ν : Type)
  | alloc_insert (node : ℕ) (key : κ) (data : ν) (newtable : Newtable)
  | insert (node : ℕ) (key : κ) (newtable : Newtable)
  | delete (node : ℕ) (newtable : Newtable)
  | delete_free (node : ℕ) (newtable : Newtable)
  | scan_delete (node : ℕ)
  | scan_delfree (node : ℕ)
  | free_nodes (junk : ℕ)

def Hash.step (f : KeyFns κ γ) (h : Hash κ ν) : HashEv κ ν → Option (Hash κ ν)
  | .alloc_insert node key data newtable => h.hash_alloc_insert f node key data newtable
  | .insert node key newtable => h.hash_insert f node key newtable
  | .delete node newtable => h.hash_delete f node newtable
  | .delete_free node newtable => h.hash_delete_free f node newtable
  | .scan_delete node => h.hash_scan_delete f node
  | .scan_delfree node => h.hash_scan_delfree f node
  | .free_nodes junk => (h.hash_free_nodes f junk).map Prod.fst

namespace NodeState

def unlink : NodeState κ ν → NodeState κ ν
  | linked _ data => idle data
  | st => st

def link (key : κ) : NodeState κ ν → NodeState κ ν
  | idle data => linked key data
  | st => st

def free : NodeState κ ν → NodeState κ ν
  | linked _ _ => absent
  | st => st

end NodeState

/-- The nodes of a process, as the clients of a table see them. -/
abbrev NodeStore (κ ν : Type) := ℕ → NodeState κ ν

namespace NodeStore

/-- Node `n` is in the table under a key that compares equal. -/
def Has (f : KeyFns κ γ) (s : NodeStore κ ν) (key : κ) (n : ℕ) : Prop := ∃ k d, s n = .linked k d ∧ f.cls k = f.cls key

def linkedNodes (s : NodeStore κ ν) : Set ℕ := {n | ∃ k d, s n = .linked k d}

/-- A key may be inserted. -/
def Open (f : KeyFns κ γ) (maxcount : ℕ) (s : NodeStore κ ν) (key : κ) : Prop :=
  (∀ n, ¬s.Has f key n) ∧ s.linkedNodes.ncard < maxcount

/-- What the client has to see to. -/
def Allows (f : KeyFns κ γ) (maxcount : ℕ) (s : NodeStore κ ν) : HashEv κ ν → Prop
  | .alloc_insert node key _ _ => s node = .absent ∧ node < 2^61 ∧ s.Open f maxcount key
  | .insert node key _ => (∃ d, s node = .idle d) ∧ s.Open f maxcount key
  | .delete node _ | .delete_free node _ | .scan_delete node | .scan_delfree node => node ∈ s.linkedNodes
  | .free_nodes _ => True

def after (s : NodeStore κ ν) : HashEv κ ν → NodeStore κ ν
  | .alloc_insert node key data _ => Function.update s node (.linked key data)
  | .insert node key _ => Function.update s node ((s node).link key)
  | .delete node _ | .scan_delete node => Function.update s node (s node).unlink
  | .delete_free node _ | .scan_delfree node => Function.update s node .absent
  | .free_nodes _ => fun n => (s n).free

open Classical in
noncomputable def step (f : KeyFns κ γ) (maxcount : ℕ) (s : NodeStore κ ν) (ev : HashEv κ ν) : Option (NodeStore κ ν) :=
  if s.Allows f maxcount ev then some (s.after ev) else none

theorem step_eq_some {f : KeyFns κ γ} {maxcount : ℕ} {s t : NodeStore κ ν} {ev : HashEv κ ν}
    (h : s.step f maxcount ev = some t) : s.Allows f maxcount ev ∧ s.after ev = t := by
  classical
  rw [step] at h
  split_ifs at h with hallows
  exact ⟨hallows,Option.some.inj h⟩

end NodeStore

/-- The number of bits of the mask and the number of nodes. -/
structure HashSize where
  bits : ℕ
  count : ℕ

/-- Only memory that `realloc` does not find keeps a full table from growing. -/
def HashSize.inserted (newtable : Newtable) (z : HashSize) : HashSize :=
  ⟨if 2^z.bits*2 ≤ z.count ∧ newtable ≠ none then z.bits+1 else z.bits,z.count+1⟩

def HashSize.deleted (z : HashSize) : HashSize :=
  ⟨if z.count ≤ 2^z.bits/2 ∧ INIT_SIZE < z.count then z.bits-1 else z.bits,z.count-1⟩

def HashSize.after (z : HashSize) : HashEv κ ν → HashSize
  | .alloc_insert _ _ _ newtable | .insert _ _ newtable => z.inserted newtable
  | .delete _ _ | .delete_free _ _ => z.deleted
  | .scan_delete _ | .scan_delfree _ => ⟨z.bits,z.count-1⟩
  | .free_nodes _ => ⟨z.bits,0⟩

/-- A table that holds what the client thinks. -/
structure TableOf (f : KeyFns κ γ) (maxcount : ℕ) (h : Hash κ ν) (nodes : Finset ℕ) (z : HashSize)
    (s : NodeStore κ ν) : Prop where
  ok : h.Ok f z.bits nodes
  count : z.count = nodes.card
  maxcount : h.hash_maxcount = maxcount
  mem_nodes : ∀ n, n ∈ nodes ↔ n ∈ s.linkedNodes
  linked : ∀ n k d, s n = .linked k d → h.hash_key n = k ∧ h.hash_data n = d
  idle : ∀ n d, s n = .idle d → h.next n = none ∧ h.hash_data n = d
  live : ∀ n, n ∈ h.live ↔ s n ≠ .absent
  nodup : h.live.Nodup
  aligned : ∀ n ∈ h.live, n < 2^61

namespace TableOf
variable {f : KeyFns κ γ} {maxcount : ℕ} {h h' : Hash κ ν} {nodes : Finset ℕ} {z : HashSize} {s : NodeStore κ ν}
  {node : ℕ} {key : κ} {data : ν}

theorem nodecount (hr : TableOf f maxcount h nodes z s) : h.hash_nodecount = z.count :=
  hr.ok.nodecount.trans hr.count.symm

theorem ncard (hr : TableOf f maxcount h nodes z s) : s.linkedNodes.ncard = h.hash_nodecount := by
  have hset : s.linkedNodes = ↑nodes := by
    ext n
    exact (hr.mem_nodes n).symm
  rw [hset,Set.ncard_coe_finset,hr.ok.nodecount]

/-- What is not linked is in no table. -/
theorem not_mem_of_ne (hr : TableOf f maxcount h nodes z s) (hne : ∀ k d, s node ≠ .linked k d) : node ∉ nodes := by
  intro hin
  obtain ⟨k,d,hk⟩ := (hr.mem_nodes node).mp hin
  exact hne k d hk

theorem cls_ne_of_open (hr : TableOf f maxcount h nodes z s) (hopen : s.Open f maxcount key) :
    ∀ a ∈ nodes, f.cls (h.hash_key a) ≠ f.cls key := by
  intro a ha hcls
  obtain ⟨k,d,hk⟩ := (hr.mem_nodes a).mp ha
  rw [(hr.linked a k d hk).1] at hcls
  exact hopen.1 a ⟨k,d,hk,hcls⟩

/-- A search answers as the client expects. -/
theorem hash_lookup_iff (hr : TableOf f maxcount h nodes z s) (key : κ) :
    ∃ r, h.hash_lookup f key = some r ∧ ∀ n, r = some n ↔ s.Has f key n := by
  obtain ⟨r,hrun,hsome,hnone⟩ := hr.ok.hash_lookup_spec key
  refine ⟨r,hrun,fun n => ⟨fun hn => ?_,fun hn => ?_⟩⟩
  · obtain ⟨hin,hcls⟩ := hsome n hn
    obtain ⟨k,d,hk⟩ := (hr.mem_nodes n).mp hin
    exact ⟨k,d,hk,(hr.linked n k d hk).1 ▸ hcls⟩
  · obtain ⟨k,d,hk,hcls⟩ := hn
    rw [← (hr.linked n k d hk).1] at hcls
    have hin := (hr.mem_nodes n).mpr ⟨k,d,hk⟩
    exact Option.some.inj (hrun.symm.trans (hr.ok.hash_lookup_of_mem hin hcls))

/-- `hash->allocnode` and `hnode_init` of a node that nobody holds. -/
theorem alloc (hr : TableOf f maxcount h nodes z s) (habsent : s node = .absent) (haddr : node < 2^61) (data : ν) :
    ∃ h', ((h.allocnode node).bind fun h => h.hnode_init node data) = some h' ∧
      TableOf f maxcount h' nodes z (Function.update s node (.idle data)) := by
  have hnode : node ∉ nodes := hr.not_mem_of_ne fun k d => habsent ▸ by rintro ⟨⟩
  have hlive : node ∉ h.live := fun hin => (hr.live node).mp hin habsent
  rw [Hash.allocnode,if_pos ⟨hlive,haddr⟩,Option.bind_some,Hash.hnode_init]
  refine ⟨_,Hash.setNext_of_mem List.mem_cons_self none,?_⟩
  have hother {a : ℕ} (ha : a ≠ node) : Function.update s node (.idle data) a = s a := Function.update_of_ne ha _ _
  exact
    { ok := hr.ok.congr_mem (fun a ha => List.mem_cons_of_mem node (hr.ok.live ha))
        fun a ha => Chain.Mem.put_next_of_ne (ne_of_mem_of_not_mem ha hnode) none
      count := hr.count
      maxcount := hr.maxcount
      mem_nodes := by
        intro n
        by_cases hn : n = node
        · rw [hn]
          refine iff_of_false hnode ?_
          rintro ⟨k,d,hk⟩
          rw [Function.update_self] at hk
          cases hk
        · rw [hr.mem_nodes,NodeStore.linkedNodes,NodeStore.linkedNodes,Set.mem_ofPred_eq,Set.mem_ofPred_eq,hother hn]
      linked := by
        intro n k d hk
        by_cases hn : n = node
        · rw [hn,Function.update_self] at hk
          cases hk
        · rw [hother hn] at hk
          obtain ⟨hkey,hdata⟩ := hr.linked n k d hk
          exact ⟨hkey,(Function.update_of_ne hn _ _).trans hdata⟩
      idle := by
        intro n d hd
        by_cases hn : n = node
        · rw [hn,Function.update_self] at hd
          cases hd
          exact ⟨hn ▸ Chain.Mem.put_next_self none,hn ▸ Function.update_self _ _ _⟩
        · rw [hother hn] at hd
          obtain ⟨hnext,hdata⟩ := hr.idle n d hd
          exact ⟨(Chain.Mem.put_next_of_ne hn none).trans hnext,(Function.update_of_ne hn _ _).trans hdata⟩
      live := by
        intro n
        by_cases hn : n = node
        · rw [hn,Function.update_self]
          exact iff_of_true List.mem_cons_self (by rintro ⟨⟩)
        · rw [hother hn,← hr.live]
          exact ⟨fun hin => (List.mem_cons.mp hin).resolve_left hn,List.mem_cons_of_mem node⟩
      nodup := List.nodup_cons.mpr ⟨hlive,hr.nodup⟩
      aligned := by
        intro n hn
        rcases List.mem_cons.mp hn with rfl | hn
        · exact haddr
        · exact hr.aligned n hn }

theorem insert (hr : TableOf f maxcount h nodes z s) (hidle : s node = .idle data) (hopen : s.Open f maxcount key)
    (newtable : Newtable) :
    ∃ h', h.hash_insert f node key newtable = some h' ∧
      TableOf f maxcount h' (insert node nodes) (z.inserted newtable) (Function.update s node (.linked key data)) := by
  have hnode : node ∉ nodes := hr.not_mem_of_ne fun k d => hidle ▸ by rintro ⟨⟩
  have hlive : node ∈ h.live := (hr.live node).mpr (hidle ▸ by rintro ⟨⟩)
  obtain ⟨hnext,hdata⟩ := hr.idle node data hidle
  have hroom : h.hash_nodecount < h.hash_maxcount := by
    rw [hr.maxcount,← hr.ncard]
    exact hopen.2
  obtain ⟨h',hrun,hok,hframe,hkey⟩ := hr.ok.hash_insert_spec hlive hnode (hr.aligned node hlive) hnext hroom
    (hr.cls_ne_of_open hopen) newtable
  have hbits : h.bitsInserted z.bits newtable = (z.inserted newtable).bits := by
    rw [Hash.bitsInserted,HashSize.inserted,hr.ok.highmark,hr.nodecount]
  have hother {a : ℕ} (ha : a ≠ node) : Function.update s node (.linked key data) a = s a := Function.update_of_ne ha _ _
  refine ⟨h',hrun,?_⟩
  exact
    { ok := hbits ▸ hok
      count := by
        rw [Finset.card_insert_of_notMem hnode,HashSize.inserted,hr.count]
      maxcount := hframe.hash_maxcount.trans hr.maxcount
      mem_nodes := by
        intro n
        by_cases hn : n = node
        · rw [hn]
          exact iff_of_true (Finset.mem_insert_self node nodes) ⟨key,data,Function.update_self _ _ _⟩
        · rw [Finset.mem_insert,or_iff_right hn,hr.mem_nodes,NodeStore.linkedNodes,NodeStore.linkedNodes,
            Set.mem_ofPred_eq,Set.mem_ofPred_eq,hother hn]
      linked := by
        intro n k d hk
        rw [hkey,hframe.hash_data]
        by_cases hn : n = node
        · rw [hn,Function.update_self] at hk
          cases hk
          exact ⟨hn ▸ Function.update_self _ _ _,hn ▸ hdata⟩
        · rw [hother hn] at hk
          rw [Function.update_of_ne hn]
          exact hr.linked n k d hk
      idle := by
        intro n d hd
        have hn : n ≠ node := by
          rintro rfl
          rw [Function.update_self] at hd
          cases hd
        rw [hother hn] at hd
        have hnodes : n ∉ Insert.insert node nodes := by
          rw [Finset.mem_insert,or_iff_right hn]
          exact hr.not_mem_of_ne fun k e => hd ▸ by rintro ⟨⟩
        rw [hframe.next n hnodes,hframe.hash_data]
        exact hr.idle n d hd
      live := by
        intro n
        rw [hframe.live,hr.live]
        by_cases hn : n = node
        · rw [hn,Function.update_self,hidle]
          exact iff_of_true (by rintro ⟨⟩) (by rintro ⟨⟩)
        · rw [hother hn]
      nodup := hframe.live ▸ hr.nodup
      aligned := hframe.live ▸ hr.aligned }

/-- A node has left the table and stays allocated. -/
theorem erase (hr : TableOf f maxcount h nodes z s) (hnode : node ∈ nodes) {bits : ℕ}
    (hok : h'.Ok f bits (nodes.erase node)) (hframe : Hash.Frame h h' nodes) (hkey : h'.hash_key = h.hash_key)
    (hnext : h'.next node = none) :
    TableOf f maxcount h' (nodes.erase node) ⟨bits,z.count-1⟩ (Function.update s node (s node).unlink) := by
  obtain ⟨k₀,d₀,hk₀⟩ := (hr.mem_nodes node).mp hnode
  have hself : Function.update s node (s node).unlink node = .idle d₀ := by
    rw [Function.update_self,hk₀]
    rfl
  have hother {a : ℕ} (ha : a ≠ node) : Function.update s node (s node).unlink a = s a := Function.update_of_ne ha _ _
  exact
    { ok := hok
      count := by
        rw [Finset.card_erase_of_mem hnode,hr.count]
      maxcount := hframe.hash_maxcount.trans hr.maxcount
      mem_nodes := by
        intro n
        by_cases hn : n = node
        · rw [hn]
          refine iff_of_false (Finset.notMem_erase node nodes) ?_
          rintro ⟨k,d,hk⟩
          rw [hself] at hk
          cases hk
        · rw [Finset.mem_erase,and_iff_right hn,hr.mem_nodes,NodeStore.linkedNodes,NodeStore.linkedNodes,
            Set.mem_ofPred_eq,Set.mem_ofPred_eq,hother hn]
      linked := by
        intro n k d hk
        have hn : n ≠ node := by
          rintro rfl
          rw [hself] at hk
          cases hk
        rw [hother hn] at hk
        rw [hkey,hframe.hash_data]
        exact hr.linked n k d hk
      idle := by
        intro n d hd
        rw [hframe.hash_data]
        by_cases hn : n = node
        · rw [hn,hself] at hd
          cases hd
          rw [hn]
          exact ⟨hnext,(hr.linked node k₀ d₀ hk₀).2⟩
        · rw [hother hn] at hd
          rw [hframe.next n (hr.not_mem_of_ne fun k e => hd ▸ by rintro ⟨⟩)]
          exact hr.idle n d hd
      live := by
        intro n
        rw [hframe.live,hr.live]
        by_cases hn : n = node
        · rw [hn,hself,hk₀]
          exact iff_of_true (by rintro ⟨⟩) (by rintro ⟨⟩)
        · rw [hother hn]
      nodup := hframe.live ▸ hr.nodup
      aligned := hframe.live ▸ hr.aligned }

theorem delete (hr : TableOf f maxcount h nodes z s) (hnode : node ∈ nodes) (newtable : Newtable) :
    ∃ h', h.hash_delete f node newtable = some h' ∧
      TableOf f maxcount h' (nodes.erase node) z.deleted (Function.update s node (s node).unlink) := by
  obtain ⟨h',hrun,hok,hframe,hkey,hnext⟩ := hr.ok.hash_delete_spec hnode newtable
  have hbits : h.bitsDeleted z.bits = z.deleted.bits := by
    rw [Hash.bitsDeleted,HashSize.deleted,hr.ok.lowmark,hr.nodecount]
  rw [hbits] at hok
  exact ⟨h',hrun,hr.erase hnode hok hframe hkey hnext⟩

theorem scan_delete (hr : TableOf f maxcount h nodes z s) (hnode : node ∈ nodes) :
    ∃ h', h.hash_scan_delete f node = some h' ∧
      TableOf f maxcount h' (nodes.erase node) ⟨z.bits,z.count-1⟩ (Function.update s node (s node).unlink) := by
  obtain ⟨h',hrun,hok,hframe,hkey,-,hnext,-⟩ := hr.ok.hash_scan_delete_spec hnode
  exact ⟨h',hrun,hr.erase hnode hok hframe hkey hnext⟩

/-- Nodes are given back. -/
theorem freed (hr : TableOf f maxcount h nodes z s) {nodes' freed : Finset ℕ} {z' : HashSize} {s' : NodeStore κ ν}
    (hok : h'.Ok f z'.bits nodes') (hcount : z'.count = nodes'.card) (hfreed : Hash.Freed h h' nodes freed)
    (hs : ∀ n, s' n = if n ∈ freed then .absent else s n)
    (hnodes : ∀ n, n ∈ nodes' ↔ n ∈ nodes ∧ n ∉ freed) : TableOf f maxcount h' nodes' z' s' :=
  { ok := hok
    count := hcount
    maxcount := hfreed.hash_maxcount.trans hr.maxcount
    mem_nodes := by
      intro n
      rw [hnodes,hr.mem_nodes,NodeStore.linkedNodes,NodeStore.linkedNodes,Set.mem_ofPred_eq,Set.mem_ofPred_eq,hs]
      by_cases hn : n ∈ freed <;> simp [hn]
    linked := by
      intro n k d hk
      rw [hs] at hk
      split_ifs at hk with hn
      rw [hfreed.hash_key,hfreed.hash_data]
      exact hr.linked n k d hk
    idle := by
      intro n d hd
      rw [hs] at hd
      split_ifs at hd with hn
      rw [hfreed.next n (hr.not_mem_of_ne fun k e => hd ▸ by rintro ⟨⟩),hfreed.hash_data]
      exact hr.idle n d hd
    live := by
      intro n
      rw [hfreed.live,hr.live,hs]
      by_cases hn : n ∈ freed <;> simp [hn]
    nodup := hfreed.nodup
    aligned := fun n hn => hr.aligned n ((hfreed.live n).mp hn).1 }

theorem free_idle (hr : TableOf f maxcount h nodes z s) (hidle : s node = .idle data) :
    ∃ h', h.freenode node = some h' ∧ TableOf f maxcount h' nodes z (Function.update s node .absent) := by
  have hnode : node ∉ nodes := hr.not_mem_of_ne fun k d => hidle ▸ by rintro ⟨⟩
  have hlive : node ∈ h.live := (hr.live node).mpr (hidle ▸ by rintro ⟨⟩)
  obtain ⟨hrun,hok⟩ := hr.ok.freenode_spec hlive hnode
  have hfreed : Hash.Freed h { h with live := h.live.erase node } nodes {node} := by
    refine ⟨fun a => ?_,hr.nodup.erase node,fun _ _ => rfl,rfl,rfl,rfl⟩
    rw [hr.nodup.mem_erase_iff,Finset.mem_singleton,and_comm]
  refine ⟨_,hrun,hr.freed hok hr.count hfreed (fun n => ?_) fun n => ?_⟩
  · simp [Function.update_apply]
  · rw [Finset.mem_singleton]
    exact ⟨fun hn => ⟨hn,ne_of_mem_of_not_mem hn hnode⟩,And.left⟩

/-- A node that a deletion has made idle is given back at once. -/
theorem free_unlinked (hr : TableOf f maxcount h nodes z (Function.update s node (s node).unlink))
    (hnode : node ∈ s.linkedNodes) :
    ∃ h', h.freenode node = some h' ∧ TableOf f maxcount h' nodes z (Function.update s node .absent) := by
  obtain ⟨k,d,hk⟩ := hnode
  have hidle : Function.update s node (s node).unlink node = .idle d := by
    rw [Function.update_self,hk]
    rfl
  obtain ⟨h',hrun,hr'⟩ := hr.free_idle hidle
  rw [Function.update_idem] at hr'
  exact ⟨h',hrun,hr'⟩

theorem free_nodes (hr : TableOf f maxcount h nodes z s) (junk : ℕ) :
    ∃ q, h.hash_free_nodes f junk = some q ∧ TableOf f maxcount q.1 ∅ ⟨z.bits,0⟩ (fun n => (s n).free) ∧ q.2.Nodup ∧
      ∀ n, n ∈ q.2 ↔ n ∈ s.linkedNodes := by
  obtain ⟨q,hrun,hok,hfreed,hnd,hmem⟩ := hr.ok.hash_free_nodes_spec hr.nodup junk
  refine ⟨q,hrun,hr.freed hok rfl hfreed (fun n => ?_) (fun n => by simp),hnd,
    fun n => (hmem n).trans (hr.mem_nodes n)⟩
  by_cases hn : n ∈ nodes
  · obtain ⟨k,d,hk⟩ := (hr.mem_nodes n).mp hn
    rw [if_pos hn,hk]
    rfl
  · rw [if_neg hn]
    cases hsn : s n with
    | linked k d => exact absurd ((hr.mem_nodes n).mpr ⟨k,d,hsn⟩) hn
    | idle d => rfl
    | absent => rfl

/-- Each call that the client may make goes through. -/
theorem step {ev : HashEv κ ν} (hr : TableOf f maxcount h nodes z s) (hallows : s.Allows f maxcount ev) :
    ∃ h' nodes', h.step f ev = some h' ∧ TableOf f maxcount h' nodes' (z.after ev) (s.after ev) := by
  cases ev with
  | alloc_insert node key data newtable =>
    obtain ⟨habsent,haddr,hopen⟩ := hallows
    obtain ⟨g,hg,hgr⟩ := hr.alloc habsent haddr data
    have hopen' : NodeStore.Open f maxcount (Function.update s node (.idle data)) key := by
      refine ⟨?_,?_⟩
      · rintro n ⟨k,d,hk,hcls⟩
        have hn : n ≠ node := by
          rintro rfl
          rw [Function.update_self] at hk
          cases hk
        rw [Function.update_of_ne hn] at hk
        exact hopen.1 n ⟨k,d,hk,hcls⟩
      · have hsame := hgr.ncard
        rw [hgr.ok.nodecount,← hr.ok.nodecount,← hr.ncard] at hsame
        exact hsame ▸ hopen.2
    obtain ⟨h',hrun,hr'⟩ := hgr.insert (Function.update_self _ _ _) hopen' newtable
    rw [Function.update_idem] at hr'
    refine ⟨h',_,?_,hr'⟩
    obtain ⟨g',hg',hinit⟩ := Option.bind_eq_some_iff.mp hg
    rw [Hash.step,Hash.hash_alloc_insert,hg',Option.bind_some,hinit,Option.bind_some,hrun]
  | insert node key newtable =>
    obtain ⟨⟨d,hidle⟩,hopen⟩ := hallows
    obtain ⟨h',hrun,hr'⟩ := hr.insert hidle hopen newtable
    refine ⟨h',Insert.insert node nodes,hrun,?_⟩
    rw [NodeStore.after,hidle]
    exact hr'
  | delete node newtable =>
    obtain ⟨h',hrun,hr'⟩ := hr.delete ((hr.mem_nodes node).mpr hallows) newtable
    exact ⟨h',_,hrun,hr'⟩
  | delete_free node newtable =>
    obtain ⟨g,hg,hgr⟩ := hr.delete ((hr.mem_nodes node).mpr hallows) newtable
    obtain ⟨h',hrun,hr'⟩ := hgr.free_unlinked hallows
    refine ⟨h',_,?_,hr'⟩
    rw [Hash.step,Hash.hash_delete_free,hg,Option.bind_some,hrun]
  | scan_delete node =>
    obtain ⟨h',hrun,hr'⟩ := hr.scan_delete ((hr.mem_nodes node).mpr hallows)
    exact ⟨h',_,hrun,hr'⟩
  | scan_delfree node =>
    obtain ⟨g,hg,hgr⟩ := hr.scan_delete ((hr.mem_nodes node).mpr hallows)
    obtain ⟨h',hrun,hr'⟩ := hgr.free_unlinked hallows
    refine ⟨h',_,?_,hr'⟩
    rw [Hash.step,Hash.hash_scan_delfree,hg,Option.bind_some,hrun]
  | free_nodes junk =>
    obtain ⟨q,hrun,hr',-,-⟩ := hr.free_nodes junk
    refine ⟨q.1,_,?_,hr'⟩
    rw [Hash.step,hrun]
    rfl

/-- A table that has just been created, where no node is allocated. -/
theorem create {h : Hash κ ν} (hlive : h.live = []) (f : KeyFns κ γ) (maxcount : ℕ) (junk : ℕ → Option ℕ) :
    ∃ h', h.hash_create maxcount junk = some h' ∧ TableOf f maxcount h' ∅ ⟨INIT_BITS,0⟩ fun _ => .absent := by
  obtain ⟨h',hrun,hok,hmem,hmax⟩ := Hash.hash_create_spec f h maxcount junk
  have hnil : h'.live = [] := (congrArg Chain.Mem.live hmem).trans hlive
  refine ⟨h',hrun,hok,rfl,hmax,fun n => ?_,?_,?_,fun n => ?_,?_,?_⟩
  · refine iff_of_false (Finset.notMem_empty n) ?_
    rintro ⟨k,d,hk⟩
    cases hk
  · rintro n k d ⟨⟩
  · rintro n d ⟨⟩
  · rw [hnil]
    exact iff_of_false List.not_mem_nil fun hne => hne rfl
  · rw [hnil]
    exact List.nodup_nil
  · rw [hnil]
    exact List.forall_mem_nil _

end TableOf

section
variable {f : KeyFns κ γ} {maxcount : ℕ} {h : Hash κ ν} {evs : List (HashEv κ ν)} {s : NodeStore κ ν}

/-- Any number of calls that the client may make, from the creation of the table on. -/
theorem represents_of_run (hlive : h.live = []) (junk : ℕ → Option ℕ)
    (hrun : runFrom (NodeStore.step f maxcount) (fun _ => .absent) evs = some s) :
    ∃ h' nodes, ((h.hash_create maxcount junk).bind fun h => runFrom (Hash.step f) h evs) = some h' ∧
      TableOf f maxcount h' nodes (evs.foldl HashSize.after ⟨INIT_BITS,0⟩) s := by
  obtain ⟨g,hg,hr⟩ := TableOf.create hlive f maxcount junk
  rw [hg,Option.bind_some]
  generalize (⟨INIT_BITS,0⟩ : HashSize) = z at hr
  generalize (fun _ => .absent : NodeStore κ ν) = s₀ at hr hrun
  generalize (∅ : Finset ℕ) = nodes at hr
  clear hg
  induction evs generalizing g z s₀ nodes with
  | nil =>
    obtain rfl := Option.some.inj hrun
    exact ⟨g,nodes,rfl,hr⟩
  | cons ev evs ih =>
    rw [runFrom_cons] at hrun
    obtain ⟨s₁,hs₁,hrun⟩ := Option.bind_eq_some_iff.mp hrun
    obtain ⟨hallows,rfl⟩ := NodeStore.step_eq_some hs₁
    obtain ⟨g',nodes',hstep,hr'⟩ := hr.step hallows
    rw [runFrom_cons,hstep]
    exact ih g' _ _ hrun nodes' hr'

/-- Whatever its client does with a table, no assertion of `hash.c` fails, nothing that is not allocated is
touched and every loop ends; and the table finds just those nodes that have been inserted and not deleted
since, with their keys and their data. -/
theorem hash_refines (hlive : h.live = []) (junk : ℕ → Option ℕ)
    (hrun : runFrom (NodeStore.step f maxcount) (fun _ => .absent) evs = some s) :
    ∃ h', ((h.hash_create maxcount junk).bind fun h => runFrom (Hash.step f) h evs) = some h' ∧
      h'.hash_verify = some true ∧ h'.hash_nodecount = s.linkedNodes.ncard ∧
      (∀ n, n ∈ h'.live ↔ s n ≠ .absent) ∧
      (∀ n k d, s n = .linked k d → h'.hash_key n = k ∧ h'.hash_data n = d) ∧
      ∀ key, ∃ r, h'.hash_lookup f key = some r ∧ ∀ n, r = some n ↔ s.Has f key n := by
  obtain ⟨h',nodes,hrun',hr⟩ := represents_of_run hlive junk hrun
  exact ⟨h',hrun',hr.ok.hash_verify_eq,hr.ncard.symm,hr.live,hr.linked,hr.hash_lookup_iff⟩

end

/-- Memory before anything has been allocated in it. -/
def Hash.blank (d : ν) : Hash Bytes ν where
  live := []
  next _ := none
  hash_key _ := []
  hash_data _ := d
  hash_hkey _ := 0
  hash_table := []
  hash_nchains := 0
  hash_nodecount := 0
  hash_maxcount := 0
  hash_highmark := 0
  hash_lowmark := 0
  hash_mask := 0
  hash_dynamic := false

/-- The first key of all may be inserted. -/
theorem run_alloc_insert {f : KeyFns κ γ} {maxcount : ℕ} (hroom : 0 < maxcount) {node : ℕ} (haddr : node < 2^61) (key : κ)
    (data : ν) (newtable : Newtable) :
    runFrom (NodeStore.step f maxcount) (fun _ => .absent) [.alloc_insert node key data newtable] =
      some (Function.update (fun _ => .absent) node (.linked key data)) := by
  have hopen : NodeStore.Open f maxcount (fun _ => .absent : NodeStore κ ν) key := by
    refine ⟨?_,?_⟩
    · rintro n ⟨k,d,⟨⟩,-⟩
    · have hnone : NodeStore.linkedNodes (fun _ => .absent : NodeStore κ ν) = ∅ := by
        ext n
        exact iff_of_false (by rintro ⟨k,d,⟨⟩⟩) (Set.notMem_empty n)
      rw [hnone,Set.ncard_empty]
      exact hroom
  rw [runFrom_cons,NodeStore.step,if_pos ⟨rfl,haddr,hopen⟩]
  rfl

theorem hash_refines_one :
    ∃ h', (((Hash.blank 0).hash_create 1 fun _ => none).bind fun h =>
        runFrom (Hash.step defaultFns) h [.alloc_insert 5 (str "x") 7 none]) = some h' ∧
      h'.hash_verify = some true ∧ h'.hash_key 5 = str "x" ∧ h'.hash_data 5 = 7 := by
  obtain ⟨h',hrun,hverify,-,-,hlinked,-⟩ := hash_refines (f := defaultFns) (h := Hash.blank 0) rfl (fun _ => none)
    (run_alloc_insert one_pos (show 5 < 2^61 by decide) (str "x") 7 none)
  exact ⟨h',hrun,hverify,hlinked 5 (str "x") 7 (Function.update_self _ _ _)⟩

end Smx
