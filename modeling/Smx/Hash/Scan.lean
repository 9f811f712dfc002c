import Smx.Hash.Update
import Smx.Lib.Run

/-! Scans of a table. The scanner holds the node that it returns next, so that the one returned last may
be deleted, and freed, before the scan goes on. -/
namespace Smx
variable {κ γ ν : Type} {f : KeyFns κ γ} {h h' : Hash κ ν} {bits n : ℕ} {nodes left : Finset ℕ} {node : ℕ}
  {scan : HScan}

/-- From `chain` on the loop stops at the first chain that is not empty. -/
theorem firstChain_spec {t : List (Option ℕ)} {chain k : ℕ} (hlen : chain+k ≤ t.length) :
    ∃ r, firstChain t chain k = some r ∧ chain ≤ r ∧ r ≤ chain+k ∧ (∀ i, chain ≤ i → i < r → t[i]? = some none) ∧
      (r < chain+k → t[r]? ≠ some none) := by
  induction k generalizing chain with
  | zero => exact ⟨chain,rfl,le_rfl,le_rfl,fun i hi hlt => absurd hlt (Nat.not_lt.mpr hi),fun hlt => absurd hlt (Nat.lt_irrefl _)⟩
  | succ k ih =>
    have hget := List.getElem?_eq_getElem (show chain < t.length by omega)
    rw [firstChain,hget,Option.bind_some]
    by_cases hnone : t[chain] = none
    · obtain ⟨r,hr,hge,hle,hempty,hfound⟩ := ih (show chain+1+k ≤ t.length by omega)
      rw [if_pos hnone]
      refine ⟨r,hr,by omega,by omega,fun i hi hlt => ?_,fun hlt => hfound (by omega)⟩
      by_cases hic : i = chain
      · rw [hic,hget,hnone]
      · exact hempty i (by omega) hlt
    · rw [if_neg hnone]
      refine ⟨chain,rfl,le_rfl,by omega,fun i hi hlt => absurd hlt (Nat.not_lt.mpr hi),fun _ hget' => ?_⟩
      exact hnone (Option.some.inj (hget.symm.trans hget'))

namespace Hash

/-- A scanner that has the nodes of `left` still to return. -/
def Scans (h : Hash κ ν) (bits : ℕ) (nodes : Finset ℕ) (scan : HScan) (left : Finset ℕ) : Prop :=
  scan.hash_next.elim (left = ∅) fun d => ∃ post, h.toMem.Holds (some d) (d::post) ∧
    (∀ a ∈ d::post, a ∈ nodes ∧ h.place bits a = scan.hash_chain) ∧
    ∀ a, a ∈ left ↔ a ∈ d::post ∨ a ∈ nodes ∧ scan.hash_chain < h.place bits a

/-- The scanner is set to the first chain from `chain` on that has a node. -/
theorem Ok.scanTo_spec (hok : h.Ok f bits nodes) {chain : ℕ} (old : ℕ) (hchain : chain ≤ 2^bits) :
    ∃ scan, (firstChain h.hash_table chain (h.hash_nchains-chain)).bind (scanTo h old) = some scan ∧
      h.Scans bits nodes scan (nodes.filter fun a => chain ≤ h.place bits a) := by
  have hlen : chain+(2^bits-chain) ≤ h.hash_table.length := by
    have hpos := Nat.two_pow_pos bits
    have hlast : 2^bits-1 ∈ {i | i < 2^bits} := Nat.sub_lt hpos one_pos
    have hlt := hok.buckets.lt_length hlast
    omega
  obtain ⟨r,hr,hge,hle,hempty,hfound⟩ := firstChain_spec hlen
  -- nothing hangs on the chains that are passed by
  have hpassed (a : ℕ) (ha : a ∈ nodes) (hca : chain ≤ h.place bits a) : r ≤ h.place bits a := by
    by_contra hlt
    have hcell := hempty (h.place bits a) hca (Nat.lt_of_not_le hlt)
    obtain ⟨cs,hcs,hmem⟩ := hok.buckets.chain (h.place_lt bits a) hcell
    obtain rfl : cs = [] := by simpa using hcs.1
    exact absurd ((hmem a).mpr ⟨ha,rfl⟩) List.not_mem_nil
  rw [hok.nchains,hr,Option.bind_some,scanTo,hok.nchains]
  by_cases hrn : r < 2^bits
  · obtain ⟨s,hs⟩ := hok.buckets.cell hrn
    obtain ⟨cs,hcs,hmem⟩ := hok.buckets.chain hrn hs
    rw [if_pos hrn,hs,Option.map_some]
    refine ⟨_,rfl,?_⟩
    cases s with
    | none => exact absurd hs (hfound (by omega))
    | some d =>
      cases cs with
      | nil => exact absurd (Chain.Mem.Holds.nil_iff.mp hcs) (by simp)
      | cons c post =>
        obtain rfl := Option.some.inj (Chain.Mem.Holds.cons_iff.mp hcs).1
        refine ⟨post,hcs,fun a ha => (hmem a).mp ha,fun a => ?_⟩
        rw [Finset.mem_filter,hmem]
        constructor
        · rintro ⟨ha,hca⟩
          rcases Nat.eq_or_lt_of_le (hpassed a ha hca) with heq | hlt
          · exact Or.inl ⟨ha,heq.symm⟩
          · exact Or.inr ⟨ha,hlt⟩
        · rintro (⟨ha,heq⟩ | ⟨ha,hlt⟩)
          · exact ⟨ha,heq ▸ hge⟩
          · exact ⟨ha,hge.trans (Nat.le_of_lt hlt)⟩
  · rw [if_neg hrn]
    refine ⟨_,rfl,?_⟩
    apply Finset.filter_eq_empty_iff.mpr
    intro a ha hca
    exact hrn ((hpassed a ha hca).trans_lt (h.place_lt bits a))

theorem Ok.hash_scan_begin_spec (hok : h.Ok f bits nodes) (junk : ℕ) :
    ∃ scan, hash_scan_begin h junk = some scan ∧ h.Scans bits nodes scan nodes := by
  obtain ⟨scan,hscan,hleft⟩ := hok.scanTo_spec junk (Nat.zero_le _)
  rw [Finset.filter_true_of_mem fun a _ => Nat.zero_le _] at hleft
  exact ⟨scan,hscan,hleft⟩

/-- At the end of a scan nothing is left. -/
theorem Scans.of_next_none (hs : h.Scans bits nodes scan left) (hnext : scan.hash_next = none) : left = ∅ := by
  rw [Scans,hnext] at hs
  exact hs

theorem Ok.hash_scan_next_spec (hok : h.Ok f bits nodes) (hs : h.Scans bits nodes scan left)
    (hnext : scan.hash_next = some node) :
    node ∈ left ∧ node ∈ nodes ∧ ∃ scan', hash_scan_next h scan = some (some node,scan') ∧
      h.Scans bits nodes scan' (left.erase node) := by
  rw [Scans,hnext] at hs
  obtain ⟨post,hpost,hchain,hmem⟩ := hs
  have hnd := (List.nodup_cons.mp hpost.nodup).1
  obtain ⟨-,hlive,hrest⟩ := Chain.Mem.Holds.cons_iff.mp hpost
  obtain ⟨hnodes,hplace⟩ := hchain node List.mem_cons_self
  have hleft : node ∈ left := (hmem node).mpr (Or.inl List.mem_cons_self)
  refine ⟨hleft,hnodes,?_⟩
  rw [hash_scan_next,hnext,Option.elim_some,Chain.Mem.get_of_mem hlive,Option.bind_some]
  cases post with
  | nil =>
    have hlast : h.next node = none := Chain.Mem.Holds.nil_iff.mp hrest
    have hle : scan.hash_chain+1 ≤ 2^bits := hplace ▸ h.place_lt bits node
    obtain ⟨scan',hscan,hs'⟩ := hok.scanTo_spec scan.hash_chain hle
    have herase : nodes.filter (fun a => scan.hash_chain+1 ≤ h.place bits a) = left.erase node := by
      ext a
      rw [Finset.mem_filter,Finset.mem_erase,hmem,List.mem_singleton]
      constructor
      · rintro ⟨ha,hlt⟩
        refine ⟨?_,Or.inr ⟨ha,hlt⟩⟩
        rintro rfl
        omega
      · rintro ⟨hne,rfl | ha⟩
        · exact absurd rfl hne
        · exact ha
    rw [hlast,Option.elim_none,hscan]
    exact ⟨scan',rfl,herase ▸ hs'⟩
  | cons p post =>
    have hp : h.next node = some p := (Chain.Mem.Holds.cons_iff.mp hrest).1
    rw [hp,Option.elim_some]
    refine ⟨_,rfl,post,hp ▸ hrest,fun a ha => hchain a (List.mem_cons_of_mem node ha),fun a => ?_⟩
    rw [Finset.mem_erase,hmem,List.mem_cons]
    constructor
    · rintro ⟨hne,(rfl | ha) | ha⟩
      · exact absurd rfl hne
      · exact Or.inl ha
      · exact Or.inr ha
    · rintro (ha | ⟨ha,hlt⟩)
      · exact ⟨ne_of_mem_of_not_mem ha hnd,Or.inl (Or.inr ha)⟩
      · refine ⟨?_,Or.inr ⟨ha,hlt⟩⟩
        rintro rfl
        exact absurd hplace hlt.ne'

/-- A node that the scan has returned already is deleted. -/
theorem Scans.deleted (hs : h.Scans bits nodes scan left) (hnode : node ∉ left) (hlive : ∀ a ∈ h.live, a ≠ node → a ∈ h'.live)
    (hkey : h'.hash_hkey = h.hash_hkey) (hnext : ∀ a, a ≠ node → h.next a ≠ some node → h'.next a = h.next a) :
    h'.Scans bits (nodes.erase node) scan left := by
  have hplace : h'.place bits = h.place bits := by
    funext a
    rw [place,hkey,place]
  cases hsn : scan.hash_next with
  | none =>
    rw [Scans,hsn] at hs ⊢
    exact hs
  | some d =>
    rw [Scans,hsn] at hs ⊢
    obtain ⟨post,hpost,hchain,hmem⟩ := hs
    have hne (a : ℕ) (ha : a ∈ d::post) : a ≠ node :=
      ne_of_mem_of_not_mem ((hmem a).mpr (Or.inl ha)) hnode
    refine ⟨post,hpost.congr (fun a ha => hlive a (hpost.2 a ha) (hne a ha)) fun a ha => ?_,fun a ha => ?_,fun a => ?_⟩
    · -- whatever points to the node stands before it, and the node is not left
      refine hnext a (hne a ha) fun hpoints => ?_
      obtain ⟨pre,rest,hsplit⟩ := List.append_of_mem ha
      rw [hsplit] at hpost
      have hrest := (Chain.Mem.Holds.cons_iff.mp hpost.suffix).2.2
      rw [hpoints] at hrest
      cases rest with
      | nil => exact absurd (Chain.Mem.Holds.nil_iff.mp hrest) (by simp)
      | cons b rest =>
        obtain rfl := Option.some.inj (Chain.Mem.Holds.cons_iff.mp hrest).1
        exact hne node (hsplit ▸ by simp) rfl
    · rw [hplace,Finset.mem_erase]
      exact ⟨⟨hne a ha,(hchain a ha).1⟩,(hchain a ha).2⟩
    · rw [hplace,hmem,Finset.mem_erase]
      constructor
      · rintro (ha | ha)
        · exact Or.inl ha
        · refine Or.inr ⟨⟨?_,ha.1⟩,ha.2⟩
          rintro rfl
          exact hnode ((hmem a).mpr (Or.inr ha))
      · rintro (ha | ha)
        · exact Or.inl ha
        · exact Or.inr ⟨ha.1.2,ha.2⟩

/-- A node outside of the table is given back. -/
theorem Ok.freenode_spec (hok : h.Ok f bits nodes) (hlive : node ∈ h.live) (hnode : node ∉ nodes) :
    freenode h node = some { h with live := h.live.erase node } ∧ Ok f { h with live := h.live.erase node } bits nodes := by
  refine ⟨if_pos hlive,{ hok with buckets := hok.buckets.congr_mem (fun a ha => ?_) fun _ _ => rfl }⟩
  exact (List.mem_erase_of_ne (ne_of_mem_of_not_mem ha hnode)).mpr (hok.live ha)

/-- What a call leaves of the nodes that stay allocated, where it frees those of `freed`. -/
structure Freed (h h' : Hash κ ν) (nodes freed : Finset ℕ) : Prop where
  live : ∀ a, a ∈ h'.live ↔ a ∈ h.live ∧ a ∉ freed
  nodup : h'.live.Nodup
  next : ∀ a ∉ nodes, h'.next a = h.next a
  hash_key : h'.hash_key = h.hash_key
  hash_data : h'.hash_data = h.hash_data
  hash_maxcount : h'.hash_maxcount = h.hash_maxcount

theorem Ok.hash_scan_delfree_spec (hok : h.Ok f bits nodes) (hnd : h.live.Nodup) (hnode : node ∈ nodes) :
    ∃ h', hash_scan_delfree f h node = some h' ∧ h'.Ok f bits (nodes.erase node) ∧ Freed h h' nodes {node} ∧
      h'.hash_hkey = h.hash_hkey ∧ ∀ a, a ≠ node → h.next a ≠ some node → h'.next a = h.next a := by
  obtain ⟨g,hg,hgok,hframe,hkey,hhkey,-,hnext⟩ := hok.hash_scan_delete_spec hnode
  have hlive : node ∈ g.live := hframe.live ▸ hok.live hnode
  obtain ⟨hfree,hok'⟩ := hgok.freenode_spec hlive (Finset.notMem_erase node nodes)
  rw [hash_scan_delfree,hg,Option.bind_some,hfree]
  have hndg : g.live.Nodup := hframe.live ▸ hnd
  refine ⟨_,rfl,hok',⟨fun a => ?_,hndg.erase node,hframe.next,hkey,hframe.hash_data,hframe.hash_maxcount⟩,hhkey,hnext⟩
  rw [hndg.mem_erase_iff,hframe.live,Finset.mem_singleton,and_comm]

/-- All nodes that the scan has still to return are deleted and freed, each of them once. -/
theorem Ok.freeNodes_spec {fuel : ℕ} (hok : h.Ok f bits nodes) (hnd : h.live.Nodup) (hs : h.Scans bits nodes scan left)
    (hsub : left ⊆ nodes) (hfuel : left.card ≤ fuel) :
    ∃ q, freeNodes f fuel h scan = some q ∧ q.1.Ok f bits (nodes \ left) ∧ Freed h q.1 nodes left ∧ q.2.Nodup ∧
      ∀ a, a ∈ q.2 ↔ a ∈ left := by
  induction fuel generalizing h scan nodes left with
  | zero =>
    obtain rfl := Finset.card_eq_zero.mp (Nat.le_zero.mp hfuel)
    cases hnext : scan.hash_next with
    | some d => exact absurd (hok.hash_scan_next_spec hs hnext).1 (Finset.notMem_empty d)
    | none =>
      refine ⟨(h,[]),?_,by simpa using hok,⟨by simp,hnd,fun _ _ => rfl,rfl,rfl,rfl⟩,List.nodup_nil,by simp⟩
      rw [freeNodes,hash_scan_next,hnext]
      rfl
  | succ fuel ih =>
    cases hnext : scan.hash_next with
    | none =>
      obtain rfl := hs.of_next_none hnext
      refine ⟨(h,[]),?_,by simpa using hok,⟨by simp,hnd,fun _ _ => rfl,rfl,rfl,rfl⟩,List.nodup_nil,by simp⟩
      rw [freeNodes,hash_scan_next,hnext]
      rfl
    | some d =>
      obtain ⟨hleft,hnode,scan',hscan,hs'⟩ := hok.hash_scan_next_spec hs hnext
      obtain ⟨g,hg,hgok,hfreed,hkey,hsame⟩ := hok.hash_scan_delfree_spec hnd hnode
      have hgs : g.Scans bits (nodes.erase d) scan' (left.erase d) := by
        refine hs'.deleted (Finset.notMem_erase d left) (fun a ha hne => ?_) hkey hsame
        rw [hfreed.live,Finset.mem_singleton]
        exact ⟨ha,hne⟩
      have hcard : (left.erase d).card ≤ fuel := by
        rw [Finset.card_erase_of_mem hleft]
        omega
      obtain ⟨q,hq,hqok,hqfreed,hqnd,hqmem⟩ := ih hgok hfreed.nodup hgs (Finset.erase_subset_erase d hsub) hcard
      refine ⟨(q.1,d::q.2),?_,?_,⟨fun a => ?_,hqfreed.nodup,fun a ha => ?_,hqfreed.hash_key.trans hfreed.hash_key,
        hqfreed.hash_data.trans hfreed.hash_data,hqfreed.hash_maxcount.trans hfreed.hash_maxcount⟩,?_,fun a => ?_⟩
      · rw [freeNodes,hscan,Option.bind_some,Option.elim_some,hg,Option.bind_some,hq]
        rfl
      · have hsdiff : nodes.erase d \ left.erase d = nodes \ left := by
          ext a
          simp only [Finset.mem_sdiff,Finset.mem_erase]
          by_cases had : a = d
          · simp [had,hleft]
          · simp [had]
        exact hsdiff ▸ hqok
      · rw [hqfreed.live,hfreed.live,Finset.mem_singleton,Finset.mem_erase]
        by_cases had : a = d
        · simp [had,hleft]
        · simp [had]
      · rw [hqfreed.next a fun hin => ha (Finset.mem_of_mem_erase hin),hfreed.next a ha]
      · refine List.nodup_cons.mpr ⟨fun hin => ?_,hqnd⟩
        exact Finset.notMem_erase d left ((hqmem d).mp hin)
      · rw [List.mem_cons,hqmem,Finset.mem_erase]
        by_cases had : a = d
        · simp [had,hleft]
        · simp [had]

/-- `hash_free_nodes` frees each node of the table once and leaves it empty. -/
theorem Ok.hash_free_nodes_spec (hok : h.Ok f bits nodes) (hnd : h.live.Nodup) (junk : ℕ) :
    ∃ q, hash_free_nodes f h junk = some q ∧ q.1.Ok f bits ∅ ∧ Freed h q.1 nodes nodes ∧ q.2.Nodup ∧
      ∀ a, a ∈ q.2 ↔ a ∈ nodes := by
  obtain ⟨scan,hscan,hs⟩ := hok.hash_scan_begin_spec junk
  have hfuel : nodes.card ≤ h.live.length := by
    have hsub : nodes.val.toList.Subperm h.live := by
      apply List.Nodup.subperm
      · exact Multiset.coe_nodup.mp (by simpa using nodes.nodup)
      · intro a ha
        exact hok.live (by simpa using ha)
    simpa using hsub.length_le
  obtain ⟨q,hq,hqok,hfreed,hqnd,hqmem⟩ := hok.freeNodes_spec hnd hs subset_rfl hfuel
  rw [Finset.sdiff_self] at hqok
  have hlen : q.1.hash_nchains ≤ q.1.hash_table.length := by
    have hpos := Nat.two_pow_pos bits
    have hlast : 2^bits-1 ∈ {i | i < 2^bits} := Nat.sub_lt hpos one_pos
    have hlt := hqok.buckets.lt_length hlast
    rw [hqok.nchains]
    omega
  obtain ⟨t,ht,-,hcells⟩ := clearCells_spec hlen
  rw [hash_free_nodes,hscan,Option.bind_some,hq,Option.bind_some,clear_table]
  simp only [ht,Option.map_some]
  refine ⟨_,rfl,?_,⟨hfreed.live,hfreed.nodup,hfreed.next,hfreed.hash_key,hfreed.hash_data,hfreed.hash_maxcount⟩,hqnd,hqmem⟩
  exact { hqok with
    nodecount := rfl
    buckets := Chain.Buckets.empty fun i hi => hcells i (hqok.nchains ▸ hi) }

end Hash

end Smx
