import Smx.Hash.Resize

/-! What one call does to a table: `hash_insert` adds its node and `hash_delete` takes it away, with no
assertion failing and nothing else written to. -/
namespace Smx
variable {κ γ ν : Type} {f : KeyFns κ γ} {h h' : Hash κ ν} {bits : ℕ} {nodes : Finset ℕ} {node : ℕ} {key : κ}
  {data : ν} {newtable : Newtable}

namespace Hash

theorem setNext_of_mem (hnode : node ∈ h.live) (v : Option ℕ) :
    setNext h node v = some { h with toMem := h.toMem.put node v } := by
  rw [setNext,Chain.Mem.set_of_mem hnode]
  rfl

/-- What a call leaves of the memory, where it writes to the pointers of `nodes` at most. -/
structure Frame (h h' : Hash κ ν) (nodes : Finset ℕ) : Prop where
  live : h'.live = h.live
  next : ∀ a ∉ nodes, h'.next a = h.next a
  hash_data : h'.hash_data = h.hash_data
  hash_maxcount : h'.hash_maxcount = h.hash_maxcount

theorem Kept.frame (hkept : Kept h h' nodes) : Frame h h' nodes :=
  ⟨hkept.live,hkept.next,hkept.hash_data,hkept.hash_maxcount⟩

theorem Frame.trans {h'' : Hash κ ν} {nodes' : Finset ℕ} (hf : Frame h h' nodes) (hf' : Frame h' h'' nodes')
    (hsub : nodes ⊆ nodes') : Frame h h'' nodes' :=
  ⟨hf'.live.trans hf.live,fun a ha => (hf'.next a ha).trans (hf.next a fun hin => ha (hsub hin)),
    hf'.hash_data.trans hf.hash_data,hf'.hash_maxcount.trans hf.hash_maxcount⟩

theorem Ok.link_spec (hok : h.Ok f bits nodes) (hlive : node ∈ h.live) (hnode : node ∉ nodes) (haddr : node < 2^61)
    (hnew : ∀ a ∈ nodes, f.cls (h.hash_key a) ≠ f.cls key) :
    ∃ h', link f h node key = some h' ∧ h'.Ok f bits (insert node nodes) ∧ Frame h h' (insert node nodes) ∧
      h'.hash_key = Function.update h.hash_key node key := by
  have hin : f.function key%2^bits ∈ {i | i < 2^bits} := Nat.mod_lt _ (Nat.two_pow_pos bits)
  obtain ⟨s,hs⟩ := hok.buckets.cell hin
  have hlinked : Ok f { h with
      toMem := h.toMem.put node s
      hash_key := Function.update h.hash_key node key
      hash_hkey := Function.update h.hash_hkey node (f.function key)
      hash_table := h.hash_table.set (f.function key%2^bits) (some node)
      hash_nodecount := h.hash_nodecount+1 } bits (insert node nodes) :=
    { bits_ge := hok.bits_ge
      bits_le := hok.bits_le
      nchains := hok.nchains
      mask := hok.mask
      highmark := hok.highmark
      lowmark := hok.lowmark
      dynamic := hok.dynamic
      nodecount := by
        rw [Finset.card_insert_of_notMem hnode,hok.nodecount]
      buckets := by
        have hother : ∀ a ∈ nodes, Function.update h.hash_hkey node (f.function key) a%2^bits = h.place bits a := by
          intro a ha
          rw [Function.update_of_ne (ne_of_mem_of_not_mem ha hnode),place]
        have hself : Function.update h.hash_hkey node (f.function key) node%2^bits = f.function key%2^bits := by
          rw [Function.update_self]
        have hpush := (hok.buckets.congr subset_rfl hother).push (hself ▸ hin) hnode hlive (hself ▸ hs)
        rw [hself] at hpush
        exact hpush
      hkey := by
        intro a ha
        by_cases han : a = node
        · simp [han]
        · simpa [han] using hok.hkey a ((Finset.mem_insert.mp ha).resolve_left han)
      unique := by
        intro a ha b hb hcls
        by_cases han : a = node <;> by_cases hbn : b = node
        · rw [han,hbn]
        · have hb := (Finset.mem_insert.mp hb).resolve_left hbn
          exact absurd (by simpa [han,hbn] using hcls.symm) (hnew b hb)
        · have ha := (Finset.mem_insert.mp ha).resolve_left han
          exact absurd (by simpa [han,hbn] using hcls) (hnew a ha)
        · exact hok.unique a ((Finset.mem_insert.mp ha).resolve_left han) b
            ((Finset.mem_insert.mp hb).resolve_left hbn) (by simpa [han,hbn] using hcls)
      aligned := by
        intro a ha
        rcases Finset.mem_insert.mp ha with rfl | ha
        · exact haddr
        · exact hok.aligned a ha }
  refine ⟨_,?_,hlinked,⟨rfl,fun a ha => ?_,rfl,rfl⟩,rfl⟩
  · rw [link,hok.and_mask,hs,Option.bind_some,Chain.Mem.set_of_mem hlive,Option.bind_some,
      putCell_of_lt (hok.buckets.lt_length hin),Option.bind_some]
    exact hlinked.verified_eq
  · exact Chain.Mem.put_next_of_ne (ne_of_mem_of_not_mem (Finset.mem_insert_self node nodes) ha).symm s

/-- The number of bits after an insertion. -/
def bitsInserted (h : Hash κ ν) (bits : ℕ) (newtable : Newtable) : ℕ :=
  if h.hash_highmark ≤ h.hash_nodecount ∧ newtable ≠ none then bits+1 else bits

/-- The number of bits after a deletion. -/
def bitsDeleted (h : Hash κ ν) (bits : ℕ) : ℕ :=
  if h.hash_nodecount ≤ h.hash_lowmark ∧ INIT_SIZE < h.hash_nodecount then bits-1 else bits

theorem Ok.hash_insert_spec (hok : h.Ok f bits nodes) (hlive : node ∈ h.live) (hnode : node ∉ nodes)
    (haddr : node < 2^61) (hnext : h.next node = none) (hroom : h.hash_nodecount < h.hash_maxcount)
    (hnew : ∀ a ∈ nodes, f.cls (h.hash_key a) ≠ f.cls key) (newtable : Newtable) :
    ∃ h', hash_insert f h node key newtable = some h' ∧ h'.Ok f (h.bitsInserted bits newtable) (insert node nodes) ∧
      Frame h h' (insert node nodes) ∧ h'.hash_key = Function.update h.hash_key node key := by
  rw [hash_insert,Chain.Mem.get_of_mem hlive,Option.bind_some,hok.hash_lookup_of_forall_ne hnew,Option.bind_some,
    if_pos ⟨hnext,hroom,rfl⟩]
  by_cases hfull : h.hash_highmark ≤ h.hash_nodecount
  · obtain ⟨g,hg,hkept,hgok⟩ := hok.grow_table_spec hfull newtable
    have hbits : h.bitsInserted bits newtable = if newtable = none then bits else bits+1 := by
      simp [bitsInserted,hfull,ite_not]
    rw [if_pos ⟨hok.dynamic,hfull⟩,hg,Option.bind_some,hbits]
    obtain ⟨h',hrun,hok',hframe,hkey⟩ := hgok.link_spec (hkept.live ▸ hlive) hnode haddr
      (hkept.hash_key ▸ hnew)
    exact ⟨h',hrun,hok',hkept.frame.trans hframe (Finset.subset_insert node nodes),hkept.hash_key ▸ hkey⟩
  · have hbits : h.bitsInserted bits newtable = bits := by
      simp [bitsInserted,hfull]
    rw [if_neg fun hcond => hfull hcond.2,Option.bind_some,hbits]
    exact hok.link_spec hlive hnode haddr hnew

theorem Ok.erase (hok : h.Ok f bits nodes) {m : Chain.Mem ℕ} {t : List (Option ℕ)} (hnode : node ∈ nodes)
    (hb : Chain.Buckets m t {i | i < 2^bits} (h.place bits) (nodes.erase node)) :
    Ok f { h with toMem := m, hash_table := t, hash_nodecount := h.hash_nodecount-1 } bits (nodes.erase node) :=
  { bits_ge := hok.bits_ge
    bits_le := hok.bits_le
    nchains := hok.nchains
    mask := hok.mask
    highmark := hok.highmark
    lowmark := hok.lowmark
    dynamic := hok.dynamic
    nodecount := by
      rw [Finset.card_erase_of_mem hnode,hok.nodecount]
    buckets := hb
    hkey := fun a ha => hok.hkey a (Finset.mem_of_mem_erase ha)
    unique := fun a ha b hb => hok.unique a (Finset.mem_of_mem_erase ha) b (Finset.mem_of_mem_erase hb)
    aligned := fun a ha => hok.aligned a (Finset.mem_of_mem_erase ha) }

/-- A write to the pointer of a node that is not in the table. -/
theorem Ok.put (hok : h.Ok f bits nodes) (hnode : node ∉ nodes) (v : Option ℕ) :
    Ok f { h with toMem := h.toMem.put node v } bits nodes :=
  { hok with buckets := hok.buckets.put_of_not_mem hnode v }

theorem Ok.unlink_spec (hok : h.Ok f bits nodes) (hnode : node ∈ nodes) :
    ∃ h', unlink h node = some h' ∧ h'.Ok f bits (nodes.erase node) ∧ Frame h h' nodes ∧ h'.hash_key = h.hash_key ∧
      h'.hash_hkey = h.hash_hkey ∧ h'.next node = none ∧
      ∀ a, a ≠ node → h.next a ≠ some node → h'.next a = h.next a := by
  have hin : h.place bits node ∈ {i | i < 2^bits} := h.place_lt bits node
  obtain ⟨s,hs⟩ := hok.buckets.cell hin
  have hchain : h.hash_hkey node &&& h.hash_mask = h.place bits node := hok.and_mask _
  have hlive := hok.live hnode
  have hgone : node ∉ nodes.erase node := Finset.notMem_erase node nodes
  rw [unlink,hchain,hs,Option.bind_some,hok.get hnode,Option.bind_some]
  by_cases hhead : s = some node
  · have hb := hok.buckets.erase_head hin (hhead ▸ hs)
    have hok' := hok.erase hnode hb
    rw [if_pos hhead,putCell_of_lt (hok.buckets.lt_length hin)]
    refine ⟨_,?_,hok'.put hgone none,⟨rfl,fun a ha => ?_,rfl,rfl⟩,rfl,rfl,Chain.Mem.put_next_self none,
      fun a ha _ => Chain.Mem.put_next_of_ne ha none⟩
    · simp only [Option.map_some,Option.bind_some]
      rw [hok'.verified_eq,Option.bind_some]
      exact setNext_of_mem (by exact hlive) none
    · exact Chain.Mem.put_next_of_ne (ne_of_mem_of_not_mem hnode ha).symm none
  · obtain ⟨p,hp,hplive,hpnext,hbefore,hb⟩ := hok.buckets.erase_behind hin hnode hs hhead
    have hok' := hok.erase hnode hb
    rw [if_neg hhead,hbefore,Option.bind_some,setNext_of_mem hplive,Option.bind_some]
    refine ⟨_,?_,hok'.put hgone none,⟨rfl,fun a ha => ?_,rfl,rfl⟩,rfl,rfl,Chain.Mem.put_next_self none,
      fun a ha hnext => (Chain.Mem.put_next_of_ne ha none).trans (Chain.Mem.put_next_of_ne ?_ _)⟩
    · rw [hok'.verified_eq,Option.bind_some]
      exact setNext_of_mem (by exact hlive) none
    · exact (Chain.Mem.put_next_of_ne (ne_of_mem_of_not_mem hnode ha).symm none).trans
        (Chain.Mem.put_next_of_ne (ne_of_mem_of_not_mem hp ha).symm _)
    · rintro rfl
      exact hnext hpnext

theorem Ok.hash_delete_spec (hok : h.Ok f bits nodes) (hnode : node ∈ nodes) (newtable : Newtable) :
    ∃ h', hash_delete f h node newtable = some h' ∧ h'.Ok f (h.bitsDeleted bits) (nodes.erase node) ∧
      Frame h h' nodes ∧ h'.hash_key = h.hash_key ∧ h'.next node = none := by
  rw [hash_delete,hok.belongs_eq hnode,Option.bind_some]
  by_cases hfew : h.hash_nodecount ≤ h.hash_lowmark ∧ INIT_SIZE < h.hash_nodecount
  · have hge : 6 ≤ bits := hok.bits_ge
    obtain ⟨b,rfl⟩ := Nat.exists_eq_add_one.mpr (show 0 < bits by omega)
    -- more nodes than `INIT_SIZE` are at most half as many as there are chains
    have hbits : INIT_BITS ≤ b := by
      have hlow : h.hash_lowmark = 2^b := by
        rw [hok.lowmark,Nat.pow_succ,Nat.mul_div_cancel _ Nat.two_pos]
      have hlt : 2^INIT_BITS < 2^b := by
        rw [← hlow]
        exact hfew.2.trans_le hfew.1
      exact ((Nat.pow_lt_pow_iff_right one_lt_two).mp hlt).le
    obtain ⟨g,hg,hkept,hgok⟩ := hok.shrink_table_spec hbits newtable
    have hdel : h.bitsDeleted (b+1) = b := if_pos hfew
    rw [if_pos ⟨hok.dynamic,hfew⟩,hg,Option.bind_some,hdel]
    obtain ⟨h',hrun,hok',hframe,hkey,-,hnext,-⟩ := hgok.unlink_spec hnode
    exact ⟨h',hrun,hok',hkept.frame.trans hframe subset_rfl,hkey.trans hkept.hash_key,hnext⟩
  · have hdel : h.bitsDeleted bits = bits := if_neg hfew
    rw [if_neg fun hcond => hfew hcond.2,Option.bind_some,hdel]
    obtain ⟨h',hrun,hok',hframe,hkey,-,hnext,-⟩ := hok.unlink_spec hnode
    exact ⟨h',hrun,hok',hframe,hkey,hnext⟩

theorem Ok.hash_scan_delete_spec (hok : h.Ok f bits nodes) (hnode : node ∈ nodes) :
    ∃ h', hash_scan_delete f h node = some h' ∧ h'.Ok f bits (nodes.erase node) ∧ Frame h h' nodes ∧
      h'.hash_key = h.hash_key ∧ h'.hash_hkey = h.hash_hkey ∧ h'.next node = none ∧
      ∀ a, a ≠ node → h.next a ≠ some node → h'.next a = h.next a := by
  rw [hash_scan_delete,hok.belongs_eq hnode,Option.bind_some]
  exact hok.unlink_spec hnode

/-- Nodes outside of the table may be allocated, written to and freed. -/
theorem Ok.congr_mem (hok : h.Ok f bits nodes) {m : Chain.Mem ℕ} {d : ℕ → ν} (hlive : ∀ a ∈ nodes, a ∈ m.live)
    (hnext : ∀ a ∈ nodes, m.next a = h.next a) : Ok f { h with toMem := m, hash_data := d } bits nodes :=
  { hok with buckets := hok.buckets.congr_mem hlive hnext }

theorem clearCells_spec {t : List (Option ℕ)} {n : ℕ} (hn : n ≤ t.length) :
    ∃ t', clearCells t n = some t' ∧ t'.length = t.length ∧ ∀ i < n, t'[i]? = some none := by
  induction n with
  | zero => exact ⟨t,rfl,rfl,fun i hi => absurd hi (Nat.not_lt_zero i)⟩
  | succ n ih =>
    obtain ⟨t',ht',hlen,hcells⟩ := ih (Nat.le_of_succ_le hn)
    have hlt : n < t'.length := hlen ▸ hn
    refine ⟨t'.set n none,?_,by rw [List.length_set,hlen],fun i hi => ?_⟩
    · rw [clearCells,ht',Option.bind_some,putCell_of_lt hlt]
    · by_cases hin : i = n
      · rw [hin,List.getElem?_set_self hlt]
      · rw [List.getElem?_set_ne (Ne.symm hin)]
        exact hcells i (by omega)

/-- A new table has no nodes, whatever the memory holds. -/
theorem hash_create_spec (f : KeyFns κ γ) (h : Hash κ ν) (maxcount : ℕ) (junk : ℕ → Option ℕ) :
    ∃ h', hash_create h maxcount junk = some h' ∧ h'.Ok f INIT_BITS ∅ ∧ h'.toMem = h.toMem ∧
      h'.hash_maxcount = maxcount := by
  obtain ⟨t,ht,-,hcells⟩ := clearCells_spec (reallocCells_length [] INIT_SIZE junk).ge
  have hok : Ok f { h with
      hash_table := t
      hash_nchains := INIT_SIZE
      hash_highmark := INIT_SIZE*2
      hash_lowmark := INIT_SIZE/2
      hash_nodecount := 0
      hash_maxcount := maxcount
      hash_mask := INIT_MASK
      hash_dynamic := true } INIT_BITS ∅ :=
    { bits_ge := le_rfl
      bits_le := by decide
      nchains := rfl
      mask := rfl
      highmark := rfl
      lowmark := rfl
      dynamic := rfl
      nodecount := rfl
      buckets := Chain.Buckets.empty hcells
      hkey := by simp
      unique := by simp
      aligned := by simp }
  refine ⟨_,?_,hok,rfl,rfl⟩
  rw [hash_create,clear_table]
  simp only [ht,Option.map_some,Option.bind_some]
  exact hok.verified_eq

end Hash

end Smx
