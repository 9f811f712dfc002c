import Smx.Hash.Run

/-! How many chains a table has for its nodes, and what a scan of it returns. -/
namespace Smx
variable {κ γ ν : Type}

/-- `realloc` finds the memory that a full table asks for. -/
def HashEv.HasMemory : HashEv κ ν → Prop
  | .alloc_insert _ _ _ newtable | .insert _ _ newtable => newtable ≠ none
  | _ => True

/-- Not one of the deletions that leave the table as large as it is. -/
def HashEv.Resizes : HashEv κ ν → Prop
  | .scan_delete _ | .scan_delfree _ | .free_nodes _ => False
  | _ => True

namespace HashSize
variable {z : HashSize} {ev : HashEv κ ν}

/-- At most two nodes for each chain. -/
def Light (z : HashSize) : Prop := z.count ≤ 2^z.bits*2

/-- At least one node for two chains, if there are many. -/
def Tight (z : HashSize) : Prop := z.bits ≤ INIT_BITS+1 ∨ 2^z.bits ≤ 2*z.count

theorem Light.after (hz : z.Light) (hmem : ev.HasMemory) : (z.after ev).Light := by
  have hinserted {newtable : Newtable} (hnew : newtable ≠ none) : (z.inserted newtable).Light := by
    rw [Light] at hz ⊢
    simp only [inserted,hnew,ne_eq,not_false_eq_true,and_true]
    split_ifs with hfull
    · rw [Nat.pow_succ]
      have hpos := Nat.two_pow_pos z.bits
      omega
    · omega
  have hdeleted : z.deleted.Light := by
    rw [Light] at hz ⊢
    simp only [deleted]
    split_ifs with hfew
    · have hpow : 2^z.bits ≤ 2^(z.bits-1)*2 := by
        rw [← Nat.pow_succ]
        exact Nat.pow_le_pow_right Nat.two_pos (by omega)
      omega
    · omega
  cases ev with
  | alloc_insert node key data newtable => exact hinserted hmem
  | insert node key newtable => exact hinserted hmem
  | delete node newtable => exact hdeleted
  | delete_free node newtable => exact hdeleted
  | scan_delete node => exact (Nat.sub_le z.count 1).trans hz
  | scan_delfree node => exact (Nat.sub_le z.count 1).trans hz
  | free_nodes junk => exact Nat.zero_le _

theorem Tight.after (hz : z.Tight) (hres : ev.Resizes) : (z.after ev).Tight := by
  have hinserted (newtable : Newtable) : (z.inserted newtable).Tight := by
    rw [Tight] at hz ⊢
    simp only [inserted]
    split_ifs with hfull
    · right
      rw [Nat.pow_succ]
      omega
    · omega
  have hdeleted : z.deleted.Tight := by
    rw [Tight] at hz ⊢
    simp only [deleted]
    have hhalf (hbits : 0 < z.bits) : 2^z.bits = 2^(z.bits-1)*2 := by
      rw [← Nat.pow_succ,Nat.succ_eq_add_one,Nat.sub_add_cancel hbits]
    split_ifs with hfew
    · rcases hz with hle | hmany
      · left
        omega
      · right
        by_cases hbits : 0 < z.bits
        · have := hhalf hbits
          have hsize : INIT_SIZE = 64 := rfl
          omega
        · rw [Nat.eq_zero_of_not_pos hbits] at hfew
          exact absurd (hfew.2.trans_le hfew.1) (by decide)
    · rcases hz with hle | hmany
      · exact Or.inl hle
      · -- no more than `INIT_SIZE` nodes cannot be so many for more than twice as many chains
        by_cases hbits : z.bits ≤ INIT_BITS+1
        · exact Or.inl hbits
        · right
          have hbits : 8 ≤ z.bits := Nat.lt_of_not_le hbits
          have hpow : 2^8 ≤ 2^z.bits := Nat.pow_le_pow_right Nat.two_pos hbits
          have hsize : INIT_SIZE = 64 := rfl
          omega
  cases ev with
  | alloc_insert node key data newtable => exact hinserted newtable
  | insert node key newtable => exact hinserted newtable
  | delete node newtable => exact hdeleted
  | delete_free node newtable => exact hdeleted
  | scan_delete node => exact hres.elim
  | scan_delfree node => exact hres.elim
  | free_nodes junk => exact hres.elim

/-- A table shrinks only while it has more than `INIT_SIZE` nodes, and then to as many chains at least. -/
theorem grown_after (hz : INIT_BITS < z.bits) (ev : HashEv κ ν) : INIT_BITS < (z.after ev).bits := by
  have hinserted (newtable : Newtable) : INIT_BITS < (z.inserted newtable).bits := by
    simp only [inserted]
    split_ifs <;> omega
  have hdeleted : INIT_BITS < z.deleted.bits := by
    simp only [deleted]
    split_ifs with hfew
    · have hlt : INIT_SIZE*2 < 2^z.bits := by omega
      have hpow : 2^(INIT_BITS+1) < 2^z.bits := hlt
      have hbits := (Nat.pow_lt_pow_iff_right one_lt_two).mp hpow
      omega
    · exact hz
  cases ev with
  | alloc_insert node key data newtable => exact hinserted newtable
  | insert node key newtable => exact hinserted newtable
  | delete node newtable => exact hdeleted
  | delete_free node newtable => exact hdeleted
  | scan_delete node => exact hz
  | scan_delfree node => exact hz
  | free_nodes junk => exact hz

end HashSize

section
variable {f : KeyFns κ γ} {maxcount : ℕ} {h : Hash κ ν} {evs evs' : List (HashEv κ ν)} {s s' : NodeStore κ ν}

end

/-- A step of a scan. -/
inductive ScanEv
  | next
  | delete (node : ℕ)
  | delfree (node : ℕ)

/-- A scan, with the nodes that it has returned and those that have been deleted since it began. -/
structure ScanRun (κ ν : Type) where
  hash : Hash κ ν
  scan : HScan
  returned : List ℕ
  gone : List ℕ

namespace ScanRun

def step (f : KeyFns κ γ) (r : ScanRun κ ν) : ScanEv → Option (ScanRun κ ν)
  | .next => (r.hash.hash_scan_next r.scan).map fun q => ⟨r.hash,q.2,q.1.toList ++ r.returned,r.gone⟩
  | .delete node => (r.hash.hash_scan_delete f node).map fun h => ⟨h,r.scan,r.returned,node::r.gone⟩
  | .delfree node => (r.hash.hash_scan_delfree f node).map fun h => ⟨h,r.scan,r.returned,node::r.gone⟩

/-- Only nodes that the scan has returned are deleted, and none of them twice. -/
def May (r : ScanRun κ ν) : ScanEv → Prop
  | .next => True
  | .delete node | .delfree node => node ∈ r.returned ∧ node ∉ r.gone

/-- The nodes returned and those left make up all nodes that there were. -/
structure Sound (f : KeyFns κ γ) (bits : ℕ) (nodes : Finset ℕ) (keys : ℕ → κ) (r : ScanRun κ ν) (left : Finset ℕ) :
    Prop where
  ok : r.hash.Ok f bits (nodes.filter (· ∉ r.gone))
  scans : r.hash.Scans bits (nodes.filter (· ∉ r.gone)) r.scan left
  live : r.hash.live.Nodup
  nodup : r.returned.Nodup
  apart : ∀ a ∈ left, a ∉ r.returned
  all : ∀ a, a ∈ nodes ↔ a ∈ r.returned ∨ a ∈ left
  gone : ∀ a ∈ r.gone, a ∈ r.returned
  keys : r.hash.hash_key = keys

variable {f : KeyFns κ γ} {bits : ℕ} {nodes left : Finset ℕ} {keys : ℕ → κ} {r : ScanRun κ ν} {ev : ScanEv}

/-- What both ways to delete a node leave behind. -/
theorem Sound.deleted (hr : r.Sound f bits nodes keys left) {node : ℕ} (hnode : node ∈ r.returned) (hgone : node ∉ r.gone)
    {h' : Hash κ ν} (hok : h'.Ok f bits ((nodes.filter (· ∉ r.gone)).erase node)) (hnd : h'.live.Nodup)
    (hlive : ∀ a ∈ r.hash.live, a ≠ node → a ∈ h'.live) (hkey : h'.hash_key = r.hash.hash_key)
    (hhkey : h'.hash_hkey = r.hash.hash_hkey)
    (hnext : ∀ a, a ≠ node → r.hash.next a ≠ some node → h'.next a = r.hash.next a) :
    (ScanRun.mk h' r.scan r.returned (node::r.gone)).Sound f bits nodes keys left := by
  have hleft : node ∉ left := fun hin => hr.apart node hin hnode
  have hset : (nodes.filter (· ∉ r.gone)).erase node = nodes.filter (· ∉ node::r.gone) := by
    ext a
    rw [Finset.mem_erase,Finset.mem_filter,Finset.mem_filter,List.mem_cons,not_or]
    tauto
  exact
    { ok := hset ▸ hok
      scans := hset ▸ hr.scans.deleted hleft hlive hhkey hnext
      live := hnd
      nodup := hr.nodup
      apart := hr.apart
      all := hr.all
      gone := by
        intro a ha
        rcases List.mem_cons.mp ha with rfl | ha
        · exact hnode
        · exact hr.gone a ha
      keys := hkey.trans hr.keys }

theorem Sound.step (hr : r.Sound f bits nodes keys left) (hmay : r.May ev) :
    ∃ r' left', r.step f ev = some r' ∧ r'.Sound f bits nodes keys left' := by
  have hin {node : ℕ} (hnode : node ∈ r.returned) (hgone : node ∉ r.gone) : node ∈ nodes.filter (· ∉ r.gone) :=
    Finset.mem_filter.mpr ⟨(hr.all node).mpr (Or.inl hnode),hgone⟩
  cases ev with
  | next =>
    rw [ScanRun.step]
    cases hnext : r.scan.hash_next with
    | none =>
      rw [Hash.hash_scan_next,hnext]
      exact ⟨_,left,rfl,hr.ok,hr.scans,hr.live,hr.nodup,hr.apart,hr.all,hr.gone,hr.keys⟩
    | some node =>
      obtain ⟨hleft,-,scan',hscan,hs'⟩ := hr.ok.hash_scan_next_spec hr.scans hnext
      rw [hscan]
      refine ⟨_,left.erase node,rfl,hr.ok,hs',hr.live,?_,fun a ha => ?_,fun a => ?_,fun a ha => ?_,hr.keys⟩
      · exact List.nodup_cons.mpr ⟨hr.apart node hleft,hr.nodup⟩
      · obtain ⟨hne,ha⟩ := Finset.mem_erase.mp ha
        intro hret
        exact ((List.mem_cons.mp hret).elim hne (hr.apart a ha))
      · rw [hr.all,Finset.mem_erase]
        change _ ↔ a ∈ node::r.returned ∨ _
        rw [List.mem_cons]
        by_cases han : a = node
        · simp [han,hleft]
        · simp [han]
      · exact List.mem_cons_of_mem node (hr.gone a ha)
  | delete node =>
    obtain ⟨hnode,hgone⟩ := hmay
    obtain ⟨h',hrun,hok,hframe,hkey,hhkey,-,hnext⟩ := hr.ok.hash_scan_delete_spec (hin hnode hgone)
    rw [ScanRun.step,hrun]
    exact ⟨_,left,rfl,hr.deleted hnode hgone hok (hframe.live ▸ hr.live) (fun a ha _ => hframe.live ▸ ha) hkey hhkey
      hnext⟩
  | delfree node =>
    obtain ⟨hnode,hgone⟩ := hmay
    obtain ⟨h',hrun,hok,hfreed,hhkey,hnext⟩ := hr.ok.hash_scan_delfree_spec hr.live (hin hnode hgone)
    rw [ScanRun.step,hrun]
    refine ⟨_,left,rfl,hr.deleted hnode hgone hok hfreed.nodup (fun a ha hne => ?_) hfreed.hash_key hhkey hnext⟩
    rw [hfreed.live,Finset.mem_singleton]
    exact ⟨ha,hne⟩

end ScanRun

section
variable {f : KeyFns κ γ} {maxcount : ℕ} {h : Hash κ ν} {evs : List (HashEv κ ν)} {s : NodeStore κ ν}

end

end Smx
