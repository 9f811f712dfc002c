import Smx.Lib.Buckets
import Smx.Hash.Table
import Mathlib.Tactic.Ring
import Mathlib.Order.Interval.Finset.Nat

/-! What holds of a table between any two calls: its sizes, its marks, and that each node hangs on the
chain of its hash value. All assertions of `hash.c` follow from it. -/
namespace Smx

theorem shiftedOut_two_pow {k bits : ℕ} (h : k ≤ bits) : shiftedOut bits (2^k) = true := by
  induction bits generalizing k with
  | zero =>
    obtain rfl := Nat.le_zero.mp h
    rfl
  | succ bits ih =>
    cases k with
    | zero => rfl
    | succ k =>
      have heven : 2^(k+1) &&& 1 = 0 := by
        rw [Nat.and_one_is_mod,Nat.pow_succ]
        omega
      have hhalf : 2^(k+1) >>> 1 = 2^k := by
        rw [Nat.shiftRight_one,Nat.pow_succ]
        omega
      rw [shiftedOut,if_pos heven,hhalf]
      exact ih (Nat.le_of_succ_le_succ h)

theorem is_power_of_two_two_pow {k : ℕ} (h : k ≤ 64) : is_power_of_two (2^k) = true := by
  rw [is_power_of_two,if_neg (Nat.two_pow_pos k).ne',shiftedOut_two_pow h]

theorem putCell_of_lt {t : List (Option ℕ)} {i : ℕ} (h : i < t.length) (v : Option ℕ) :
    putCell t i v = some (t.set i v) := if_pos h

theorem reallocCells_length (t : List (Option ℕ)) (n : ℕ) (junk : ℕ → Option ℕ) :
    (reallocCells t n junk).length = n := by
  simp [reallocCells]

/-- Cells that both arrays have keep what they hold. -/
theorem reallocCells_getElem? {t : List (Option ℕ)} {n i : ℕ} (junk : ℕ → Option ℕ) (hn : i < n) (ht : i < t.length) :
    (reallocCells t n junk)[i]? = t[i]? := by
  simp [reallocCells,hn,ht]

variable {κ γ ν : Type} {f : KeyFns κ γ} {h h' : Hash κ ν} {bits n : ℕ} {nodes : Finset ℕ} {node : ℕ} {key : κ}

namespace Hash

/-- The chain of a node in a table of `2^bits` chains. -/
def place (h : Hash κ ν) (bits a : ℕ) : ℕ := h.hash_hkey a%2^bits

theorem place_lt (h : Hash κ ν) (bits a : ℕ) : h.place bits a < 2^bits := Nat.mod_lt _ (Nat.two_pow_pos bits)

/-- A table of `2^bits` chains with the nodes `nodes`. -/
structure Ok (f : KeyFns κ γ) (h : Hash κ ν) (bits : ℕ) (nodes : Finset ℕ) : Prop where
  bits_ge : INIT_BITS ≤ bits
  bits_le : bits ≤ 61
  nchains : h.hash_nchains = 2^bits
  mask : h.hash_mask = 2^bits-1
  highmark : h.hash_highmark = 2^bits*2
  lowmark : h.hash_lowmark = 2^bits/2
  dynamic : h.hash_dynamic = true
  nodecount : h.hash_nodecount = nodes.card
  buckets : Chain.Buckets h.toMem h.hash_table {i | i < 2^bits} (h.place bits) nodes
  hkey : ∀ a ∈ nodes, h.hash_hkey a = f.function (h.hash_key a)
  unique : ∀ a ∈ nodes, ∀ b ∈ nodes, f.cls (h.hash_key a) = f.cls (h.hash_key b) → a = b
  /-- There are no more nodes than addresses. -/
  aligned : ∀ a ∈ nodes, a < 2^61

namespace Ok

theorem and_mask (hok : h.Ok f bits nodes) (x : ℕ) : x &&& h.hash_mask = x%2^bits := by
  rw [hok.mask,Nat.and_two_pow_sub_one_eq_mod]

theorem live (hok : h.Ok f bits nodes) {a : ℕ} (ha : a ∈ nodes) : a ∈ h.live :=
  hok.buckets.mem_live ha (h.place_lt bits a)

theorem get (hok : h.Ok f bits nodes) {a : ℕ} (ha : a ∈ nodes) : h.get a = some (h.next a) :=
  Chain.Mem.get_of_mem (hok.live ha)

theorem nodecount_le (hok : h.Ok f bits nodes) : h.hash_nodecount ≤ 2^61 := by
  have hsub : nodes ⊆ Finset.range (2^61) := fun a ha => Finset.mem_range.mpr (hok.aligned a ha)
  have hcard := Finset.card_le_card hsub
  rw [Finset.card_range] at hcard
  rw [hok.nodecount]
  exact hcard

theorem verifyChains_eq (hok : h.Ok f bits nodes) (hn : n ≤ 2^bits) :
    h.verifyChains n = some (some (nodes.filter fun a => h.place bits a < n).card) := by
  induction n with
  | zero => simp [verifyChains]
  | succ n ih =>
    have hin : n ∈ {i | i < 2^bits} := hn
    obtain ⟨s,hs⟩ := hok.buckets.cell hin
    obtain ⟨cs,hcs,hmem⟩ := hok.buckets.chain hin hs
    have hall : ∀ c ∈ cs, (h.hash_hkey c &&& h.hash_mask == n) = true := by
      intro c hc
      rw [hok.and_mask,beq_iff_eq]
      exact ((hmem c).mp hc).2
    rw [verifyChains,ih (Nat.le_of_succ_le hn),Option.bind_some,Option.elim_some,hs,Option.bind_some,
      Chain.count_eq hcs hcs.length_le hall,Chain.Buckets.length_eq hcs hmem,← Finset.card_union_of_disjoint]
    · congr 3
      rw [← Finset.filter_or]
      congr 1
      ext a
      rw [← le_iff_lt_or_eq,Nat.lt_succ_iff]
    · rw [Finset.disjoint_filter]
      intro a _ hlt heq
      exact absurd heq hlt.ne

/-- The check that `hash.c` asserts after each of its operations. -/
theorem hash_verify_eq (hok : h.Ok f bits nodes) : h.hash_verify = some true := by
  have hbits : 6 ≤ bits := hok.bits_ge
  have hle := hok.bits_le
  have hpos := Nat.two_pow_pos bits
  have hhigh : is_power_of_two h.hash_highmark = true := by
    rw [hok.highmark,← Nat.pow_succ]
    exact is_power_of_two_two_pow (by omega)
  have hlow : is_power_of_two h.hash_lowmark = true := by
    obtain ⟨b,rfl⟩ := Nat.exists_eq_add_one.mpr (show 0 < bits by omega)
    rw [hok.lowmark,Nat.pow_succ,Nat.mul_div_cancel _ Nat.two_pos]
    exact is_power_of_two_two_pow (by omega)
  have hmarks : ¬h.hash_highmark ≤ h.hash_lowmark := by
    rw [hok.highmark,hok.lowmark]
    omega
  have hall : (nodes.filter fun a => h.place bits a < 2^bits) = nodes :=
    Finset.filter_true_of_mem fun a _ => h.place_lt bits a
  rw [hash_verify,hok.nchains,hok.verifyChains_eq le_rfl,hall,hok.nodecount,hhigh,hlow]
  simp [hmarks]

theorem verified_eq (hok : h.Ok f bits nodes) : h.verified = some h := by
  rw [verified,hok.hash_verify_eq]
  rfl

/-- A search finds the node with the key, and nothing where there is none. -/
theorem hash_lookup_spec (hok : h.Ok f bits nodes) (key : κ) :
    ∃ r, hash_lookup f h key = some r ∧ (∀ a, r = some a → a ∈ nodes ∧ f.cls (h.hash_key a) = f.cls key) ∧
      (r = none → ∀ a ∈ nodes, f.cls (h.hash_key a) ≠ f.cls key) := by
  have hin : f.function key%2^bits ∈ {i | i < 2^bits} := Nat.mod_lt _ (Nat.two_pow_pos bits)
  obtain ⟨s,hs⟩ := hok.buckets.cell hin
  obtain ⟨r,hr,hsome,hnone⟩ := hok.buckets.find_spec hin hs
    fun p => h.hash_hkey p == f.function key && f.compare (h.hash_key p) key == 0
  refine ⟨r,?_,fun a ha => ?_,fun hr a ha hcls => ?_⟩
  · rw [hash_lookup,hok.and_mask,hs]
    exact hr
  · obtain ⟨hn,-,htest⟩ := hsome a ha
    rw [Bool.and_eq_true,beq_iff_eq,beq_iff_eq,f.compare_eq] at htest
    exact ⟨hn,htest.2⟩
  · -- a node with the key hangs on the chain that has been searched
    have hkey : h.hash_hkey a = f.function key := (hok.hkey a ha).trans (f.function_congr _ _ hcls)
    have hplace : h.place bits a = f.function key%2^bits := congrArg (·%2^bits) hkey
    have htest := hnone hr a ha hplace
    rw [hkey,(f.compare_eq _ _).mpr hcls] at htest
    simp at htest

theorem hash_lookup_of_mem (hok : h.Ok f bits nodes) {a : ℕ} (ha : a ∈ nodes) (hcls : f.cls (h.hash_key a) = f.cls key) :
    hash_lookup f h key = some (some a) := by
  obtain ⟨r,hr,hsome,hnone⟩ := hok.hash_lookup_spec key
  cases r with
  | none => exact absurd hcls (hnone rfl a ha)
  | some b =>
    obtain ⟨hb,hclsb⟩ := hsome b rfl
    rw [hr,hok.unique b hb a ha (hclsb.trans hcls.symm)]

theorem hash_lookup_of_forall_ne (hok : h.Ok f bits nodes) (hnone : ∀ a ∈ nodes, f.cls (h.hash_key a) ≠ f.cls key) :
    hash_lookup f h key = some none := by
  obtain ⟨r,hr,hsome,-⟩ := hok.hash_lookup_spec key
  cases r with
  | none => exact hr
  | some b =>
    obtain ⟨hb,hclsb⟩ := hsome b rfl
    exact absurd hclsb (hnone b hb)

/-- A node of the table passes the assertion that it belongs there. -/
theorem belongs_eq (hok : h.Ok f bits nodes) (hnode : node ∈ nodes) : belongs f h node = some () := by
  rw [belongs,hok.get hnode,Option.bind_some,hok.hash_lookup_of_mem hnode rfl,Option.bind_some,if_pos rfl]

end Ok

end Hash

end Smx
