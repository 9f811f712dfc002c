import Smx.Lib.Chain
import Smx.Base.Bytes
import Smx.Base.Number
import Mathlib.Data.Nat.Bitwise

/-! The extendible hash table of `hash.c`: an array of chain heads that grows and shrinks with the
number of nodes. Every assertion of the source is made; `none` is an assertion that fails, a node or
a chain head read that is not there, or a loop that does not end. -/
namespace Smx

/-- The functions that a table is given for its keys. Keys compare equal when `cls` gives one value for
them, and then they hash alike. -/
structure KeyFns (κ γ : Type) where
  compare : κ → κ → ℤ
  function : κ → ℕ
  cls : κ → γ
  compare_eq : ∀ a b, compare a b = 0 ↔ cls a = cls b
  function_congr : ∀ a b, cls a = cls b → function a = function b

/-- A `hash_t` with the nodes in memory. A node is eight bytes at least and named by its address over
eight. -/
structure Hash (κ ν : Type) extends Chain.Mem ℕ where
  hash_key : ℕ → κ
  hash_data : ℕ → ν
  hash_hkey : ℕ → ℕ
  hash_table : List (Option ℕ)
  hash_nchains : ℕ
  hash_nodecount : ℕ
  hash_maxcount : ℕ
  hash_highmark : ℕ
  hash_lowmark : ℕ
  hash_mask : ℕ
  hash_dynamic : Bool

def INIT_BITS : ℕ := 6
def INIT_SIZE : ℕ := 2^INIT_BITS
def INIT_MASK : ℕ := INIT_SIZE-1
def HASHCOUNT_T_MAX : ℕ := 2^64-1

/-- `while ((arg & 1) == 0) arg >>= 1; return (arg == 1);` of a number that is not zero. -/
def shiftedOut : ℕ → ℕ → Bool
  | 0,arg => arg == 1
  | bits+1,arg => if arg &&& 1 = 0 then shiftedOut bits (arg >>> 1) else arg == 1

def is_power_of_two (arg : ℕ) : Bool := if arg = 0 then false else shiftedOut 64 arg

/-- `t[i] = v` -/
def putCell (t : List (Option ℕ)) (i : ℕ) (v : Option ℕ) : Option (List (Option ℕ)) :=
  if i < t.length then some (t.set i v) else none

/-- `realloc` of an array to `n` cells, where those behind the old ones hold what the memory held. -/
def reallocCells (t : List (Option ℕ)) (n : ℕ) (junk : ℕ → Option ℕ) : List (Option ℕ) :=
  (List.range n).map fun i => t.getD i (junk i)

/-- What `realloc` returns: null, or a block whose new cells hold anything. -/
abbrev Newtable := Option (ℕ → Option ℕ)

variable {κ γ ν : Type}

namespace Hash

/-- The loop of `hash_verify` over the first chains: the nodes counted, or `some none` for its `return 0`. -/
def verifyChains (h : Hash κ ν) : ℕ → Option (Option ℕ)
  | 0 => some (some 0)
  | chain+1 => (verifyChains h chain).bind fun r => r.elim (some none) fun n =>
      h.hash_table[chain]?.bind fun hptr =>
        Chain.count h.toMem (fun p => h.hash_hkey p &&& h.hash_mask == chain) h.live.length hptr n

def hash_verify (h : Hash κ ν) : Option Bool :=
  if h.hash_dynamic && (decide (h.hash_highmark ≤ h.hash_lowmark) || !is_power_of_two h.hash_highmark ||
      !is_power_of_two h.hash_lowmark) then
    some false
  else (verifyChains h h.hash_nchains).map fun r => r == some h.hash_nodecount

/-- `assert (hash_verify(hash));` -/
def verified (h : Hash κ ν) : Option (Hash κ ν) :=
  (hash_verify h).bind fun ok => if ok then some h else none

/-- The loop of `grow_table` over the first chains. -/
def growChains (h : Hash κ ν) (exposed_bit : ℕ) (newtable : List (Option ℕ)) :
    ℕ → Option (Chain.Mem ℕ × List (Option ℕ))
  | 0 => some (h.toMem,newtable)
  | chain+1 => (growChains h exposed_bit newtable chain).bind fun r => r.2[chain]?.bind fun hptr =>
      (Chain.split (fun p => h.hash_hkey p &&& exposed_bit != 0) r.1.live.length r.1 hptr none none).bind fun q =>
        (putCell r.2 chain q.2.1).bind fun t => (putCell t (chain+h.hash_nchains) q.2.2).map fun t => (q.1,t)

def grow_table (h : Hash κ ν) (newtable : Newtable) : Option (Hash κ ν) :=
  if 2*h.hash_nchains%2^64 ≤ h.hash_nchains then none else
  newtable.elim (verified h) fun junk =>
    let mask := (h.hash_mask <<< 1 ||| 1)%2^64
    let exposed_bit := mask ^^^ h.hash_mask
    if mask = h.hash_mask then none else
    (growChains h exposed_bit (reallocCells h.hash_table (h.hash_nchains*2%2^64) junk) h.hash_nchains).bind fun r =>
      verified { h with
        toMem := r.1
        hash_table := r.2
        hash_mask := mask
        hash_nchains := h.hash_nchains*2%2^64
        hash_lowmark := h.hash_lowmark*2%2^64
        hash_highmark := h.hash_highmark*2%2^64 }

/-- The loop of `shrink_table` over the first chains. -/
def shrinkChains (h : Hash κ ν) (nchains : ℕ) : ℕ → Option (Chain.Mem ℕ × List (Option ℕ))
  | 0 => some (h.toMem,h.hash_table)
  | chain+1 => (shrinkChains h nchains chain).bind fun r =>
      r.2[chain]?.bind fun low_chain => r.2[chain+nchains]?.bind fun high_chain =>
        low_chain.elim
          (if high_chain ≠ none then (putCell r.2 chain high_chain).map fun t => (r.1,t) else some r)
          fun low => (Chain.last r.1 r.1.live.length low).bind fun low_tail =>
            (r.1.set low_tail high_chain).map fun m => (m,r.2)

/-- Where `realloc` fails the old array stays. -/
def shrink_table (h : Hash κ ν) (newtable : Newtable) : Option (Hash κ ν) :=
  if h.hash_nchains < 2 then none else
  (shrinkChains h (h.hash_nchains/2) (h.hash_nchains/2)).bind fun r =>
    verified { h with
      toMem := r.1
      hash_table := newtable.elim r.2 (reallocCells r.2 (h.hash_nchains/2))
      hash_mask := h.hash_mask >>> 1
      hash_nchains := h.hash_nchains/2
      hash_lowmark := h.hash_lowmark/2
      hash_highmark := h.hash_highmark/2 }

/-- `for (i = 0; i < hash->nchains; i++) hash->table[i] = NULL;` over the first chains. -/
def clearCells (t : List (Option ℕ)) : ℕ → Option (List (Option ℕ))
  | 0 => some t
  | i+1 => (clearCells t i).bind fun t => putCell t i none

def clear_table (h : Hash κ ν) : Option (Hash κ ν) :=
  (clearCells h.hash_table h.hash_nchains).map fun t => { h with hash_table := t }

/-- A new table, in a memory that holds no nodes for it yet; the cells of a new array hold anything. -/
def hash_create (h : Hash κ ν) (maxcount : ℕ) (junk : ℕ → Option ℕ) : Option (Hash κ ν) :=
  (clear_table { h with
    hash_table := reallocCells [] INIT_SIZE junk
    hash_nchains := INIT_SIZE
    hash_highmark := INIT_SIZE*2
    hash_lowmark := INIT_SIZE/2
    hash_nodecount := 0
    hash_maxcount := maxcount
    hash_mask := INIT_MASK
    hash_dynamic := true }).bind verified

/-- `p->next = v` -/
def setNext (h : Hash κ ν) (p : ℕ) (v : Option ℕ) : Option (Hash κ ν) :=
  (h.toMem.set p v).map fun m => { h with toMem := m }

variable (f : KeyFns κ γ)

def hash_lookup (h : Hash κ ν) (key : κ) : Option (Option ℕ) :=
  h.hash_table[f.function key &&& h.hash_mask]?.bind
    (Chain.find h.toMem (fun p => h.hash_hkey p == f.function key && f.compare (h.hash_key p) key == 0) h.live.length)

/-- `hash_insert` behind its assertions and the growth. -/
def link (h : Hash κ ν) (node : ℕ) (key : κ) : Option (Hash κ ν) :=
  h.hash_table[f.function key &&& h.hash_mask]?.bind fun head => (h.toMem.set node head).bind fun m =>
    (putCell h.hash_table (f.function key &&& h.hash_mask) (some node)).bind fun t =>
      verified { h with
        toMem := m
        hash_key := Function.update h.hash_key node key
        hash_hkey := Function.update h.hash_hkey node (f.function key)
        hash_table := t
        hash_nodecount := h.hash_nodecount+1 }

def hash_insert (h : Hash κ ν) (node : ℕ) (key : κ) (newtable : Newtable) : Option (Hash κ ν) :=
  (h.get node).bind fun nx => (hash_lookup f h key).bind fun found =>
    if nx = none ∧ h.hash_nodecount < h.hash_maxcount ∧ found = none then
      (if h.hash_dynamic ∧ h.hash_highmark ≤ h.hash_nodecount then grow_table h newtable else some h).bind fun h =>
        link f h node key
    else none

/-- The part that `hash_delete` and `hash_scan_delete` share: `node` is taken off its chain. -/
def unlink (h : Hash κ ν) (node : ℕ) : Option (Hash κ ν) :=
  let chain := h.hash_hkey node &&& h.hash_mask
  h.hash_table[chain]?.bind fun hptr => (h.get node).bind fun nx =>
    (if hptr = some node then (putCell h.hash_table chain nx).map fun t => { h with hash_table := t }
      else (hptr.bind (Chain.before h.toMem node h.live.length)).bind fun p => setNext h p nx).bind fun h =>
    (verified { h with hash_nodecount := h.hash_nodecount-1 }).bind fun h => setNext h node none

/-- `assert (hash_lookup(hash, node->key) == node);` -/
def belongs (h : Hash κ ν) (node : ℕ) : Option Unit :=
  (h.get node).bind fun _ => (hash_lookup f h (h.hash_key node)).bind fun found =>
    if found = some node then some () else none

def hash_delete (h : Hash κ ν) (node : ℕ) (newtable : Newtable) : Option (Hash κ ν) :=
  (belongs f h node).bind fun _ =>
    (if h.hash_dynamic ∧ h.hash_nodecount ≤ h.hash_lowmark ∧ INIT_SIZE < h.hash_nodecount then shrink_table h newtable
      else some h).bind fun h => unlink h node

def hash_scan_delete (h : Hash κ ν) (node : ℕ) : Option (Hash κ ν) :=
  (belongs f h node).bind fun _ => unlink h node

/-- `hash->allocnode(hash->context)`: a node that no one holds yet, with anything in it. -/
def allocnode (h : Hash κ ν) (node : ℕ) : Option (Hash κ ν) :=
  if node ∉ h.live ∧ node < 2^61 then some { h with live := node::h.live } else none

def hnode_init (h : Hash κ ν) (node : ℕ) (data : ν) : Option (Hash κ ν) :=
  setNext { h with hash_data := Function.update h.hash_data node data } node none

/-- `hash->freenode(node, hash->context)` of a node that has been allocated. -/
def freenode (h : Hash κ ν) (node : ℕ) : Option (Hash κ ν) :=
  if node ∈ h.live then some { h with live := h.live.erase node } else none

def hash_alloc_insert (h : Hash κ ν) (node : ℕ) (key : κ) (data : ν) (newtable : Newtable) : Option (Hash κ ν) :=
  (allocnode h node).bind fun h => (hnode_init h node data).bind fun h => hash_insert f h node key newtable

def hash_delete_free (h : Hash κ ν) (node : ℕ) (newtable : Newtable) : Option (Hash κ ν) :=
  (hash_delete f h node newtable).bind fun h => freenode h node

def hash_scan_delfree (h : Hash κ ν) (node : ℕ) : Option (Hash κ ν) :=
  (hash_scan_delete f h node).bind fun h => freenode h node

end Hash

/-- A `hscan_t`; the table is given beside it. -/
structure HScan where
  hash_chain : ℕ
  hash_next : Option ℕ

/-- `while (chain < nchains && table[chain] == 0) chain++;` with `left` chains to go. -/
def firstChain (t : List (Option ℕ)) : ℕ → ℕ → Option ℕ
  | chain,0 => some chain
  | chain,left+1 => t[chain]?.bind fun head => if head = none then firstChain t (chain+1) left else some chain

namespace Hash

/-- The chain that is found is the one to go on with, unless it is behind the last. -/
def scanTo (h : Hash κ ν) (old chain : ℕ) : Option HScan :=
  if chain < h.hash_nchains then h.hash_table[chain]?.map fun head => ⟨chain,head⟩ else some ⟨old,none⟩

/-- Where there is no node `scan->chain` keeps what it held. -/
def hash_scan_begin (h : Hash κ ν) (junk : ℕ) : Option HScan :=
  (firstChain h.hash_table 0 h.hash_nchains).bind (scanTo h junk)

def hash_scan_next (h : Hash κ ν) (scan : HScan) : Option (Option ℕ × HScan) :=
  scan.hash_next.elim (some (none,scan)) fun next => (h.get next).bind fun nx =>
    (nx.elim
      ((firstChain h.hash_table (scan.hash_chain+1) (h.hash_nchains-(scan.hash_chain+1))).bind
        (scanTo h scan.hash_chain))
      fun p => some ⟨scan.hash_chain,some p⟩).map fun scan => (some next,scan)

/-- The loop of `hash_free_nodes`, with the nodes that it frees. -/
def freeNodes (f : KeyFns κ γ) : ℕ → Hash κ ν → HScan → Option (Hash κ ν × List ℕ)
  | 0,h,scan => (hash_scan_next h scan).bind fun r => if r.1 = none then some (h,[]) else none
  | fuel+1,h,scan => (hash_scan_next h scan).bind fun r => r.1.elim (some (h,[])) fun node =>
      (hash_scan_delfree f h node).bind fun h => (freeNodes f fuel h r.2).map fun q => (q.1,node::q.2)

def hash_free_nodes (f : KeyFns κ γ) (h : Hash κ ν) (junk : ℕ) : Option (Hash κ ν × List ℕ) :=
  (hash_scan_begin h junk).bind fun scan => (freeNodes f h.live.length h scan).bind fun q =>
    (clear_table { q.1 with hash_nodecount := 0 }).map fun h => (h,q.2)

end Hash

def randbox : List ℕ :=
  [0x49848f1b,0xe6255dba,0x36da5bdc,0x47bf94e9,
   0x8cbcce22,0x559fc06a,0xd268f536,0xe10af79a,
   0xc1af4d69,0x1d2917b5,0xec4c304d,0x9ee5016c,
   0x69232f74,0xfead7bb3,0xe9089ab6,0xf012f6ae]

/-- The loop body of both hash functions. Of the character only its two halves count, so that its sign
makes no difference. -/
def hashChar (acc : ℕ) (c : Byte) : ℕ :=
  let acc := acc ^^^ randbox.getD (c.toNat+acc &&& 0xf) 0
  let acc := (acc <<< 1 ||| acc >>> 31) &&& 0xffffffff
  let acc := acc ^^^ randbox.getD ((c.toNat >>> 4)+acc &&& 0xf) 0
  (acc <<< 2 ||| acc >>> 30) &&& 0xffffffff

def hash_fun_default (key : Bytes) : ℕ := (cstr key).foldl hashChar 0

def strcmpLoop : Bytes → Bytes → ℤ
  | [],[] => 0
  | [],d::_ => -(d.toNat : ℤ)
  | c::_,[] => c.toNat
  | c::a,d::b => if c = d then strcmpLoop a b else (c.toNat : ℤ)-d.toNat

/-- `strcmp`: the first bytes that differ decide. -/
def hash_comp_default (key1 key2 : Bytes) : ℤ := strcmpLoop (cstr key1) (cstr key2)

theorem strcmpLoop_eq_zero {a b : Bytes} (ha : ∀ c ∈ a, c ≠ 0) (hb : ∀ c ∈ b, c ≠ 0) :
    strcmpLoop a b = 0 ↔ a = b := by
  have hnat {c : Byte} (hc : c ≠ 0) : c.toNat ≠ 0 := fun h => hc (UInt8.toNat_inj.mp h)
  induction a generalizing b with
  | nil =>
    cases b with
    | nil => simp [strcmpLoop]
    | cons d b => simpa [strcmpLoop] using hnat (hb d List.mem_cons_self)
  | cons c a ih =>
    cases b with
    | nil => simpa [strcmpLoop] using hnat (ha c List.mem_cons_self)
    | cons d b =>
      have hrest : strcmpLoop a b = 0 ↔ a = b :=
        ih (fun e he => ha e (List.mem_cons_of_mem c he)) fun e he => hb e (List.mem_cons_of_mem d he)
      rw [strcmpLoop,List.cons.injEq]
      by_cases heq : c = d
      · rw [if_pos heq,and_iff_right heq]
        exact hrest
      · refine iff_of_false ?_ fun h => heq h.1
        rw [if_neg heq]
        intro h
        exact heq (UInt8.toNat_inj.mp (by omega))

/-- The functions of a table that is created with none. -/
def defaultFns : KeyFns Bytes Bytes where
  compare := hash_comp_default
  function := hash_fun_default
  cls := cstr
  compare_eq a b := strcmpLoop_eq_zero (fun _ hc => ne_of_mem_of_not_mem hc (nul_not_mem_cstr a))
    fun _ hc => ne_of_mem_of_not_mem hc (nul_not_mem_cstr b)
  function_congr a b h := by rw [hash_fun_default,h,hash_fun_default]

end Smx
