import Smx.Hash.Invariant

/-! Growing and shrinking: the nodes stay, and hang on the chains of the new size. -/
namespace Smx
variable {κ γ ν : Type} {f : KeyFns κ γ} {h h' : Hash κ ν} {bits n k : ℕ} {nodes : Finset ℕ} {newtable : Newtable}

/-- `mask << 1 | 1`, one bit wider. -/
theorem mask_shiftLeft (hbits : bits ≤ 61) : ((2^bits-1) <<< 1 ||| 1)%2^64 = 2^(bits+1)-1 := by
  have hwide : (2^bits-1) <<< 1 ||| 1 = 2^(bits+1)-1 := by
    apply Nat.eq_of_testBit_eq
    intro i
    rw [Nat.testBit_or,Nat.testBit_shiftLeft,Nat.testBit_two_pow_sub_one,Nat.testBit_two_pow_sub_one,Bool.eq_iff_iff]
    simp only [ge_iff_le,Bool.or_eq_true,Bool.and_eq_true,decide_eq_true_eq,Nat.testBit_one_eq_true_iff_self_eq_zero]
    omega
  rw [hwide]
  apply Nat.mod_eq_of_lt
  have hpow : 2^(bits+1) ≤ 2^62 := Nat.pow_le_pow_right Nat.two_pos (by omega)
  omega

/-- The bit that the wider mask exposes. -/
theorem mask_xor : (2^(bits+1)-1) ^^^ (2^bits-1) = 2^bits := by
  apply Nat.eq_of_testBit_eq
  intro i
  rw [Nat.testBit_xor,Nat.testBit_two_pow_sub_one,Nat.testBit_two_pow_sub_one,Nat.testBit_two_pow,Bool.eq_iff_iff]
  by_cases h : i < bits <;> by_cases h' : i < bits+1 <;> simp [h,h'] <;> omega

/-- A node goes up by the old size when the exposed bit of its hash value is set. -/
theorem mod_two_pow_succ_eq (x bits : ℕ) :
    x%2^(bits+1) = if (x &&& 2^bits != 0) = true then x%2^bits+2^bits else x%2^bits := by
  rw [Nat.pow_succ,Nat.mod_mul,Nat.and_two_pow,Nat.testBit_eq_decide_div_mod_eq]
  rcases Nat.mod_two_eq_zero_or_one (x/2^bits) with hbit | hbit <;> simp [hbit]

/-- Of two halves the upper one goes down. -/
theorem mod_half (x bits : ℕ) :
    x%2^bits = if 2^bits ≤ x%2^(bits+1) then x%2^(bits+1)-2^bits else x%2^(bits+1) := by
  have hlt : x%2^(bits+1) < 2^bits*2 := Nat.mod_lt _ (Nat.two_pow_pos (bits+1))
  have hmod : x%2^(bits+1)%2^bits = x%2^bits := Nat.mod_mod_of_dvd x (pow_dvd_pow 2 (Nat.le_succ bits))
  rw [← hmod]
  split_ifs with hle
  · rw [Nat.mod_eq_sub_mod hle,Nat.mod_eq_of_lt (by omega)]
  · exact Nat.mod_eq_of_lt (Nat.lt_of_not_le hle)

namespace Hash

/-- Nothing that is read or written outside of the table has changed. -/
structure Kept (h h' : Hash κ ν) (nodes : Finset ℕ) : Prop where
  live : h'.live = h.live
  next : ∀ a ∉ nodes, h'.next a = h.next a
  hash_key : h'.hash_key = h.hash_key
  hash_data : h'.hash_data = h.hash_data
  hash_hkey : h'.hash_hkey = h.hash_hkey
  hash_maxcount : h'.hash_maxcount = h.hash_maxcount
  hash_nodecount : h'.hash_nodecount = h.hash_nodecount

theorem Kept.refl (h : Hash κ ν) (nodes : Finset ℕ) : Kept h h nodes :=
  ⟨rfl,fun _ _ => rfl,rfl,rfl,rfl,rfl,rfl⟩

/-- Places while the first `k` chains have been split. -/
def splitPlace (h : Hash κ ν) (bits k a : ℕ) : ℕ :=
  if h.place bits a < k ∧ (h.hash_hkey a &&& 2^bits != 0) = true then h.place bits a+2^bits else h.place bits a

/-- Places while the first `k` chains of the upper half have been hung to those of the lower. -/
def joinPlace (h : Hash κ ν) (bits k a : ℕ) : ℕ :=
  if 2^bits ≤ h.place (bits+1) a ∧ h.place (bits+1) a < k+2^bits then h.place (bits+1) a-2^bits
  else h.place (bits+1) a

theorem splitPlace_lt (h : Hash κ ν) (bits k a : ℕ) : h.splitPlace bits k a < 2^bits+k := by
  have hlt := h.place_lt bits a
  rw [splitPlace]
  split_ifs <;> omega

theorem growChains_spec {t : List (Option ℕ)} (ht : t.length = 2^bits+2^bits)
    (hb : Chain.Buckets h.toMem t {i | i < 2^bits} (h.place bits) nodes) (hn : h.hash_nchains = 2^bits)
    (hk : k ≤ 2^bits) :
    ∃ r, growChains h (2^bits) t k = some r ∧ r.1.live = h.live ∧ r.2.length = t.length ∧
      (∀ a ∉ nodes, r.1.next a = h.next a) ∧
      Chain.Buckets r.1 r.2 {i | i < 2^bits+k} (h.splitPlace bits k) nodes := by
  induction k with
  | zero =>
    refine ⟨(h.toMem,t),rfl,rfl,rfl,fun _ _ => rfl,hb.congr (fun i hi => hi) fun a _ => ?_⟩
    simp [splitPlace]
  | succ k ih =>
    obtain ⟨r,hr,hlive,hlen,hsame,hb⟩ := ih (Nat.le_of_succ_le hk)
    have hin : k ∈ {i | i < 2^bits+k} := by
      have hpos := Nat.two_pow_pos bits
      rw [Set.mem_ofPred_eq]
      omega
    obtain ⟨s,hs⟩ := hb.cell hin
    obtain ⟨m,low,high,hrun,hmlive,hmsame,hsplit⟩ := hb.split (fun a _ => h.splitPlace_lt bits k a) hin
      (j := k+2^bits) (by simp [Nat.add_comm]) (by omega) hs fun p => h.hash_hkey p &&& 2^bits != 0
    refine ⟨(m,(r.2.set k low).set (k+2^bits) high),?_,hmlive.trans hlive,?_,fun a ha => ?_,?_⟩
    · have hlt : k < r.2.length := by omega
      have hlt' : k+2^bits < (r.2.set k low).length := by
        rw [List.length_set]
        omega
      rw [growChains,hr,Option.bind_some,hs,Option.bind_some,hrun,Option.bind_some,putCell_of_lt hlt,
        Option.bind_some,hn,putCell_of_lt hlt']
      rfl
    · rw [List.length_set,List.length_set,hlen]
    · rw [hmsame a ha,hsame a ha]
    · refine hsplit.congr (fun i hi => ?_) fun a _ => ?_
      · rw [Set.mem_ofPred_eq] at hi
        rw [Set.mem_insert_iff,Set.mem_ofPred_eq]
        omega
      · simp only [splitPlace]
        by_cases hbit : (h.hash_hkey a &&& 2^bits != 0) = true
        · have hlt := h.place_lt bits a
          simp only [hbit,and_true]
          split_ifs <;> omega
        · simp [hbit]

/-- Where the memory for a larger array is missing, the table stays as it is. -/
theorem Ok.grow_table_spec (hok : h.Ok f bits nodes) (hfull : h.hash_highmark ≤ h.hash_nodecount)
    (newtable : Newtable) :
    ∃ h', grow_table h newtable = some h' ∧ Kept h h' nodes ∧
      h'.Ok f (if newtable = none then bits else bits+1) nodes := by
  have hcount := hok.nodecount_le
  have hpos := Nat.two_pow_pos bits
  -- there are not enough addresses for so many nodes that the sizes overflow
  have hsmall : bits ≤ 60 := by
    rw [hok.highmark] at hfull
    by_contra hbig
    have hpow : 2^61 ≤ 2^bits := Nat.pow_le_pow_right Nat.two_pos (by omega)
    omega
  have hle : 2^bits ≤ 2^60 := Nat.pow_le_pow_right Nat.two_pos hsmall
  have hassert : ¬2*h.hash_nchains%2^64 ≤ h.hash_nchains := by
    rw [hok.nchains]
    omega
  cases newtable with
  | none =>
    refine ⟨h,?_,Kept.refl h nodes,by simpa using hok⟩
    rw [grow_table,if_neg hassert]
    exact hok.verified_eq
  | some junk =>
    have hmask : (h.hash_mask <<< 1 ||| 1)%2^64 = 2^(bits+1)-1 := by
      rw [hok.mask,mask_shiftLeft hok.bits_le]
    have hxor : (2^(bits+1)-1) ^^^ h.hash_mask = 2^bits := by
      rw [hok.mask,mask_xor]
    have hne : 2^(bits+1)-1 ≠ h.hash_mask := by
      rw [hok.mask,Nat.pow_succ]
      omega
    have hdouble : h.hash_nchains*2%2^64 = 2^(bits+1) := by
      rw [hok.nchains,Nat.pow_succ]
      omega
    have hb : Chain.Buckets h.toMem (reallocCells h.hash_table (2^(bits+1)) junk) {i | i < 2^bits} (h.place bits)
        nodes := by
      apply hok.buckets.congr_cells
      intro i hi
      have hi' : i < 2^bits := hi
      exact reallocCells_getElem? junk (by rw [Nat.pow_succ]; omega) (hok.buckets.lt_length hi)
    have hlen : (reallocCells h.hash_table (2^(bits+1)) junk).length = 2^bits+2^bits := by
      rw [reallocCells_length,Nat.pow_succ]
      omega
    obtain ⟨r,hr,hlive,-,hsame,hb⟩ := growChains_spec hlen hb hok.nchains le_rfl
    have hgrown : Ok f { h with
        toMem := r.1
        hash_table := r.2
        hash_mask := 2^(bits+1)-1
        hash_nchains := 2^(bits+1)
        hash_lowmark := h.hash_lowmark*2%2^64
        hash_highmark := h.hash_highmark*2%2^64 } (bits+1) nodes :=
      { bits_ge := hok.bits_ge.trans (Nat.le_succ bits)
        bits_le := by omega
        nchains := rfl
        mask := rfl
        highmark := by
          change h.hash_highmark*2%2^64 = 2^(bits+1)*2
          rw [hok.highmark,Nat.pow_succ]
          omega
        lowmark := by
          have hbits : 6 ≤ bits := hok.bits_ge
          obtain ⟨b,rfl⟩ := Nat.exists_eq_add_one.mpr (show 0 < bits by omega)
          change h.hash_lowmark*2%2^64 = 2^(b+1+1)/2
          rw [hok.lowmark,Nat.pow_succ,Nat.pow_succ]
          omega
        dynamic := hok.dynamic
        nodecount := hok.nodecount
        buckets := by
          refine hb.congr (fun i hi => ?_) fun a _ => ?_
          · rw [Set.mem_ofPred_eq,Nat.pow_succ] at hi
            rw [Set.mem_ofPred_eq]
            omega
          · have hlt : h.hash_hkey a%2^bits < 2^bits := h.place_lt bits a
            simp only [splitPlace,place,hlt,true_and]
            exact mod_two_pow_succ_eq (h.hash_hkey a) bits
        hkey := hok.hkey
        unique := hok.unique
        aligned := hok.aligned }
    refine ⟨_,?_,?_,by simpa using hgrown⟩
    · rw [grow_table,if_neg hassert,Option.elim_some]
      simp only [hmask,hxor,hdouble]
      rw [if_neg hne,hok.nchains,hr,Option.bind_some]
      exact hgrown.verified_eq
    · exact ⟨hlive,hsame,rfl,rfl,rfl,rfl,rfl⟩

theorem joinPlace_not_between (h : Hash κ ν) (bits k a : ℕ) :
    h.joinPlace bits k a < 2^bits ∨ k+2^bits ≤ h.joinPlace bits k a := by
  have hlt := h.place_lt (bits+1) a
  rw [Nat.pow_succ] at hlt
  rw [joinPlace]
  split_ifs <;> omega

/-- The cells in use while the first `k` chains of the upper half are gone. -/
def joinCells (bits k : ℕ) : Set ℕ := {i | i < 2^bits ∨ k+2^bits ≤ i ∧ i < 2^(bits+1)}

theorem shrinkChains_spec (hb : Chain.Buckets h.toMem h.hash_table {i | i < 2^(bits+1)} (h.place (bits+1)) nodes)
    (hk : k ≤ 2^bits) :
    ∃ r, shrinkChains h (2^bits) k = some r ∧ r.1.live = h.live ∧ r.2.length = h.hash_table.length ∧
      (∀ a ∉ nodes, r.1.next a = h.next a) ∧
      Chain.Buckets r.1 r.2 (joinCells bits k) (h.joinPlace bits k) nodes := by
  induction k with
  | zero =>
    refine ⟨(h.toMem,h.hash_table),rfl,rfl,rfl,fun _ _ => rfl,hb.congr (fun i hi => ?_) fun a _ => ?_⟩
    · rw [joinCells,Set.mem_ofPred_eq,Nat.pow_succ] at hi
      rw [Set.mem_ofPred_eq,Nat.pow_succ]
      omega
    · rw [joinPlace,if_neg (by omega)]
  | succ k ih =>
    obtain ⟨r,hr,hlive,hlen,hsame,hb⟩ := ih (Nat.le_of_succ_le hk)
    have hpow : 2^(bits+1) = 2^bits*2 := rfl
    have hi : k ∈ joinCells bits k := Or.inl hk
    have hj : k+2^bits ∈ joinCells bits k := Or.inr ⟨le_rfl,by omega⟩
    have hij : k ≠ k+2^bits := by
      have hpos := Nat.two_pow_pos bits
      omega
    have hcells : joinCells bits (k+1) ⊆ joinCells bits k \ {k+2^bits} := by
      rintro i (hi | ⟨hle,hlt⟩)
      · exact ⟨Or.inl hi,by simp; omega⟩
      · exact ⟨Or.inr ⟨by omega,hlt⟩,by simp; omega⟩
    have hplace (a : ℕ) : h.joinPlace bits (k+1) a =
        if h.joinPlace bits k a = k+2^bits then k else h.joinPlace bits k a := by
      have hlt := h.place_lt (bits+1) a
      simp only [joinPlace]
      split_ifs <;> omega
    obtain ⟨low,hlow⟩ := hb.cell hi
    obtain ⟨high,hhigh⟩ := hb.cell hj
    rw [shrinkChains,hr,Option.bind_some,hlow,Option.bind_some,hhigh,Option.bind_some]
    cases low with
    | none =>
      have hjoin := (hb.join_empty hi hj hlow hhigh).congr hcells fun a _ => hplace a
      by_cases hnone : high = none
      · -- both chains are empty, and the cell is not written to
        refine ⟨r,by simp [hnone],hlive,hlen,hsame,hjoin.congr_cells fun i _ => ?_⟩
        by_cases hik : i = k
        · rw [hik,hlow,List.getElem?_set_self (hb.lt_length hi),hnone]
        · rw [List.getElem?_set_ne (Ne.symm hik)]
      · refine ⟨(r.1,r.2.set k high),?_,hlive,by simpa using hlen,hsame,hjoin⟩
        rw [Option.elim_none,if_pos hnone,putCell_of_lt (hb.lt_length hi)]
        rfl
    | some c =>
      obtain ⟨p,hp,hplive,hlast,hjoin⟩ := hb.join hi hj hij hlow hhigh
      refine ⟨(r.1.put p high,r.2),?_,hlive,hlen,fun a ha => ?_,hjoin.congr hcells fun a _ => hplace a⟩
      · rw [Option.elim_some,hlast,Option.bind_some,Chain.Mem.set_of_mem hplive]
        rfl
      · rw [Chain.Mem.put_next_of_ne (ne_of_mem_of_not_mem hp ha).symm,hsame a ha]

/-- Whether or not the smaller array is a new one, its cells are the same. -/
theorem Ok.shrink_table_spec (hok : h.Ok f (bits+1) nodes) (hbits : INIT_BITS ≤ bits) (newtable : Newtable) :
    ∃ h', shrink_table h newtable = some h' ∧ Kept h h' nodes ∧ h'.Ok f bits nodes := by
  have hpos := Nat.two_pow_pos bits
  have hpow : 2^(bits+1) = 2^bits*2 := rfl
  have hhalf : h.hash_nchains/2 = 2^bits := by
    rw [hok.nchains]
    omega
  obtain ⟨r,hr,hlive,hlen,hsame,hb⟩ := shrinkChains_spec hok.buckets le_rfl
  have hb : Chain.Buckets r.1 r.2 {i | i < 2^bits} (h.place bits) nodes := by
    refine hb.congr (fun i hi => Or.inl hi) fun a _ => ?_
    have hlt : h.place (bits+1) a < 2^bits+2^bits := by
      have hlt := h.place_lt (bits+1) a
      omega
    simp only [joinPlace,hlt,and_true]
    exact mod_half (h.hash_hkey a) bits
  have hb' : Chain.Buckets r.1 (newtable.elim r.2 (reallocCells r.2 (2^bits))) {i | i < 2^bits} (h.place bits) nodes := by
    cases newtable with
    | none => exact hb
    | some junk => exact hb.congr_cells fun i hi => reallocCells_getElem? junk hi (hb.lt_length hi)
  have hshrunk : Ok f { h with
      toMem := r.1
      hash_table := newtable.elim r.2 (reallocCells r.2 (2^bits))
      hash_mask := h.hash_mask >>> 1
      hash_nchains := 2^bits
      hash_lowmark := h.hash_lowmark/2
      hash_highmark := h.hash_highmark/2 } bits nodes :=
    { bits_ge := hbits
      bits_le := (Nat.le_succ bits).trans hok.bits_le
      nchains := rfl
      mask := by
        change h.hash_mask >>> 1 = 2^bits-1
        rw [hok.mask,Nat.shiftRight_one]
        omega
      highmark := by
        change h.hash_highmark/2 = 2^bits*2
        rw [hok.highmark]
        omega
      lowmark := by
        change h.hash_lowmark/2 = 2^bits/2
        rw [hok.lowmark]
        omega
      dynamic := hok.dynamic
      nodecount := hok.nodecount
      buckets := hb'
      hkey := hok.hkey
      unique := hok.unique
      aligned := hok.aligned }
  refine ⟨_,?_,?_,hshrunk⟩
  · have hassert : ¬h.hash_nchains < 2 := by omega
    rw [shrink_table,if_neg hassert,hhalf,hr,Option.bind_some]
    exact hshrunk.verified_eq
  · exact ⟨hlive,hsame,rfl,rfl,rfl,rfl,rfl⟩

end Hash

end Smx
