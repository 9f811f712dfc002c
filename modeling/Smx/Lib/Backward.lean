import Smx.Lib.Memory

/-! Cells that are copied backwards, the last one first. A pointer is counted from one here, so that 0 is the one in
front of the first cell. -/
namespace Memory

variable {α : Type}

/-- `*p` -/
def fetchBack (size : ℕ) (mem : ℕ → α) : ℕ → Option α
  | 0 => none
  | p+1 => fetch size mem p

/-- `*p = c` -/
def storeBack (size : ℕ) (mem : ℕ → α) : ℕ → α → Option (ℕ → α)
  | 0,_ => none
  | p+1,c => store size mem p c

/-- The cells from `p` on, filled from a list. -/
def write (mem : ℕ → α) (p : ℕ) (cs : List α) (i : ℕ) : α := if p ≤ i then cs.getD (i-p) (mem i) else mem i

section
variable {mem mem' : ℕ → α} {p n size q : ℕ} {c : α} {cs src out : List α}

theorem fetch_eq_some : fetch size mem p = some c ↔ p < size ∧ mem p = c := by
  simp [fetch]

theorem fetchBack_eq_some : fetchBack size mem p = some c ↔ ∃ q, p = q+1 ∧ q < size ∧ mem q = c := by
  cases p with
  | zero => simp [fetchBack]
  | succ q => simp [fetchBack,fetch]

theorem storeBack_eq_some :
    storeBack size mem n c = some mem' ↔ ∃ q, n = q+1 ∧ q < size ∧ Function.update mem q c = mem' := by
  cases n with
  | zero => simp [storeBack]
  | succ q => simp [storeBack,store]

/-- The text and what ends it are inside. -/
theorem text_lt {last : α → Bool} {fuel : ℕ} (h : text size mem last fuel p = some cs) : p+cs.length < size := by
  induction fuel generalizing p cs with
  | zero => cases h
  | succ fuel ih =>
    obtain ⟨c,hc,hrest⟩ := Option.bind_eq_some_iff.mp h
    have hp : p < size := by
      by_contra hn
      rw [fetch,if_neg hn] at hc
      cases hc
    split_ifs at hrest
    · cases hrest
      exact hp
    · obtain ⟨cs,hcs,rfl⟩ := Option.map_eq_some_iff.mp hrest
      have := ih hcs
      rw [List.length_cons]
      omega

theorem write_of_lt (h : q < p) : write mem p cs q = mem q := if_neg h.not_ge

theorem write_of_le (h : p+cs.length ≤ q) : write mem p cs q = mem q := by
  have hp : p ≤ q := (Nat.le_add_right _ _).trans h
  rw [write,if_pos hp,List.getD_eq_getElem?_getD,List.getElem?_eq_none (by omega)]
  rfl

theorem write_cons (mem : ℕ → α) (p : ℕ) (c : α) (cs : List α) :
    write mem p (c::cs) = Function.update (write mem (p+1) cs) p c := by
  funext i
  rcases Nat.lt_trichotomy i p with h | rfl | h
  · rw [write_of_lt h,Function.update_of_ne h.ne,write_of_lt (h.trans (Nat.lt_succ_self p))]
  · rw [Function.update_self,write,if_pos le_rfl,Nat.sub_self]
    rfl
  · obtain ⟨k,rfl⟩ := Nat.exists_eq_add_of_lt h
    have hk : p+k+1-p = k+1 := by omega
    have hk' : p+k+1-(p+1) = k := by omega
    rw [Function.update_of_ne h.ne',write,if_pos h.le,hk,write,if_pos (by omega),hk',List.getD_cons_succ]

theorem cells_getElem (h : Cells mem p cs) {i : ℕ} (hi : i < cs.length) : mem (p+i) = cs[i] := by
  induction cs generalizing p i with
  | nil => cases hi
  | cons c cs ih =>
    cases i with
    | zero => exact h.1
    | succ i =>
      have hp : p+1+i = p+(i+1) := by omega
      rw [List.getElem_cons_succ,← ih h.2 (Nat.lt_of_succ_lt_succ hi),hp]

theorem range_map_eq (h : Cells mem 0 cs) : (List.range cs.length).map mem = cs := by
  apply List.ext_getElem
  · simp
  · intro i hi hi'
    rw [List.getElem_map,List.getElem_range,← cells_getElem h hi',Nat.zero_add]

theorem cells_write (mem : ℕ → α) (p : ℕ) (cs : List α) : Cells (write mem p cs) p cs := by
  induction cs generalizing p with
  | nil => trivial
  | cons c cs ih =>
    rw [write_cons]
    exact ⟨Function.update_self ..,(ih (p+1)).update (Or.inl (Nat.lt_succ_self p))⟩

/-- While cells are copied: the source that is left ends at `p`, and what has been put out begins behind `n`. -/
structure Copying (size : ℕ) (mem : ℕ → α) (n p : ℕ) (src out : List α) : Prop where
  src_cells : Cells mem 0 src
  src_end : src.length = p
  room : p ≤ n
  out_end : n+out.length = size
  out_cells : Cells mem n out

theorem Copying.eq_succ (h : Copying size mem n p (src ++ [c]) out) : p = src.length+1 := by
  rw [← h.src_end,List.length_append,List.length_singleton]

theorem Copying.fetch (h : Copying size mem n p (src ++ [c]) out) : fetchBack size mem p = some c := by
  obtain ⟨hsrc,rfl,hroom,hend,-⟩ := h
  have hlen : (src ++ [c]).length = src.length+1 := by
    rw [List.length_append,List.length_singleton]
  rw [hlen] at hroom ⊢
  have hlast := (cells_concat.mp hsrc).2
  rw [Nat.zero_add] at hlast
  rw [fetchBack,fetch_of_lt (by omega),hlast]

/-- The last cell of the source is moved. -/
theorem Copying.move (h : Copying size mem n p (src ++ [c]) out) :
    ∃ mem', storeBack size mem n c = some mem' ∧ Copying size mem' (n-1) (p-1) src (c::out) ∧
      ∀ q, q+1 < n → mem' q = mem q := by
  obtain ⟨hsrc,rfl,hroom,hend,hout⟩ := h
  have hlen : (src ++ [c]).length = src.length+1 := by
    rw [List.length_append,List.length_singleton]
  rw [hlen] at hroom ⊢
  obtain ⟨n,rfl⟩ := Nat.exists_eq_add_one.mpr (Nat.lt_of_lt_of_le (Nat.succ_pos _) hroom)
  have hnext : n+1-1+(c::out).length = size := by
    rw [← hend,List.length_cons]
    omega
  refine ⟨Function.update mem n c,store_of_lt (by omega),⟨?_,rfl,?_,hnext,Function.update_self ..,?_⟩,?_⟩
  · exact (cells_concat.mp hsrc).1.update (Or.inr (by omega))
  · exact Nat.le_of_succ_le_succ hroom
  · exact hout.update (Or.inl (Nat.lt_succ_self n))
  · intro q hq
    exact Function.update_of_ne (by omega) ..

/-- Something is put out that does not come from the source, which needs a free cell. -/
theorem Copying.insert (h : Copying size mem n p src out) (hfree : p < n) (c : α) :
    ∃ mem', storeBack size mem n c = some mem' ∧ Copying size mem' (n-1) p src (c::out) := by
  obtain ⟨hsrc,rfl,-,hend,hout⟩ := h
  obtain ⟨n,rfl⟩ := Nat.exists_eq_add_one.mpr (Nat.zero_lt_of_lt hfree)
  have hnext : n+1-1+(c::out).length = size := by
    rw [← hend,List.length_cons]
    omega
  refine ⟨Function.update mem n c,store_of_lt (by omega),?_,rfl,Nat.le_of_lt_succ hfree,hnext,?_⟩
  · exact hsrc.update (Or.inr (by omega))
  · exact ⟨Function.update_self ..,hout.update (Or.inl (Nat.lt_succ_self n))⟩

end

end Memory
