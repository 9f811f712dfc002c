import Smx.Lib.Memory

/-! Texts with a terminator, and how they are cut in place at a separator. -/
namespace Memory

variable {α : Type}

/-- The text at `p` is `t`, with its terminator inside. -/
structure TextAt (nul : α) (size : ℕ) (mem : ℕ → α) (p : ℕ) (t : List α) : Prop where
  cells : Cells mem p (t ++ [nul])
  plain : nul ∉ t
  inside : p+t.length < size

section
variable {nul c : α} {size p : ℕ} {mem mem' : ℕ → α} {t a b : List α}

theorem TextAt.congr (h : TextAt nul size mem p t) (hsame : ∀ q, p ≤ q → q ≤ p+t.length → mem' q = mem q) :
    TextAt nul size mem' p t := by
  refine ⟨h.cells.congr ?_,h.plain,h.inside⟩
  intro q hp hq
  rw [List.length_append,List.length_singleton] at hq
  exact hsame q hp (by omega)

/-- The front of a text, once a separator in it is overwritten. -/
theorem TextAt.front (h : TextAt nul size mem p (a ++ c::b)) :
    TextAt nul size (Function.update mem (p+a.length) nul) p a := by
  have hsize := h.inside
  rw [List.length_append,List.length_cons] at hsize
  refine ⟨cells_concat.mpr ⟨?_,Function.update_self ..⟩,fun ha => h.plain (List.mem_append_left _ ha),by omega⟩
  have hcells := h.cells
  rw [List.append_assoc] at hcells
  exact (cells_append.mp hcells).1.update (Or.inr le_rfl)

theorem TextAt.back (h : TextAt nul size mem p (a ++ c::b)) : TextAt nul size mem (p+a.length+1) b := by
  have hsize := h.inside
  rw [List.length_append,List.length_cons] at hsize
  refine ⟨?_,fun hb => h.plain (List.mem_append_right _ (List.mem_cons_of_mem _ hb)),by omega⟩
  have hcells := h.cells
  rw [List.append_assoc] at hcells
  exact (cells_append.mp hcells).2.2

end

variable [DecidableEq α]

/-- `p = strchr(s, c); if (p) *p++ = nul;`: where the text behind the separator begins, and the memory. -/
def cut (nul : α) (size : ℕ) (mem : ℕ → α) (s : ℕ) (c : α) : Option (Option ℕ × (ℕ → α)) := do
  let q ← scan size mem (fun b => b != nul && b != c) size s
  let b ← fetch size mem q
  if b = c then
    let mem ← store size mem q nul
    some (some (q+1),mem)
  else some (none,mem)

/-- A text in front of its first separator, and behind it. -/
def cutText (c : α) (t : List α) : List α × Option (List α) :=
  (t.takeWhile (· != c),if c ∈ t then some (t.dropWhile (· != c)).tail else none)

section
variable {nul c : α} {size p : ℕ} {mem : ℕ → α} {t a b : List α}

theorem cutText_of_notMem (h : c ∉ t) : cutText c t = (t,none) := by
  rw [cutText,if_neg h,List.takeWhile_eq_self_iff.mpr]
  intro d hd
  simpa using ne_of_mem_of_not_mem hd h

theorem cutText_append (h : c ∉ a) : cutText c (a ++ c::b) = (a,some b) := by
  have hall : ∀ d ∈ a, (d != c) = true := by
    intro d hd
    simpa using ne_of_mem_of_not_mem hd h
  rw [cutText,if_pos (by simp),List.takeWhile_append_of_pos hall,List.dropWhile_append_of_pos hall]
  simp

theorem cutText_length_le (c : α) (t : List α) : (cutText c t).1.length ≤ t.length :=
  (List.takeWhile_sublist _).length_le

theorem cutText_length (h : b ∈ (cutText c t).2) : (cutText c t).1.length+1+b.length = t.length := by
  by_cases hc : c ∈ t
  · obtain ⟨a,b',rfl,ha⟩ := List.eq_append_cons_of_mem hc
    rw [cutText_append ha] at h ⊢
    cases h
    simp [Nat.add_assoc,Nat.add_comm 1]
  · rw [cutText_of_notMem hc] at h
    cases h

theorem TextAt.text_eq (h : TextAt nul size mem p t) : text size mem (· == nul) size p = some t := by
  have hsize := h.inside
  have hmore : ∀ d ∈ t, (fun b => b == nul) d = false := by
    intro d hd
    simpa using ne_of_mem_of_not_mem hd h.plain
  exact Memory.text_eq h.cells hmore (beq_self_eq_true nul) hsize (by omega)

/-- What a cut leaves: the two texts, and everything else as it was. -/
structure CutDone (nul : α) (size : ℕ) (mem mem' : ℕ → α) (p : ℕ) (c : α) (t : List α) : Prop where
  front : TextAt nul size mem' p (cutText c t).1
  back : ∀ b ∈ (cutText c t).2, TextAt nul size mem' (p+(cutText c t).1.length+1) b
  old : ∀ q, q < p ∨ p+t.length ≤ q → mem' q = mem q

theorem cut_eq (h : TextAt nul size mem p t) (hc : c ≠ nul) :
    ∃ mem', cut nul size mem p c = some ((cutText c t).2.map fun _ => p+(cutText c t).1.length+1,mem') ∧
      CutDone nul size mem mem' p c t := by
  have hsize := h.inside
  have hskip : ∀ {u : List α}, nul ∉ u → c ∉ u → ∀ d ∈ u, (d != nul && d != c) = true := by
    intro u hnul hu d hd
    simp [ne_of_mem_of_not_mem hd hnul,ne_of_mem_of_not_mem hd hu]
  by_cases hmem : c ∈ t
  · obtain ⟨a,b,rfl,ha⟩ := List.eq_append_cons_of_mem hmem
    have hlen : (a ++ c::b).length = a.length+(b.length+1) := by
      rw [List.length_append,List.length_cons]
    rw [hlen] at hsize
    have hcells := h.cells
    rw [List.append_assoc,List.cons_append,List.append_cons] at hcells
    have hscan : scan size mem (fun b => b != nul && b != c) size p = some (p+a.length) := by
      apply scan_eq (cells_append.mp hcells).1 (hskip _ ha) (by simp) (by omega) (by omega)
      exact fun hnul => h.plain (List.mem_append_left _ hnul)
    have hsep : mem (p+a.length) = c := (cells_concat.mp (cells_append.mp hcells).1).2
    have hlt : p+a.length < size := by omega
    rw [cutText_append ha]
    refine ⟨Function.update mem (p+a.length) nul,?_,?_⟩
    · simp [cut,hscan,fetch_of_lt hlt,hsep,store_of_lt hlt]
    · have hback : TextAt nul size (Function.update mem (p+a.length) nul) (p+a.length+1) b := by
        apply h.back.congr
        intro q hq _
        exact Function.update_of_ne (by omega) ..
      refine ⟨?_,?_,?_⟩
      · rw [cutText_append ha]
        exact h.front
      · rw [cutText_append ha]
        rintro b' ⟨⟩
        exact hback
      · intro q hq
        rw [hlen] at hq
        exact Function.update_of_ne (by omega) ..
  · have hscan : scan size mem (fun b => b != nul && b != c) size p = some (p+t.length) := by
      exact scan_eq h.cells (hskip h.plain hmem) (by simp) hsize (by omega)
    have hnul : mem (p+t.length) = nul := (cells_concat.mp h.cells).2
    refine ⟨mem,?_,?_,?_,fun _ _ => rfl⟩
    · rw [cutText_of_notMem hmem]
      simp [cut,hscan,fetch_of_lt hsize,hnul,hc.symm]
    · rw [cutText_of_notMem hmem]
      exact h
    · rw [cutText_of_notMem hmem]
      rintro b ⟨⟩

end

end Memory
