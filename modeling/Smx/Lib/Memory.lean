import Mathlib.Data.List.DropRight
import Mathlib.Logic.Function.Basic

/-! Cells with an end: what they hold, and loops that go over them by pointer. -/
namespace Memory

variable {α : Type}

/-- The cells from `p` on hold a list. -/
def Cells (mem : ℕ → α) : ℕ → List α → Prop
  | _,[] => True
  | p,c::cs => mem p = c ∧ Cells mem (p+1) cs

/-- `*p`, where there are `size` cells. -/
def fetch (size : ℕ) (mem : ℕ → α) (p : ℕ) : Option α := if p < size then some (mem p) else none

/-- `*p = c`. -/
def store (size : ℕ) (mem : ℕ → α) (p : ℕ) (c : α) : Option (ℕ → α) :=
  if p < size then some (Function.update mem p c) else none

/-- `while (skip(*p)) ++p;` -/
def scan (size : ℕ) (mem : ℕ → α) (skip : α → Bool) : ℕ → ℕ → Option ℕ
  | 0,_ => none
  | fuel+1,p => (fetch size mem p).bind fun c => if skip c then scan size mem skip fuel (p+1) else some p

/-- `while (skip(*p)) --p;` -/
def scanBack (size : ℕ) (mem : ℕ → α) (skip : α → Bool) : ℕ → Option ℕ
  | 0 => (fetch size mem 0).bind fun c => if skip c then none else some 0
  | p+1 => (fetch size mem (p+1)).bind fun c => if skip c then scanBack size mem skip p else some (p+1)

/-- The cells from `p` up to the first that is a `stop`. -/
def text (size : ℕ) (mem : ℕ → α) (stop : α → Bool) : ℕ → ℕ → Option (List α)
  | 0,_ => none
  | fuel+1,p =>
    (fetch size mem p).bind fun c => if stop c then some [] else (text size mem stop fuel (p+1)).map (c::·)

section
variable {mem mem' : ℕ → α} {p q size fuel : ℕ} {c stop : α} {cs cs' : List α} {skip : α → Bool}

theorem fetch_of_lt (h : p < size) : fetch size mem p = some (mem p) := if_pos h

theorem store_of_lt (h : p < size) : store size mem p c = some (Function.update mem p c) := if_pos h

theorem cells_cons : Cells mem p (c::cs) ↔ mem p = c ∧ Cells mem (p+1) cs := Iff.rfl

theorem cells_append : Cells mem p (cs ++ cs') ↔ Cells mem p cs ∧ Cells mem (p+cs.length) cs' := by
  induction cs generalizing p with
  | nil => simp [Cells]
  | cons c cs ih =>
    have hp : p+1+cs.length = p+(c::cs).length := by
      rw [List.length_cons]
      omega
    rw [List.cons_append,cells_cons,cells_cons,ih,hp,and_assoc]

theorem cells_singleton : Cells mem p [c] ↔ mem p = c := by
  simp [Cells]

theorem cells_concat : Cells mem p (cs ++ [c]) ↔ Cells mem p cs ∧ mem (p+cs.length) = c := by
  rw [cells_append,cells_singleton]

theorem Cells.congr (h : Cells mem p cs) (hsame : ∀ q, p ≤ q → q < p+cs.length → mem' q = mem q) :
    Cells mem' p cs := by
  induction cs generalizing p with
  | nil => exact h
  | cons c cs ih =>
    rw [List.length_cons] at hsame
    refine ⟨(hsame p le_rfl (by omega)).trans h.1,ih h.2 ?_⟩
    intro q hp hq
    exact hsame q (by omega) (by omega)

/-- A cell elsewhere is written to. -/
theorem Cells.update (h : Cells mem p cs) (hq : q < p ∨ p+cs.length ≤ q) :
    Cells (Function.update mem q c) p cs := by
  apply h.congr
  intro r hp hr
  apply Function.update_of_ne
  omega

/-- Cells that are filled from a list. -/
theorem cells_getD (cs cs' : List α) (d : α) : Cells (fun i => (cs' ++ cs).getD i d) cs'.length cs := by
  induction cs generalizing cs' with
  | nil => trivial
  | cons c cs ih =>
    have h := ih (cs' ++ [c])
    rw [List.length_append,List.length_singleton,List.append_assoc] at h
    exact ⟨by simp,h⟩

/-- Two texts at one place that both end at their first `stop` are one. -/
theorem Cells.unique (h : Cells mem p (cs ++ [stop])) (h' : Cells mem p (cs' ++ [stop])) (hcs : stop ∉ cs)
    (hcs' : stop ∉ cs') : cs = cs' := by
  induction cs generalizing p cs' with
  | nil =>
    cases cs' with
    | nil => rfl
    | cons c' cs' => exact absurd (List.mem_cons.mpr (Or.inl (h.1.symm.trans h'.1))) hcs'
  | cons c cs ih =>
    cases cs' with
    | nil => exact absurd (List.mem_cons.mpr (Or.inl (h'.1.symm.trans h.1))) hcs
    | cons c' cs' =>
      obtain ⟨hc,hcs⟩ := not_or.mp (mt List.mem_cons.mpr hcs)
      obtain ⟨hc',hcs'⟩ := not_or.mp (mt List.mem_cons.mpr hcs')
      rw [h.1.symm.trans h'.1,ih h.2 h'.2 hcs hcs']

/-- The loop stops behind the cells that it skips. -/
theorem scan_eq (h : Cells mem p (cs ++ [stop])) (hcs : ∀ c ∈ cs, skip c = true) (hstop : skip stop = false)
    (hsize : p+cs.length < size) (hfuel : cs.length < fuel) :
    scan size mem skip fuel p = some (p+cs.length) := by
  induction cs generalizing p fuel with
  | nil =>
    obtain ⟨fuel,rfl⟩ := Nat.exists_eq_add_one.mpr hfuel
    have hp : p < size := hsize
    rw [scan,fetch_of_lt hp,Option.bind_some,h.1,hstop]
    rfl
  | cons c cs ih =>
    obtain ⟨fuel,rfl⟩ := Nat.exists_eq_add_one.mpr (Nat.zero_lt_of_lt hfuel)
    obtain ⟨hc,hcs⟩ := List.forall_mem_cons.mp hcs
    rw [List.length_cons] at hsize hfuel
    rw [scan,fetch_of_lt (by omega),Option.bind_some,h.1,hc,if_pos rfl,ih h.2 hcs (by omega) (by omega),
      List.length_cons]
    congr 1
    omega

/-- The loop back stops at the last cell that is not skipped. -/
theorem scanBack_eq (h : Cells mem p (stop::cs)) (hstop : skip stop = false) (hsize : p+cs.length < size) :
    scanBack size mem skip (p+cs.length) = some (p+(cs.rdropWhile skip).length) := by
  induction cs using List.reverseRecOn with
  | nil =>
    have hp : mem p = stop := h.1
    have hlt : p < size := hsize
    cases p with
    | zero => simp [scanBack,fetch_of_lt hlt,hp,hstop]
    | succ p => simp [scanBack,fetch_of_lt hlt,hp,hstop]
  | append_singleton cs c ih =>
    rw [← List.cons_append] at h
    obtain ⟨hcs,hc⟩ := cells_concat.mp h
    rw [List.length_append,List.length_singleton,← Nat.add_assoc] at hsize
    have hc : mem (p+cs.length+1) = c := by
      rw [← hc,List.length_cons]
      rfl
    have hlen : p+(cs ++ [c]).length = p+cs.length+1 := by
      rw [List.length_append,List.length_singleton]
      rfl
    rw [hlen,scanBack,fetch_of_lt hsize,Option.bind_some,hc,List.rdropWhile_concat]
    by_cases hskip : skip c = true
    · rw [if_pos hskip,if_pos hskip]
      exact ih hcs (by omega)
    · rw [if_neg hskip,if_neg hskip,hlen]

theorem text_eq {last : α → Bool} (h : Cells mem p (cs ++ [stop])) (hcs : ∀ c ∈ cs, last c = false)
    (hstop : last stop = true) (hsize : p+cs.length < size) (hfuel : cs.length < fuel) :
    text size mem last fuel p = some cs := by
  induction cs generalizing p fuel with
  | nil =>
    obtain ⟨fuel,rfl⟩ := Nat.exists_eq_add_one.mpr hfuel
    have hp : p < size := hsize
    rw [text,fetch_of_lt hp,Option.bind_some,h.1,hstop]
    rfl
  | cons c cs ih =>
    obtain ⟨fuel,rfl⟩ := Nat.exists_eq_add_one.mpr (Nat.zero_lt_of_lt hfuel)
    obtain ⟨hc,hcs⟩ := List.forall_mem_cons.mp hcs
    rw [List.length_cons] at hsize hfuel
    rw [text,fetch_of_lt (by omega),Option.bind_some,h.1,hc,if_neg Bool.false_ne_true,
      ih h.2 hcs (by omega) (by omega)]
    rfl

end

end Memory
