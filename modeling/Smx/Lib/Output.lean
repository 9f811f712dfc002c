import Smx.Lib.Backward

/-! Output to a buffer through a pointer that the writer moves on, with terminators behind what is printed. -/
namespace Memory

variable {α : Type}

/-- Characters that are copied, or a text that is printed with its terminator. -/
inductive Put (α : Type)
  | chars (cs : List α)
  | printed (cs : List α)

/-- What the pointer moves over. -/
def Put.text : Put α → List α
  | chars cs => cs
  | printed cs => cs

/-- What is written. -/
def Put.written (stop : α) : Put α → List α
  | chars cs => cs
  | printed cs => cs ++ [stop]

def flat (ps : List (Put α)) : List α := ps.flatMap Put.text

section
variable (stop : α)

/-- How many cells are written behind the pointer. -/
def need : List (Put α) → ℕ
  | [] => 0
  | p::ps => max (p.written stop).length (p.text.length+need ps)

/-- The pointer and the cells when all is written, unless it is outside of the cells. -/
def putAll (size : ℕ) : List (Put α) → ℕ → (ℕ → α) → Option (ℕ × (ℕ → α))
  | [],n,mem => some (n,mem)
  | p::ps,n,mem =>
    if n+(p.written stop).length ≤ size then putAll size ps (n+p.text.length) (write mem n (p.written stop)) else none

end

section
variable {stop : α} {size n : ℕ} {mem mem' : ℕ → α} {ps ps' : List (Put α)} {cs front : List α}

@[simp] theorem flat_nil : flat ([] : List (Put α)) = [] := rfl

@[simp] theorem flat_cons (p : Put α) (ps : List (Put α)) : flat (p::ps) = p.text ++ flat ps := rfl

@[simp] theorem flat_append (ps ps' : List (Put α)) : flat (ps ++ ps') = flat ps ++ flat ps' := List.flatMap_append

theorem length_flat_le (stop : α) (ps : List (Put α)) : (flat ps).length ≤ need stop ps := by
  induction ps with
  | nil => exact Nat.zero_le _
  | cons p ps ih =>
    rw [flat_cons,List.length_append,need]
    exact (Nat.add_le_add_left ih _).trans (le_max_right _ _)

/-- What is in front stays, and what is put out follows it. -/
theorem cells_written (hfront : Cells mem 0 front) (hn : front.length = n) (p : Put α) :
    Cells (write mem n (p.written stop)) 0 (front ++ p.text) := by
  refine cells_append.mpr ⟨?_,?_⟩
  · refine hfront.congr fun q _ hq => write_of_lt ?_
    omega
  · rw [Nat.zero_add,hn]
    have hall := cells_write mem n (p.written stop)
    cases p with
    | chars cs => exact hall
    | printed cs => exact (cells_concat.mp hall).1

theorem putAll_some (hfront : Cells mem 0 front) (hn : front.length = n) (h : n+need stop ps ≤ size) :
    ∃ mem', putAll stop size ps n mem = some (n+(flat ps).length,mem') ∧ Cells mem' 0 (front ++ flat ps) := by
  induction ps generalizing n mem front with
  | nil => exact ⟨mem,rfl,by simpa using hfront⟩
  | cons p ps ih =>
    have hfit := le_max_left (p.written stop).length (p.text.length+need stop ps)
    have hmore := le_max_right (p.written stop).length (p.text.length+need stop ps)
    rw [need] at h
    have hlen : (front ++ p.text).length = n+p.text.length := by
      rw [List.length_append,hn]
    obtain ⟨mem',hput,hcells⟩ := ih (cells_written hfront hn p) hlen (by omega)
    refine ⟨mem',?_,by simpa using hcells⟩
    rw [putAll,if_pos (by omega),hput,flat_cons,List.length_append,Nat.add_assoc]

theorem putAll_end {m : ℕ} (h : putAll stop size ps n mem = some (m,mem')) : m = n+(flat ps).length := by
  induction ps generalizing n mem with
  | nil =>
    cases h
    rfl
  | cons p ps ih =>
    rw [putAll] at h
    split_ifs at h
    rw [ih h,flat_cons,List.length_append,Nat.add_assoc]

theorem putAll_iff (hle : n ≤ size) : (putAll stop size ps n mem).isSome = true ↔ n+need stop ps ≤ size := by
  induction ps generalizing n mem with
  | nil => simpa [putAll,need] using hle
  | cons p ps ih =>
    rw [putAll,need]
    split_ifs with hfit
    · have hlen : p.text.length ≤ (p.written stop).length := by
        cases p with
        | chars cs => exact le_rfl
        | printed cs => exact List.length_append ▸ Nat.le_add_right _ _
      rw [ih (by omega)]
      omega
    · refine iff_of_false Bool.false_ne_true ?_
      omega

end

end Memory
