import Mathlib.Data.List.Basic

/-! Texts in which some letters are written as rows of letters, and are read back from these. -/
namespace Escape
variable {α : Type}

/-- Reads a text behind `skip` letters that are used up. `read` tells which letter a beginning of the text stands for,
and how long this beginning is; where it finds nothing, a letter stands for itself. -/
def decode (read : List α → Option (α × ℕ)) : ℕ → List α → List α
  | _,[] => []
  | skip+1,_::p => decode read skip p
  | 0,c::p =>
    match read (c::p) with
    | some (d,len) => d::decode read (len-1) p
    | none => c::decode read 0 p

/-- How a letter is written: as it is, or as something that is read as the letter. -/
inductive Writes (read : List α → Option (α × ℕ)) (c : α) : List α → Prop
  | plain (h : ∀ p, read (c::p) = none) : Writes read c [c]
  | escape {e : List α} (hne : e ≠ []) (h : ∀ p, read (e ++ p) = some (c,e.length)) : Writes read c e

variable {read : List α → Option (α × ℕ)} {quote : α → List α} {s a b : List α} {x : α}

theorem decode_skip (e p : List α) : decode read e.length (e ++ p) = decode read 0 p := by
  induction e with
  | nil => rfl
  | cons c e ih => rw [List.length_cons,List.cons_append,decode,ih]

theorem Writes.decode {c : α} {e : List α} (h : Writes read c e) (p : List α) :
    decode read 0 (e ++ p) = c::Escape.decode read 0 p := by
  cases h with
  | plain h => simp [Escape.decode,h p]
  | escape hne h =>
    obtain ⟨d,e,rfl⟩ := List.exists_cons_of_ne_nil hne
    have hread : read (d::(e ++ p)) = some (c,(d::e).length) := h p
    rw [List.cons_append,Escape.decode,hread]
    simp only [List.length_cons,Nat.add_sub_cancel,decode_skip]

/-- What is written letter by letter is read back. -/
theorem decode_flatMap (h : ∀ c ∈ s, Writes read c (quote c)) : decode read 0 (s.flatMap quote) = s := by
  induction s with
  | nil => rfl
  | cons c s ih =>
    rw [List.flatMap_cons,(h c List.mem_cons_self).decode,ih fun d hd => h d (List.mem_cons_of_mem c hd)]

/-- A letter that is only written in front stands where a letter of the text is written. -/
theorem exists_of_flatMap_eq (h : ∀ c ∈ s, x ∉ (quote c).tail) (heq : s.flatMap quote = a ++ x::b) :
    ∃ s₁ c s₂, s = s₁ ++ c::s₂ ∧ a = s₁.flatMap quote ∧ x::b = quote c ++ s₂.flatMap quote := by
  induction s generalizing a with
  | nil => simp at heq
  | cons c s ih =>
    rw [List.flatMap_cons] at heq
    rcases List.append_eq_append_iff.mp heq with ⟨a',rfl,hrest⟩ | ⟨e,hquote,hx⟩
    · obtain ⟨s₁,d,s₂,rfl,rfl,hb⟩ := ih (fun d hd => h d (List.mem_cons_of_mem c hd)) hrest
      exact ⟨c::s₁,d,s₂,rfl,by rw [List.flatMap_cons],hb⟩
    · cases a with
      | nil => exact ⟨[],c,s,rfl,rfl,by simpa using heq.symm⟩
      | cons d a =>
        cases e with
        | nil =>
          obtain ⟨s₁,d',s₂,rfl,hs₁,hb⟩ :=
            ih (a := []) (fun d hd => h d (List.mem_cons_of_mem c hd)) (by simpa using hx.symm)
          refine ⟨c::s₁,d',s₂,rfl,?_,hb⟩
          simp [← hs₁,hquote]
        | cons y e =>
          obtain ⟨rfl,-⟩ := List.cons.inj (by simpa using hx)
          refine absurd ?_ (h c List.mem_cons_self)
          rw [hquote]
          simp

end Escape
