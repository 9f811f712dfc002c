import Mathlib.Data.List.Nodup
import Mathlib.Logic.Function.Basic
import Mathlib.Tactic.Common

/-! Singly linked chains given by a parent pointer. `Path` relates a start to the finite list
of nodes that following the pointer visits; the lemmas say what a write to one pointer does
to it. -/
namespace ParentChain
variable {κ : Type*}

/-- Following `parent` from `start` visits exactly the nodes of the list and then ends. -/
inductive Path (parent : κ → Option κ) : Option κ → List κ → Prop
  | nil : Path parent none []
  | cons {c : κ} {cs : List κ} (tail : Path parent (parent c) cs) : Path parent (some c) (c::cs)

namespace Path
variable {parent : κ → Option κ}

@[simp] theorem none_iff {cs : List κ} : Path parent none cs ↔ cs = [] := by
  constructor
  · intro h
    cases h
    rfl
  · rintro rfl
    exact nil

@[simp] theorem nil_iff {s : Option κ} : Path parent s [] ↔ s = none := by
  constructor
  · intro h
    cases h
    rfl
  · rintro rfl
    exact nil

@[simp] theorem cons_iff {s : Option κ} {c : κ} {cs : List κ} :
    Path parent s (c::cs) ↔ s = some c ∧ Path parent (parent c) cs := by
  constructor
  · intro h
    cases h with
    | cons tail => exact ⟨rfl,tail⟩
  · rintro ⟨rfl,tail⟩
    exact cons tail

theorem unique {s : Option κ} {cs ds : List κ} (h : Path parent s cs) (h' : Path parent s ds) :
    cs = ds := by
  induction h generalizing ds with
  | nil => exact (none_iff.mp h').symm
  | cons tail ih =>
    cases h' with
    | cons tail' => rw [ih tail']

/-- A path may be cut at any of its nodes. -/
theorem suffix {s : Option κ} {pre post : List κ} {c : κ} (h : Path parent s (pre ++ c::post)) :
    Path parent (some c) (c::post) := by
  induction pre generalizing s with
  | nil =>
    obtain ⟨rfl,tail⟩ := cons_iff.mp h
    exact cons tail
  | cons d pre ih => exact ih (cons_iff.mp h).2

/-- A finite path never meets a node twice. -/
theorem nodup {s : Option κ} {cs : List κ} (h : Path parent s cs) : cs.Nodup := by
  induction h with
  | nil => exact List.nodup_nil
  | @cons c cs tail ih =>
    refine List.nodup_cons.mpr ⟨fun hc => ?_,ih⟩
    obtain ⟨pre,post,rfl⟩ := List.append_of_mem hc
    have hshort := (cons tail).unique tail.suffix
    have hlen := congrArg List.length hshort
    simp at hlen
    omega

/-- Only the pointers of the visited nodes matter. -/
theorem congr {parent' : κ → Option κ} {s : Option κ} {cs : List κ} (h : Path parent s cs)
    (hp : ∀ c ∈ cs, parent' c = parent c) : Path parent' s cs := by
  induction h with
  | nil => exact nil
  | @cons c cs tail ih =>
    refine cons ?_
    rw [hp c List.mem_cons_self]
    exact ih fun d hd => hp d (List.mem_cons_of_mem _ hd)

variable [DecidableEq κ]

/-- A write to the pointer of a node that the path does not visit. -/
theorem update_of_not_mem {s : Option κ} {cs : List κ} {c : κ} (h : Path parent s cs) (hc : c ∉ cs)
    (v : Option κ) : Path (Function.update parent c v) s cs :=
  h.congr fun d hd => by
    have hne : d ≠ c := fun he => hc (he ▸ hd)
    simp [hne]

/-- Redirecting one node of a path replaces all that follows it. -/
theorem redirect {s : Option κ} {pre post rest : List κ} {c : κ} {v : Option κ}
    (h : Path parent s (pre ++ c::post)) (hv : Path (Function.update parent c v) v rest) :
    Path (Function.update parent c v) s (pre ++ c::rest) := by
  have hnd := h.nodup
  induction pre generalizing s with
  | nil =>
    obtain ⟨rfl,-⟩ := cons_iff.mp h
    refine cons ?_
    rw [Function.update_self]
    exact hv
  | cons d pre ih =>
    obtain ⟨rfl,tail⟩ := cons_iff.mp h
    obtain ⟨hd,hnd⟩ := List.nodup_cons.mp hnd
    refine cons ?_
    rw [Function.update_of_ne (fun he => hd (by simp [he]))]
    exact ih tail hnd

end Path
end ParentChain
