import Mathlib.Data.List.Nodup
import Mathlib.Logic.Function.Basic

/-! Linked lists whose first node remembers where the last one is. -/
namespace TailList

/-- A node, with its data, the node behind it, and, if it is the first, the last node. -/
structure Node (α : Type) where
  data : α
  next : Option ℕ
  last : ℕ

variable {α : Type}

/-- A node of its own at `t`. -/
def create (h : ℕ → Node α) (t : ℕ) (d : α) : ℕ → Node α := Function.update h t ⟨d,none,t⟩

/-- A new node at `t` is put behind the last one of the list at `top`. -/
def link (h : ℕ → Node α) (top t : ℕ) (d : α) : ℕ → Node α :=
  let h := create h t d
  let l := (h top).last
  let h := Function.update h l { h l with next := some t }
  Function.update h top { h top with last := t }

/-- `n` steps from a pointer, or up to the end. -/
def advance (h : ℕ → Node α) : ℕ → Option ℕ → Option ℕ
  | 0,p => p
  | n+1,p =>
    match p with
    | none => none
    | some a => advance h n (h a).next

/-- The nodes from a pointer to the end. -/
inductive Chain (h : ℕ → Node α) : Option ℕ → List ℕ → Prop
  | nil : Chain h none []
  | cons {a : ℕ} {as : List ℕ} (hnext : Chain h (h a).next as) : Chain h (some a) (a::as)

/-- The nodes of a list, which has one at least. -/
structure Listed (h : ℕ → Node α) (as : List ℕ) : Prop where
  chain : Chain h as.head? as
  nodup : as.Nodup
  last : ∀ top ∈ as.head?, as.getLast? = some (h top).last

section
variable {h h' : ℕ → Node α} {p : Option ℕ} {a l t top : ℕ} {as : List ℕ} {d : α}

theorem Chain.advance (hc : Chain h p as) (n : ℕ) : Chain h (advance h n p) (as.drop n) := by
  induction n generalizing p as with
  | zero => exact hc
  | succ n ih =>
    cases hc with
    | nil => exact Chain.nil
    | cons hnext => exact ih hnext

theorem Chain.eq_head? (hc : Chain h p as) : p = as.head? := by
  cases hc <;> rfl

/-- A chain stays when its nodes do. -/
theorem Chain.frame (hc : Chain h p as) (hsame : ∀ a ∈ as, (h' a).next = (h a).next) : Chain h' p as := by
  induction hc with
  | nil => exact Chain.nil
  | @cons a as hnext ih =>
    obtain ⟨ha,has⟩ := List.forall_mem_cons.mp hsame
    apply Chain.cons
    rw [ha]
    exact ih has

/-- A chain whose last node is linked to one that ends. -/
theorem Chain.snoc (hc : Chain h p as) (hnodup : as.Nodup) (hlast : as.getLast? = some l)
    (hnext : ∀ a ∈ as, (h' a).next = if a = l then some t else (h a).next) (ht : (h' t).next = none) :
    Chain h' p (as ++ [t]) := by
  induction hc with
  | nil => cases hlast
  | @cons a as htail ih =>
    obtain ⟨ha,has⟩ := List.forall_mem_cons.mp hnext
    apply Chain.cons
    rw [ha]
    cases as with
    | nil =>
      obtain rfl : a = l := by simpa using hlast
      rw [if_pos rfl]
      apply Chain.cons
      rw [ht]
      exact Chain.nil
    | cons b as =>
      have hlast : (b::as).getLast? = some l := by simpa using hlast
      have hne : a ≠ l := by
        rintro rfl
        exact (List.nodup_cons.mp hnodup).1 (List.mem_of_getLast? hlast)
      rw [if_neg hne]
      exact ih (List.nodup_cons.mp hnodup).2 hlast has

theorem create_of_ne (hne : a ≠ t) : create h t d a = h a := Function.update_of_ne hne _ _

@[simp] theorem create_self : create h t d t = ⟨d,none,t⟩ := Function.update_self ..

/-- A node of its own is a list. -/
theorem listed_create : Listed (create h t d) [t] where
  chain := by
    apply Chain.cons
    rw [create_self]
    exact Chain.nil
  nodup := List.nodup_singleton t
  last := by simp

/-- What `link` does to a node. -/
theorem link_apply (htop : top ≠ t) (a : ℕ) : link h top t d a =
    ⟨if a = t then d else (h a).data,
      if a = (h top).last then some t else if a = t then none else (h a).next,
      if a = top then t else if a = t then t else (h a).last⟩ := by
  have hne := htop.symm
  unfold link
  simp only [create_of_ne htop]
  by_cases hat : a = top
  · subst hat
    by_cases hal : a = (h a).last
    · simp [← hal,create_of_ne htop,htop]
    · simp [hal,create_of_ne htop,htop]
  · by_cases hal : a = (h top).last
    · subst hal
      by_cases hlt : (h top).last = t
      · simp [Function.update_apply,hlt,hne]
      · simp [Function.update_apply,hat,hlt,create_of_ne hlt]
    · by_cases hlt : a = t
      · subst hlt
        simp [Function.update_apply,hal,hne]
      · simp [Function.update_apply,hat,hal,hlt,create_of_ne hlt]

theorem Listed.frame (hl : Listed h as) (hsame : ∀ a ∈ as, h' a = h a) : Listed h' as where
  chain := hl.chain.frame fun a ha => by rw [hsame a ha]
  nodup := hl.nodup
  last := by
    intro top htop
    rw [hsame top (List.mem_of_mem_head? htop)]
    exact hl.last top htop

theorem link_data (htop : top ≠ t) (ha : a ≠ t) : (link h top t d a).data = (h a).data := by
  rw [link_apply htop]
  exact if_neg ha

theorem link_data_self (htop : top ≠ t) : (link h top t d t).data = d := by
  rw [link_apply htop]
  exact if_pos rfl

/-- Only three nodes are written to. -/
theorem link_of_ne (htop : top ≠ t) (ha : a ≠ t) (hatop : a ≠ top) (hlast : a ≠ (h top).last) :
    link h top t d a = h a := by
  rw [link_apply htop,if_neg ha,if_neg hlast,if_neg ha,if_neg hatop,if_neg ha]

/-- A list with a new node behind its last. -/
theorem Listed.link (hl : Listed h as) (hhead : as.head? = some top) (ht : t ∉ as) :
    Listed (link h top t d) (as ++ [t]) := by
  have hmem : top ∈ as := List.mem_of_mem_head? hhead
  have htop : top ≠ t := ne_of_mem_of_not_mem hmem ht
  have hlast : as.getLast? = some (h top).last := hl.last top hhead
  have hne : ∀ a ∈ as, a ≠ t := fun a ha => ne_of_mem_of_not_mem ha ht
  have hlt : t ≠ (h top).last := (hne _ (List.mem_of_getLast? hlast)).symm
  have hhead' : (as ++ [t]).head? = some top := by rw [List.head?_append,hhead,Option.some_or]
  refine ⟨?_,List.nodup_append.mpr ⟨hl.nodup,List.nodup_singleton t,?_⟩,?_⟩
  · rw [hhead',← hhead]
    apply hl.chain.snoc hl.nodup hlast
    · intro a ha
      rw [link_apply htop]
      dsimp only
      rw [if_neg (hne a ha)]
    · rw [link_apply htop]
      dsimp only
      rw [if_neg hlt,if_pos rfl]
  · intro a ha b hb
    rw [List.mem_singleton.mp hb]
    exact hne a ha
  · intro a ha
    obtain rfl : top = a := Option.some.inj (hhead'.symm.trans ha)
    rw [List.getLast?_concat,link_apply htop]
    simp

end

end TailList
