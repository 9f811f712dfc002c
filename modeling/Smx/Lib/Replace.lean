import Mathlib.Data.List.Basic

/-! Replacement from left to right: of the pieces of a list that are hit, each one that begins behind the
last one is replaced. What was put in is not looked at again. -/
namespace Replace
variable {α : Type} (Hit : List α → Prop) (new : List α)

/-- No piece is hit. -/
def Free (s : List α) : Prop := ∀ u m v, s = u ++ m ++ v → ¬Hit m

/-- The first piece that is hit stands between `u` and `v`. -/
structure First (s u v : List α) : Prop where
  hit : ∃ m, Hit m ∧ s = u ++ m ++ v
  least : ∀ u' m v', s = u' ++ m ++ v' → Hit m → u.length ≤ u'.length

/-- The list where each piece is replaced. -/
inductive Becomes : List α → List α → Prop
  | none {s : List α} (h : Free Hit s) : Becomes s s
  | some {s u v v' : List α} (h : First Hit s u v) (hv : Becomes v v') : Becomes s (u ++ new ++ v')

/-- Behind some piece: what has been put out so far, and what is left. -/
inductive Stage : List α → List α → List α → Prop
  | hit {s u v : List α} (h : First Hit s u v) : Stage s (u ++ new) v
  | next {s u v done rest : List α} (h : First Hit s u v) (hv : Stage v done rest) :
    Stage s (u ++ new ++ done) rest

/-- A piece that is replaced. -/
inductive Place : List α → List α → Prop
  | here {s u m v : List α} (h : First Hit s u v) (hm : Hit m) (hs : s = u ++ m ++ v) : Place s m
  | next {s u v m : List α} (h : First Hit s u v) (hv : Place v m) : Place s m

variable {Hit new} {s t u v u' v' : List α} {n : ℕ}

theorem Free.tail {c : α} (h : Free Hit (c::s)) : Free Hit s := by
  intro u m v hs
  exact h (c::u) m v (congrArg (List.cons c) hs)

theorem Free.cons {c : α} (h : Free Hit s) (h0 : ∀ m v, c::s = m ++ v → ¬Hit m) : Free Hit (c::s) := by
  intro u m v hs
  cases u with
  | nil => exact h0 m v hs
  | cons d u => exact h u m v (List.cons.inj hs).2

theorem First.not_free (h : First Hit s u v) : ¬Free Hit s := by
  obtain ⟨m,hm,hs⟩ := h.hit
  exact fun hfree => hfree u m v hs hm

theorem First.of_hit {m : List α} (h : Hit m) (v : List α) : First Hit (m ++ v) [] v :=
  ⟨⟨m,h,rfl⟩,fun _ _ _ _ _ => Nat.zero_le _⟩

theorem First.cons {c : α} (h : First Hit s u v) (h0 : ∀ m v, c::s = m ++ v → ¬Hit m) :
    First Hit (c::s) (c::u) v := by
  obtain ⟨m,hm,hs⟩ := h.hit
  refine ⟨⟨m,hm,congrArg (List.cons c) hs⟩,?_⟩
  intro u' m' v' hs' hm'
  cases u' with
  | nil => exact absurd hm' (h0 m' v' hs')
  | cons d u' => exact Nat.succ_le_succ (h.least u' m' v' (List.cons.inj hs').2 hm')

/-- Something in front, where no hit begins. -/
theorem First.append (h : First Hit s u v)
    (hfront : ∀ u' m v', t ++ s = u' ++ m ++ v' → Hit m → t.length ≤ u'.length) :
    First Hit (t ++ s) (t ++ u) v := by
  obtain ⟨m,hm,hs⟩ := h.hit
  refine ⟨⟨m,hm,by rw [hs]; simp only [List.append_assoc]⟩,?_⟩
  intro u' m' v' hs' hm'
  obtain ⟨w,rfl⟩ : t <+: u' := by
    refine List.prefix_of_prefix_length_le (List.prefix_append t s) ?_ (hfront u' m' v' hs' hm')
    rw [hs',List.append_assoc]
    exact List.prefix_append u' _
  rw [List.append_assoc,List.append_assoc,List.append_cancel_left_eq,← List.append_assoc] at hs'
  rw [List.length_append,List.length_append]
  exact Nat.add_le_add_left (h.least w m' v' hs' hm') _

theorem Free.append (h : Free Hit s)
    (hfront : ∀ u' m v', t ++ s = u' ++ m ++ v' → Hit m → t.length ≤ u'.length) : Free Hit (t ++ s) := by
  intro u m v hs hm
  obtain ⟨w,rfl⟩ : t <+: u := by
    refine List.prefix_of_prefix_length_le (List.prefix_append t s) ?_ (hfront u m v hs hm)
    rw [hs,List.append_assoc]
    exact List.prefix_append u _
  rw [List.append_assoc,List.append_assoc,List.append_cancel_left_eq,← List.append_assoc] at hs
  exact h w m v hs hm

/-- There is a first piece that is hit, or none. -/
theorem first_or_free (Hit : List α → Prop) (s : List α) : (∃ u v, First Hit s u v) ∨ Free Hit s := by
  induction s with
  | nil =>
    by_cases h0 : Hit []
    · exact .inl ⟨[],[],First.of_hit h0 []⟩
    · right
      intro u m v hs hm
      obtain ⟨hum,-⟩ := List.append_eq_nil_iff.mp hs.symm
      exact h0 ((List.append_eq_nil_iff.mp hum).2 ▸ hm)
  | cons c s ih =>
    by_cases h0 : ∃ m v, c::s = m ++ v ∧ Hit m
    · obtain ⟨m,v,hs,hm⟩ := h0
      exact .inl ⟨[],v,hs ▸ First.of_hit hm v⟩
    · have hnot : ∀ m v, c::s = m ++ v → ¬Hit m := fun m v hs hm => h0 ⟨m,v,hs,hm⟩
      obtain ⟨u,v,h⟩ | h := ih
      · exact .inl ⟨c::u,v,h.cons hnot⟩
      · exact .inr (h.cons hnot)

section
variable (hlen : ∀ m, Hit m → m.length = n)
include hlen

/-- What stands behind the piece is shorter. -/
theorem First.length (h : First Hit s u v) : s.length = u.length+n+v.length := by
  obtain ⟨m,hm,rfl⟩ := h.hit
  rw [List.length_append,List.length_append,hlen m hm]

theorem First.unique (h : First Hit s u v) (h' : First Hit s u' v') : u = u' ∧ v = v' := by
  obtain ⟨m,hm,hs⟩ := h.hit
  obtain ⟨m',hm',hs'⟩ := h'.hit
  have hu : u.length = u'.length := Nat.le_antisymm (h.least u' m' v' hs' hm') (h'.least u m v hs hm)
  have heq : u ++ (m ++ v) = u' ++ (m' ++ v') := by
    rw [← List.append_assoc,← List.append_assoc,← hs,← hs']
  obtain ⟨huu,hmv⟩ := List.append_inj heq hu
  exact ⟨huu,(List.append_inj hmv ((hlen m hm).trans (hlen m' hm').symm)).2⟩

theorem Becomes.unique {r r' : List α} (h : Becomes Hit new s r) (h' : Becomes Hit new s r') : r = r' := by
  induction h generalizing r' with
  | none hfree =>
    cases h' with
    | none _ => rfl
    | some h _ => exact absurd hfree h.not_free
  | some hfirst hv ih =>
    cases h' with
    | none hfree => exact absurd hfree hfirst.not_free
    | some hfirst' hv' =>
      obtain ⟨rfl,rfl⟩ := hfirst.unique hlen hfirst'
      rw [ih hv']

/-- Each piece makes the list longer or shorter by the same amount. -/
theorem Becomes.length {r : List α} (h : Becomes Hit new s r) :
    ∃ k, r.length+k*n = s.length+k*new.length ∧ (k = 0 → Free Hit s) := by
  induction h with
  | none hfree => exact ⟨0,by rw [Nat.zero_mul,Nat.zero_mul],fun _ => hfree⟩
  | @some s u v v' hfirst hv ih =>
    obtain ⟨k,hk,-⟩ := ih
    refine ⟨k+1,?_,nofun⟩
    rw [hfirst.length hlen,List.length_append,List.length_append,Nat.succ_mul,Nat.succ_mul]
    omega

theorem Becomes.ne {r : List α} (h : Becomes Hit new s r) (hne : n ≠ new.length) (hfree : ¬Free Hit s) :
    r ≠ s := by
  obtain ⟨k,hk,hzero⟩ := h.length hlen
  intro heq
  rw [heq] at hk
  have hmul : k*n = k*new.length := Nat.add_left_cancel hk
  obtain h0 | h0 := Nat.eq_zero_or_pos k
  · exact hfree (hzero h0)
  · exact hne (Nat.eq_of_mul_eq_mul_left h0 hmul)

end

section
variable {Loose : List α → Prop} (hle : ∀ m, Hit m → Loose m)
include hle

/-- A looser hit that is one comes first, too. -/
theorem First.of_loose {m : List α} (h : First Loose s u v) (hm : Hit m) (hs : s = u ++ m ++ v) :
    First Hit s u v :=
  ⟨⟨m,hm,hs⟩,fun u' m' v' hs' hm' => h.least u' m' v' hs' (hle m' hm')⟩

/-- With a looser test the list is the same if each piece that is replaced is a hit. -/
theorem Becomes.of_loose {r : List α} (h : Becomes Loose new s r) (hpiece : ∀ m, Place Loose s m → Hit m) :
    Becomes Hit new s r := by
  induction h with
  | none hfree => exact .none fun u m v hs hm => hfree u m v hs (hle m hm)
  | some hfirst hv ih =>
    obtain ⟨m,hm,hs⟩ := hfirst.hit
    exact .some (hfirst.of_loose hle (hpiece m (.here hfirst hm hs)) hs)
      (ih fun m hm => hpiece m (.next hfirst hm))

variable (hlen : ∀ m, Loose m → m.length = n)
include hlen

/-- Up to its first byte, a piece that is no hit stays. -/
theorem Becomes.stays {m r : List α} {c : α} (h : First Loose s u v) (hloose : Loose (c::m)) (hm : ¬Hit (c::m))
    (hs : s = u ++ (c::m) ++ v) (hr : Becomes Hit new s r) : u ++ [c] <+: r := by
  have hpre : u ++ [c] <+: s := ⟨m ++ v,by rw [hs]; simp⟩
  cases hr with
  | none _ => exact hpre
  | @some _ u' v' w hfirst _ =>
    obtain ⟨m',hm',hs'⟩ := hfirst.hit
    have hge := h.least u' m' v' hs' (hle m' hm')
    have hne : u.length ≠ u'.length := by
      intro heq
      have hsplit : u ++ ((c::m) ++ v) = u' ++ (m' ++ v') := by
        rw [← List.append_assoc,← List.append_assoc,← hs,← hs']
      obtain ⟨-,hmv⟩ := List.append_inj hsplit heq
      have hmm := (List.append_inj hmv ((hlen _ hloose).trans (hlen m' (hle m' hm')).symm)).1
      exact hm (hmm ▸ hm')
    have hu' : u' <+: s := ⟨m' ++ v',by rw [hs',List.append_assoc]⟩
    have hlt : (u ++ [c]).length ≤ u'.length := by
      rw [List.length_append,List.length_singleton]
      omega
    exact (List.prefix_of_prefix_length_le hpre hu' hlt).trans ⟨new ++ w,by rw [List.append_assoc]⟩

end

theorem Stage.not_free {done rest : List α} (h : Stage Hit new s done rest) : ¬Free Hit s := by
  cases h with
  | hit h => exact h.not_free
  | next h _ => exact h.not_free

end Replace
