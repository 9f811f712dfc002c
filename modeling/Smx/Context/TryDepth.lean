import Smx.Base.Error
import Smx.Lib.Run

/-! `myTry` of the contexts: `%try`, `SetErrorHandler` and `SetParent` share the counter. -/
namespace Smx

/-- The contexts are numbered as they are made. -/
structure Depths where
  /-- `myTry` -/
  myTry : ℕ → ℤ
  /-- `myErrorHandler` -/
  handler : ℕ → Bytes
  next : ℕ
  /-- The `%try` blocks that have not ended, the innermost first: the context, and whether there is a second
  argument. -/
  blocks : List (ℕ × Bool)
  /-- The exception on its way. -/
  raised : Option Exn
  /-- The depth and the handler of the parent when it was set. -/
  inherited : ℕ → ℤ × Bytes

namespace Depths

def addTry (s : Depths) (c : ℕ) : Depths := { s with myTry := Function.update s.myTry c (s.myTry c+1) }
def remTry (s : Depths) (c : ℕ) : Depths := { s with myTry := Function.update s.myTry c (s.myTry c-1) }

/-- `SetParent`, as far as it sets the depth and the handler. -/
def setParent (s : Depths) (c : ℕ) : Option ℕ → Depths
  | none => s
  | some p =>
    { s with
      myTry := Function.update s.myTry c (s.myTry p)
      handler := Function.update s.handler c (s.handler p)
      inherited := Function.update s.inherited c (s.myTry p,s.handler p) }

/-- `Construct`. -/
def construct (s : Depths) (parent : Option ℕ) : Depths :=
  setParent
    { s with
      myTry := Function.update s.myTry s.next 0
      handler := Function.update s.handler s.next []
      inherited := Function.update s.inherited s.next (0,[])
      next := s.next+1 } s.next parent

/-- `SetErrorHandler`. -/
def setErrorHandler (s : Depths) (c : ℕ) (str : Bytes) : Depths :=
  let s := if s.handler c = [] then s else s.remTry c
  let s := { s with handler := Function.update s.handler c str }
  if str = [] then s else s.addTry c

/-- `Throw`: with a depth other than 0 the error is thrown, else it is printed. -/
def throws (s : Depths) (c : ℕ) : Bool := s.myTry c ≠ 0

/-- The exits of `EvalTry`. The second argument is evaluated in a context of its own. -/
def endTry (s : Depths) (c : ℕ) (handler : Bool) (blocks : List (ℕ × Bool)) : Depths :=
  let s := { s.remTry c with blocks }
  match s.raised with
  | none => s
  | some .abort => s
  | some _ => if handler then construct { s with raised := none } (some c) else { s with raised := none }

end Depths

/-- What changes the depths while a page is evaluated. -/
inductive DepthEvent
  | construct (parent : Option ℕ)
  | setParent (c : ℕ) (parent : Option ℕ)
  | setErrorHandler (c : ℕ) (str : Bytes)
  /-- `%try` in a context, with a second argument or without one -/
  | beginTry (c : ℕ) (handler : Bool)
  /-- the innermost `%try` ends -/
  | endTry
  | throw_ (c : ℕ) (ex : CtxEx)
  /-- `Abort`, or an exception that is no script error -/
  | raise (e : Exn)
  /-- something other than a `%try` takes the exception -/
  | caught

namespace Depths

/-- While an exception is on its way only `%try` blocks end. -/
def step (s : Depths) : DepthEvent → Option Depths
  | .construct parent =>
    if s.raised = none ∧ ∀ p ∈ parent, p < s.next then some (s.construct parent) else none
  | .setParent c parent =>
    if s.raised = none ∧ c < s.next ∧ ∀ p ∈ parent, p < s.next then some (s.setParent c parent) else none
  | .setErrorHandler c str => if s.raised = none ∧ c < s.next then some (s.setErrorHandler c str) else none
  | .beginTry c handler =>
    if s.raised = none ∧ c < s.next then some { s.addTry c with blocks := (c,handler)::s.blocks } else none
  | .endTry =>
    match s.blocks with
    | [] => none
    | b::bs => some (s.endTry b.1 b.2 bs)
  | .throw_ c ex =>
    if s.raised = none ∧ c < s.next then
      some (if s.throws c then { s with raised := some (.error ex) } else s)
    else none
  | .raise e => if s.raised = none then some { s with raised := some e } else none
  | .caught => if s.raised = none then none else some { s with raised := none }

/-- There is no context. -/
def start : Depths := ⟨fun _ => 0,fun _ => [],0,[],none,fun _ => (0,[])⟩

/-- How many of the `%try` blocks are those of a context. -/
def active (blocks : List (ℕ × Bool)) (c : ℕ) : ℕ := blocks.countP (·.1 = c)

/-- 1 with an error handler, else 0. -/
def handling (handler : Bytes) : ℤ := if handler = [] then 0 else 1

/-- The depth is the inherited one with the active `%try` blocks and the handler, without the inherited
handler; it is not negative, and errors are thrown where it is positive. -/
structure Exact (s : Depths) : Prop where
  depth : ∀ c < s.next, s.myTry c =
    (s.inherited c).1+active s.blocks c+handling (s.handler c)-handling (s.inherited c).2
  nonneg : ∀ c < s.next, 0 ≤ s.myTry c
  throws_iff : ∀ c < s.next, s.throws c = true ↔ 0 < s.myTry c

/-- A context with an active `%try` is not given a parent. -/
def Settable (s : Depths) : DepthEvent → Prop
  | .setParent c (some p) => (s.step (.setParent c (some p))).isSome → active s.blocks c = 0
  | _ => True

/-- What the steps keep. -/
structure Kept (s : Depths) : Prop where
  depth : ∀ c < s.next, s.myTry c =
    (s.inherited c).1+active s.blocks c+handling (s.handler c)-handling (s.inherited c).2
  inherited : ∀ c < s.next, handling (s.inherited c).2 ≤ (s.inherited c).1
  blocks : ∀ b ∈ s.blocks, b.1 < s.next

section
variable {s t : Depths} {c : ℕ}

theorem handling_nonneg (handler : Bytes) : 0 ≤ handling handler := by
  rw [handling]
  split_ifs <;> decide

/-- A context with a handler has a depth above 0. -/
theorem Kept.handling_le (h : s.Kept) (hc : c < s.next) : handling (s.handler c) ≤ s.myTry c := by
  have hdepth := h.depth c hc
  have hinh := h.inherited c hc
  omega

theorem Kept.exact (h : s.Kept) : s.Exact := by
  have hnonneg : ∀ c < s.next, 0 ≤ s.myTry c := fun c hc =>
    Int.le_trans (handling_nonneg _) (h.handling_le hc)
  refine ⟨h.depth,hnonneg,fun c hc => ?_⟩
  have hc' := hnonneg c hc
  rw [throws,decide_eq_true_iff]
  omega

theorem start_kept : start.Kept := ⟨nofun,nofun,nofun⟩

/-- Another context is not touched by what is set for one. -/
theorem Kept.setParent (h : s.Kept) {parent : Option ℕ} (hparent : ∀ p ∈ parent, p < s.next)
    (hidle : parent ≠ none → active s.blocks c = 0) : (s.setParent c parent).Kept := by
  cases parent with
  | none => exact h
  | some p =>
    have hp := hparent p rfl
    have hz := hidle (Option.some_ne_none p)
    refine ⟨fun d hd => ?_,fun d hd => ?_,h.blocks⟩
    · have hd' := h.depth d hd
      simp only [Depths.setParent]
      by_cases hdc : d = c
      · rw [hdc,hz]
        simp only [Function.update_self]
        omega
      · simpa only [Function.update_of_ne hdc] using hd'
    · simp only [Depths.setParent]
      by_cases hdc : d = c
      · rw [hdc]
        simp only [Function.update_self]
        exact h.handling_le hp
      · simpa only [Function.update_of_ne hdc] using h.inherited d hd

theorem Kept.active_next (h : s.Kept) : active s.blocks s.next = 0 := by
  refine Nat.eq_zero_of_not_pos fun hpos => ?_
  obtain ⟨b,hb,heq⟩ := List.countP_pos_iff.mp hpos
  have hlt := h.blocks b hb
  rw [of_decide_eq_true heq] at hlt
  exact Nat.lt_irrefl _ hlt

theorem Kept.construct (h : s.Kept) {parent : Option ℕ} (hparent : ∀ p ∈ parent, p < s.next) :
    (s.construct parent).Kept := by
  have hnew : Kept { s with
      myTry := Function.update s.myTry s.next 0
      handler := Function.update s.handler s.next []
      inherited := Function.update s.inherited s.next (0,[])
      next := s.next+1 } := by
    refine ⟨fun d hd => ?_,fun d hd => ?_,fun b hb => Nat.lt_succ_of_lt (h.blocks b hb)⟩
    · by_cases hdn : d = s.next
      · rw [hdn]
        simp only [Function.update_self,h.active_next]
        rfl
      · simpa only [Function.update_of_ne hdn] using h.depth d (Nat.lt_of_le_of_ne (Nat.le_of_lt_succ hd) hdn)
    · by_cases hdn : d = s.next
      · rw [hdn]
        simp only [Function.update_self]
        decide
      · simpa only [Function.update_of_ne hdn] using h.inherited d (Nat.lt_of_le_of_ne (Nat.le_of_lt_succ hd) hdn)
  exact hnew.setParent (fun p hp => Nat.lt_succ_of_lt (hparent p hp)) fun _ => h.active_next

/-- The handler is set, and the depth with it. -/
theorem setErrorHandler_eq (s : Depths) (c : ℕ) (str : Bytes) : s.setErrorHandler c str =
    { s with
      myTry := Function.update s.myTry c (s.myTry c-handling (s.handler c)+handling str)
      handler := Function.update s.handler c str } := by
  by_cases hold : s.handler c = []
  · by_cases hnew : str = []
    · simp [setErrorHandler,handling,hold,hnew]
    · simp [setErrorHandler,handling,hold,hnew,addTry]
  · by_cases hnew : str = []
    · simp [setErrorHandler,handling,hold,hnew,remTry]
    · simp [setErrorHandler,handling,hold,hnew,remTry,addTry]

theorem Kept.setErrorHandler (h : s.Kept) (str : Bytes) : (s.setErrorHandler c str).Kept := by
  rw [setErrorHandler_eq]
  refine ⟨fun d hd => ?_,h.inherited,h.blocks⟩
  have hd' := h.depth d hd
  by_cases hdc : d = c
  · rw [hdc] at hd' ⊢
    simp only [Function.update_self]
    omega
  · simpa only [Function.update_of_ne hdc] using hd'

theorem active_cons (b : ℕ × Bool) (bs : List (ℕ × Bool)) (c : ℕ) :
    active (b::bs) c = active bs c+if b.1 = c then 1 else 0 := by
  simp [active,List.countP_cons]

theorem Kept.beginTry (h : s.Kept) (hc : c < s.next) (handler : Bool) :
    Kept { s.addTry c with blocks := (c,handler)::s.blocks } := by
  refine ⟨fun d hd => ?_,h.inherited,fun b hb => ?_⟩
  · have hd' := h.depth d hd
    simp only [addTry,active_cons]
    by_cases hdc : d = c
    · rw [hdc] at hd' ⊢
      simp only [Function.update_self,if_true]
      omega
    · simp only [Function.update_of_ne hdc,if_neg (Ne.symm hdc)]
      exact hd'
  · obtain rfl | hb := List.mem_cons.mp hb
    · exact hc
    · exact h.blocks b hb

/-- The innermost block ends, in whatever way. -/
theorem Kept.remTry (h : s.Kept) {b : ℕ × Bool} {bs : List (ℕ × Bool)} (hb : s.blocks = b::bs) :
    Kept { s.remTry b.1 with blocks := bs } := by
  refine ⟨fun d hd => ?_,h.inherited,fun e he => h.blocks e (hb ▸ List.mem_cons_of_mem b he)⟩
  have hd' := h.depth d hd
  rw [hb,active_cons] at hd'
  simp only [Depths.remTry]
  by_cases hdb : d = b.1
  · rw [hdb] at hd' ⊢
    rw [if_pos rfl] at hd'
    simp only [Function.update_self]
    omega
  · rw [if_neg (Ne.symm hdb)] at hd'
    simp only [Function.update_of_ne hdb]
    omega

theorem Kept.setRaised (h : s.Kept) (e : Option Exn) : ({ s with raised := e } : Depths).Kept :=
  ⟨h.depth,h.inherited,h.blocks⟩

theorem Kept.endTry (h : s.Kept) {b : ℕ × Bool} {bs : List (ℕ × Bool)} (hb : s.blocks = b::bs) :
    (s.endTry b.1 b.2 bs).Kept := by
  have hrem := h.remTry hb
  have hlt : ∀ p ∈ some b.1, p < s.next := by
    intro p hp
    obtain rfl := Option.some.inj hp
    exact h.blocks b (hb ▸ List.mem_cons_self)
  have htaken : Kept (if b.2 then Depths.construct { s.remTry b.1 with blocks := bs, raised := none } (some b.1)
      else { s.remTry b.1 with blocks := bs, raised := none }) := by
    split_ifs
    · exact (hrem.setRaised none).construct hlt
    · exact hrem.setRaised none
  simp only [Depths.endTry]
  have hsame : ({ s.remTry b.1 with blocks := bs } : Depths).raised = s.raised := rfl
  rw [hsame]
  cases hraised : s.raised with
  | none => exact hrem.setRaised none
  | some e =>
    cases e with
    | abort => exact hrem.setRaised (some .abort)
    | error ex => exact htaken
    | unknown => exact htaken

theorem Kept.step (h : s.Kept) {ev : DepthEvent} (hok : s.Settable ev) (hstep : s.step ev = some t) : t.Kept := by
  cases ev with
  | construct parent =>
    simp only [Depths.step] at hstep
    split_ifs at hstep with hc
    obtain rfl := Option.some.inj hstep
    exact h.construct hc.2
  | setParent c parent =>
    have hsome : (s.step (.setParent c parent)).isSome := by rw [hstep]; rfl
    simp only [Depths.step] at hstep
    split_ifs at hstep with hc
    obtain rfl := Option.some.inj hstep
    refine h.setParent hc.2.2 fun hne => ?_
    obtain ⟨p,rfl⟩ := Option.ne_none_iff_exists'.mp hne
    exact hok hsome
  | setErrorHandler c str =>
    simp only [Depths.step] at hstep
    split_ifs at hstep with hc
    obtain rfl := Option.some.inj hstep
    exact h.setErrorHandler str
  | beginTry c handler =>
    simp only [Depths.step] at hstep
    split_ifs at hstep with hc
    obtain rfl := Option.some.inj hstep
    exact h.beginTry hc.2 handler
  | endTry =>
    simp only [Depths.step] at hstep
    cases hb : s.blocks with
    | nil =>
      rw [hb] at hstep
      cases hstep
    | cons b bs =>
      rw [hb] at hstep
      obtain rfl := Option.some.inj hstep
      exact h.endTry hb
  | throw_ c ex =>
    simp only [Depths.step] at hstep
    split_ifs at hstep with hc hthrown
    · obtain rfl := Option.some.inj hstep
      exact h.setRaised _
    · obtain rfl := Option.some.inj hstep
      exact h
  | raise e =>
    simp only [Depths.step] at hstep
    split_ifs at hstep
    obtain rfl := Option.some.inj hstep
    exact h.setRaised _
  | caught =>
    simp only [Depths.step] at hstep
    split_ifs at hstep
    obtain rfl := Option.some.inj hstep
    exact h.setRaised _

/-- A parent that is set while a `%try` is active takes its place in the count. -/
theorem breaks {ev : DepthEvent} (hnot : ¬s.Settable ev) : ∃ t, s.step ev = some t ∧ ¬t.Exact := by
  cases ev with
  | setParent c parent =>
    cases parent with
    | none => exact absurd trivial hnot
    | some p =>
      obtain ⟨hsome,hact⟩ := Classical.not_imp.mp hnot
      obtain ⟨t,ht⟩ := Option.isSome_iff_exists.mp hsome
      refine ⟨t,ht,fun h => ?_⟩
      simp only [step] at ht
      split_ifs at ht with hc
      obtain rfl := Option.some.inj ht
      have hdepth := h.depth c hc.2.1
      simp only [setParent,Function.update_self] at hdepth
      omega
  | _ => exact absurd trivial hnot

/-- `%c({%try({%c({x})})})` for a class `c`: its context is 1, and inside the `%try` it is given a parent and
its old one again. -/
def nestedClass : List DepthEvent :=
  [.construct none,.construct none,.setParent 1 (some 0),.beginTry 1 false,.setParent 1 (some 1),
    .setParent 1 (some 0),.endTry]

end
end Depths
end Smx
