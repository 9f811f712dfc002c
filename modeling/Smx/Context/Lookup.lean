import Smx.Base.Bytes

/-! The recursive lookup of `qCtx`: `FindC` for names that pop contexts, then the local
lookup, then the parent. A chain is the list of contexts from the current one to the root. -/
namespace Smx

/-- What a lookup reads of the contexts. `FindL` is virtual, so any answer is allowed. -/
structure Scopes (κ ο : Type) where
  findL : κ → Bytes → Option ο
  safeMode : κ → Bool

variable {κ ο : Type}

/-- The bindings of a name counted outward along a chain. -/
def definitions (T : Scopes κ ο) (name : Bytes) (cs : List κ) : List (ο × κ) :=
  cs.filterMap fun c => (T.findL c name).map fun obj => (obj,c)

@[simp] theorem definitions_nil (T : Scopes κ ο) (name : Bytes) :
    definitions T name [] = [] := rfl

theorem definitions_cons_none {T : Scopes κ ο} {name : Bytes} {c : κ} (h : T.findL c name = none)
    (cs : List κ) : definitions T name (c::cs) = definitions T name cs := by
  simp [definitions,h]

theorem definitions_cons_some {T : Scopes κ ο} {name : Bytes} {c : κ} {obj : ο}
    (h : T.findL c name = some obj) (cs : List κ) :
    definitions T name (c::cs) = (obj,c)::definitions T name cs := by
  simp [definitions,h]

theorem definitions_eq_nil_iff {T : Scopes κ ο} {name : Bytes} {cs : List κ} :
    definitions T name cs = [] ↔ ∀ c ∈ cs, T.findL c name = none := by
  simp [definitions,List.filterMap_eq_nil_iff]

section
variable [DecidableEq κ]

/-- Where the walk of `FindC` stopped: the contexts not visited, the last hit and the
context of the first one. -/
structure PopWalk (κ ο : Type) where
  ctx : List κ
  hit : Option (ο × κ)
  first : Option κ

/-- The loop of `FindC`: walk up, counting down on every context that has the name. -/
def popWalk (T : Scopes κ ο) (p : Bytes) :
    List κ → ℕ → Option (ο × κ) → Option κ → PopWalk κ ο
  | [],_,hit,first => ⟨[],hit,first⟩
  | ctx::up,0,hit,first => ⟨ctx::up,hit,first⟩
  | ctx::up,pop+1,hit,first =>
    match T.findL ctx p with
    | some obj => popWalk T p up pop (some (obj,ctx)) (first.or (some ctx))
    | none => popWalk T p up (pop+1) hit first

def isColon (c : Byte) : Bool := c == ch ':'

/-- `FindC`: names like `::x`. A name that starts with `<` in safe mode gives false too. -/
def findC (T : Scopes κ ο) (name : Bytes) (top : Option κ) : List κ → Option (ο × κ)
  | [] => none
  | this::up =>
    if name.head? = some (ch '<') ∧ T.safeMode this then none
    else if name.head? = some (ch ':') ∧ ¬ T.safeMode this then
      let p := name.dropWhile isColon
      let pop := (name.takeWhile isColon).length+1
      let r := if top = some this then ⟨this::up,none,none⟩
        else popWalk T p (this::up) pop none none
      -- `(first != ctx) && *where`
      if r.first ≠ r.ctx.head? then r.hit else none
    else none

/-- `qCtx::Find`: the object and the context it was found in. -/
def find (T : Scopes κ ο) (name : Bytes) (top : Option κ) : List κ → Option (ο × κ)
  | [] => none
  | this::up =>
    match findC T name top (this::up) with
    | some r => some r
    | none =>
      match T.findL this name with
      | some obj => some (obj,this)
      | none => if top = some this then none else find T name top up

/-- The contexts a lookup blocked at `top` may read. -/
def searched (top : Option κ) : List κ → List κ
  | [] => []
  | this::up => if top = some this then [this] else this::searched top up

@[simp] theorem searched_none (cs : List κ) : searched none cs = cs := by
  induction cs with
  | nil => rfl
  | cons c cs ih => simp [searched,ih]

/-- `FindC` has nothing to say about a name that does not start with a colon. -/
theorem findC_of_not_colon (T : Scopes κ ο) {name : Bytes} (h : name.head? ≠ some (ch ':'))
    (top : Option κ) (cs : List κ) : findC T name top cs = none := by
  cases cs with
  | nil => rfl
  | cons this up => simp [findC,h]

/-- Without colons the lookup is the first binding of the chain, up to `top`. -/
theorem find_of_not_colon (T : Scopes κ ο) {name : Bytes} (h : name.head? ≠ some (ch ':'))
    (top : Option κ) (cs : List κ) :
    find T name top cs = (definitions T name (searched top cs)).head? := by
  induction cs with
  | nil => rfl
  | cons this up ih =>
    simp only [find,findC_of_not_colon T h,searched]
    cases hf : T.findL this name with
    | some obj => split_ifs <;> simp [definitions_cons_some hf]
    | none =>
      split_ifs with ht
      · simp [definitions_cons_none hf]
      · rw [definitions_cons_none hf]
        exact ih

/-- A lookup fails exactly when no context it may read binds the name. -/
theorem find_eq_none_iff (T : Scopes κ ο) {name : Bytes} (h : name.head? ≠ some (ch ':'))
    (top : Option κ) (cs : List κ) :
    find T name top cs = none ↔ ∀ c ∈ searched top cs, T.findL c name = none := by
  rw [find_of_not_colon T h,List.head?_eq_none_iff,definitions_eq_nil_iff]

end
end Smx
