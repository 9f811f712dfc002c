import Smx.Context.Bindings
import Smx.Core.Object
import Smx.Lib.Run

/-! The control flags of `%while`, `%do` and `%for`. A loop exposes the address of its local
`ok` to scripts under the name `break`; `%for` does so in a context of its own, the other two
in the current one and only when no `break` is visible there. -/
namespace Smx

/-- What is being evaluated, the innermost first. -/
inductive Frame
  /-- `EvalWhile` or `EvalDo`, with the number of its flag -/
  | loop (ok : ℕ)
  /-- `EvalFor`, which has a context of its own -/
  | forLoop (ok : ℕ)
  /-- anything else that evaluates in a `qCtxTmp`: a macro call, an enumeration -/
  | scope
  deriving DecidableEq

def Frame.flag : Frame → Option ℕ
  | .loop ok => some ok
  | .forLoop ok => some ok
  | .scope => none

/-- The contexts and flags of a running evaluation. -/
structure LoopState where
  map : Bindings CtxId Obj
  /-- the current context and its parents -/
  chain : List CtxId
  /-- the `ok` of every loop, by number -/
  ok : ℕ → Bool
  nextOk : ℕ
  nextCtx : CtxId
  frames : List Frame

def breakName : Bytes := str "break"

/-- `ctx->Find(&obj, "break")`. -/
def findBreak (m : Bindings CtxId Obj) (chain : List CtxId) : Option (Obj × CtxId) :=
  find (plain m fun _ => false) breakName none chain

/-- The prologue of `EvalWhile` and `EvalDo`. -/
def exposeBreak (m : Bindings CtxId Obj) (chain : List CtxId) (ok : ℕ) : Bindings CtxId Obj :=
  match findBreak m chain,chain with
  | none,this::_ => mapObj m this (.brk ok) breakName
  | _,_ => m

inductive LoopEv
  /-- `%while` or `%do` starts in the current context -/
  | start
  /-- `%for` starts, with its variable -/
  | startFor (var : Bytes)
  /-- the running loop tests `ok` and goes on to another iteration -/
  | again
  /-- the running evaluation ends: a loop for any reason, or a macro call -/
  | done
  /-- a `qCtxTmp` below the current context becomes current -/
  | enter
  /-- the script binds or deletes a name other than `break` in some context -/
  | bind (c : CtxId) (name : Bytes) (obj : Option Obj)
  /-- `%break%` -/
  | break

/-- Entering a fresh context: it binds nothing. -/
def LoopState.push (s : LoopState) (f : Frame) : LoopState :=
  { s with map := Function.update s.map s.nextCtx fun _ => none
           chain := s.nextCtx::s.chain, nextCtx := s.nextCtx+1, frames := f::s.frames }

/-- `%break%` in the current context: `EvalBreak` on the flag that the name denotes. -/
def LoopState.evalBreak (s : LoopState) : LoopState :=
  match findBreak s.map s.chain with
  | some (.brk ok,_) => { s with ok := Function.update s.ok ok false }
  | _ => s

/-- The flag of the loop whose test comes next, when a loop is what runs. -/
def LoopState.running (s : LoopState) : Option ℕ := s.frames.head?.bind Frame.flag

def LoopState.step (s : LoopState) : LoopEv → Option LoopState
  | .start => some { s with
      map := exposeBreak s.map s.chain s.nextOk
      ok := Function.update s.ok s.nextOk true
      nextOk := s.nextOk+1
      frames := .loop s.nextOk::s.frames }
  | .startFor var =>
    let s' := s.push (.forLoop s.nextOk)
    let m := mapObj s'.map s.nextCtx (.intP s.nextOk) var
    -- an empty variable name is an error and starts nothing
    if var = [] then none else some { s' with
      map := mapObj m s.nextCtx (.brk s.nextOk) breakName
      ok := Function.update s.ok s.nextOk true
      nextOk := s.nextOk+1 }
  | .again =>
    match s.running with
    | some ok => if s.ok ok then some s else none
    | none => none
  | .done =>
    match s.frames with
    | .loop _::fs => some { s with frames := fs }
    | .forLoop _::fs => some { s with chain := s.chain.tail, frames := fs }
    | .scope::fs => some { s with chain := s.chain.tail, frames := fs }
    | [] => none
  | .enter => some (s.push .scope)
  | .bind c name obj =>
    if mapKey name = breakName then none
    else some { s with map := setKey s.map c (mapKey name) obj }
  | .break => some s.evalBreak

/-- The flag of the innermost enclosing loop. -/
def innermost (fs : List Frame) : Option ℕ := fs.findSome? Frame.flag

@[simp] theorem innermost_nil : innermost [] = none := rfl

@[simp] theorem innermost_loop (ok : ℕ) (fs : List Frame) :
    innermost (.loop ok::fs) = some ok := rfl

@[simp] theorem innermost_forLoop (ok : ℕ) (fs : List Frame) :
    innermost (.forLoop ok::fs) = some ok := rfl

@[simp] theorem innermost_scope (fs : List Frame) : innermost (.scope::fs) = innermost fs := rfl

section
variable (m : Bindings CtxId Obj)

theorem mapKey_breakName : mapKey breakName = breakName := by decide

theorem findBreak_cons (c : CtxId) (cs : List CtxId) :
    findBreak m (c::cs) = match m c breakName with
      | some obj => some (obj,c)
      | none => findBreak m cs := by
  have hcolon : breakName.head? ≠ some (ch ':') := by decide
  simp only [findBreak,find_of_not_colon _ hcolon,searched_none]
  have hkey : (plain m fun _ => false).findL c breakName = m c breakName := by
    rw [plain_findL,mapKey_breakName]
  cases h : m c breakName with
  | none => rw [definitions_cons_none (by rw [hkey,h])]
  | some obj => rw [definitions_cons_some (by rw [hkey,h])]; rfl

theorem findBreak_cons_some {c : CtxId} {obj : Obj} (h : m c breakName = some obj)
    (cs : List CtxId) : findBreak m (c::cs) = some (obj,c) := by
  rw [findBreak_cons,h]

theorem findBreak_cons_none {c : CtxId} (h : m c breakName = none)
    (cs : List CtxId) : findBreak m (c::cs) = findBreak m cs := by
  rw [findBreak_cons,h]

/-- A visible `break` is bound in some context. -/
theorem bound_of_findBreak {cs : List CtxId} {r : Obj × CtxId} (h : findBreak m cs = some r) :
    m r.2 breakName = some r.1 := by
  induction cs with
  | nil => simp [findBreak,find] at h
  | cons c cs ih =>
    rw [findBreak_cons] at h
    split at h
    · next obj hobj =>
      cases h
      exact hobj
    · exact ih h

/-- A loop's `break` is visible from the body of the loop and nothing hides it. -/
def Covered : List Frame → List CtxId → Prop
  | [],cs => cs ≠ []
  | _::_,[] => False
  | .scope::fs,c::cs => (innermost fs ≠ none → m c breakName = none) ∧ Covered fs cs
  | .forLoop ok::fs,c::cs => m c breakName = some (.brk ok) ∧ Covered fs cs
  | .loop ok::fs,c::cs =>
    innermost fs = none ∧ m c breakName = some (.brk ok) ∧ Covered fs (c::cs)

end

variable {m m' : Bindings CtxId Obj} {fs : List Frame} {cs : List CtxId}

theorem Covered.findBreak (h : Covered m fs cs) {ok : ℕ} (hok : innermost fs = some ok) :
    ∃ c, findBreak m cs = some (.brk ok,c) := by
  induction fs generalizing cs with
  | nil => simp at hok
  | cons f fs ih =>
    cases cs with
    | nil => exact h.elim
    | cons c cs =>
      cases f with
      | loop g =>
        obtain rfl : g = ok := by simpa using hok
        exact ⟨c,findBreak_cons_some m h.2.1 cs⟩
      | forLoop g =>
        obtain rfl : g = ok := by simpa using hok
        exact ⟨c,findBreak_cons_some m h.1 cs⟩
      | scope =>
        have hfs : innermost fs = some ok := hok
        rw [findBreak_cons_none m (h.1 (by simp [hfs]))]
        exact ih h.2 hfs

theorem Covered.congr (h : Covered m fs cs) (hm : ∀ c ∈ cs, m' c breakName = m c breakName) :
    Covered m' fs cs := by
  induction fs generalizing cs with
  | nil => exact h
  | cons f fs ih =>
    cases cs with
    | nil => exact h.elim
    | cons c cs =>
      have hc := hm c List.mem_cons_self
      have hcs : ∀ d ∈ cs, m' d breakName = m d breakName :=
        fun d hd => hm d (List.mem_cons_of_mem _ hd)
      cases f with
      | loop g => exact ⟨h.1,hc.trans h.2.1,ih h.2.2 hm⟩
      | forLoop g => exact ⟨hc.trans h.1,ih h.2 hcs⟩
      | scope => exact ⟨fun hfs => hc.trans (h.1 hfs),ih h.2 hcs⟩

/-- Outside of every loop the bindings do not matter. -/
theorem Covered.of_no_loop (h : Covered m fs cs) (hfs : innermost fs = none) :
    Covered m' fs cs := by
  induction fs generalizing cs with
  | nil => exact h
  | cons f fs ih =>
    cases cs with
    | nil => exact h.elim
    | cons c cs =>
      cases f with
      | loop g => simp at hfs
      | forLoop g => simp at hfs
      | scope => exact ⟨fun hne => absurd hfs hne,ih h.2 hfs⟩

theorem Covered.chain_ne (h : Covered m fs cs) : cs ≠ [] := by
  cases fs with
  | nil => exact h
  | cons f fs =>
    cases cs with
    | nil => exact h.elim
    | cons c cs => exact List.cons_ne_nil c cs

/-- The ids in use are below the next ones. -/
structure LoopState.Fresh (s : LoopState) : Prop where
  chain : ∀ c ∈ s.chain, c < s.nextCtx
  frames : ∀ f ∈ s.frames, ∀ ok, f.flag = some ok → ok < s.nextOk
  bound : ∀ c ok, s.map c breakName = some (.brk ok) → ok < s.nextOk

theorem push_breakName (s : LoopState) (f : Frame) (c : CtxId) :
    (s.push f).map c breakName = if c = s.nextCtx then none else s.map c breakName := by
  simp only [LoopState.push,Function.update_apply]
  split_ifs <;> rfl

theorem exposeBreak_breakName (m : Bindings CtxId Obj) (this : CtxId) (up : List CtxId) (ok : ℕ)
    (h : Smx.findBreak m (this::up) = none) (c : CtxId) :
    exposeBreak m (this::up) ok c breakName =
      if c = this then some (.brk ok) else m c breakName := by
  simp [exposeBreak,h,mapObj,setKey_apply,mapKey_breakName]

theorem exposeBreak_of_visible {m : Bindings CtxId Obj} {chain : List CtxId} {r : Obj × CtxId}
    (h : Smx.findBreak m chain = some r) (ok : ℕ) : exposeBreak m chain ok = m := by
  simp [exposeBreak,h]

theorem eq_or_bound_of_exposeBreak {m : Bindings CtxId Obj} {chain : List CtxId} {ok g : ℕ}
    {c : CtxId} (h : exposeBreak m chain ok c breakName = some (.brk g)) :
    g = ok ∨ m c breakName = some (.brk g) := by
  cases chain with
  | nil =>
    have hm : exposeBreak m [] ok = m := by cases hb : Smx.findBreak m [] <;> simp [exposeBreak,hb]
    exact .inr (hm ▸ h)
  | cons this up =>
    cases hb : Smx.findBreak m (this::up) with
    | none =>
      rw [exposeBreak_breakName _ _ _ _ hb] at h
      split_ifs at h
      · cases h
        exact .inl rfl
      · exact .inr h
    | some r => exact .inr (by rwa [exposeBreak_of_visible hb] at h)

/-- The cases of a step. Of the maps it says what becomes of `break` only. -/
inductive LoopState.Steps (s : LoopState) : LoopEv → LoopState → Prop
  | start : s.Steps .start { s with
      map := exposeBreak s.map s.chain s.nextOk
      ok := Function.update s.ok s.nextOk true
      nextOk := s.nextOk+1
      frames := .loop s.nextOk::s.frames }
  | startFor (var : Bytes) (m : Bindings CtxId Obj)
      (hm : ∀ c, m c breakName =
        if c = s.nextCtx then some (.brk s.nextOk) else s.map c breakName) :
      s.Steps (.startFor var) { s with
        map := m
        chain := s.nextCtx::s.chain
        ok := Function.update s.ok s.nextOk true
        nextOk := s.nextOk+1
        nextCtx := s.nextCtx+1
        frames := .forLoop s.nextOk::s.frames }
  | again (ok : ℕ) (hrun : s.running = some ok) (hok : s.ok ok = true) : s.Steps .again s
  | doneLoop (ok : ℕ) (fs : List Frame) (hfs : s.frames = .loop ok::fs) :
      s.Steps .done { s with frames := fs }
  | donePop (f : Frame) (fs : List Frame) (hfs : s.frames = f::fs) (hf : ∀ ok, f ≠ .loop ok) :
      s.Steps .done { s with chain := s.chain.tail, frames := fs }
  | enter : s.Steps .enter (s.push .scope)
  | bind (c : CtxId) (name : Bytes) (obj : Option Obj) (m : Bindings CtxId Obj)
      (hm : ∀ c, m c breakName = s.map c breakName) : s.Steps (.bind c name obj) { s with map := m }
  | break : s.Steps .break s.evalBreak

theorem steps_of_step {s t : LoopState} {ev : LoopEv} (h : s.step ev = some t) : s.Steps ev t := by
  cases ev with
  | start => exact Option.some.inj h ▸ .start
  | startFor var =>
    simp only [LoopState.step] at h
    split_ifs at h with hvar
    refine Option.some.inj h ▸ .startFor var _ fun c => ?_
    simp only [mapObj,setKey_apply,mapKey_breakName,push_breakName]
    split_ifs <;> simp_all
  | again =>
    simp only [LoopState.step] at h
    split at h
    · next ok hok =>
      split_ifs at h with ht
      exact Option.some.inj h ▸ .again ok hok ht
    · cases h
  | done =>
    simp only [LoopState.step] at h
    split at h
    · next ok fs hfs => exact Option.some.inj h ▸ .doneLoop ok fs hfs
    · next ok fs hfs => exact Option.some.inj h ▸ .donePop _ fs hfs (by simp)
    · next fs hfs => exact Option.some.inj h ▸ .donePop _ fs hfs (by simp)
    · cases h
  | enter => exact Option.some.inj h ▸ .enter
  | bind c name obj =>
    simp only [LoopState.step] at h
    split_ifs at h with hname
    refine Option.some.inj h ▸ .bind c name obj _ fun d => ?_
    rw [setKey_apply,if_neg fun hd => hname hd.2.symm]
  | «break» => exact Option.some.inj h ▸ .break

theorem evalBreak_eq (s : LoopState) :
    s.evalBreak = { s with ok := s.evalBreak.ok } := by
  simp only [LoopState.evalBreak]
  split <;> rfl

theorem LoopState.Fresh.step {s t : LoopState} {ev : LoopEv} (hs : s.Fresh)
    (h : s.step ev = some t) : t.Fresh := by
  obtain ⟨hchain,hframes,hbound⟩ := hs
  cases steps_of_step h with
  | start =>
    refine ⟨hchain,?_,fun c ok hc => ?_⟩
    · rintro f hf ok hfok
      rcases List.mem_cons.mp hf with rfl | hf
      · cases hfok
        exact Nat.lt_succ_self _
      · exact (hframes f hf ok hfok).trans (Nat.lt_succ_self _)
    · rcases eq_or_bound_of_exposeBreak hc with rfl | hc
      · exact Nat.lt_succ_self _
      · exact (hbound c ok hc).trans (Nat.lt_succ_self _)
  | startFor var m hm =>
    refine ⟨?_,?_,fun c ok hc => ?_⟩
    · rintro c hc
      rcases List.mem_cons.mp hc with rfl | hc
      · exact Nat.lt_succ_self _
      · exact (hchain c hc).trans (Nat.lt_succ_self _)
    · rintro f hf ok hfok
      rcases List.mem_cons.mp hf with rfl | hf
      · cases hfok
        exact Nat.lt_succ_self _
      · exact (hframes f hf ok hfok).trans (Nat.lt_succ_self _)
    · replace hc := (hm c).symm.trans hc
      split_ifs at hc
      · cases hc
        exact Nat.lt_succ_self _
      · exact (hbound c ok hc).trans (Nat.lt_succ_self _)
  | again => exact ⟨hchain,hframes,hbound⟩
  | doneLoop ok fs hfs =>
    exact ⟨hchain,fun f hf => hframes f (hfs ▸ List.mem_cons_of_mem _ hf),hbound⟩
  | donePop f fs hfs =>
    exact ⟨fun c hc => hchain c (List.mem_of_mem_tail hc),
      fun f hf => hframes f (hfs ▸ List.mem_cons_of_mem _ hf),hbound⟩
  | enter =>
    refine ⟨?_,?_,fun c ok hc => ?_⟩
    · rintro c hc
      rcases List.mem_cons.mp hc with rfl | hc
      · exact Nat.lt_succ_self _
      · exact (hchain c hc).trans (Nat.lt_succ_self _)
    · rintro f hf ok hfok
      rcases List.mem_cons.mp hf with rfl | hf
      · cases hfok
      · exact hframes f hf ok hfok
    · rw [push_breakName] at hc
      split_ifs at hc
      exact hbound c ok hc
  | bind c name obj m hm => exact ⟨hchain,hframes,fun c ok hc => hbound c ok (hm c ▸ hc)⟩
  | «break» =>
    rw [evalBreak_eq]
    exact ⟨hchain,hframes,hbound⟩

/-- No `break` is visible where a `%while` or `%do` starts. -/
def StartsUnbroken (s : LoopState) (ev : LoopEv) : Prop :=
  ev = .start → findBreak s.map s.chain = none

def LoopState.Bound (s : LoopState) : Prop := Covered s.map s.frames s.chain

theorem LoopState.Bound.step {s t : LoopState} {ev : LoopEv} (hf : s.Fresh) (hs : s.Bound)
    (hev : StartsUnbroken s ev) (h : s.step ev = some t) : t.Bound := by
  have hold : ∀ c ∈ s.chain, c ≠ s.nextCtx := fun c hc => (hf.chain c hc).ne
  cases steps_of_step h with
  | start =>
    have hnone := hev rfl
    have hout : innermost s.frames = none := by
      by_contra hne
      obtain ⟨ok,hok⟩ := Option.ne_none_iff_exists'.mp hne
      obtain ⟨c,hc⟩ := hs.findBreak hok
      simp [hnone] at hc
    obtain ⟨this,up,hchain⟩ := List.exists_cons_of_ne_nil hs.chain_ne
    rw [Bound,hchain] at hs
    rw [hchain] at hnone
    refine (?_ : Covered (exposeBreak s.map s.chain s.nextOk) (.loop s.nextOk::s.frames) s.chain)
    rw [hchain]
    exact ⟨hout,by rw [exposeBreak_breakName _ _ _ _ hnone,if_pos rfl],hs.of_no_loop hout⟩
  | startFor var m hm =>
    exact ⟨(hm _).trans (if_pos rfl),hs.congr fun c hc => (hm c).trans (if_neg (hold c hc))⟩
  | again => exact hs
  | doneLoop ok fs hfs =>
    obtain ⟨this,up,hchain⟩ := List.exists_cons_of_ne_nil hs.chain_ne
    rw [Bound,hfs,hchain] at hs
    refine (?_ : Covered s.map fs s.chain)
    rw [hchain]
    exact hs.2.2
  | donePop f fs hfs hf =>
    obtain ⟨this,up,hchain⟩ := List.exists_cons_of_ne_nil hs.chain_ne
    rw [Bound,hfs,hchain] at hs
    refine (?_ : Covered s.map fs s.chain.tail)
    rw [hchain]
    cases f with
    | loop ok => exact absurd rfl (hf ok)
    | forLoop ok => exact hs.2
    | scope => exact hs.2
  | enter =>
    refine ⟨fun _ => by rw [push_breakName,if_pos rfl],hs.congr fun c hc => ?_⟩
    rw [push_breakName,if_neg (hold c hc)]
  | bind c name obj m hm => exact hs.congr fun c _ => hm c
  | «break» =>
    rw [evalBreak_eq]
    exact hs

/-- A flag that is down stays down: every loop starts with a flag of its own. -/
theorem flag_stays_down {s t : LoopState} {ev : LoopEv} {ok : ℕ}
    (hs : ok < s.nextOk ∧ s.ok ok = false) (h : s.step ev = some t) :
    ok < t.nextOk ∧ t.ok ok = false := by
  obtain ⟨hlt,hok⟩ := hs
  cases steps_of_step h with
  | start => exact ⟨hlt.trans (Nat.lt_succ_self _),by simp [hlt.ne,hok]⟩
  | startFor => exact ⟨hlt.trans (Nat.lt_succ_self _),by simp [hlt.ne,hok]⟩
  | again => exact ⟨hlt,hok⟩
  | doneLoop => exact ⟨hlt,hok⟩
  | donePop => exact ⟨hlt,hok⟩
  | enter => exact ⟨hlt,hok⟩
  | bind => exact ⟨hlt,hok⟩
  | «break» =>
    simp only [LoopState.evalBreak]
    split
    · exact ⟨hlt,by simp [Function.update_apply,hok]⟩
    · exact ⟨hlt,hok⟩

/-- `%break%` evaluated now puts down the flag of the innermost enclosing loop and no other,
and that loop never goes on to another iteration. -/
def LoopState.BreakBinds (s : LoopState) : Prop :=
  ∀ ok, innermost s.frames = some ok →
    s.evalBreak.ok = Function.update s.ok ok false ∧
    ∀ evs t, runFrom LoopState.step s.evalBreak evs = some t →
      t.running = some ok → t.step .again = none

theorem mem_of_innermost {fs : List Frame} {ok : ℕ} (h : innermost fs = some ok) :
    ∃ f ∈ fs, f.flag = some ok := List.exists_of_findSome?_eq_some h

theorem LoopState.Bound.breakBinds {s : LoopState} (hf : s.Fresh) (hs : s.Bound) :
    s.BreakBinds := by
  intro ok hok
  obtain ⟨c,hc⟩ := hs.findBreak hok
  have hbreak : s.evalBreak = { s with ok := Function.update s.ok ok false } := by
    simp [LoopState.evalBreak,hc]
  obtain ⟨f,hmem,hflag⟩ := mem_of_innermost hok
  refine ⟨by rw [hbreak],fun evs t hrun ht => ?_⟩
  have hdown : ok < t.nextOk ∧ t.ok ok = false := by
    refine invariant_of_step (P := fun u => ok < u.nextOk ∧ u.ok ok = false)
      (fun u ev v hu => flag_stays_down hu) ?_ hrun
    rw [hbreak]
    exact ⟨hf.frames f hmem ok hflag,by simp⟩
  simp [LoopState.step,ht,hdown.2]

/-- Where a `break` is visible, the flag of a loop that starts is out of reach. -/
theorem not_breakBinds_of_start {s t : LoopState} (hf : s.Fresh)
    (hvis : findBreak s.map s.chain ≠ none) (h : s.step .start = some t) : ¬ t.BreakBinds := by
  intro hb
  obtain ⟨r,hr⟩ := Option.ne_none_iff_exists'.mp hvis
  obtain rfl := (Option.some.inj h).symm
  have hdown := congrFun (hb s.nextOk rfl).1 s.nextOk
  simp only [LoopState.evalBreak,exposeBreak_of_visible hr,hr,Function.update_self] at hdown
  obtain ⟨obj,c⟩ := r
  have hobj := bound_of_findBreak _ hr
  cases obj with
  | brk g =>
    have hg : g < s.nextOk := hf.bound c g hobj
    simp [hg.ne'] at hdown
  | _ => simp at hdown

/-- Nothing runs yet; loops that finished before may have left their `break` behind. -/
structure LoopState.Initial (s : LoopState) : Prop where
  fresh : s.Fresh
  frames : s.frames = []
  chain : s.chain ≠ []

/-- One context and no bindings. -/
def emptyState : LoopState := ⟨fun _ _ => none,[0],fun _ => false,0,1,[]⟩

theorem emptyState_initial : emptyState.Initial :=
  ⟨⟨by decide,by simp [emptyState],by simp [emptyState]⟩,rfl,by decide⟩

end Smx
