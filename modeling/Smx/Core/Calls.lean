import Smx.Base.Error
import Smx.Context.Bindings
import Smx.Lib.Run

/-! `qObjDef::Eval` and the reference counts of macros. A call may be left by an exception, and while it runs
its macro may be called again, redefined or deleted. -/
namespace Smx

/-- What a name is bound to: a macro, or an object of another kind. -/
inductive Entry
  | macro_ (a : ℕ)
  | other
  deriving DecidableEq

/-- A call that has not ended: its macro, and at the entry the count and the releases made of it so far. -/
structure Running where
  obj : ℕ
  before : ℕ
  freed : ℕ
  deriving DecidableEq

/-- A call that has ended: the counts before and after it, and the releases made meanwhile. -/
structure Ended where
  before : ℕ
  after : ℕ
  freed : ℕ
  deriving DecidableEq

/-- The macros are numbered as they are created. -/
structure Macros (κ : Type) where
  map : Bindings κ Entry
  /-- `myRefs` -/
  refs : ℕ → ℕ
  deleted : ℕ → Bool
  next : ℕ
  /-- The calls that have not ended, the innermost first. -/
  frames : List Running
  /-- The exception on its way. -/
  raised : Option Exn
  /-- How often a redefinition or a deletion has released the macro. -/
  freed : ℕ → ℕ
  ended : List Ended

namespace Macros
variable {κ : Type}

/-- `qObjTS::AddRef`. -/
def addRef (s : Macros κ) (a : ℕ) : Macros κ := { s with refs := Function.update s.refs a (s.refs a+1) }

/-- `qObjTS::Free`. -/
def free (s : Macros κ) (a : ℕ) : Macros κ :=
  { s with
    refs := Function.update s.refs a (s.refs a-1)
    deleted := if s.refs a-1 = 0 then Function.update s.deleted a true else s.deleted }

/-- `if (old) old->Free()` of `MapObj` and `DelObj`. -/
def release (s : Macros κ) : Option Entry → Macros κ
  | some (.macro_ a) => { s.free a with freed := Function.update s.freed a (s.freed a+1) }
  | _ => s

variable [DecidableEq κ]

/-- `MapObj`, and with `none` in place of an object `DelObj`. -/
def setObj (s : Macros κ) (c : κ) (name : Bytes) (obj : Option Entry) : Macros κ :=
  release { s with map := setKey s.map c (mapKey name) obj } (s.map c (mapKey name))

/-- `new qObjDef`. -/
def create (s : Macros κ) : Macros κ :=
  { s with refs := Function.update s.refs s.next 1, next := s.next+1 }

/-- The entry of `qObjDef::Eval`. -/
def enter (s : Macros κ) (a : ℕ) : Macros κ :=
  { s.addRef a with frames := ⟨a,s.refs a,s.freed a⟩::s.frames }

/-- The call has returned or thrown. -/
def finish (s : Macros κ) (f : Running) (fs : List Running) : Macros κ :=
  { s with frames := fs, ended := ⟨f.before,s.refs f.obj,s.freed f.obj-f.freed⟩::s.ended }

/-- `Throw(out, 999, "Core Unhandled exception")` -/
def coreUnhandled : CtxEx := ⟨999,str "Core Unhandled exception"⟩

/-- The exit of `qObjDef::Eval`: the three catch clauses, and behind them `Free`. -/
def leave (s : Macros κ) (f : Running) (fs : List Running) (inTry : Bool) : Macros κ :=
  match s.raised with
  | none => (s.free f.obj).finish f fs
  | some .unknown =>
    if inTry then finish { s with raised := some (.error coreUnhandled) } f fs
    else finish ({ s with raised := none }.free f.obj) f fs
  | some _ => s.finish f fs

end Macros

/-- What happens to the macros while a page is evaluated. -/
inductive MacroEvent (κ : Type)
  /-- `%define` of a macro in a context -/
  | define (c : κ) (name : Bytes)
  /-- an object of another kind is bound -/
  | bind (c : κ) (name : Bytes)
  /-- a name is deleted, also because its context ends -/
  | delete (c : κ) (name : Bytes)
  | call (a : ℕ)
  | raise (e : Exn)
  /-- a `%try` or a parser takes the exception -/
  | caught
  /-- the innermost call ends in a context where a `%try` is active or none is -/
  | leave (inTry : Bool)
  deriving DecidableEq

namespace Macros
variable {κ : Type} [DecidableEq κ]

/-- While an exception is on its way calls end and contexts are cleared, and nothing else happens. -/
def step (s : Macros κ) : MacroEvent κ → Option (Macros κ)
  | .define c name =>
    if s.raised = none then some (s.create.setObj c name (some (.macro_ s.next))) else none
  | .bind c name => if s.raised = none then some (s.setObj c name (some .other)) else none
  | .delete c name => some (s.setObj c name none)
  | .call a => if s.raised = none ∧ a < s.next ∧ s.deleted a = false then some (s.enter a) else none
  | .raise e => if s.raised = none then some { s with raised := some e } else none
  | .caught => if s.raised = none then none else some { s with raised := none }
  | .leave inTry =>
    match s.frames with
    | [] => none
    | f::fs => some (s.leave f fs inTry)

/-- No macro is defined. -/
def start : Macros κ := ⟨fun _ _ => none,fun _ => 0,fun _ => false,0,[],none,fun _ => 0,[]⟩

/-- Every call that has ended has left the count as it was but for the releases made meanwhile, a macro is
destroyed where its count is 0, and not while a call of it is active. -/
structure Balanced (s : Macros κ) : Prop where
  counts : ∀ e ∈ s.ended, e.after+e.freed = e.before
  deleted_iff : ∀ a < s.next, s.deleted a = true ↔ s.refs a = 0
  active : ∀ f ∈ s.frames, f.obj < s.next ∧ s.deleted f.obj = false

/-- The innermost call, if it ends now, is not left by an exception; one that is neither a script error nor an
abort is printed where no `%try` is active. -/
def Returns (s : Macros κ) : MacroEvent κ → Prop
  | .leave inTry => s.frames ≠ [] → s.raised = none ∨ s.raised = some .unknown ∧ inTry = false
  | _ => True

/-- How many calls of a macro are active. -/
def calls (a : ℕ) (fs : List Running) : ℕ := fs.countP (·.obj = a)

/-- A macro is counted once until it is released, and once for every call. -/
structure Counted (s : Macros κ) : Prop where
  refs_add_freed : ∀ a < s.next, s.refs a+s.freed a = 1+calls a s.frames
  freed_le : ∀ a < s.next, s.freed a ≤ 1
  bound : ∀ c key a, s.map c key = some (.macro_ a) → a < s.next ∧ s.freed a = 0
  single : ∀ c key c' key' a, s.map c key = some (.macro_ a) → s.map c' key' = some (.macro_ a) →
    c = c' ∧ key = key'
  /-- what a call has noted at its entry -/
  noted : ∀ fs f, f::fs <:+ s.frames →
    f.obj < s.next ∧ f.before+f.freed = 1+calls f.obj fs ∧ f.freed ≤ s.freed f.obj
  counts : ∀ e ∈ s.ended, e.after+e.freed = e.before
  deleted_iff : ∀ a < s.next, s.deleted a = true ↔ s.refs a = 0
  /-- what the next macro finds -/
  fresh : ∀ a, s.next ≤ a → s.deleted a = false ∧ s.freed a = 0

/-- No name is bound to the macro. -/
def Unbound (s : Macros κ) (a : ℕ) : Prop := ∀ c key, s.map c key ≠ some (.macro_ a)

section
omit [DecidableEq κ]
variable {s t : Macros κ} {a : ℕ} {f : Running} {fs : List Running}

theorem start_counted : (start : Macros κ).Counted where
  refs_add_freed := nofun
  freed_le := nofun
  bound := nofun
  single := nofun
  noted fs f h := absurd (List.suffix_nil.mp h) (List.cons_ne_nil f fs)
  counts := nofun
  deleted_iff := nofun
  fresh _ _ := ⟨rfl,rfl⟩

theorem calls_cons (a : ℕ) (f : Running) (fs : List Running) :
    calls a (f::fs) = calls a fs+if f.obj = a then 1 else 0 := by
  simp [calls,List.countP_cons]

theorem calls_pos (h : f ∈ fs) : 0 < calls f.obj fs := List.countP_pos_iff.mpr ⟨f,h,by simp⟩

theorem Counted.mem (h : s.Counted) (hf : f ∈ s.frames) : f.obj < s.next := by
  obtain ⟨pre,post,hfs⟩ := List.append_of_mem hf
  exact (h.noted post f ⟨pre,hfs.symm⟩).1

/-- A macro is not destroyed while a call of it is active. -/
theorem Counted.balanced (h : s.Counted) : s.Balanced := by
  refine ⟨h.counts,h.deleted_iff,fun f hf => ?_⟩
  have hlt := h.mem hf
  have hrefs := h.refs_add_freed f.obj hlt
  have hle := h.freed_le f.obj hlt
  have hpos := calls_pos hf
  refine ⟨hlt,?_⟩
  rw [Bool.eq_false_iff,ne_eq,h.deleted_iff f.obj hlt]
  omega

/-- A count is lowered and its release noted elsewhere, or a call of the macro ends. -/
theorem free_deleted_iff (h : ∀ a < s.next, s.deleted a = true ↔ s.refs a = 0) (hpos : 0 < s.refs a) :
    ∀ b < (s.free a).next, (s.free a).deleted b = true ↔ (s.free a).refs b = 0 := by
  intro b hb
  have hb' := h b hb
  by_cases hab : b = a
  · rw [hab] at hb' ⊢
    by_cases hz : s.refs a-1 = 0
    · simp [free,hz]
    · have hne : s.refs a ≠ 0 := Nat.pos_iff_ne_zero.mp hpos
      simp [free,hz,hb',hne]
  · by_cases hz : s.refs a-1 = 0
    · simp [free,hz,hab,hb']
    · simp [free,hz,hab,hb']

theorem free_fresh (h : ∀ b, s.next ≤ b → s.deleted b = false ∧ s.freed b = 0) (ha : a < s.next) {b : ℕ}
    (hb : (s.free a).next ≤ b) : (s.free a).deleted b = false ∧ (s.free a).freed b = 0 := by
  have hne : b ≠ a := Nat.ne_of_gt (lt_of_lt_of_le ha hb)
  obtain ⟨hdel,hfreed⟩ := h b hb
  refine ⟨?_,hfreed⟩
  by_cases hz : s.refs a-1 = 0
  · simp [free,hz,hne,hdel]
  · simp [free,hz,hdel]

/-- A macro that no name is bound to any more is released. -/
theorem Counted.release (h : s.Counted) (ha : a < s.next) (hfreed : s.freed a = 0) (hun : s.Unbound a) :
    (s.release (some (.macro_ a))).Counted := by
  have hrefs := h.refs_add_freed a ha
  have hpos : 0 < s.refs a := by omega
  constructor
  · intro b hb
    have hb' := h.refs_add_freed b hb
    by_cases hab : b = a
    · rw [hab]
      simp only [Macros.release,free,Function.update_self]
      omega
    · simpa [Macros.release,free,hab] using hb'
  · intro b hb
    have hb' := h.freed_le b hb
    by_cases hab : b = a
    · rw [hab]
      simp only [Macros.release,free,Function.update_self]
      omega
    · simpa [Macros.release,free,hab] using hb'
  · intro c key b hbound
    obtain ⟨hlt,hz⟩ := h.bound c key b hbound
    have hab : b ≠ a := by
      intro heq
      exact hun c key (heq ▸ hbound)
    refine ⟨hlt,?_⟩
    simpa [Macros.release,free,hab] using hz
  · exact h.single
  · intro fs f hfs
    obtain ⟨hlt,hcount,hle⟩ := h.noted fs f hfs
    refine ⟨hlt,hcount,?_⟩
    by_cases hab : f.obj = a
    · rw [hab] at hle ⊢
      simp only [Macros.release,free,Function.update_self]
      omega
    · simpa [Macros.release,free,hab] using hle
  · exact h.counts
  · exact free_deleted_iff h.deleted_iff hpos
  · intro b hb
    obtain ⟨hdel,hz⟩ := free_fresh h.fresh ha hb
    have hab : b ≠ a := Nat.ne_of_gt (lt_of_lt_of_le ha hb)
    refine ⟨hdel,?_⟩
    have hz' : s.freed b = 0 := hz
    simpa [Macros.release,free,hab] using hz'

theorem Counted.create (h : s.Counted) : s.create.Counted ∧ s.create.Unbound s.next := by
  have hnone : calls s.next s.frames = 0 := by
    refine Nat.eq_zero_of_not_pos fun hpos => ?_
    obtain ⟨f,hf,heq⟩ := List.countP_pos_iff.mp hpos
    exact absurd (h.mem hf) (by simpa using (of_decide_eq_true heq).ge)
  obtain ⟨hdel,hz⟩ := h.fresh s.next (le_refl _)
  constructor
  · constructor
    · intro b hb
      obtain hlt | rfl := Nat.lt_succ_iff_lt_or_eq.mp hb
      · have hb' := h.refs_add_freed b hlt
        simpa [Macros.create,Nat.ne_of_lt hlt] using hb'
      · simp [Macros.create,hnone,hz]
    · intro b hb
      obtain hlt | rfl := Nat.lt_succ_iff_lt_or_eq.mp hb
      · exact h.freed_le b hlt
      · exact hz.le.trans (Nat.zero_le 1)
    · intro c key b hbound
      obtain ⟨hlt,hfreed⟩ := h.bound c key b hbound
      exact ⟨Nat.lt_succ_of_lt hlt,hfreed⟩
    · exact h.single
    · intro fs f hfs
      obtain ⟨hlt,hcount,hle⟩ := h.noted fs f hfs
      exact ⟨Nat.lt_succ_of_lt hlt,hcount,hle⟩
    · exact h.counts
    · intro b hb
      obtain hlt | rfl := Nat.lt_succ_iff_lt_or_eq.mp hb
      · have hb' := h.deleted_iff b hlt
        simpa [Macros.create,Nat.ne_of_lt hlt] using hb'
      · simp [Macros.create,hdel]
    · intro b hb
      exact h.fresh b (Nat.le_of_succ_le hb)
  · intro c key hbound
    exact Nat.lt_irrefl _ (h.bound c key s.next hbound).1

theorem Counted.enter (h : s.Counted) (ha : a < s.next) (hdel : s.deleted a = false) : (s.enter a).Counted := by
  have hpos : s.refs a ≠ 0 := by
    intro hz
    rw [(h.deleted_iff a ha).mpr hz] at hdel
    cases hdel
  constructor
  · intro b hb
    have hb' := h.refs_add_freed b hb
    simp only [Macros.enter,addRef,calls_cons]
    by_cases hab : b = a
    · rw [hab] at hb' ⊢
      rw [Function.update_self,if_pos rfl]
      omega
    · rw [Function.update_of_ne hab,if_neg (Ne.symm hab)]
      exact hb'
  · exact h.freed_le
  · exact h.bound
  · exact h.single
  · intro fs f hfs
    obtain heq | hfs := List.suffix_cons_iff.mp hfs
    · obtain ⟨rfl,rfl⟩ := List.cons.inj heq
      exact ⟨ha,h.refs_add_freed a ha,le_refl _⟩
    · exact h.noted fs f hfs
  · exact h.counts
  · intro b hb
    have hb' := h.deleted_iff b hb
    simp only [Macros.enter,addRef]
    by_cases hab : b = a
    · rw [hab,Function.update_self,hdel]
      simp
    · rw [Function.update_of_ne hab]
      exact hb'
  · exact h.fresh

/-- A call that returns lowers the count. -/
theorem Counted.returned (h : s.Counted) (hfs : s.frames = f::fs) : ((s.free f.obj).finish f fs).Counted := by
  have hnoted : ∀ gs g, g::gs <:+ fs → g::gs <:+ s.frames := by
    intro gs g hg
    rw [hfs]
    exact hg.trans (List.suffix_cons f fs)
  obtain ⟨hlt,hbefore,hle⟩ := h.noted fs f (hfs ▸ List.suffix_refl _)
  have hrefs := h.refs_add_freed f.obj hlt
  rw [hfs,calls_cons,if_pos rfl] at hrefs
  have hone := h.freed_le f.obj hlt
  have hpos : 0 < s.refs f.obj := by omega
  constructor
  · intro b hb
    have hb' := h.refs_add_freed b hb
    rw [hfs,calls_cons] at hb'
    simp only [finish,free]
    by_cases hab : b = f.obj
    · rw [hab,Function.update_self]
      omega
    · rw [Function.update_of_ne hab]
      rwa [if_neg (Ne.symm hab)] at hb'
  · exact h.freed_le
  · exact h.bound
  · exact h.single
  · intro gs g hg
    exact h.noted gs g (hnoted gs g hg)
  · intro e he
    obtain rfl | he := List.mem_cons.mp he
    · simp only [free,Function.update_self]
      omega
    · exact h.counts e he
  · exact free_deleted_iff h.deleted_iff hpos
  · intro b hb
    exact free_fresh h.fresh hlt hb

theorem Counted.raised_irrel (h : s.Counted) (e : Option Exn) : ({ s with raised := e } : Macros κ).Counted :=
  ⟨h.refs_add_freed,h.freed_le,h.bound,h.single,h.noted,h.counts,h.deleted_iff,h.fresh⟩

/-- A call that is left by an exception keeps its own count. -/
theorem Counted.not_balanced (h : s.Counted) (hfs : s.frames = f::fs) : ¬(s.finish f fs).Balanced := by
  intro hbal
  obtain ⟨hlt,hbefore,hle⟩ := h.noted fs f (hfs ▸ List.suffix_refl _)
  have hrefs := h.refs_add_freed f.obj hlt
  rw [hfs,calls_cons,if_pos rfl] at hrefs
  have hone := h.freed_le f.obj hlt
  have hcount : s.refs f.obj+(s.freed f.obj-f.freed) = f.before := hbal.counts _ List.mem_cons_self
  omega

end

section
variable {s t : Macros κ} {a : ℕ} {f : Running} {fs : List Running}

/-- A name is bound to something else, or deleted. -/
theorem Counted.setObj (h : s.Counted) (c : κ) (name : Bytes) {obj : Option Entry}
    (hobj : ∀ a, obj = some (.macro_ a) → a < s.next ∧ s.freed a = 0 ∧ s.Unbound a) :
    (s.setObj c name obj).Counted := by
  have hmap : ∀ d key b, setKey s.map c (mapKey name) obj d key = some (.macro_ b) →
      (d = c ∧ key = mapKey name) ∧ obj = some (.macro_ b) ∨
      ¬(d = c ∧ key = mapKey name) ∧ s.map d key = some (.macro_ b) := by
    intro d key b hbound
    rw [setKey_apply] at hbound
    split_ifs at hbound with hhere
    · exact .inl ⟨hhere,hbound⟩
    · exact .inr ⟨hhere,hbound⟩
  have hset : ({ s with map := setKey s.map c (mapKey name) obj } : Macros κ).Counted := by
    refine ⟨h.refs_add_freed,h.freed_le,?_,?_,h.noted,h.counts,h.deleted_iff,h.fresh⟩
    · intro d key b hbound
      obtain ⟨-,hnew⟩ | ⟨-,hold⟩ := hmap d key b hbound
      · exact ⟨(hobj b hnew).1,(hobj b hnew).2.1⟩
      · exact h.bound d key b hold
    · intro d key d' key' b hbound hbound'
      obtain ⟨hhere,hnew⟩ | ⟨-,hold⟩ := hmap d key b hbound
      · obtain ⟨hhere',-⟩ | ⟨-,hold'⟩ := hmap d' key' b hbound'
        · exact ⟨hhere.1.trans hhere'.1.symm,hhere.2.trans hhere'.2.symm⟩
        · exact absurd hold' ((hobj b hnew).2.2 d' key')
      · obtain ⟨-,hnew'⟩ | ⟨-,hold'⟩ := hmap d' key' b hbound'
        · exact absurd hold ((hobj b hnew').2.2 d key)
        · exact h.single d key d' key' b hold hold'
  rw [Macros.setObj]
  cases hold : s.map c (mapKey name) with
  | none => exact hset
  | some e =>
    cases e with
    | other => exact hset
    | macro_ a =>
      obtain ⟨hlt,hfreed⟩ := h.bound c _ a hold
      refine hset.release hlt hfreed fun d key hbound => ?_
      obtain ⟨-,hnew⟩ | ⟨hne,hother⟩ := hmap d key a hbound
      · exact (hobj a hnew).2.2 c _ hold
      · exact hne (h.single d key c _ a hother hold)

theorem Counted.step (h : s.Counted) {ev : MacroEvent κ} (hok : s.Returns ev) (hstep : s.step ev = some t) :
    t.Counted := by
  cases ev with
  | define c name =>
    simp only [Macros.step] at hstep
    split_ifs at hstep
    obtain rfl := Option.some.inj hstep
    obtain ⟨hnew,hun⟩ := h.create
    refine hnew.setObj c name fun a ha => ?_
    obtain rfl : s.next = a := Entry.macro_.inj (Option.some.inj ha)
    exact ⟨Nat.lt_succ_self _,(h.fresh s.next (le_refl _)).2,hun⟩
  | bind c name =>
    simp only [Macros.step] at hstep
    split_ifs at hstep
    obtain rfl := Option.some.inj hstep
    exact h.setObj c name nofun
  | delete c name =>
    obtain rfl := Option.some.inj hstep
    exact h.setObj c name nofun
  | call a =>
    simp only [Macros.step] at hstep
    split_ifs at hstep with ha
    obtain rfl := Option.some.inj hstep
    exact h.enter ha.2.1 ha.2.2
  | raise e =>
    simp only [Macros.step] at hstep
    split_ifs at hstep
    obtain rfl := Option.some.inj hstep
    exact h.raised_irrel (some e)
  | caught =>
    simp only [Macros.step] at hstep
    split_ifs at hstep
    obtain rfl := Option.some.inj hstep
    exact h.raised_irrel none
  | leave inTry =>
    simp only [Macros.step] at hstep
    cases hfs : s.frames with
    | nil =>
      rw [hfs] at hstep
      cases hstep
    | cons f fs =>
      rw [hfs] at hstep
      obtain rfl := Option.some.inj hstep
      obtain hret | ⟨hunk,rfl⟩ := hok (hfs ▸ List.cons_ne_nil f fs)
      · rw [leave,hret]
        exact h.returned hfs
      · rw [leave,hunk]
        exact (h.raised_irrel none).returned hfs

/-- A call that is left by an exception takes the step that unbalances its macro. -/
theorem Counted.breaks (h : s.Counted) {ev : MacroEvent κ} (hnot : ¬s.Returns ev) :
    ∃ t, s.step ev = some t ∧ ¬t.Balanced := by
  cases ev with
  | leave inTry =>
    obtain ⟨hne,hesc⟩ := Classical.not_imp.mp hnot
    obtain ⟨f,fs,hfs⟩ := List.exists_cons_of_ne_nil hne
    refine ⟨s.leave f fs inTry,by rw [Macros.step,hfs],?_⟩
    obtain ⟨hraised,hprinted⟩ := not_or.mp hesc
    rw [leave]
    split
    · exact absurd ‹_› hraised
    · rename_i hunk
      cases inTry with
      | true => exact (h.raised_irrel _).not_balanced hfs
      | false => exact absurd ⟨hunk,rfl⟩ hprinted
    · exact h.not_balanced hfs
  | _ => exact absurd trivial hnot

/-- The counts balance in all a run reaches exactly when no call of the run is left by an exception. -/
theorem balanced_iff_returns (evs : List (MacroEvent κ)) :
    (∀ pre t, pre <+: evs → runFrom step start pre = some t → t.Balanced) ↔ MeetsOnly step Returns start evs :=
  reached_iff_of_invariant start_counted (fun _ => Counted.balanced)
    (fun _ _ _ h hok hstep => h.step hok hstep) fun _ _ h hnot => h.breaks hnot

/-- A macro that throws inside `%try` and is deleted afterwards is never destroyed. -/
def thrownCall : List (MacroEvent Unit) :=
  [.define () (str "f"),.call 0,.raise (.error ⟨1,str "x"⟩),.leave true,.caught,.delete () (str "f")]

theorem thrown_call_leaks : ∃ t, runFrom step start thrownCall = some t ∧ ¬t.Balanced ∧
    t.freed 0 = 1 ∧ t.frames = [] ∧ t.refs 0 = 1 ∧ t.deleted 0 = false := by
  refine ⟨_,rfl,fun h => ?_,rfl,rfl,rfl,rfl⟩
  have hcount := h.counts _ List.mem_cons_self
  exact absurd hcount (by decide)

end
end Macros
end Smx
