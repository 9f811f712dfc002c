import Smx.Context.EnumScope

/-! What an enumeration leaves behind: of its own only the name that it binds in the context it is called in. -/
namespace Smx

variable {ο : Type}

namespace EnumState

/-- What a step is made of. Of the calls under way only those with `p` may end or write to the context they were made
in. -/
inductive Move (p : ℕ → Prop) (s : EnumState ο) : EnumState ο → Prop
  | script (c : CtxId) (name : Bytes) (obj : Option (Held ο)) (hc : c < s.nextCtx)
      (hobj : obj.any Held.isShown = false) : Move p s (s.put none c name obj)
  | own (f : EnumFrame) (fs : List EnumFrame) (hf : s.frames = f::fs) (tmpCtx : CtxId) (htmp : f.tmp = some tmpCtx)
      (name : Bytes) (obj : Held ο)
      (hobj : ∀ call var, obj = .shown call var → call = f.call ∨ ∃ d k, s.map d k = some obj) :
      Move p s (s.put (some f.call) tmpCtx name (some obj))
  | outer (f : EnumFrame) (fs : List EnumFrame) (hf : s.frames = f::fs) (hp : p f.call) (name : Bytes) (obj : Held ο)
      (hobj : ∀ call var, obj = .shown call var → call = f.call) : Move p s (s.put (some f.call) f.this name (some obj))
  | returned : Move p s s.returned
  | enter (kind : EnumKind) (hp : p s.nextCall) : Move p s (s.enter kind)
  | enterTmp (kind : EnumKind) (hp : p s.nextCall) : Move p s (s.enterTmp kind)
  | count (f : EnumFrame) (fs : List EnumFrame) (hf : s.frames = f::fs) :
      Move p s { s with frames := { f with cnt := f.cnt+1 }::fs }
  | pop (f : EnumFrame) (fs : List EnumFrame) (hf : s.frames = f::fs) (hp : p f.call) : Move p s (s.pop f fs)
  | flag (call : ℕ) : Move p s { s with ok := Function.update s.ok call false }

/-- A step as a sequence of moves. -/
abbrev Moves (p : ℕ → Prop) : EnumState ο → EnumState ο → Prop := Relation.ReflTransGen (Move p)

variable {p : ℕ → Prop} {s t u : EnumState ο} {f : EnumFrame} {fs : List EnumFrame}

@[simp] theorem put_frames (s : EnumState ο) (author : Option ℕ) (c : CtxId) (name : Bytes) (obj : Option (Held ο)) :
    (s.put author c name obj).frames = s.frames := rfl

@[simp] theorem expose_frames (s : EnumState ο) (call : ℕ) (c : CtxId) (var : EnumVar) (name : Bytes) :
    (s.expose call c var name).frames = s.frames := rfl

@[simp] theorem enterTmp_frames (s : EnumState ο) (kind : EnumKind) :
    (s.enterTmp kind).frames = ⟨s.nextCall,kind,s.this,s.up,some s.nextCtx,0⟩::s.frames := rfl

@[simp] theorem enter_frames (s : EnumState ο) (kind : EnumKind) :
    (s.enter kind).frames = ⟨s.nextCall,kind,s.this,s.up,none,0⟩::s.frames := rfl

/-- The running call shows a variable in its own context. -/
theorem Moves.expose (h : Moves p s t) (hf : t.frames = f::fs) {tmpCtx : CtxId} (htmp : f.tmp = some tmpCtx)
    (var : EnumVar) (name : Bytes) : Moves p s (t.expose f.call tmpCtx var name) := by
  refine h.tail (.own f fs hf tmpCtx htmp name _ ?_)
  intro call v hv
  cases hv
  exact .inl rfl

/-- The running call shows a variable in the context it was made in. -/
theorem Moves.exposeOuter (h : Moves p s t) (hf : t.frames = f::fs) (hp : p f.call) (var : EnumVar) (name : Bytes) :
    Moves p s (t.expose f.call f.this var name) := by
  refine h.tail (.outer f fs hf hp name _ ?_)
  intro call v hv
  cases hv
  rfl

/-- The running call binds a string in its own context. -/
theorem Moves.putStr (h : Moves p s t) (hf : t.frames = f::fs) {tmpCtx : CtxId} (htmp : f.tmp = some tmpCtx)
    (name text : Bytes) : Moves p s (t.put (some f.call) tmpCtx name (some (.str text))) := by
  refine h.tail (.own f fs hf tmpCtx htmp name _ ?_)
  intro call v hv
  cases hv

theorem moves_hEnum (hp : p s.nextCall) (argc : ℕ) : Moves p s (s.hEnum argc) := by
  unfold hEnum
  split_ifs
  · exact .single .returned
  · have h : Moves p s (s.enterTmp .hEnum) := .single (.enterTmp _ hp)
    have h := h.expose (enterTmp_frames s _) rfl .key (str "key")
    have h := h.expose (enterTmp_frames s _) rfl .val (str "value")
    exact h.exposeOuter (enterTmp_frames s _) hp .n (str "num")

theorem moves_evalEnumToken (hp : p s.nextCall) (argc : ℕ) : Moves p s (s.evalEnumToken argc) := by
  unfold evalEnumToken
  split_ifs
  · have h : Moves p s (s.enterTmp .enumToken) := .single (.enterTmp _ hp)
    have h := h.expose (enterTmp_frames s _) rfl .p (str "token")
    have h := h.expose (enterTmp_frames s _) rfl .ok (str "break")
    exact h.expose (enterTmp_frames s _) rfl .skip (str "skip-tokens")
  · exact .single .returned

theorem moves_evalRxSplit (hp : p s.nextCall) (argc : ℕ) (compiles : Bool) :
    Moves p s (s.evalRxSplit argc compiles) := by
  unfold evalRxSplit
  split_ifs
  · have h : Moves p s (s.enterTmp .rxSplit) := .single (.enterTmp _ hp)
    have h := h.expose (enterTmp_frames s _) rfl .rx (str "subx")
    have h := h.putStr (enterTmp_frames s _) rfl (str "last") []
    exact h.expose (enterTmp_frames s _) rfl .cnt (str "rxnum")
  · exact .single .returned

theorem moves_execute (hp : p s.nextCall) (dbOpen : Bool) : Moves p s (s.execute dbOpen) := by
  unfold execute
  split_ifs
  · have h : Moves p s (s.enter .sqlite) := .single (.enter _ hp)
    exact h.exposeOuter (enter_frames s _) hp .myOK (str "break")
  · exact .single .returned

theorem moves_start (hp : p s.nextCall) (b : Enumeration) : Moves p s (b.start s) := by
  cases b with
  | hEnum argc => exact moves_hEnum hp argc
  | enumToken argc => exact moves_evalEnumToken hp argc
  | rxSplit argc compiles => exact moves_evalRxSplit hp argc compiles
  | sqlite dbOpen => exact moves_execute hp dbOpen

theorem moves_turn {elem : Bytes} {last : Bool} (h : s.turn elem last = some t) : Moves p s t := by
  unfold turn at h
  split at h
  · cases h
  · next f fs hf =>
    split at h
    · cases h
      exact .refl
    · split_ifs at h
      cases h
      exact .refl
    · split_ifs at h
      cases h
      exact .refl
    · next tmpCtx hkind htmp =>
      obtain rfl := Option.some.inj h
      have hm : Moves p s { s with frames := { f with cnt := f.cnt+1 }::fs } := .single (.count f fs hf)
      have hm := hm.putStr rfl htmp (str "elem") elem
      have hm := hm.putStr rfl htmp (str "token") elem
      split_ifs
      · exact hm.putStr rfl htmp (str "last") (str "T")
      · exact hm
    · cases h

theorem moves_leave (hp : ∀ f fs, s.frames = f::fs → p f.call) {thrown : Bool} (h : s.leave thrown = some t) :
    Moves p s t := by
  unfold leave at h
  split at h
  · cases h
  · next f fs hf =>
    split at h
    · obtain rfl := Option.some.inj h
      refine .tail (.single (.outer f fs hf (hp f fs hf) _ _ ?_)) (.pop f fs hf (hp f fs hf))
      intro call v hv
      cases hv
    · obtain rfl := Option.some.inj h
      exact .single (.pop f fs hf (hp f fs hf))

theorem bound_of_lookup {m : Bindings CtxId (Held ο)} {this : CtxId} {up : List CtxId} {name : Bytes}
    {r : Held ο × CtxId} (h : lookup m this up name = some r) : ∃ k, m r.2 k = some r.1 := by
  obtain ⟨q,hq⟩ := exists_findL_of_find h
  exact ⟨mapKey q,hq⟩

theorem moves_bindRef (h : Moves p s t) (param arg : Bytes) : Moves p s (t.bindRef param arg) := by
  unfold bindRef
  split
  · exact h
  · next f fs hf =>
    split
    · next tmpCtx obj d htmp hobj =>
      refine h.tail (.own f fs hf tmpCtx htmp param obj fun call var _ => .inr ?_)
      obtain ⟨k,hk⟩ := bound_of_lookup hobj
      exact ⟨d,k,hk⟩
    · exact h

theorem moves_bindRefs (h : Moves p s t) (refs : List (Bytes × Bytes)) :
    Moves p s (refs.foldl (fun t r => t.bindRef r.1 r.2) t) := by
  induction refs generalizing t with
  | nil => exact h
  | cons r refs ih => exact ih (moves_bindRef h r.1 r.2)

theorem moves_evalBreak : Moves p s s.evalBreak := by
  unfold evalBreak
  split
  · exact .single (.flag _)
  · exact .single (.flag _)
  · exact .refl

/-- Whatever a step does, it does by moves. -/
theorem moves_of_step {ev : EnumEv ο} (hnew : p s.nextCall)
    (hp : ∀ thrown, ev = .leave thrown → ∀ f fs, s.frames = f::fs → p f.call) (h : s.step ev = some t) :
    Moves p s t := by
  cases ev with
  | start b => exact Option.some.inj h ▸ moves_start hnew b
  | turn elem last => exact moves_turn h
  | leave thrown => exact moves_leave (hp thrown rfl) h
  | callMacro refs => exact Option.some.inj h ▸ moves_bindRefs (.single (.enterTmp _ hnew)) refs
  | bind c name obj =>
    simp only [step] at h
    split_ifs at h with hc
    exact Option.some.inj h ▸ .single (.script c name obj hc.1 hc.2)
  | evalBreak => exact Option.some.inj h ▸ moves_evalBreak

/-- What every move keeps, every run keeps. -/
theorem invariant_of_move {I : EnumState ο → Prop} (hmove : ∀ s t, I s → Move (fun _ => True) s t → I t)
    {evs : List (EnumEv ο)} (hs : I s) (hrun : runFrom step s evs = some t) : I t := by
  refine invariant_of_step (fun u ev v hu hstep => ?_) hs hrun
  have hmoves : Moves (fun _ => True) u v := moves_of_step trivial (fun _ _ _ _ _ => trivial) hstep
  clear hstep
  induction hmoves with
  | refl => exact hu
  | tail _ hlast ih => exact hmove _ _ ih hlast

theorem put_map (s : EnumState ο) (author : Option ℕ) (c : CtxId) (name : Bytes) (obj : Option (Held ο)) (d : CtxId)
    (k : Bytes) : (s.put author c name obj).map d k = if d = c ∧ k = mapKey name then obj else s.map d k :=
  setKey_apply ..

theorem enterTmp_map (s : EnumState ο) (kind : EnumKind) (d : CtxId) (k : Bytes) :
    (s.enterTmp kind).map d k = if d = s.nextCtx then none else s.map d k := by
  simp only [enterTmp,Function.update_apply]
  split_ifs <;> rfl

theorem pop_map (s : EnumState ο) (f : EnumFrame) (fs : List EnumFrame) (d : CtxId) (k : Bytes) :
    (s.pop f fs).map d k = if f.tmp = some d then none else s.map d k := by
  cases htmp : f.tmp with
  | none => simp [pop,freeTmp,htmp]
  | some c =>
    simp only [pop,freeTmp,htmp,Function.update_apply,Option.some.injEq,eq_comm (a := c)]
    split_ifs <;> rfl

theorem not_shown_of_any {obj : Option (Held ο)} (h : obj.any Held.isShown = false) (call : ℕ) (var : EnumVar) :
    obj ≠ some (.shown call var) := by
  rintro rfl
  cases h

/-- The numbers in use are below the next ones. -/
structure Fresh (s : EnumState ο) : Prop where
  this : s.this < s.nextCtx
  frames : ∀ f ∈ s.frames, f.call < s.nextCall ∧ f.this < s.nextCtx ∧ ∀ d ∈ f.tmp, d < s.nextCtx
  shown : ∀ d k call var, s.map d k = some (.shown call var) → call < s.nextCall

theorem Fresh.put (h : s.Fresh) (author : Option ℕ) (c : CtxId) (name : Bytes) {obj : Option (Held ο)}
    (hobj : ∀ call var, obj = some (.shown call var) → call < s.nextCall) : (s.put author c name obj).Fresh := by
  refine ⟨h.this,h.frames,fun d k call var hd => ?_⟩
  rw [put_map] at hd
  split_ifs at hd
  · exact hobj call var hd
  · exact h.shown d k call var hd

theorem Fresh.move (h : s.Fresh) (hmove : Move p s t) : t.Fresh := by
  cases hmove with
  | script c name obj hc hobj => exact h.put none c name fun call var heq => absurd heq (not_shown_of_any hobj call var)
  | own f fs hf tmpCtx htmp name obj hobj =>
    refine h.put _ tmpCtx name fun call var heq => ?_
    obtain rfl := Option.some.inj heq
    rcases hobj call var rfl with rfl | ⟨d,k,hd⟩
    · exact (h.frames f (by simp [hf])).1
    · exact h.shown d k call var hd
  | outer f fs hf hp name obj hobj =>
    refine h.put _ f.this name fun call var heq => ?_
    rw [hobj call var (Option.some.inj heq)]
    exact (h.frames f (by simp [hf])).1
  | returned =>
    refine ⟨h.this,fun f hf => ?_,fun d k call var hd => (h.shown d k call var hd).trans (Nat.lt_succ_self _)⟩
    obtain ⟨hcall,hthis,htmp⟩ := h.frames f hf
    exact ⟨hcall.trans (Nat.lt_succ_self _),hthis,htmp⟩
  | enter kind hp =>
    refine ⟨h.this,fun f hf => ?_,fun d k call var hd => (h.shown d k call var hd).trans (Nat.lt_succ_self _)⟩
    rcases List.mem_cons.mp hf with rfl | hf
    · exact ⟨Nat.lt_succ_self _,h.this,by simp⟩
    · obtain ⟨hcall,hthis,htmp⟩ := h.frames f hf
      exact ⟨hcall.trans (Nat.lt_succ_self _),hthis,htmp⟩
  | enterTmp kind hp =>
    refine ⟨Nat.lt_succ_self _,fun f hf => ?_,fun d k call var hd => ?_⟩
    · rcases List.mem_cons.mp hf with rfl | hf
      · refine ⟨Nat.lt_succ_self _,h.this.trans (Nat.lt_succ_self _),fun d hd => ?_⟩
        obtain rfl := Option.some.inj hd
        exact Nat.lt_succ_self _
      · obtain ⟨hcall,hthis,htmp⟩ := h.frames f hf
        refine ⟨hcall.trans (Nat.lt_succ_self _),hthis.trans (Nat.lt_succ_self _),fun d hd => ?_⟩
        exact (htmp d hd).trans (Nat.lt_succ_self _)
    · rw [enterTmp_map] at hd
      split_ifs at hd
      exact (h.shown d k call var hd).trans (Nat.lt_succ_self _)
  | count f fs hf =>
    refine ⟨h.this,fun g hg => ?_,h.shown⟩
    rcases List.mem_cons.mp hg with rfl | hg
    · exact h.frames f (by simp [hf])
    · exact h.frames g (by simp [hf,hg])
  | pop f fs hf hp =>
    refine ⟨(h.frames f (by simp [hf])).2.1,fun g hg => ?_,fun d k call var hd => ?_⟩
    · apply h.frames g
      rw [hf]
      exact List.mem_cons_of_mem f hg
    · rw [pop_map] at hd
      split_ifs at hd
      exact h.shown d k call var hd
  | flag call => exact ⟨h.this,h.frames,h.shown⟩

theorem fresh_of_reachable (h : s.Reachable) : s.Fresh := by
  obtain ⟨t,evs,hinit,hrun⟩ := h
  refine invariant_of_move (fun _ _ hs hmove => hs.move hmove) ⟨hinit.this,?_,?_⟩ hrun
  · simp [hinit.frames]
  · intro d k call var hd
    exact absurd (hinit.map d k _ hd) (by simp [Held.isShown])

/-- A call is over, and no name stands for a variable of it. -/
structure Gone (r : ℕ) (s : EnumState ο) : Prop where
  call : r < s.nextCall
  frames : ∀ f ∈ s.frames, f.call ≠ r
  shown : ∀ d k var, s.map d k ≠ some (.shown r var)

theorem Gone.put {r : ℕ} (h : s.Gone r) (author : Option ℕ) (c : CtxId) (name : Bytes) {obj : Option (Held ο)}
    (hobj : ∀ var, obj ≠ some (.shown r var)) : (s.put author c name obj).Gone r := by
  refine ⟨h.call,h.frames,fun d k var hd => ?_⟩
  rw [put_map] at hd
  split_ifs at hd
  · exact hobj var hd
  · exact h.shown d k var hd

theorem Gone.move {r : ℕ} (h : s.Gone r) (hmove : Move p s t) : t.Gone r := by
  cases hmove with
  | script c name obj hc hobj => exact h.put none c name fun var => not_shown_of_any hobj r var
  | own f fs hf tmpCtx htmp name obj hobj =>
    refine h.put _ tmpCtx name fun var heq => ?_
    obtain rfl := Option.some.inj heq
    rcases hobj r var rfl with hcall | ⟨d,k,hd⟩
    · exact h.frames f (by simp [hf]) hcall.symm
    · exact h.shown d k var hd
  | outer f fs hf hp name obj hobj =>
    refine h.put _ f.this name fun var heq => ?_
    exact h.frames f (by simp [hf]) (hobj r var (Option.some.inj heq)).symm
  | returned => exact ⟨h.call.trans (Nat.lt_succ_self _),h.frames,h.shown⟩
  | enter kind hp =>
    refine ⟨h.call.trans (Nat.lt_succ_self _),fun f hf => ?_,h.shown⟩
    rcases List.mem_cons.mp hf with rfl | hf
    · exact h.call.ne'
    · exact h.frames f hf
  | enterTmp kind hp =>
    refine ⟨h.call.trans (Nat.lt_succ_self _),fun f hf => ?_,fun d k var hd => ?_⟩
    · rcases List.mem_cons.mp hf with rfl | hf
      · exact h.call.ne'
      · exact h.frames f hf
    · rw [enterTmp_map] at hd
      split_ifs at hd
      exact h.shown d k var hd
  | count f fs hf =>
    refine ⟨h.call,fun g hg => ?_,h.shown⟩
    rcases List.mem_cons.mp hg with rfl | hg
    · exact h.frames f (by simp [hf])
    · exact h.frames g (by simp [hf,hg])
  | pop f fs hf hp =>
    refine ⟨h.call,fun g hg => h.frames g (by simp [hf,show g ∈ fs from hg]),fun d k var hd => ?_⟩
    rw [pop_map] at hd
    split_ifs at hd
    exact h.shown d k var hd
  | flag call => exact ⟨h.call,h.frames,h.shown⟩

/-- Nor will one ever do so again. -/
theorem Gone.find_ne {r : ℕ} (h : s.Gone r) {evs : List (EnumEv ο)} (hrun : runFrom step s evs = some t)
    (safeMode : CtxId → Bool) (chain : List CtxId) (name : Bytes) (top : Option CtxId) (c : CtxId) (var : EnumVar) :
    find (plain t.map safeMode) name top chain ≠ some (.shown r var,c) := by
  intro hfind
  have ht : t.Gone r := invariant_of_move (fun _ _ hs hmove => hs.move hmove) h hrun
  obtain ⟨q,hq⟩ := exists_findL_of_find hfind
  exact ht.shown c (mapKey q) var hq

/-- A call that was made in `s` has got to its loop in `t`, and has bound `exposed` where it was made. -/
structure Opened (exposed : Option Bytes) (s t : EnumState ο) (f : EnumFrame) : Prop where
  frames : t.frames = f::s.frames
  call : f.call = s.nextCall
  this : f.this = s.this
  tmp : ∀ d ∈ f.tmp, s.nextCtx ≤ d
  ctx : s.nextCtx ≤ t.nextCtx
  number : s.nextCall < t.nextCall
  log : ∃ own, t.log = own ++ s.log ∧ ∀ w ∈ own, w.author = some s.nextCall
  kept : ∀ d k, d < s.nextCtx → (d = s.this → k ∉ exposed.map mapKey) → t.map d k = s.map d k
  exposed : ∀ name ∈ exposed, ∃ var, t.map s.this (mapKey name) = some (.shown s.nextCall var)
  shown : ∀ d k var, t.map d k = some (.shown s.nextCall var) → d < s.nextCtx ∨ f.tmp = some d

theorem Opened.enter (hs : s.Fresh) (kind : EnumKind) :
    Opened none s (s.enter kind) ⟨s.nextCall,kind,s.this,s.up,none,0⟩ where
  frames := rfl
  call := rfl
  this := rfl
  tmp := by simp
  ctx := Nat.le_refl _
  number := Nat.lt_succ_self _
  log := ⟨[],rfl,by simp⟩
  kept := fun _ _ _ _ => rfl
  exposed := by simp
  shown := fun d k var hd => absurd (hs.shown d k _ var hd) (Nat.lt_irrefl _)

theorem Opened.enterTmp (hs : s.Fresh) (kind : EnumKind) :
    Opened none s (s.enterTmp kind) ⟨s.nextCall,kind,s.this,s.up,some s.nextCtx,0⟩ where
  frames := rfl
  call := rfl
  this := rfl
  tmp := by simp
  ctx := Nat.le_succ _
  number := Nat.lt_succ_self _
  log := ⟨[],rfl,by simp⟩
  kept := fun d k hd _ => by rw [enterTmp_map,if_neg hd.ne]
  exposed := by simp
  shown := fun d k var hd => by
    rw [enterTmp_map] at hd
    split_ifs at hd
    exact absurd (hs.shown d k _ var hd) (Nat.lt_irrefl _)

/-- What the call binds in its own context is felt nowhere else. -/
theorem Opened.put {exposed : Option Bytes} (h : Opened exposed s t f) {tmpCtx : CtxId} (htmp : f.tmp = some tmpCtx)
    (name : Bytes) (obj : Held ο) (hs : s.Fresh) :
    Opened exposed s (t.put (some s.nextCall) tmpCtx name (some obj)) f := by
  have hlow : s.nextCtx ≤ tmpCtx := h.tmp tmpCtx (by simp [htmp])
  refine ⟨h.frames,h.call,h.this,h.tmp,h.ctx,h.number,?_,fun d k hd hk => ?_,fun n hn => ?_,fun d k var hd => ?_⟩
  · obtain ⟨own,hown,hauthor⟩ := h.log
    refine ⟨⟨some s.nextCall,(tmpCtx,mapKey name),some obj⟩::own,by simp [EnumState.put,hown],fun w hw => ?_⟩
    rcases List.mem_cons.mp hw with rfl | hw
    · rfl
    · exact hauthor w hw
  · rw [put_map,if_neg fun heq => (hd.trans_le hlow).ne heq.1]
    exact h.kept d k hd hk
  · obtain ⟨var,hvar⟩ := h.exposed n hn
    refine ⟨var,?_⟩
    rw [put_map,if_neg fun heq => (hs.this.trans_le hlow).ne heq.1]
    exact hvar
  · rw [put_map] at hd
    split_ifs at hd with heq
    · exact .inr (heq.1 ▸ htmp)
    · exact h.shown d k var hd

/-- The name it binds where it was made. -/
theorem Opened.exposeOuter (h : Opened none s t f) (var : EnumVar) (name : Bytes) (hs : s.Fresh) :
    Opened (some name) s (t.expose s.nextCall s.this var name) f := by
  refine ⟨h.frames,h.call,h.this,h.tmp,h.ctx,h.number,?_,fun d k hd hk => ?_,fun n hn => ?_,fun d k v hd => ?_⟩
  · obtain ⟨own,hown,hauthor⟩ := h.log
    refine ⟨⟨some s.nextCall,(s.this,mapKey name),some (.shown s.nextCall var)⟩::own,?_,fun w hw => ?_⟩
    · simp [expose,EnumState.put,hown]
    · rcases List.mem_cons.mp hw with rfl | hw
      · rfl
      · exact hauthor w hw
  · rw [expose,put_map,if_neg fun heq => hk heq.1 (by simp [heq.2])]
    exact h.kept d k hd (by simp)
  · obtain rfl := Option.some.inj hn
    refine ⟨var,?_⟩
    rw [expose,put_map,if_pos ⟨rfl,rfl⟩]
  · rw [expose,put_map] at hd
    split_ifs at hd with heq
    · exact .inl (heq.1 ▸ hs.this)
    · exact h.shown d k v hd

/-- A call returns at once, and then exposes nothing, or it gets to its loop. -/
theorem start_cases (hs : s.Fresh) (b : Enumeration) :
    b.start s = s.returned ∧ b.exposes = none ∨
      ∃ f, Opened b.exposes s (b.start s) f ∧ (f.kind = .rxSplit → b.documented = [str "rxcount"]) := by
  cases b with
  | hEnum argc =>
    simp only [Enumeration.start,Enumeration.exposes,hEnum]
    split_ifs
    · exact .inl ⟨rfl,by simp [*]⟩
    · have h := (Opened.enterTmp hs .hEnum).put rfl (str "key") (.shown s.nextCall .key) hs
      have h := h.put rfl (str "value") (.shown s.nextCall .val) hs
      exact .inr ⟨_,h.exposeOuter .n (str "num") hs,nofun⟩
  | enumToken argc =>
    simp only [Enumeration.start,Enumeration.exposes,evalEnumToken]
    split_ifs
    · have h := (Opened.enterTmp hs .enumToken).put rfl (str "token") (.shown s.nextCall .p) hs
      have h := h.put rfl (str "break") (.shown s.nextCall .ok) hs
      exact .inr ⟨_,h.put rfl (str "skip-tokens") (.shown s.nextCall .skip) hs,nofun⟩
    · exact .inl ⟨rfl,by simp [*]⟩
  | rxSplit argc compiles =>
    simp only [Enumeration.start,Enumeration.exposes,evalRxSplit]
    split_ifs
    · have h := (Opened.enterTmp hs .rxSplit).put rfl (str "subx") (.shown s.nextCall .rx) hs
      have h := h.put rfl (str "last") (.str []) hs
      exact .inr ⟨_,h.put rfl (str "rxnum") (.shown s.nextCall .cnt) hs,fun _ => rfl⟩
    · exact .inl ⟨rfl,by simp [*]⟩
  | sqlite dbOpen =>
    simp only [Enumeration.start,Enumeration.exposes,execute]
    split_ifs
    · exact .inr ⟨_,(Opened.enter hs .sqlite).exposeOuter .myOK (str "break") hs,nofun⟩
    · exact .inl ⟨rfl,by simp [*]⟩

/-- The loop of a call that was made in `s` began in `s₁` and has come to `t`. What the body has written outside of
the contexts made since is not the call's own and stands for no variable of it; those contexts are all that the names
of its variables can be in, but for what was there when the loop began. -/
structure Inside (s s₁ : EnumState ο) (f : EnumFrame) (t : EnumState ο) : Prop where
  frames : ∃ inner cnt, t.frames = inner ++ { f with cnt := cnt }::s.frames ∧
    ∀ g ∈ inner, g.call ≠ s.nextCall ∧ ∀ d ∈ g.tmp, s.nextCtx ≤ d
  ctx : s.nextCtx ≤ t.nextCtx
  number : s.nextCall < t.nextCall
  log : ∃ body, t.log = body ++ s₁.log ∧
    (∀ w ∈ body, w.cell.1 < s.nextCtx → w.author ≠ some s.nextCall ∧ ∀ var, w.value ≠ some (.shown s.nextCall var)) ∧
    ∀ d k, d < s.nextCtx → t.map d k = replay (Function.uncurry s₁.map) body (d,k)
  shown : ∀ d k var, t.map d k = some (.shown s.nextCall var) → d < s.nextCtx ∨ ∃ g ∈ t.frames, g.tmp = some d

variable {s₁ : EnumState ο} {exposed : Option Bytes}

theorem Opened.inside (h : Opened exposed s s₁ f) : Inside s s₁ f s₁ where
  frames := ⟨[],f.cnt,h.frames,by simp⟩
  ctx := h.ctx
  number := h.number
  log := ⟨[],rfl,by simp,fun _ _ _ => rfl⟩
  shown := fun d k var hd => (h.shown d k var hd).imp_right fun htmp => ⟨f,by simp [h.frames],htmp⟩

/-- The running call is the one whose loop it is, or one inside of it. -/
theorem Inside.top (h : Inside s s₁ f t) (hf : ∀ d ∈ f.tmp, s.nextCtx ≤ d) {g : EnumFrame} {gs : List EnumFrame}
    (hg : t.frames = g::gs) : ∀ d ∈ g.tmp, s.nextCtx ≤ d := by
  obtain ⟨inner,cnt,hframes,hinner⟩ := h.frames
  cases inner with
  | nil =>
    obtain ⟨rfl,rfl⟩ := List.cons.inj (hg.symm.trans hframes)
    exact hf
  | cons g' inner =>
    obtain ⟨rfl,rfl⟩ := List.cons.inj (hg.symm.trans hframes)
    exact (hinner g List.mem_cons_self).2

/-- A call that may end is inside of it. -/
theorem Inside.inner (h : Inside s s₁ f t) (hf : f.call = s.nextCall) {g : EnumFrame} {gs : List EnumFrame}
    (hg : t.frames = g::gs) (hcall : g.call ≠ s.nextCall) :
    ∃ inner cnt, gs = inner ++ { f with cnt := cnt }::s.frames ∧
      ∀ g ∈ inner, g.call ≠ s.nextCall ∧ ∀ d ∈ g.tmp, s.nextCtx ≤ d := by
  obtain ⟨inner,cnt,hframes,hinner⟩ := h.frames
  cases inner with
  | nil =>
    obtain ⟨rfl,rfl⟩ := List.cons.inj (hg.symm.trans hframes)
    exact absurd hf hcall
  | cons g' inner =>
    obtain ⟨rfl,rfl⟩ := List.cons.inj (hg.symm.trans hframes)
    exact ⟨inner,cnt,rfl,fun g hg => hinner g (List.mem_cons_of_mem _ hg)⟩

theorem Inside.put (h : Inside s s₁ f t) (author : Option ℕ) (c : CtxId) (name : Bytes) {obj : Option (Held ο)}
    (hlow : c < s.nextCtx → author ≠ some s.nextCall ∧ ∀ var, obj ≠ some (.shown s.nextCall var))
    (hhigh : ∀ var, obj = some (.shown s.nextCall var) → ∃ g ∈ t.frames, g.tmp = some c) :
    Inside s s₁ f (t.put author c name obj) := by
  refine ⟨h.frames,h.ctx,h.number,?_,fun d k var hd => ?_⟩
  · obtain ⟨body,hlog,hbody,hmap⟩ := h.log
    refine ⟨⟨author,(c,mapKey name),obj⟩::body,by simp [EnumState.put,hlog],fun w hw hcell => ?_,fun d k hd => ?_⟩
    · rcases List.mem_cons.mp hw with rfl | hw
      · exact hlow hcell
      · exact hbody w hw hcell
    · simp only [put_map,replay_cons,Prod.mk.injEq,hmap d k hd]
  · rw [put_map] at hd
    split_ifs at hd with heq
    · exact .inr (heq.1 ▸ hhigh var hd)
    · exact h.shown d k var hd

theorem Inside.move (h : Inside s s₁ f t) (hcall : f.call = s.nextCall) (hf : ∀ d ∈ f.tmp, s.nextCtx ≤ d)
    (hmove : Move (· ≠ s.nextCall) t u) : Inside s s₁ f u := by
  cases hmove with
  | script c name obj hc hobj =>
    have hnot := not_shown_of_any hobj s.nextCall
    exact h.put none c name (fun _ => ⟨nofun,hnot⟩) fun var heq => absurd heq (hnot var)
  | own g gs hg tmpCtx htmp name obj hobj =>
    have hhigh : s.nextCtx ≤ tmpCtx := h.top hf hg tmpCtx (by simp [htmp])
    exact h.put _ tmpCtx name (fun hlow => absurd hlow hhigh.not_gt) fun _ _ => ⟨g,by simp [hg],htmp⟩
  | outer g gs hg hp name obj hobj =>
    have hnot (var : EnumVar) : some obj ≠ some (.shown s.nextCall var) := by
      intro heq
      exact hp (hobj _ var (Option.some.inj heq)).symm
    exact h.put _ g.this name (fun _ => ⟨fun heq => hp (Option.some.inj heq),hnot⟩) fun var heq => absurd heq (hnot var)
  | returned => exact ⟨h.frames,h.ctx,h.number.trans (Nat.lt_succ_self _),h.log,h.shown⟩
  | enter kind hp =>
    obtain ⟨inner,cnt,hframes,hinner⟩ := h.frames
    refine ⟨⟨_::inner,cnt,by rw [enter_frames,hframes,List.cons_append],?_⟩,h.ctx,
      h.number.trans (Nat.lt_succ_self _),h.log,fun d k var hd => ?_⟩
    · intro g hg
      rcases List.mem_cons.mp hg with rfl | hg
      · exact ⟨hp,by simp⟩
      · exact hinner g hg
    · refine (h.shown d k var hd).imp_right fun ⟨g,hg,htmp⟩ => ⟨g,?_,htmp⟩
      exact List.mem_cons_of_mem _ hg
  | enterTmp kind hp =>
    obtain ⟨inner,cnt,hframes,hinner⟩ := h.frames
    refine ⟨⟨_::inner,cnt,by rw [enterTmp_frames,hframes,List.cons_append],?_⟩,h.ctx.trans (Nat.le_succ _),
      h.number.trans (Nat.lt_succ_self _),?_,fun d k var hd => ?_⟩
    · intro g hg
      rcases List.mem_cons.mp hg with rfl | hg
      · refine ⟨hp,fun d hd => ?_⟩
        obtain rfl := Option.some.inj hd
        exact h.ctx
      · exact hinner g hg
    · obtain ⟨body,hlog,hbody,hmap⟩ := h.log
      refine ⟨body,hlog,hbody,fun d k hd => ?_⟩
      rw [enterTmp_map,if_neg (hd.trans_le h.ctx).ne]
      exact hmap d k hd
    · rw [enterTmp_map] at hd
      split_ifs at hd
      refine (h.shown d k var hd).imp_right fun ⟨g,hg,htmp⟩ => ⟨g,?_,htmp⟩
      exact List.mem_cons_of_mem _ hg
  | count g gs hg =>
    refine ⟨?_,h.ctx,h.number,h.log,fun d k var hd => ?_⟩
    · obtain ⟨inner,cnt,hframes,hinner⟩ := h.frames
      cases inner with
      | nil =>
        obtain ⟨rfl,rfl⟩ := List.cons.inj (hg.symm.trans hframes)
        exact ⟨[],_,rfl,by simp⟩
      | cons g' inner =>
        obtain ⟨rfl,rfl⟩ := List.cons.inj (hg.symm.trans hframes)
        refine ⟨_::inner,cnt,rfl,fun a ha => ?_⟩
        rcases List.mem_cons.mp ha with rfl | ha
        · exact hinner g List.mem_cons_self
        · exact hinner a (List.mem_cons_of_mem _ ha)
    · refine (h.shown d k var hd).imp_right fun ⟨a,ha,htmp⟩ => ?_
      rw [hg] at ha
      rcases List.mem_cons.mp ha with rfl | ha
      · exact ⟨_,List.mem_cons_self,htmp⟩
      · exact ⟨a,List.mem_cons_of_mem _ ha,htmp⟩
  | pop g gs hg hp =>
    have htmp := h.top hf hg
    refine ⟨h.inner hcall hg hp,h.ctx,h.number,?_,fun d k var hd => ?_⟩
    · obtain ⟨body,hlog,hbody,hmap⟩ := h.log
      refine ⟨body,hlog,hbody,fun d k hd => ?_⟩
      rw [pop_map,if_neg fun heq : g.tmp = some d => hd.not_ge (htmp d heq)]
      exact hmap d k hd
    · rw [pop_map] at hd
      split_ifs at hd with hne
      refine (h.shown d k var hd).imp_right fun ⟨a,ha,hin⟩ => ⟨a,?_,hin⟩
      rw [hg] at ha
      rcases List.mem_cons.mp ha with rfl | ha
      · exact absurd hin hne
      · exact ha
  | flag call => exact ⟨h.frames,h.ctx,h.number,h.log,h.shown⟩

theorem frames_of_leave (hf : s.frames = f::fs) {thrown : Bool} (h : s.leave thrown = some t) : t.frames = fs := by
  simp only [leave,hf] at h
  split at h <;> exact Option.some.inj h ▸ rfl

/-- Every step of the body keeps it. -/
theorem Inside.step (h : Inside s s₁ f t) (hcall : f.call = s.nextCall) (hf : ∀ d ∈ f.tmp, s.nextCtx ≤ d)
    {ev : EnumEv ο} (hstep : stepInside s.frames.length t ev = some u) : Inside s s₁ f u := by
  rw [stepInside,Option.filter_eq_some_iff] at hstep
  obtain ⟨hev,hlen⟩ := hstep
  have hmoves : Moves (· ≠ s.nextCall) t u := by
    refine moves_of_step h.number.ne' (fun thrown hleave g gs hg => ?_) hev
    obtain ⟨inner,cnt,hframes,hinner⟩ := h.frames
    cases inner with
    | nil =>
      -- it would be left itself
      subst hleave
      rw [frames_of_leave hframes hev] at hlen
      simp at hlen
    | cons g' inner =>
      obtain ⟨rfl,rfl⟩ := List.cons.inj (hg.symm.trans hframes)
      exact (hinner g List.mem_cons_self).1
  clear hev hlen
  induction hmoves with
  | refl => exact h
  | tail _ hlast ih => exact ih.move hcall hf hlast

theorem Inside.run (h : Inside s s₁ f t) (hcall : f.call = s.nextCall) (hf : ∀ d ∈ f.tmp, s.nextCtx ≤ d)
    {body : List (EnumEv ο)} (hrun : runFrom (stepInside s.frames.length) t body = some u) : Inside s s₁ f u :=
  invariant_of_step (fun _ _ _ hu hstep => hu.step hcall hf hstep) h hrun

/-- What is left of a call when it has ended: what its body has made of what was there when its loop began, and in the
documented names a string. -/
structure Ended (b : Enumeration) (s s₁ t : EnumState ο)
    (body : List (LogEntry (Option ℕ) (CtxId × Bytes) (Option (Held ο)))) : Prop where
  frames : t.frames = s.frames
  number : s.nextCall < t.nextCall
  log : ∃ own, t.log = own ++ (body ++ s₁.log) ∧ ∀ w ∈ own, w.author = some s.nextCall
  others : ∀ w ∈ body, w.cell.1 < s.nextCtx →
    w.author ≠ some s.nextCall ∧ ∀ var, w.value ≠ some (.shown s.nextCall var)
  map : ∀ d k, d < s.nextCtx → t.map d k = replay (Function.uncurry s₁.map) body (d,k) ∨
    d = s.this ∧ k ∈ b.documented.map mapKey ∧ ∃ text, t.map d k = some (.str text)
  shown : ∀ d k var, t.map d k = some (.shown s.nextCall var) → d < s.nextCtx

theorem Inside.ended {b : Enumeration} (h : Inside s s₁ f t) (hs : s.Fresh) (ho : Opened b.exposes s s₁ f)
    (hdoc : f.kind = .rxSplit → b.documented = [str "rxcount"]) (hlen : t.frames.length = s.frames.length+1)
    {thrown : Bool} (hleave : t.leave thrown = some u) : ∃ body, Ended b s s₁ u body := by
  obtain ⟨inner,cnt,hframes,-⟩ := h.frames
  obtain rfl : inner = [] := by
    rw [hframes] at hlen
    simpa using hlen
  obtain ⟨body,hlog,hbody,hmap⟩ := h.log
  -- what was shown is in the context that is freed, or in an older one
  have hshown (d : CtxId) (k : Bytes) (var : EnumVar) (hd : t.map d k = some (.shown s.nextCall var))
      (hne : f.tmp ≠ some d) : d < s.nextCtx := by
    rcases h.shown d k var hd with hlt | ⟨g,hg,htmp⟩
    · exact hlt
    · rw [hframes] at hg
      rcases List.mem_cons.mp hg with rfl | hg
      · exact absurd htmp hne
      · exact (hs.frames g hg).2.2 d (by simp [htmp])
  have hfree (d : CtxId) (hd : d < s.nextCtx) : f.tmp ≠ some d := fun heq => hd.not_ge (ho.tmp d heq)
  simp only [leave,hframes,List.nil_append] at hleave
  split at hleave
  · next hrx =>
    generalize (if cnt ≠ 0 then itoa cnt else []) = rxcount at hleave
    obtain rfl := Option.some.inj hleave
    refine ⟨body,rfl,h.number,⟨[⟨_,_,_⟩],by rw [← hlog]; rfl,by simp [ho.call]⟩,hbody,fun d k hd => ?_,
      fun d k var hd => ?_⟩
    · rw [pop_map,if_neg (hfree d hd),put_map]
      split_ifs with heq
      · exact .inr ⟨heq.1.trans ho.this,by simp [hdoc hrx.1,heq.2],_,rfl⟩
      · exact .inl (hmap d k hd)
    · rw [pop_map] at hd
      split_ifs at hd with hne
      rw [put_map] at hd
      split_ifs at hd
      · cases hd
      · exact hshown d k var hd hne
  · obtain rfl := Option.some.inj hleave
    refine ⟨body,rfl,h.number,⟨[],hlog,by simp⟩,hbody,fun d k hd => ?_,fun d k var hd => ?_⟩
    · rw [pop_map,if_neg (hfree d hd)]
      exact .inl (hmap d k hd)
    · rw [pop_map] at hd
      split_ifs at hd with hne
      exact hshown d k var hd hne

theorem not_documented_of_exposes {b : Enumeration} {name : Bytes} (h : name ∈ b.exposes) :
    mapKey name ∉ b.documented.map mapKey := by
  cases b with
  | hEnum argc => simp [Enumeration.documented]
  | enumToken argc => cases h
  | rxSplit argc compiles => cases h
  | sqlite dbOpen => simp [Enumeration.documented]

section
variable {b : Enumeration} {body : List (LogEntry (Option ℕ) (CtxId × Bytes) (Option (Held ο)))}

/-- What others have written while the call was evaluated is what its body has. -/
theorem Ended.bodyLog_eq (ho : Opened b.exposes s s₁ f) (he : Ended b s s₁ t body) :
    s.bodyLog t = body.filter fun w => w.author ≠ some s.nextCall := by
  obtain ⟨own,hlog,hown⟩ := he.log
  obtain ⟨op,hoplog,hop⟩ := ho.log
  have hnil {l : List (LogEntry (Option ℕ) (CtxId × Bytes) (Option (Held ο)))}
      (hl : ∀ w ∈ l, w.author = some s.nextCall) : (l.filter fun w => w.author ≠ some s.nextCall) = [] := by
    rw [List.filter_eq_nil_iff]
    intro w hw
    simp [hl w hw]
  have htake : t.log.take (t.log.length-s.log.length) = own ++ (body ++ op) := by
    have hassoc : t.log = (own ++ (body ++ op)) ++ s.log := by simp [hlog,hoplog]
    have hlen : t.log.length-s.log.length = (own ++ (body ++ op)).length := by
      rw [hassoc,List.length_append,Nat.add_sub_cancel]
    rw [hlen,hassoc,List.take_left]
  rw [bodyLog,htake,List.filter_append,List.filter_append,hnil hown,hnil hop,List.nil_append,List.append_nil]

/-- Where the call was made, the body has written what anybody has. -/
theorem Ended.others_this (hs : s.Fresh) (he : Ended b s s₁ t body) (k : Bytes) :
    ∀ w ∈ body, w.cell = (s.this,k) → decide (w.author ≠ some s.nextCall) = true := by
  intro w hw hcell
  simpa using (he.others w hw (by rw [hcell]; exact hs.this)).1

theorem Ended.rebinds_iff (hs : s.Fresh) (ho : Opened b.exposes s s₁ f) (he : Ended b s s₁ t body) (name : Bytes) :
    s.Rebinds t name ↔ ∃ w ∈ body, w.cell = (s.this,mapKey name) := by
  rw [Rebinds,he.bodyLog_eq ho]
  constructor
  · rintro ⟨w,hw,hcell⟩
    exact ⟨w,(List.mem_filter.mp hw).1,hcell⟩
  · rintro ⟨w,hw,hcell⟩
    exact ⟨w,List.mem_filter.mpr ⟨hw,he.others_this hs _ w hw hcell⟩,hcell⟩

/-- The context of the call holds what the body has made of it exactly when the body has written over what the call
exposes. -/
theorem Ended.bindings_iff (hs : s.Fresh) (ho : Opened b.exposes s s₁ f) (he : Ended b s s₁ t body) :
    (∀ k, k ∉ b.documented.map mapKey → t.map s.this k = replay (Function.uncurry s.map) (s.bodyLog t) (s.this,k)) ↔
      ∀ name ∈ b.exposes, ∃ w ∈ body, w.cell = (s.this,mapKey name) := by
  have hreplay (k : Bytes) : replay (Function.uncurry s.map) (s.bodyLog t) (s.this,k) =
      replay (Function.uncurry s.map) body (s.this,k) := by
    rw [he.bodyLog_eq ho]
    exact replay_filter (he.others_this hs k)
  have hmap (k : Bytes) (hk : k ∉ b.documented.map mapKey) :
      t.map s.this k = replay (Function.uncurry s₁.map) body (s.this,k) := by
    rcases he.map s.this k hs.this with heq | ⟨-,hmem,-⟩
    · exact heq
    · exact absurd hmem hk
  constructor
  · intro h name hname
    have hdoc := not_documented_of_exposes hname
    have hdiff : Function.uncurry s₁.map (s.this,mapKey name) ≠ Function.uncurry s.map (s.this,mapKey name) := by
      obtain ⟨var,hvar⟩ := ho.exposed name hname
      intro heq
      exact Nat.lt_irrefl _ (hs.shown s.this (mapKey name) s.nextCall var (heq.symm.trans hvar))
    have hbind := h (mapKey name) hdoc
    rw [hmap _ hdoc,hreplay] at hbind
    exact (replay_eq_iff hdiff).mp hbind
  · intro h k hk
    rw [hmap k hk,hreplay]
    by_cases hexposed : k ∈ b.exposes.map mapKey
    · obtain ⟨name,hname,rfl⟩ := Option.mem_map.mp hexposed
      exact replay_of_written (h name hname)
    · exact replay_congr (ho.kept s.this k hs.this fun _ => hexposed)

/-- No name stands for a variable of the call then. -/
theorem Ended.gone (hs : s.Fresh) (ho : Opened b.exposes s s₁ f) (he : Ended b s s₁ t body)
    (h : ∀ name ∈ b.exposes, ∃ w ∈ body, w.cell = (s.this,mapKey name)) : t.Gone s.nextCall := by
  refine ⟨he.number,fun g hg => ?_,fun d k var hd => ?_⟩
  · rw [he.frames] at hg
    exact (hs.frames g hg).1.ne
  · have hlow := he.shown d k var hd
    rcases he.map d k hlow with heq | ⟨-,-,text,htext⟩
    · rw [heq] at hd
      by_cases hw : ∃ w ∈ body, w.cell = (d,k)
      · obtain ⟨w,hw,hcell,hvalue⟩ := replay_of_touched (m := Function.uncurry s₁.map) hw
        exact (he.others w hw (by rw [hcell]; exact hlow)).2 var (hvalue.symm.trans hd)
      · rw [replay_of_untouched fun w hin hcell => hw ⟨w,hin,hcell⟩] at hd
        -- it was there when the call was made, or it is what the call exposes
        have hkept := ho.kept d k hlow fun hthis hmem => by
          obtain ⟨name,hname,rfl⟩ := Option.mem_map.mp hmem
          exact hw (hthis ▸ h name hname)
        exact Nat.lt_irrefl _ (hs.shown d k s.nextCall var (hkept.symm.trans hd))
    · rw [htext] at hd
      cases hd

/-- A call that got to its loop has kept to its scope exactly when its body has written over what it has bound outside
of it. -/
theorem Ended.scoped_iff (hs : s.Fresh) (ho : Opened b.exposes s s₁ f) (he : Ended b s s₁ t body) :
    b.Scoped s t ↔ ∀ name ∈ b.exposes, s.Rebinds t name := by
  simp only [he.rebinds_iff hs ho]
  constructor
  · intro h
    exact (he.bindings_iff hs ho).mp h.bindings
  · intro h
    exact ⟨(he.bindings_iff hs ho).mpr h,fun evs u hrun safeMode chain name top c var =>
      (he.gone hs ho h).find_ne hrun safeMode chain name top c var⟩

end

/-- One that returned at once has. -/
theorem scoped_returned (hs : s.Fresh) (b : Enumeration) : b.Scoped s s.returned := by
  have hgone : s.returned.Gone s.nextCall := by
    refine ⟨Nat.lt_succ_self _,fun g hg => (hs.frames g hg).1.ne,fun d k var hd => ?_⟩
    exact Nat.lt_irrefl _ (hs.shown d k s.nextCall var hd)
  refine ⟨fun k _ => ?_,fun evs u hrun safeMode chain name top c var => ?_⟩
  · simp [bodyLog,returned]
  · exact hgone.find_ne hrun safeMode chain name top c var

end EnumState

open EnumState

/-- An enumeration keeps to its own scope exactly when its body writes over the name that it binds where it is
called. -/
theorem enumeration_scoped_iff {s t : EnumState ο} {b : Enumeration} {body : List (EnumEv ο)} {thrown : Bool}
    (hs : s.Reachable) (h : b.evaluate s body thrown = some t) :
    b.Scoped s t ↔ ∀ name ∈ b.exposes, s.Rebinds t name := by
  have hfresh := fresh_of_reachable hs
  rcases start_cases hfresh b with ⟨hstart,hnone⟩ | ⟨f,ho,hdoc⟩
  · rw [Enumeration.evaluate,hstart,if_pos (show s.returned.frames.length = s.frames.length from rfl)] at h
    obtain rfl := Option.some.inj h
    simp [hnone,scoped_returned hfresh b]
  · have hlen : (b.start s).frames.length ≠ s.frames.length := by simp [ho.frames]
    simp only [Enumeration.evaluate,if_neg hlen] at h
    obtain ⟨u,hrun,hleave⟩ := Option.bind_eq_some_iff.mp h
    split_ifs at hleave with hu
    have hinside := ho.inside.run ho.call ho.tmp hrun
    obtain ⟨written,he⟩ := hinside.ended hfresh ho hdoc hu hleave
    exact he.scoped_iff hfresh ho

/-- A script that has set `num`. -/
def EnumState.numbered : EnumState Unit :=
  ⟨fun c k => if c = 0 ∧ k = mapKey (str "num") then some (.str (str "5")) else none,0,[],1,0,[],fun _ => false,[]⟩

theorem EnumState.reachable_numbered : EnumState.numbered.Reachable := by
  refine ⟨_,[],⟨rfl,Nat.one_pos,fun c k obj h => ?_⟩,rfl⟩
  simp only [EnumState.numbered] at h
  split_ifs at h
  exact Option.some.inj h ▸ rfl

/-- A body that sets `num` where `HEnum` was called. -/
def EnumState.renumbers : List (EnumEv Unit) := [.turn [] false,.bind 0 (str "num") (some (.str (str "7")))]

/-- And fails then. -/
theorem hEnum_scoped_rebound : ∃ t,
    (Enumeration.hEnum 2).evaluate EnumState.numbered EnumState.renumbers true = some t ∧
    (Enumeration.hEnum 2).Scoped EnumState.numbered t := by
  have heval : (Enumeration.hEnum 2).evaluate EnumState.numbered EnumState.renumbers true = some _ := rfl
  refine ⟨_,heval,(enumeration_scoped_iff EnumState.reachable_numbered heval).mpr fun name hname => ?_⟩
  obtain rfl := Option.some.inj hname
  exact ⟨⟨none,(0,mapKey (str "num")),some (.str (str "7"))⟩,List.mem_singleton.mpr rfl,rfl⟩

/-- An enumeration of nothing leaves `num` bound to a variable of it. -/
theorem not_enumeration_scoped : ¬ ∀ (s t : EnumState Unit) (b : Enumeration) (body : List (EnumEv Unit))
    (thrown : Bool), s.Reachable → b.evaluate s body thrown = some t → b.Scoped s t := by
  intro h
  have hscoped := h EnumState.numbered _ (.hEnum 2) [] false EnumState.reachable_numbered rfl
  exact hscoped.locals [] _ rfl (fun _ => false) [0] (str "num") none 0 .n rfl

end Smx
