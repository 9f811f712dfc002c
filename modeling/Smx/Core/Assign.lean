import Smx.Context.Bindings
import Smx.Base.Error

/-! `%set`, `%let` and `%gset`. Each answers with the script error it throws or with the
bindings it leaves; an error leaves them as they were. -/
namespace Smx
variable {κ ο : Type} [DecidableEq κ]

/-- `EvalSet`: bind in the current context, or delete there when no value is given. -/
def evalSet (createObj : Bytes → ο) (m : Bindings κ ο) (this : κ) (args : List Bytes) :
    Except CtxEx (Bindings κ ο) :=
  match validArgc "set" 1 2 args.length with
  | some ex => .error ex
  | none =>
    let name := args.getD 0 []
    if name = [] then .error ⟨121,str "set: empty variable name"⟩
    else if 2 ≤ args.length then .ok (mapObj m this (createObj (args.getD 1 [])) name)
    else .ok (delObj m this name).2

/-- `EvalGSet`: clear the name below the session context and bind it there. -/
def evalGSet (createObj : Bytes → ο) (m : Bindings κ ο) (session : Option κ) (this : κ)
    (up : List κ) (args : List Bytes) : Except CtxEx (Bindings κ ο) :=
  match validArgc "gset" 1 2 args.length with
  | some ex => .error ex
  | none =>
    let var := args.getD 0 []
    if var = [] then .error ⟨121,str "gset: empty variable name"⟩
    else if 2 ≤ args.length then
      .ok (mapObjTop m this up (createObj (args.getD 1 [])) var session)
    else .ok m

/-- `EvalLet`: rebind where the name is already bound, not looking above the session. -/
def evalLet (createObj : Bytes → ο) (m : Bindings κ ο) (session : Option κ) (this : κ)
    (up : List κ) (args : List Bytes) : Except CtxEx (Bindings κ ο) :=
  match validArgc "let" 1 2 args.length with
  | some ex => .error ex
  | none =>
    let var := args.getD 0 []
    if var = [] then .error ⟨121,str "let: empty variable name"⟩
    else if 2 ≤ args.length then
      .ok (mapObjLet m this up (createObj (args.getD 1 [])) var session)
    else .ok m

section
variable (createObj : Bytes → ο) (m : Bindings κ ο) (session : Option κ) (this : κ) (up : List κ)
variable {name : Bytes} (hname : name ≠ []) (val : Bytes)
include hname

theorem evalSet_value : evalSet createObj m this [name,val] =
    .ok (mapObj m this (createObj val) name) := by
  simp [evalSet,hname,validArgc,validArgm]

theorem evalLet_value : evalLet createObj m session this up [name,val] =
    .ok (mapObjLet m this up (createObj val) name session) := by
  simp [evalLet,hname,validArgc,validArgm]

theorem evalGSet_value : evalGSet createObj m session this up [name,val] =
    .ok (mapObjTop m this up (createObj val) name session) := by
  simp [evalGSet,hname,validArgc,validArgm]

end

/-- Among plain contexts a lookup gives the binding of the nearest context that has one. -/
theorem find_plain_of_nearest (m : Bindings κ ο) (safeMode : κ → Bool) {name : Bytes}
    (hn : name.head? ≠ some (ch ':')) {pre post : List κ} {w : κ} {obj : ο}
    (hpre : ∀ c ∈ pre, m c (mapKey name) = none) (hw : m w (mapKey name) = some obj) :
    find (plain m safeMode) name none (pre ++ w::post) = some (obj,w) := by
  rw [find_of_not_colon _ hn,searched_none]
  induction pre with
  | nil => simp [definitions_cons_some (T := plain m safeMode) hw]
  | cons c pre ih =>
    have hc : (plain m safeMode).findL c name = none := hpre c List.mem_cons_self
    rw [List.cons_append,definitions_cons_none hc]
    exact ih fun d hd => hpre d (List.mem_cons_of_mem _ hd)

omit [DecidableEq κ] in
/-- A chain split at the first context with a property. -/
theorem split_at_find {p : κ → Bool} {cs : List κ} {w : κ} (h : cs.find? p = some w) :
    ∃ pre post, cs = pre ++ w::post ∧ p w ∧ ∀ c ∈ pre, ¬ p c := by
  obtain ⟨hw,pre,post,rfl,hpre⟩ := List.find?_eq_some_iff_append.mp h
  exact ⟨pre,post,rfl,hw,fun c hc => by simpa using hpre c hc⟩

theorem searched_prefix (top : Option κ) (cs : List κ) : searched top cs <+: cs := by
  induction cs with
  | nil => exact List.prefix_rfl
  | cons c cs ih =>
    simp only [searched]
    split_ifs
    · exact ⟨cs,rfl⟩
    · obtain ⟨t,ht⟩ := ih
      exact ⟨t,by rw [List.cons_append,ht]⟩

theorem mem_split_below {t : κ} {cs : List κ} (h : t ∈ cs) :
    ∃ post, cs = below t cs ++ t::post := by
  induction cs with
  | nil => simp at h
  | cons c cs ih =>
    by_cases hc : c = t
    · subst hc
      exact ⟨cs,by simp [below_self]⟩
    · obtain ⟨post,hp⟩ := ih ((List.mem_cons.mp h).resolve_left fun he => hc he.symm)
      exact ⟨post,by rw [below_cons hc,List.cons_append,← hp]⟩

/-- The context `%let` writes to. -/
def letTarget (m : Bindings κ ο) (name : Bytes) (session : Option κ) (this : κ) (up : List κ) : κ :=
  (nearest m (mapKey name) session (this::up)).getD this

/-- After `%let` the current context sees the new value. -/
theorem find_after_let (m : Bindings κ ο) (safeMode : κ → Bool) (session : Option κ) (this : κ)
    (up : List κ) {name : Bytes} (hn : name.head? ≠ some (ch ':')) (obj : ο) :
    find (plain (mapObjLet m this up obj name session) safeMode) name none (this::up) =
      some (obj,letTarget m name session this up) := by
  have happ := mapObjLet_apply m this up obj name session
  change ∀ c k, _ = if c = letTarget m name session this up ∧ k = mapKey name then _ else _ at happ
  have hself : mapObjLet m this up obj name session (letTarget m name session this up)
      (mapKey name) = some obj := by rw [happ]; simp
  cases hnear : nearest m (mapKey name) session (this::up) with
  | none =>
    have ht : letTarget m name session this up = this := by simp [letTarget,hnear]
    rw [ht] at hself ⊢
    exact @find_plain_of_nearest _ _ _ _ safeMode _ hn [] _ _ _ (by simp) hself
  | some w =>
    have ht : letTarget m name session this up = w := by simp [letTarget,hnear]
    obtain ⟨pre,mid,hsplit,hw,hpre⟩ := split_at_find hnear
    obtain ⟨rest,hrest⟩ := searched_prefix session (this::up)
    have hcs : this::up = pre ++ w::(mid ++ rest) := by
      rw [← hrest,hsplit,List.append_assoc,List.cons_append]
    rw [ht] at hself happ ⊢
    rw [hcs]
    refine find_plain_of_nearest _ safeMode hn (fun c hc => ?_) hself
    have hcw : m c (mapKey name) = none := by simpa using hpre c hc
    have hne : c ≠ w := fun he => hpre c hc (he ▸ hw)
    rw [happ]
    simp [hne,hcw]

/-- After `%gset` the current context sees the new value. -/
theorem find_after_gset (m : Bindings κ ο) (safeMode : κ → Bool) (session : Option κ) (this : κ)
    (up : List κ) (hcs : (this::up).Nodup) {name : Bytes} (hn : name.head? ≠ some (ch ':')) (obj : ο) :
    find (plain (mapObjTop m this up obj name session) safeMode) name none (this::up) =
      some (obj,topOf session this up) := by
  have happ := mapObjTop_apply m this up obj name session hcs
  obtain ⟨post,hpost⟩ := mem_split_below (topOf_mem session this up)
  rw [hpost]
  refine find_plain_of_nearest _ safeMode hn (fun c hc => ?_) (by simp [happ])
  rw [hpost] at hcs
  have hne : c ≠ topOf session this up := fun he =>
    (List.nodup_append.mp hcs).2.2 c hc _ List.mem_cons_self he
  rw [happ]
  simp [hne,hc]

/-- What the three assignments do to the bindings of all contexts, and what the current
context finds afterwards. -/
theorem assignment_scoping (createObj : Bytes → ο) (m : Bindings κ ο) (safeMode : κ → Bool)
    (session : Option κ) (this : κ) (up : List κ) (hcs : (this::up).Nodup)
    {name : Bytes} (hname : name ≠ []) (hcolon : name.head? ≠ some (ch ':')) (val : Bytes) :
    (∃ m', evalSet createObj m this [name,val] = .ok m' ∧
      (∀ c k, m' c k = if c = this ∧ k = mapKey name then some (createObj val) else m c k) ∧
      find (plain m' safeMode) name none (this::up) = some (createObj val,this)) ∧
    (∃ m', evalLet createObj m session this up [name,val] = .ok m' ∧
      (∀ c k, m' c k = if c = letTarget m name session this up ∧ k = mapKey name
        then some (createObj val) else m c k) ∧
      find (plain m' safeMode) name none (this::up) =
        some (createObj val,letTarget m name session this up)) ∧
    (∃ m', evalGSet createObj m session this up [name,val] = .ok m' ∧
      (∀ c k, m' c k = if k = mapKey name then
          if c = topOf session this up then some (createObj val)
          else if c ∈ below (topOf session this up) (this::up) then none
          else m c k
        else m c k) ∧
      find (plain m' safeMode) name none (this::up) =
        some (createObj val,topOf session this up)) := by
  refine ⟨⟨_,evalSet_value createObj m this hname val,?_,?_⟩,
    ⟨_,evalLet_value createObj m session this up hname val,?_,?_⟩,
    ⟨_,evalGSet_value createObj m session this up hname val,?_,?_⟩⟩
  · exact setKey_apply m this (mapKey name) _
  · exact @find_plain_of_nearest _ _ _ _ safeMode _ hcolon [] _ _ _ (by simp) (setKey_self ..)
  · exact mapObjLet_apply m this up _ name session
  · exact find_after_let m safeMode session this up hcolon _
  · exact mapObjTop_apply m this up _ name session hcs
  · exact find_after_gset m safeMode session this up hcs hcolon _

/-- `x` bound in the session context 1, which lies between the current one and the root. -/
def sessionBindings : Bindings ℕ Bytes :=
  fun c key => if c = 1 ∧ key = str "x" then some (str "old") else none

theorem assignment_scoping_session :
    ∃ m', evalLet id sessionBindings (some 1) 0 [1,2] [str "x",str "new"] = .ok m' ∧
      m' 0 (str "x") = none ∧ m' 1 (str "x") = some (str "new") ∧
      find (plain m' fun _ => false) (str "x") none [0,1,2] = some (str "new",1) :=
  have hcs : [0,1,2].Nodup := by decide
  have hname : str "x" ≠ [] := by decide
  have h := assignment_scoping id sessionBindings (fun _ => false) (some 1) 0 [1,2] hcs hname
    (by decide) (str "new")
  h.2.1.imp fun _ hm => ⟨hm.1,by rw [hm.2.1]; decide,by rw [hm.2.1]; decide,by rw [hm.2.2]; decide⟩

end Smx
