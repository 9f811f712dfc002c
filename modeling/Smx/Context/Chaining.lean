import Smx.Lib.ParentChain
import Smx.Base.Bytes

/-! `qObjClass::Chain` and `Unchain`: the context of a class object is spliced into the parent
chain of a target context and taken out again. -/
namespace Smx
open ParentChain
variable {κ ω : Type} [DecidableEq κ] [DecidableEq ω]

/-- The pointers the two operations read and write: `myParent` of every context and
`myChild` of every class object. -/
structure Splices (κ ω : Type) where
  parent : κ → Option κ
  child : ω → Option κ

/-- The search of `Unchain`: from `ppX` up to the context below `myCtx`. It answers with that
context and `pX`; with none when the pointers have not ended after `fuel` steps. -/
def seekBelow (parent : κ → Option κ) (myCtx : κ) : ℕ → κ → Option (κ × Option κ)
  | 0,_ => none
  | fuel+1,ppX =>
    match parent ppX with
    | none => some (ppX,none)
    | some pX => if pX = myCtx then some (ppX,some pX) else seekBelow parent myCtx fuel pX

/-- `Unchain`. -/
def unchain (myCtx : ω → κ) (fuel : ℕ) (s : Splices κ ω) (o : ω) : Option (Splices κ ω) :=
  match s.child o with
  | none => some s
  | some myChild =>
    match seekBelow s.parent (myCtx o) fuel myChild with
    | none => none
    | some (ppX,pX) =>
      -- `ppX->myParent = pX ? pX->GetParent() : NULL`
      let parent := Function.update s.parent ppX (pX.bind s.parent)
      some ⟨Function.update parent (myCtx o) none,Function.update s.child o none⟩

/-- `Chain`. -/
def chain (myCtx : ω → κ) (fuel : ℕ) (s : Splices κ ω) (o : ω) (ctx : κ) : Option (Splices κ ω) :=
  (unchain myCtx fuel s o).map fun s =>
    let parent := Function.update s.parent (myCtx o) (s.parent ctx)
    ⟨Function.update parent ctx (some (myCtx o)),Function.update s.child o (some ctx)⟩

/-- What can be done to a class object; freeing it ends in `unchain`. -/
inductive SpliceOp (ω : Type)
  | chain (o : ω)
  | unchain (o : ω)

def spliceStep (myCtx : ω → κ) (fuel : ℕ) (target : κ) (s : Splices κ ω) :
    SpliceOp ω → Option (Splices κ ω)
  | .chain o => chain myCtx fuel s o target
  | .unchain o => unchain myCtx fuel s o

def spliceRun (myCtx : ω → κ) (fuel : ℕ) (target : κ) (s : Splices κ ω) (ops : List (SpliceOp ω)) :
    Option (Splices κ ω) :=
  ops.foldlM (spliceStep myCtx fuel target) s

/-- What the operations are for: the list of chained objects, the most recent one first. -/
def chainedStep (l : List ω) : SpliceOp ω → List ω
  | .chain o => o::l.erase o
  | .unchain o => l.erase o

def chainedRun (ops : List (SpliceOp ω)) : List ω := ops.foldl chainedStep []

/-- The setting: one target with its own parents, and objects whose contexts are their own. -/
structure Setting (myCtx : ω → κ) (target : κ) (original : List κ) : Prop where
  injective : Function.Injective myCtx
  notTarget : ∀ o, myCtx o ≠ target
  notOriginal : ∀ o, myCtx o ∉ original

/-- The pointers represent a list of chained objects. -/
structure Represents (myCtx : ω → κ) (target : κ) (original : List κ) (s : Splices κ ω)
    (l : List ω) : Prop where
  path : Path s.parent (some target) (target::(l.map myCtx ++ original))
  chained : ∀ o ∈ l, s.child o = some target
  unchained : ∀ o, o ∉ l → s.child o = none ∧ s.parent (myCtx o) = none

omit [DecidableEq ω] in
/-- The search stops at the node in front of the one it looks for. -/
theorem seekBelow_path {parent : κ → Option κ} {c x : κ} {pre post : List κ} {start : κ} {fuel : ℕ}
    (h : Path parent (some start) (pre ++ x::c::post)) (hfuel : pre.length < fuel) :
    seekBelow parent c fuel start = some (x,some c) := by
  obtain ⟨fuel,rfl⟩ : ∃ f, fuel = f+1 := ⟨fuel-1,by omega⟩
  induction pre generalizing start fuel with
  | nil =>
    obtain ⟨rfl,hnext,-⟩ : start = x ∧ parent x = some c ∧ Path parent (parent c) post := by
      simpa using h
    simp [seekBelow,hnext]
  | cons d pre ih =>
    have hnd := h.nodup
    obtain ⟨hd,tail⟩ := Path.cons_iff.mp h
    obtain rfl := Option.some.inj hd
    obtain ⟨next,hnext⟩ : ∃ next, parent start = some next := by
      cases hp : parent start with
      | none => simp [hp] at tail
      | some next => exact ⟨next,rfl⟩
    have hne : next ≠ c := by
      rintro rfl
      rw [hnext] at tail
      have hshort := tail.unique (@Path.suffix _ _ _ (pre ++ [x]) _ _ (by simpa using tail))
      have hlen := congrArg List.length hshort
      simp at hlen
      omega
    obtain ⟨fuel,rfl⟩ : ∃ f, fuel = f+1 := ⟨fuel-1,by simp at hfuel; omega⟩
    rw [seekBelow]
    simp only [hnext,if_neg hne]
    exact ih (hnext ▸ tail) fuel (by simpa using hfuel)

section
variable {myCtx : ω → κ} {target : κ} {original : List κ} {s : Splices κ ω} {l : List ω}

omit [DecidableEq κ] [DecidableEq ω] in
theorem Represents.nodup_objects (h : Represents myCtx target original s l) : l.Nodup := by
  have hnd := (List.nodup_cons.mp h.path.nodup).2
  exact (List.nodup_append.mp hnd).1.of_map

omit [DecidableEq κ] in
/-- A chained object's context has a node in front of it: the target, or another object's. -/
theorem Represents.around (h : Represents myCtx target original s l) {o : ω} (ho : o ∈ l) :
    ∃ pre x post, Path s.parent (some target) (pre ++ x::myCtx o::post) ∧
      target::((l.erase o).map myCtx ++ original) = pre ++ x::post ∧ pre.length < l.length ∧
      (x = target ∨ ∃ p ∈ l.erase o, myCtx p = x) := by
  obtain ⟨l₁,l₂,hl,rfl,herase⟩ := List.exists_erase_eq ho
  obtain ⟨pre,x,hpre⟩ : ∃ pre x, target::l₁.map myCtx = pre ++ [x] :=
    ⟨_,_,(List.dropLast_append_getLast (List.cons_ne_nil _ _)).symm⟩
  have hcut : ∀ rest, target::(l₁.map myCtx ++ rest) = pre ++ x::rest := fun rest => by
    rw [← List.cons_append,hpre,List.append_assoc,List.singleton_append]
  have hlen := congrArg List.length hpre
  refine ⟨pre,x,l₂.map myCtx ++ original,?_,?_,?_,?_⟩
  · rw [← hcut]
    simpa using h.path
  · rw [herase,List.map_append,List.append_assoc,hcut]
  · simp at hlen ⊢
    omega
  · have hmem : x ∈ target::l₁.map myCtx := by simp [hpre]
    rw [herase]
    rcases List.mem_cons.mp hmem with hx | hx
    · exact Or.inl hx
    · obtain ⟨p,hp,rfl⟩ := List.mem_map.mp hx
      exact Or.inr ⟨p,List.mem_append_left _ hp,rfl⟩

/-- Taking out an object leaves the others chained in their order. -/
theorem unchain_represents (hset : Setting myCtx target original)
    (h : Represents myCtx target original s l) (o : ω) {fuel : ℕ} (hfuel : l.length < fuel) :
    ∃ s', unchain myCtx fuel s o = some s' ∧
      Represents myCtx target original s' (l.erase o) := by
  by_cases ho : o ∈ l
  · obtain ⟨pre,x,post,hpath,herase,hlen,hx⟩ := h.around ho
    have hseek : seekBelow s.parent (myCtx o) fuel target = some (x,some (myCtx o)) :=
      seekBelow_path hpath (by omega)
    have hrun : unchain myCtx fuel s o = some
        ⟨Function.update (Function.update s.parent x (s.parent (myCtx o))) (myCtx o) none,
          Function.update s.child o none⟩ := by
      simp only [unchain,h.chained o ho,hseek,Option.bind_some]
    have hnd := hpath.nodup
    have hperm : (pre ++ x::myCtx o::post).Perm (myCtx o::(pre ++ x::post)) :=
      (List.Perm.append_left pre (List.Perm.swap ..)).trans List.perm_middle
    have ho' : myCtx o ∉ pre ++ x::post := (List.nodup_cons.mp (hperm.nodup_iff.mp hnd)).1
    have hx' : x ∉ post := fun hmem =>
      (List.nodup_cons.mp (List.nodup_append.mp hnd).2.1).1 (List.mem_cons_of_mem _ hmem)
    have htail : Path s.parent (s.parent (myCtx o)) post :=
      (Path.cons_iff.mp (@Path.suffix _ _ _ (pre ++ [x]) _ _ (by simpa using hpath))).2
    refine ⟨_,hrun,?_,fun p hp => ?_,fun p hp => ?_⟩
    · rw [herase]
      exact (hpath.redirect (htail.update_of_not_mem hx' _)).update_of_not_mem ho' none
    · obtain ⟨hne,hp⟩ := h.nodup_objects.mem_erase_iff.mp hp
      simpa [hne] using h.chained p hp
    · by_cases hpo : p = o
      · simp [hpo]
      · have hpl : p ∉ l := fun hmem => hp (h.nodup_objects.mem_erase_iff.mpr ⟨hpo,hmem⟩)
        have hpx : myCtx p ≠ x := by
          rcases hx with rfl | ⟨q,hq,rfl⟩
          · exact hset.notTarget p
          · exact fun he => hp (hset.injective he ▸ hq)
        have hctx : myCtx p ≠ myCtx o := fun he => hpo (hset.injective he)
        simpa [hpo,hctx,hpx] using h.unchained p hpl
  · rw [List.erase_of_not_mem ho]
    exact ⟨s,by simp [unchain,(h.unchained o ho).1],h⟩

/-- Chaining an object, wherever it was before, puts it in front of the others. -/
theorem chain_represents (hset : Setting myCtx target original)
    (h : Represents myCtx target original s l) (o : ω) {fuel : ℕ} (hfuel : l.length < fuel) :
    ∃ s', chain myCtx fuel s o target = some s' ∧
      Represents myCtx target original s' (o::l.erase o) := by
  obtain ⟨s₁,hrun,h₁⟩ := unchain_represents hset h o hfuel
  have ho : o ∉ l.erase o := h.nodup_objects.not_mem_erase
  obtain ⟨-,htail⟩ := Path.cons_iff.mp h₁.path
  have hnd := (List.nodup_cons.mp h₁.path.nodup).1
  have ho' : myCtx o ∉ (l.erase o).map myCtx ++ original := by
    rw [List.mem_append,not_or]
    refine ⟨fun hmem => ?_,hset.notOriginal o⟩
    obtain ⟨p,hp,he⟩ := List.mem_map.mp hmem
    exact ho (hset.injective he ▸ hp)
  have hto : myCtx o ≠ target := hset.notTarget o
  have hchain : chain myCtx fuel s o target = some
      ⟨Function.update (Function.update s₁.parent (myCtx o) (s₁.parent target)) target
        (some (myCtx o)),Function.update s₁.child o (some target)⟩ := by
    simp only [chain,hrun,Option.map_some]
  refine ⟨_,hchain,?_,fun p hp => ?_,fun p hp => ?_⟩
  · refine Path.cons ?_
    dsimp only
    rw [Function.update_self]
    refine Path.cons ?_
    rw [Function.update_of_ne hto,Function.update_self]
    exact (htail.update_of_not_mem ho' _).update_of_not_mem hnd _
  · rcases List.mem_cons.mp hp with rfl | hp
    · simp
    · have hne : p ≠ o := fun he => ho (he ▸ hp)
      simpa [hne] using h₁.chained p hp
  · rw [List.mem_cons,not_or] at hp
    have hctx : myCtx p ≠ myCtx o := fun he => hp.1 (hset.injective he)
    simpa [hp.1,hctx,hset.notTarget p] using h₁.unchained p hp.2

theorem spliceStep_represents (hset : Setting myCtx target original)
    (h : Represents myCtx target original s l) (op : SpliceOp ω) {fuel : ℕ} (hfuel : l.length < fuel) :
    ∃ s', spliceStep myCtx fuel target s op = some s' ∧
      Represents myCtx target original s' (chainedStep l op) := by
  cases op with
  | chain o => exact chain_represents hset h o hfuel
  | unchain o => exact unchain_represents hset h o hfuel

omit [DecidableEq κ] in
theorem chainedStep_length (l : List ω) (op : SpliceOp ω) : (chainedStep l op).length ≤ l.length+1 := by
  cases op with
  | chain o => simpa [chainedStep] using List.length_erase_le (a := o) (l := l)
  | unchain o => exact List.length_erase_le.trans (Nat.le_succ _)

theorem spliceRun_represents (hset : Setting myCtx target original)
    (h : Represents myCtx target original s l) (ops : List (SpliceOp ω)) {fuel : ℕ}
    (hfuel : l.length + ops.length < fuel) :
    ∃ s', spliceRun myCtx fuel target s ops = some s' ∧
      Represents myCtx target original s' (ops.foldl chainedStep l) := by
  induction ops generalizing s l with
  | nil => exact ⟨s,rfl,h⟩
  | cons op ops ih =>
    rw [List.length_cons] at hfuel
    have hfirst : l.length < fuel := by omega
    obtain ⟨s₁,hstep,h₁⟩ := spliceStep_represents hset h op hfirst
    have hlen := chainedStep_length l op
    obtain ⟨s₂,hrun,h₂⟩ := ih h₁ (by omega)
    refine ⟨s₂,?_,h₂⟩
    rw [spliceRun,List.foldlM_cons,hstep]
    exact hrun

/-- After any sequence of operations the search loops have all ended, the target's parents
are the contexts of the chained objects, the last chained one first, then its own parents,
no context occurs twice, and an object that is not chained has no parent. -/
theorem chaining_law (hset : Setting myCtx target original)
    (hparents : Path s.parent (some target) (target::original))
    (hfree : ∀ o, s.child o = none ∧ s.parent (myCtx o) = none) (ops : List (SpliceOp ω)) {fuel : ℕ}
    (hfuel : ops.length < fuel) :
    ∃ s', spliceRun myCtx fuel target s ops = some s' ∧
      Path s'.parent (some target) (target::((chainedRun ops).map myCtx ++ original)) ∧
      (target::((chainedRun ops).map myCtx ++ original)).Nodup ∧
      ∀ o, o ∉ chainedRun ops → s'.parent (myCtx o) = none := by
  have h₀ : Represents myCtx target original s [] := ⟨hparents,by simp,fun o _ => hfree o⟩
  obtain ⟨s',hrun,h⟩ := spliceRun_represents hset h₀ ops (by simpa using hfuel)
  exact ⟨s',hrun,h.path,h.path.nodup,fun o ho => (h.unchained o ho).2⟩

end

/-- A target 0 with one parent 1, and class objects whose contexts are 2, 3, 4, ... -/
def loneTarget : Splices ℕ ℕ := ⟨fun c => if c = 0 then some 1 else none,fun _ => none⟩

theorem chaining_law_rechain :
    ∃ s', spliceRun (· + 2) 5 0 loneTarget [.chain 0,.chain 1,.chain 0,.unchain 1] = some s' ∧
      Path s'.parent (some 0) [0,2,1] := by
  have hset : Setting (· + 2) 0 [1] := ⟨fun a b => by simp,by simp,by simp⟩
  have hparents : Path loneTarget.parent (some 0) [0,1] := by simp [loneTarget]
  have hfree (o : ℕ) : loneTarget.child o = none ∧ loneTarget.parent (o+2) = none := by
    simp [loneTarget]
  have hfuel : [SpliceOp.chain 0,.chain 1,.chain 0,.unchain 1].length < 5 := by decide
  obtain ⟨s',hrun,hpath,-⟩ := chaining_law hset hparents hfree _ hfuel
  exact ⟨s',hrun,by simpa [chainedRun,chainedStep] using hpath⟩

end Smx
