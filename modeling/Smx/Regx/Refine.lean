import Smx.Regx.Layout

/-! The matcher on a program makes the search over the tree that lies in it. -/
namespace Smx.Regx

/-- What a mark changes of the groups, when the search comes back from a success. -/
def Mark.record (input : ℕ) : Mark → Slots → Slots
  | .start n i,sl => sl.setStart n (input+i)
  | .stop n i,sl => sl.setEnd n (input+i)

/-- What a search makes of the groups. -/
def Out.apply (input : ℕ) (o : Out) (sl : Slots) : Slots :=
  match o.found with
  | none => o.met.foldl Slots.open sl
  | some (ms,_) => ms.foldr (Mark.record input) (o.met.foldl Slots.open sl)

namespace Out
variable {input : ℕ} {sl : Slots}

theorem apply_of_none {o : Out} (h : o.found = none) : o.apply input sl = o.met.foldl Slots.open sl := by
  rw [apply,h]

theorem apply_of_some {o : Out} {ms : List Mark} {e : ℕ} (h : o.found = some (ms,e)) :
    o.apply input sl = ms.foldr (Mark.record input) (o.met.foldl Slots.open sl) := by
  rw [apply,h]

@[simp] theorem apply_fail : fail.apply input sl = sl := rfl

theorem apply_orElse_of_none {a : Out} (h : a.found = none) (b : Out) :
    (a.orElse b).apply input sl = b.apply input (a.apply input sl) := by
  rw [orElse_of_none h,apply_of_none h,apply,apply,List.foldl_append]

theorem apply_mark_of_none {o : Out} (h : o.found = none) (m : Mark) :
    (o.mark m).apply input sl = o.apply input sl := by
  rw [apply_of_none h,apply_of_none (by rw [mark,h]; rfl)]
  rfl

theorem apply_mark_of_some {o : Out} {ms : List Mark} {e : ℕ} (h : o.found = some (ms,e)) (m : Mark) :
    (o.mark m).apply input sl = m.record input (o.apply input sl) := by
  have hm : (o.mark m).found = some (m::ms,e) := by
    rw [mark,h]
    rfl
  rw [apply_of_some h,apply_of_some hm]
  rfl

end Out

namespace Subject
variable {T : Subject} {code : Bytes}

/-- Where the one gives a result, the other gives the same. -/
def Grows (x x' : Option Return) : Prop := ∀ r, x = some r → x' = some r

namespace Grows

theorem refl (x : Option Return) : Grows x x := fun _ h => h

theorem attempt {x x' : Option Return} {k k' : Slots → Option Return} (hx : Grows x x')
    (hk : ∀ sl, Grows (k sl) (k' sl)) : Grows (attempt x k) (attempt x' k') := by
  intro r h
  match x,hx,h with
  | some (true,r'),hx,h =>
    rw [hx _ rfl]
    exact h
  | some (false,j,sl),hx,h =>
    rw [hx _ rfl]
    exact hk sl r h

theorem onSuccess {x x' : Option Return} (hx : Grows x x') (f : Slots → Slots) :
    Grows (onSuccess x f) (onSuccess x' f) := by
  intro r h
  match x,hx,h with
  | some (true,r'),hx,h =>
    rw [hx _ rfl]
    exact h
  | some (false,j,sl),hx,h =>
    rw [hx _ rfl]
    exact h

theorem ite {c : Prop} [Decidable c] {x x' y y' : Option Return} (hx : Grows x x') (hy : Grows y y') :
    Grows (if c then x else y) (if c then x' else y') := by
  split_ifs
  · exact hx
  · exact hy

variable {go go' : ℕ → Slots → Option Return} (hgo : ∀ i sl, Grows (go i sl) (go' i sl))
include hgo

theorem greedy (look : ℕ → Bool) (save min no : ℕ) (sl : Slots) :
    Grows (greedy go look save min no sl) (greedy go' look save min no sl) := by
  induction no generalizing sl with
  | zero => exact ite (refl _) (attempt (ite (hgo _ _) (refl _)) fun _ => refl _)
  | succ no ih => exact ite (refl _) (attempt (ite (hgo _ _) (refl _)) ih)

theorem lazy (look : ℕ → Bool) (save left no : ℕ) (sl : Slots) :
    Grows (lazy go look save left no sl) (lazy go' look save left no sl) := by
  induction left generalizing no sl with
  | zero => exact refl _
  | succ left ih => exact attempt (ite (hgo _ _) (refl _)) (ih _)

theorem branches (i fuel scan : ℕ) (sl : Slots) :
    Grows (branches code go i fuel scan sl) (branches code go' i fuel scan sl) := by
  induction fuel generalizing scan sl with
  | zero => exact refl _
  | succ fuel ih =>
    apply attempt (hgo _ _)
    intro sl
    cases parseNext code scan with
    | none => exact refl _
    | some n => exact ite (ih _ _) (refl _)

end Grows

/-- What has been found with some fuel is found with more. -/
theorem matchX_grows (f : ℕ) (n : Option ℕ) (i : ℕ) (sl : Slots) :
    Grows (T.matchX code f n i sl) (T.matchX code (f+1) n i sl) := by
  induction f generalizing n i sl with
  | zero =>
    intro r h
    cases h
  | succ f ih =>
    cases n with
    | none => exact Grows.refl _
    | some scan =>
      simp only [matchX]
      cases opAt code scan with
      | BRANCH =>
        cases parseNext code scan with
        | none => exact ih _ _ _
        | some n => exact Grows.ite (Grows.branches (fun _ _ => ih _ _ _) _ _ _ _) (ih _ _ _)
      | OPEN no => exact (ih _ _ _).onSuccess _
      | CLOSE no => exact (ih _ _ _).onSuccess _
      | STAR => exact Grows.greedy (fun _ _ => ih _ _ _) _ _ _ _ _
      | PLUS => exact Grows.greedy (fun _ _ => ih _ _ _) _ _ _ _ _
      | STARX => exact Grows.lazy (fun _ _ => ih _ _ _) _ _ _ _ _
      | PLUSX => exact Grows.lazy (fun _ _ => ih _ _ _) _ _ _ _ _
      | END => exact Grows.refl _
      | invalid => exact Grows.refl _
      | NOTHING => exact ih _ _ _
      | BACK => exact ih _ _ _
      | WORDA => exact Grows.ite (Grows.refl _) (Grows.ite (Grows.refl _) (ih _ _ _))
      | EXACTLY => exact Grows.ite (Grows.refl _) (Grows.ite (Grows.refl _) (ih _ _ _))
      | _ => exact Grows.ite (Grows.refl _) (ih _ _ _)

theorem matchX_mono {f f' : ℕ} (hf : f ≤ f') {n : Option ℕ} {i : ℕ} {sl : Slots} {r : Return}
    (h : T.matchX code f n i sl = some r) : T.matchX code f' n i sl = some r := by
  induction hf with
  | refl => exact h
  | step _ ih => exact matchX_grows _ _ _ _ _ ih

/-- With enough fuel the computation ends as the search says. -/
def Runs (input : ℕ) (g : ℕ → Slots → Option Return) (o : Out) : Prop :=
  ∀ sl, ∃ f j, (∀ f', f ≤ f' → g f' sl = some (o.found.isSome,j,o.apply input sl)) ∧
    ∀ ms e, o.found = some (ms,e) → j = e

namespace Runs
variable {input : ℕ} {g u : ℕ → Slots → Option Return} {a b : Out}

theorem fail (i : ℕ) : Runs input (fun _ sl => some (false,i,sl)) .fail := by
  intro sl
  exact ⟨0,i,fun _ _ => rfl,fun ms e h => by cases h⟩

/-- A call takes one unit of fuel. -/
theorem succ (h : ∀ f sl, g (f+1) sl = u f sl) (hg : Runs input u a) : Runs input g a := by
  intro sl
  obtain ⟨f,j,hf,hj⟩ := hg sl
  refine ⟨f+1,j,?_,hj⟩
  intro f' hf'
  obtain ⟨n,rfl⟩ : ∃ n, f' = n+1 := ⟨f'-1,by omega⟩
  rw [h]
  exact hf n (by omega)

theorem attempt (ha : Runs input g a) (hb : Runs input u b) :
    Runs input (fun f sl => attempt (g f sl) (u f)) (a.orElse b) := by
  intro sl
  obtain ⟨f,j,hf,hj⟩ := ha sl
  cases hfound : a.found with
  | some r =>
    rw [Out.orElse_of_some hfound]
    refine ⟨f,j,?_,hj⟩
    intro f' hf'
    change Regx.attempt (g f' sl) (u f') = _
    rw [hf f' hf',hfound]
    rfl
  | none =>
    obtain ⟨f2,j2,hf2,hj2⟩ := hb (a.apply input sl)
    refine ⟨max f f2,j2,?_,?_⟩
    · intro f' hf'
      change Regx.attempt (g f' sl) (u f') = _
      rw [hf f' ((le_max_left f f2).trans hf'),hfound,Out.apply_orElse_of_none hfound,
        Out.orElse_of_none hfound]
      exact hf2 f' ((le_max_right f f2).trans hf')
    · rw [Out.orElse_of_none hfound]
      exact hj2

theorem meet (n : ℕ) (h : Runs input g a) : Runs input (fun f sl => g f (sl.open n)) (a.meet n) :=
  fun sl => h (sl.open n)

theorem mark (m : Mark) (h : Runs input g a) :
    Runs input (fun f sl => onSuccess (g f sl) (m.record input)) (a.mark m) := by
  intro sl
  obtain ⟨f,j,hf,hj⟩ := h sl
  cases hfound : a.found with
  | none =>
    refine ⟨f,j,?_,?_⟩
    · intro f' hf'
      change onSuccess (g f' sl) _ = _
      rw [hf f' hf',Out.apply_mark_of_none hfound,hfound,Out.mark,hfound]
      rfl
    · intro ms e hm
      rw [Out.mark,hfound] at hm
      cases hm
  | some r =>
    obtain ⟨marks,e⟩ := r
    refine ⟨f,j,?_,?_⟩
    · intro f' hf'
      change onSuccess (g f' sl) _ = _
      rw [hf f' hf',Out.apply_mark_of_some hfound,hfound,Out.mark,hfound]
      rfl
    · intro ms e hm
      rw [Out.mark,hfound] at hm
      cases hm
      exact hj marks e hfound

variable {go : ℕ → ℕ → Slots → Option Return} {look : ℕ → Bool} {k : ℕ → Out} {save : ℕ}

/-- The loop of `STAR` and `PLUS` tries the positions downwards. -/
theorem greedy (min no : ℕ)
    (h : ∀ m, min ≤ m → m ≤ no → Runs input
      (fun f sl => if look (save+m) then go f (save+m) sl else some (false,save+m,sl)) (k (save+m))) :
    Runs input (fun f sl => greedy (go f) look save min no sl)
      (firstOf k ((List.range' min (no+1-min)).map (save+·)).reverse) := by
  induction no with
  | zero =>
    by_cases hmin : 0 < min
    · have hlen : 0+1-min = 0 := by omega
      simp only [Subject.greedy,if_pos hmin,hlen]
      exact fail save
    · have hzero : min = 0 := Nat.eq_zero_of_not_pos hmin
      subst hzero
      simp only [Subject.greedy,lt_irrefl,if_false]
      exact attempt (h 0 le_rfl le_rfl) (fail _)
  | succ no ih =>
    by_cases hmin : no+1 < min
    · have hlen : no+1+1-min = 0 := by omega
      simp only [Subject.greedy,if_pos hmin,hlen]
      exact fail _
    · have hlen : no+1+1-min = (no+1-min)+1 := by omega
      have hlast : min+1*(no+1-min) = no+1 := by omega
      rw [hlen,List.range'_concat,hlast,List.map_append,List.reverse_append]
      simp only [Subject.greedy,if_neg hmin]
      exact attempt (h (no+1) (by omega) le_rfl) (ih fun m hm hle => h m hm (by omega))

/-- The loop of `STARX` and `PLUSX` tries them upwards. -/
theorem lazy (left no : ℕ)
    (h : ∀ m, no ≤ m → m < no+left → Runs input
      (fun f sl => if look (save+m) then go f (save+m) sl else some (false,save+m,sl)) (k (save+m))) :
    Runs input (fun f sl => lazy (go f) look save left no sl)
      (firstOf k ((List.range' no left).map (save+·))) := by
  induction left generalizing no with
  | zero => exact fail _
  | succ left ih =>
    rw [List.range'_succ]
    exact attempt (h no le_rfl (by omega)) (ih (no+1) fun m hm hlt => h m (by omega) (by omega))

end Runs

/-- A call at `p` does what the search says. -/
def Gives (T : Subject) (code : Bytes) (p i : ℕ) (o : Out) : Prop :=
  Runs T.input (fun f sl => T.matchX code f (some p) i sl) o

theorem matchX_leaf {l : Leaf} {p : ℕ} {next : Option ℕ} (h : LeafAt code p l next) (hl : l.Ok)
    (f i : ℕ) (sl : Slots) : T.matchX code (f+1) (some p) i sl =
      match T.step i l with
      | none => some (false,i,sl)
      | some j => T.matchX code f next j sl := by
  have hop : opAt code p = l.op := h.node.opAt.trans (decode_leaf l)
  have hnext : parseNext code p = next := by
    apply h.node.parseNext
    rw [decode_leaf]
    cases l with
    | _ => exact nofun
  simp only [matchX,hop,hnext]
  cases l with
  | anyof cs =>
    rw [show operand code p = cs from h.operand_eq hl rfl]
    simp only [Leaf.op,step]
    split_ifs
    · rfl
    · rfl
  | anybut cs =>
    rw [show operand code p = cs from h.operand_eq hl rfl]
    simp only [Leaf.op,step]
    split_ifs
    · rfl
    · rfl
  | exactly s =>
    rw [show operand code p = s from h.operand_eq hl rfl]
    simp only [Leaf.op,step]
    split_ifs
    · rfl
    · rfl
    · rfl
  | worda =>
    simp only [Leaf.op,step]
    split_ifs
    · rfl
    · rfl
    · rfl
  | nothing => rfl
  | _ =>
    simp only [Leaf.op,step]
    split_ifs
    · rfl
    · rfl

theorem matchRepeat_eq {l : Leaf} {p : ℕ} {next : Option ℕ} (h : LeafAt code p l next) (hl : l.Ok)
    (hsingle : l.single = true) (i : ℕ) : T.matchRepeat code p i = T.repeats l i := by
  have hop : opAt code p = l.op := h.node.opAt.trans (decode_leaf l)
  simp only [matchRepeat,hop]
  cases l with
  | any =>
    have hall : (T.subj.drop i).takeWhile (T.takes .any) = T.subj.drop i :=
      List.takeWhile_eq_self_iff.mpr fun _ _ => rfl
    rw [repeats,hall]
    rfl
  | anyof cs =>
    rw [show operand code p = cs from h.operand_eq hl rfl]
    rfl
  | anybut cs =>
    rw [show operand code p = cs from h.operand_eq hl rfl]
    rfl
  | exactly s =>
    rw [show operand code p = s from h.operand_eq hl rfl]
    rfl
  | _ => cases hsingle

namespace Gives

/-- A node that only leads on. -/
theorem goto {p q i j : ℕ} {o : Out}
    (hstep : ∀ f sl, T.matchX code (f+1) (some p) i sl = T.matchX code f (some q) j sl)
    (h : Gives T code q j o) : Gives T code p i o := Runs.succ hstep h

theorem leaf {l : Leaf} {p q i : ℕ} {k : ℕ → Out} (h : LeafAt code p l (some q)) (hl : l.Ok)
    (hk : ∀ j, T.step i l = some j → Gives T code q j (k j)) :
    Gives T code p i (T.search (.leaf l) k i) := by
  have hstep := matchX_leaf (T := T) h hl
  rw [search]
  cases hj : T.step i l with
  | none =>
    refine Runs.succ (u := fun _ sl => some (false,i,sl)) ?_ (Runs.fail i)
    intro f sl
    rw [hstep,hj]
  | some j =>
    apply goto _ (hk j hj)
    intro f sl
    rw [hstep,hj]

/-- A node without effect. -/
theorem nothing {p q i : ℕ} {o : Out} (h : NodeAt code p .NOTHING (some q)) (hq : Gives T code q i o) :
    Gives T code p i o := by
  apply goto _ hq
  intro f sl
  simp only [matchX,h.opAt,h.parseNext nofun]
  rfl

theorem back {k p i : ℕ} {o : Out} (h : BackAt code k p) (hp : Gives T code p i o) :
    Gives T code k i o := by
  apply goto _ hp
  intro f sl
  simp only [matchX,h.opAt,h.parseNext]

/-- The test of the next character never matters: without it the call fails at once. -/
theorem look {q i : ℕ} {o : Out} (h : Gives T code q i o) :
    Runs T.input (fun f sl => if T.lookahead code (some q) i then T.matchX code f (some q) i sl
      else some (false,i,sl)) o := by
  cases hlook : T.lookahead code (some q) i with
  | true => exact h
  | false =>
    have hfail (f : ℕ) (sl : Slots) : T.matchX code (f+1) (some q) i sl = some (false,i,sl) := by
      have hop : opAt code q = .EXACTLY := by
        by_contra hop
        simp [lookahead,hop] at hlook
      have hhead : (operand code q).headD 0 ≠ T.at_ i := by
        intro hhead
        have hsame : sameChar T.sensitive (T.at_ i) (T.at_ i) = true := by
          rw [sameChar]
          split_ifs
          · exact beq_self_eq_true _
          · exact beq_self_eq_true _
        simp only [lookahead,hop,if_true,hhead,hsame,Bool.or_true,Bool.true_eq_false] at hlook
      simp only [matchX,hop,if_pos hhead]
    intro sl
    obtain ⟨f,j,hf,hj⟩ := h sl
    have hsl := (hfail f sl).symm.trans (hf (f+1) (Nat.le_succ f))
    refine ⟨0,j,?_,hj⟩
    intro f' _
    rw [← hsl]
    rfl

end Gives

/-- The matcher on the code of a tree makes the search over the tree. -/
theorem gives_search {r : Rx} {p q e : ℕ} {next opnd : Option ℕ} (h : Lay code r p next opnd e)
    (hnext : next = some q) (halt : r.isAlt = true → opnd = some q ∧ opAt code q ≠ .BRANCH) (hr : r.Ok)
    {k : ℕ → Out} {i : ℕ} (hi : i ≤ T.subj.length)
    (hk : ∀ j, i ≤ j → j ≤ T.subj.length → (r.wide = true → i < j) → Gives T code q j (k j)) :
    Gives T code p i (T.search r k i) ∧
      (r.isAlt = true → ∀ fuel, e ≤ p+fuel → Runs T.input (fun f sl =>
        branches code (fun p sl => T.matchX code f (some p) i sl) i fuel p sl) (T.search r k i)) := by
  induction h generalizing q k i with
  | leaf h =>
    subst hnext
    refine ⟨Gives.leaf h hr fun j hj => ?_,fun h => by cases h⟩
    obtain ⟨hij,hj,hw⟩ := step_le hr hi hj
    exact hk j hij hj hw
  | @seq a b p m next opnd e ha hb iha ihb =>
    refine ⟨?_,fun h => by cases h⟩
    refine (iha rfl (fun h => by rw [hr.2.2.1] at h; cases h) hr.1 hi fun j hij hj hwa => ?_).1
    refine (ihb hnext (fun h => by rw [hr.2.2.2] at h; cases h) hr.2.1 hj fun l hjl hl hwb => ?_).1
    apply hk l (hij.trans hjl) hl
    intro hw
    obtain hw | hw := Bool.or_eq_true_iff.mp hw
    · exact (hwa hw).trans_le hjl
    · exact hij.trans_lt (hwb hw)
  | @last b p next opnd e h hb ih =>
    obtain ⟨hopnd,hq⟩ := halt rfl
    have hbody := (ih hopnd (fun h => by rw [hr.2] at h; cases h) hr.1 hi hk).1
    have hp : parseNext code p = some q := (h.parseNext (by rintro ⟨⟩)).trans hnext
    constructor
    · apply Gives.goto _ hbody
      intro f sl
      simp only [matchX,h.opAt,hp]
      exact if_neg hq
    · intro _ fuel hfuel
      have hroom := hb.room
      obtain ⟨n,rfl⟩ : ∃ n, fuel = n+1 := ⟨fuel-1,by omega⟩
      have hrun := Runs.attempt hbody (Runs.fail i)
      rw [Out.orElse_fail] at hrun
      simpa only [search,branches,hp,if_neg hq] using hrun
  | @alt b a p m next opnd e h hb ha ihb iha =>
    obtain ⟨hopnd,hq⟩ := halt rfl
    have hbody := (ihb hopnd (fun h => by rw [hr.2.2.1] at h; cases h) hr.1 hi fun j hij hj hw =>
      hk j hij hj fun hw' => hw (Bool.and_eq_true_iff.mp hw').1).1
    have hrest := (iha hnext (fun _ => ⟨hopnd,hq⟩) hr.2.1 hi fun j hij hj hw =>
      hk j hij hj fun hw' => hw (Bool.and_eq_true_iff.mp hw').2).2 hr.2.2.2
    have hp : parseNext code p = some m := h.parseNext (by rintro ⟨⟩)
    have hm : opAt code m = .BRANCH := Rx.opAt_of_isAlt ha hr.2.2.2
    have hall (fuel : ℕ) (hfuel : e ≤ p+fuel) : Runs T.input (fun f sl =>
        branches code (fun p sl => T.matchX code f (some p) i sl) i fuel p sl)
        (T.search (.alt b a) k i) := by
      have hroom := hb.room
      have hroom' := ha.room
      obtain ⟨n,rfl⟩ : ∃ n, fuel = n+1 := ⟨fuel-1,by omega⟩
      simpa only [search,branches,hp,if_pos hm] using Runs.attempt hbody (hrest n (by omega))
    refine ⟨?_,fun _ => hall⟩
    refine Runs.succ ?_ (hall code.length (by have hroom := ha.room; omega))
    intro f sl
    simp only [matchX,h.opAt,hp]
    exact if_pos hm
  | @group n a p c next opnd hn ho ha hc ih =>
    refine ⟨?_,fun h => by cases h⟩
    subst hnext
    have hop := ho.opAt.trans (decode_open hr.1 hn)
    have hcop := hc.opAt.trans (decode_close hr.1 hn)
    rw [search]
    split_ifs with hnine
    · rw [if_pos hnine] at hop hcop
      have hnext : parseNext code p = some (p+3) := ho.parseNext (by
        rw [← ho.opAt,hop]
        rintro ⟨⟩)
      have hcnext : parseNext code c = some q := hc.parseNext (by
        rw [← hc.opAt,hcop]
        rintro ⟨⟩)
      refine Runs.succ ?_ (Runs.meet n (Runs.mark (.start n i) (ih rfl ?_ hr.2.1 hi ?_).1))
      · intro f sl
        simp only [matchX,hop,hnext]
        rfl
      · intro _
        refine ⟨rfl,?_⟩
        rw [hcop]
        rintro ⟨⟩
      · intro j hij hj hw
        refine Runs.succ ?_ (Runs.mark (.stop n j) (hk j hij hj hw))
        intro f sl
        simp only [matchX,hcop,hcnext]
        rfl
    · rw [if_neg hnine] at hop
      refine Runs.succ (u := fun _ sl => some (false,i,sl)) ?_ (Runs.fail i)
      intro f sl
      simp only [matchX,hop]
  | @rep plus isLazy l p next opnd e h hl ih =>
    refine ⟨?_,fun h => by cases h⟩
    subst hnext
    have hleaf : LeafAt code (p+3) l none := by
      cases hl with
      | leaf h => exact h
    have hcount := matchRepeat_eq (T := T) hleaf hr.1 hr.2 i
    have hlook (m : ℕ) (hm : m ≤ T.repeats l i) (hplus : plus = true → 1 ≤ m) : Runs T.input
        (fun f sl => if T.lookahead code (some q) (i+m) then T.matchX code f (some q) (i+m) sl
          else some (false,i+m,sl)) (k (i+m)) := by
      have hle := T.repeats_le l i
      apply Gives.look
      apply hk (i+m) (by omega) (by omega)
      intro hw
      have hpos := hplus hw
      omega
    have hop := h.opAt
    cases plus with
    | true =>
      cases isLazy with
      | true =>
        have hnext : parseNext code p = some q := h.parseNext (by rintro ⟨⟩)
        refine Runs.succ ?_ (Runs.lazy (T.repeats l i) 1 fun m hm hlt =>
          hlook m (by omega) fun _ => hm)
        intro f sl
        rw [← hcount]
        simp only [matchX,hop,hnext]
        rfl
      | false =>
        have hnext : parseNext code p = some q := h.parseNext (by rintro ⟨⟩)
        refine Runs.succ ?_ (Runs.greedy 1 (T.repeats l i) fun m hm hle =>
          hlook m hle fun _ => hm)
        intro f sl
        rw [← hcount]
        simp only [matchX,hop,hnext]
        rfl
    | false =>
      cases isLazy with
      | true =>
        have hnext : parseNext code p = some q := h.parseNext (by rintro ⟨⟩)
        refine Runs.succ ?_ (Runs.lazy (T.repeats l i+1) 0 fun m hm hlt =>
          hlook m (by omega) fun h => by cases h)
        intro f sl
        rw [← hcount]
        simp only [matchX,hop,hnext]
        rfl
      | false =>
        have hnext : parseNext code p = some q := h.parseNext (by rintro ⟨⟩)
        refine Runs.succ ?_ (Runs.greedy 0 (T.repeats l i) fun m hm hle =>
          hlook m hle fun h => by cases h)
        intro f sl
        rw [← hcount]
        simp only [matchX,hop,hnext]
        rfl
  | @loop a p c next opnd h ha hc hb hn ih =>
    refine ⟨?_,fun h => by cases h⟩
    subst hnext
    have hp : parseNext code p = some (c+3) := h.parseNext (by rintro ⟨⟩)
    have hbnext : parseNext code (c+3) = some (c+6) := hb.parseNext (by rintro ⟨⟩)
    have hbop : opAt code (c+3) = .BRANCH := hb.opAt
    have hnop : opAt code (c+6) ≠ .BRANCH := by
      rw [hn.opAt]
      rintro ⟨⟩
    -- the induction is on the text that is left, of which each round takes a part
    induction hleft : T.subj.length-i using Nat.strong_induction_on generalizing i with
    | _ left ihleft =>
      have hbody : Gives T code (p+3) i (T.search a (T.search (.loop a) k) i) := by
        refine (ih rfl (fun h => by rw [hr.2.2] at h; cases h) hr.1 hi fun j hij hj hw => ?_).1
        have hlt := hw hr.2.1
        apply Gives.back hc
        exact ihleft (T.subj.length-j) (by omega) hj
          (fun l hjl hl _ => hk l (hij.trans hjl) hl fun h => by cases h) rfl
      have hrest : Gives T code (c+6) i (k i) := Gives.nothing hn (hk i le_rfl hi fun h => by cases h)
      rw [search_loop hr.1 hr.2.1 k hi]
      have hroom := hn.room
      obtain ⟨n,hlen⟩ : ∃ n, code.length = n+2 := ⟨code.length-2,by omega⟩
      refine Runs.succ (u := fun f sl => branches code (fun p sl => T.matchX code f (some p) i sl) i
        code.length p sl) ?_ ?_
      · intro f sl
        simp only [matchX,h.opAt,hp]
        exact if_pos hbop
      · have hrun := Runs.attempt hbody (Runs.attempt hrest (Runs.fail i))
        rw [Out.orElse_fail] at hrun
        simpa only [hlen,branches,hp,if_pos hbop,hbnext,if_neg hnop] using hrun
  | @loop1 a p b next opnd ha h hc hb hn ih =>
    refine ⟨?_,fun h => by cases h⟩
    subst hnext
    have hp : parseNext code b = some (b+6) := h.parseNext (by rintro ⟨⟩)
    have hbnext : parseNext code (b+6) = some (b+9) := hb.parseNext (by rintro ⟨⟩)
    have hbop : opAt code (b+6) = .BRANCH := hb.opAt
    have hnop : opAt code (b+9) ≠ .BRANCH := by
      rw [hn.opAt]
      rintro ⟨⟩
    have hroom := hn.room
    obtain ⟨n,hlen⟩ : ∃ n, code.length = n+2 := ⟨code.length-2,by omega⟩
    rw [search_loop1 hr.1 hr.2.1 k hi]
    -- behind the body stands a loop that leads back to it
    have hloop (j : ℕ) (hij : i < j) (hj : j ≤ T.subj.length) :
        Gives T code b j (T.search (.loop a) k j) := by
      induction hleft : T.subj.length-j using Nat.strong_induction_on generalizing j with
      | _ left ihleft =>
        have hbody : Gives T code (b+3) j (T.search a (T.search (.loop a) k) j) := by
          apply Gives.back hc
          refine (ih rfl (fun h => by rw [hr.2.2] at h; cases h) hr.1 hj fun l hjl hl hw => ?_).1
          have hlt := hw hr.2.1
          exact ihleft (T.subj.length-l) (by omega) l (hij.trans hlt) hl rfl
        have hrest : Gives T code (b+9) j (k j) := Gives.nothing hn (hk j hij.le hj fun _ => hij)
        rw [search_loop hr.1 hr.2.1 k hj]
        refine Runs.succ (u := fun f sl => branches code (fun p sl => T.matchX code f (some p) j sl) j
          code.length b sl) ?_ ?_
        · intro f sl
          simp only [matchX,h.opAt,hp]
          exact if_pos hbop
        · have hrun := Runs.attempt hbody (Runs.attempt hrest (Runs.fail j))
          rw [Out.orElse_fail] at hrun
          simpa only [hlen,branches,hp,if_pos hbop,hbnext,if_neg hnop] using hrun
    exact (ih rfl (fun h => by rw [hr.2.2] at h; cases h) hr.1 hi fun j _ hj hw =>
      hloop j (hw hr.2.1) hj).1
  | @opt a p b next opnd h ha hb hn ih =>
    refine ⟨?_,fun h => by cases h⟩
    subst hnext
    have hp : parseNext code p = some b := h.parseNext (by rintro ⟨⟩)
    have hbnext : parseNext code b = some (b+3) := hb.parseNext (by rintro ⟨⟩)
    have hbop : opAt code b = .BRANCH := hb.opAt
    have hnop : opAt code (b+3) ≠ .BRANCH := by
      rw [hn.opAt]
      rintro ⟨⟩
    have hroom := hn.room
    obtain ⟨n,hlen⟩ : ∃ n, code.length = n+2 := ⟨code.length-2,by omega⟩
    have hrest (j : ℕ) (hij : i ≤ j) (hj : j ≤ T.subj.length) : Gives T code (b+3) j (k j) :=
      Gives.nothing hn (hk j hij hj fun h => by cases h)
    have hbody := (ih rfl (fun h => by rw [hr.2] at h; cases h) hr.1 hi fun j hij hj _ => hrest j hij hj).1
    rw [search]
    refine Runs.succ (u := fun f sl => branches code (fun p sl => T.matchX code f (some p) i sl) i
      code.length p sl) ?_ ?_
    · intro f sl
      simp only [matchX,h.opAt,hp]
      exact if_pos hbop
    · have hrun := Runs.attempt hbody (Runs.attempt (hrest i le_rfl hi) (Runs.fail i))
      rw [Out.orElse_fail] at hrun
      simpa only [hlen,branches,hp,if_pos hbop,hbnext,if_neg hnop] using hrun

end Subject
end Smx.Regx
