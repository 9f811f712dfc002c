import Smx.Regx.Object
import Smx.Regx.Means

/-! The anchor, the first character and the string that must appear leave out no match. -/
namespace Smx.Regx
variable {code : Bytes} {r : Rx} {p q e : ℕ} {next opnd : Option ℕ} {T : Subject}

theorem decode_open_ne {n : ℕ} (hpos : 1 ≤ n) (hn : n < MAX_SUBX) :
    decode (Op.OPEN n).byte ≠ .EXACTLY ∧ decode (Op.OPEN n).byte ≠ .BOL := by
  rw [decode_open hpos hn]
  split_ifs
  · exact ⟨nofun,nofun⟩
  · exact ⟨nofun,nofun⟩

/-- A node that every search begins with. -/
structure First (code : Bytes) (r : Rx) (p : ℕ) (l : Leaf) (next : Option ℕ) : Prop where
  leaf : LeafAt code p l next
  ok : l.Ok
  fails : ∀ T : Subject, ∀ k i, T.step i l = none → T.search r k i = .fail

/-- Where a tree begins with a string or a `^`, that is tried first. -/
theorem Lay.first (h : Lay code r p next opnd e) (hr : r.Ok)
    (hop : opAt code p = .EXACTLY ∨ opAt code p = .BOL) : ∃ l next, First code r p l next := by
  induction h with
  | @leaf l p next opnd h =>
    refine ⟨l,next,h,hr,fun T k i hnone => ?_⟩
    rw [Subject.search,hnone]
  | seq ha hb iha ihb =>
    obtain ⟨l,next,h⟩ := iha hr.1 hop
    exact ⟨l,next,h.leaf,h.ok,fun T k i hnone => h.fails T _ i hnone⟩
  | last h hb ih =>
    rw [show opAt code _ = .BRANCH from h.opAt] at hop
    obtain hop | hop := hop
    · cases hop
    · cases hop
  | alt h hb ha ihb iha =>
    rw [show opAt code _ = .BRANCH from h.opAt] at hop
    obtain hop | hop := hop
    · cases hop
    · cases hop
  | group hn ho ha hc ih =>
    obtain ⟨hne,hne'⟩ := decode_open_ne hr.1 hn
    rw [ho.opAt] at hop
    obtain hop | hop := hop
    · exact absurd hop hne
    · exact absurd hop hne'
  | @rep plus isLazy l p next opnd e h hl ih =>
    rw [h.opAt] at hop
    cases plus with
    | true =>
      cases isLazy with
      | true => exact hop.elim (by rintro ⟨⟩) (by rintro ⟨⟩)
      | false => exact hop.elim (by rintro ⟨⟩) (by rintro ⟨⟩)
    | false =>
      cases isLazy with
      | true => exact hop.elim (by rintro ⟨⟩) (by rintro ⟨⟩)
      | false => exact hop.elim (by rintro ⟨⟩) (by rintro ⟨⟩)
  | loop h ha hk hb hn ih =>
    rw [show opAt code _ = .BRANCH from h.opAt] at hop
    obtain hop | hop := hop
    · cases hop
    · cases hop
  | loop1 ha h hk hb hn ih =>
    obtain ⟨l,next,h⟩ := ih hr.1 hop
    exact ⟨l,next,h.leaf,h.ok,fun T k i hnone => h.fails T _ i hnone⟩
  | opt h ha hb hn ih =>
    rw [show opAt code _ = .BRANCH from h.opAt] at hop
    obtain hop | hop := hop
    · cases hop
    · cases hop

/-- A string whose first character is not there. -/
theorem First.exactly {l : Leaf} (h : First code r p l next) (hop : opAt code p = .EXACTLY) {k : ℕ → Out} {i : ℕ}
    (hne : T.at_ i ≠ (operand code p).headD 0) : T.search r k i = .fail := by
  have hl : l.op = .EXACTLY := (h.leaf.node.opAt.trans (decode_leaf l)).symm.trans hop
  cases l with
  | exactly s =>
    apply h.fails
    rw [show operand code p = s from h.leaf.operand_eq h.ok rfl] at hne
    rw [Subject.step,if_pos hne.symm]
  | _ => cases hl

theorem First.bol {l : Leaf} (h : First code r p l next) (hop : opAt code p = .BOL) {k : ℕ → Out} {i : ℕ}
    (hi : i ≠ 0) : T.search r k i = .fail := by
  have hl : l.op = .BOL := (h.leaf.node.opAt.trans (decode_leaf l)).symm.trans hop
  cases l with
  | bol =>
    apply h.fails
    rw [Subject.step,if_pos hi]
  | _ => cases hl

/-- The strings that every match of a tree goes through. -/
def musts : Rx → List Bytes
  | .leaf (.exactly s) => [s]
  | .seq a b => musts a ++ musts b
  | .loop1 a => musts a
  | _ => []

/-- The strings that are found from a node on are all of a kind. -/
def Only (code : Bytes) (Q : Bytes → Prop) (p : ℕ) : Prop := ∀ fuel best s, (∀ m, best = some m → Q m) →
  longest code fuel p best = some s → Q s

variable {Q : Bytes → Prop}

/-- A node that is no string. -/
theorem Only.node {op : Op} (h : NodeAt code p op next) (hback : decode op.byte ≠ .BACK)
    (hex : decode op.byte ≠ .EXACTLY) (hq : ∀ q, next = some q → Only code Q q) : Only code Q p := by
  intro fuel best s hbest hs
  cases fuel with
  | zero => exact hbest s hs
  | succ fuel =>
    have hop : opAt code p ≠ .EXACTLY := by
      rw [h.opAt]
      exact hex
    rw [longest,if_neg fun hf => hop hf.1,h.parseNext hback] at hs
    cases next with
    | none => exact hbest s hs
    | some q => exact hq q rfl fuel best s hbest hs

theorem Only.leaf {l : Leaf} (h : LeafAt code p l next) (hl : l.Ok) (hmust : ∀ m ∈ musts (.leaf l), Q m)
    (hq : ∀ q, next = some q → Only code Q q) : Only code Q p := by
  have hback : decode l.op.byte ≠ .BACK := by
    rw [decode_leaf]
    cases l with
    | _ => exact nofun
  cases l with
  | exactly s =>
    have hs : Q s := hmust s List.mem_cons_self
    have hopnd : operand code p = s := h.operand_eq hl rfl
    intro fuel best m hbest hm
    cases fuel with
    | zero => exact hbest m hm
    | succ fuel =>
      rw [longest,h.node.parseNext hback,hopnd] at hm
      have hbest' : ∀ m, (if opAt code p = .EXACTLY ∧ (best.getD []).length ≤ s.length then some s else best) =
          some m → Q m := by
        intro m hm
        split_ifs at hm
        · cases hm
          exact hs
        · exact hbest m hm
      cases next with
      | none => exact hbest' m hm
      | some q => exact hq q rfl fuel _ m hbest' hm
  | _ => exact .node h.node hback nofun hq

theorem musts_of_isAlt (h : r.isAlt = true) : musts r = [] := by
  cases r with
  | last b => rfl
  | alt b a => rfl
  | _ => cases h

theorem decode_close_ne {n : ℕ} (hpos : 1 ≤ n) (hn : n < MAX_SUBX) : decode (Op.CLOSE n).byte ≠ .EXACTLY := by
  rw [decode_close hpos hn]
  split_ifs
  · exact nofun
  · exact nofun

/-- Of the strings in a tree only those are found that every match goes through. -/
theorem Lay.only (h : Lay code r p next opnd e) (hr : r.Ok) (hmust : ∀ m ∈ musts r, Q m)
    (hq : ∀ q, next = some q → Only code Q q) : Only code Q p := by
  induction h with
  | leaf h => exact .leaf h hr hmust hq
  | seq ha hb iha ihb =>
    refine iha hr.1 (fun m hm => hmust m (List.mem_append_left _ hm)) fun _ heq => ?_
    cases heq
    exact ihb hr.2.1 (fun m hm => hmust m (List.mem_append_right _ hm)) hq
  | last h hb ih => exact .node h nofun nofun hq
  | alt h hb ha ihb iha =>
    refine .node h nofun nofun fun _ heq => ?_
    cases heq
    apply iha hr.2.1 _ hq
    rw [musts_of_isAlt hr.2.2.2]
    exact fun m hm => absurd hm List.not_mem_nil
  | group hn ho ha hc ih =>
    refine .node ho (decode_open_ne_back hn) (decode_open_ne hr.1 hn).1 fun _ heq => ?_
    cases heq
    apply ih hr.2.1
    · rw [musts_of_isAlt hr.2.2]
      exact fun m hm => absurd hm List.not_mem_nil
    · intro _ heq
      cases heq
      exact .node hc (decode_close_ne_back hn) (decode_close_ne hr.1 hn) hq
  | @rep plus isLazy l p next opnd e h hl ih =>
    apply Only.node h _ _ hq
    · split_ifs
      · exact nofun
      · exact nofun
      · exact nofun
      · exact nofun
    · split_ifs
      · exact nofun
      · exact nofun
      · exact nofun
      · exact nofun
  | loop h ha hk hb hn ih =>
    refine .node h nofun nofun fun _ heq => ?_
    cases heq
    refine .node hb nofun nofun fun _ heq => ?_
    cases heq
    exact .node hn nofun nofun hq
  | loop1 ha h hk hb hn ih =>
    refine ih hr.1 hmust fun _ heq => ?_
    cases heq
    refine .node h nofun nofun fun _ heq => ?_
    cases heq
    refine .node hb nofun nofun fun _ heq => ?_
    cases heq
    exact .node hn nofun nofun hq
  | opt h ha hb hn ih =>
    refine .node h nofun nofun fun _ heq => ?_
    cases heq
    refine .node hb nofun nofun fun _ heq => ?_
    cases heq
    exact .node hn nofun nofun hq

theorem Out.orElse_found_ne {a b : Out} (h : (a.orElse b).found ≠ none) : a.found ≠ none ∨ b.found ≠ none := by
  by_contra hf
  obtain ⟨ha,hb⟩ := not_or.mp hf
  exact h (Out.orElse_found_none.mpr ⟨not_not.mp ha,not_not.mp hb⟩)

theorem firstOf_found_ne {k : ℕ → Out} {js : List ℕ} (h : (firstOf k js).found ≠ none) :
    ∃ j, (k j).found ≠ none := by
  obtain ⟨r,hr⟩ := Option.ne_none_iff_exists'.mp h
  obtain ⟨j,-,hj⟩ := firstOf_found_some hr
  exact ⟨j,by rw [hj]; exact nofun⟩

theorem loopFrom_found_ne {body : (ℕ → Out) → ℕ → Out} {k : ℕ → Out} {n i : ℕ}
    (hbody : ∀ k i, (body k i).found ≠ none → ∃ j, (k j).found ≠ none) (h : (loopFrom body k n i).found ≠ none) :
    ∃ j, (k j).found ≠ none := by
  induction n generalizing i with
  | zero => exact ⟨i,h⟩
  | succ n ih =>
    obtain h | h := Out.orElse_found_ne h
    · obtain ⟨j,hj⟩ := hbody _ i h
      exact ih hj
    · exact ⟨i,h⟩

/-- What is found goes on somewhere. -/
theorem search_goes_on (T : Subject) (r : Rx) {k : ℕ → Out} {i : ℕ} (h : (T.search r k i).found ≠ none) :
    ∃ j, (k j).found ≠ none := by
  induction r generalizing k i with
  | leaf l =>
    rw [Subject.search] at h
    cases hstep : T.step i l with
    | none =>
      rw [hstep] at h
      exact absurd rfl h
    | some j =>
      rw [hstep] at h
      exact ⟨j,h⟩
  | seq a b iha ihb =>
    obtain ⟨j,hj⟩ := iha h
    exact ihb hj
  | last b ih => exact ih h
  | alt b a ihb iha =>
    obtain h | h := Out.orElse_found_ne h
    · exact ihb h
    · exact iha h
  | group n a ih =>
    rw [Subject.search] at h
    split_ifs at h with hn
    · have hin : (T.search a (fun j => .mark (.stop n j) (k j)) i).found ≠ none :=
        fun hf => h (Out.mark_found_none.mpr hf)
      obtain ⟨j,hj⟩ := ih hin
      exact ⟨j,fun hf => hj (Out.mark_found_none.mpr hf)⟩
    · exact absurd rfl h
  | rep plus isLazy l => exact firstOf_found_ne h
  | loop a ih => exact loopFrom_found_ne (fun _ _ => ih) h
  | loop1 a ih =>
    obtain ⟨j,hj⟩ := ih h
    exact loopFrom_found_ne (fun _ _ => ih) hj
  | opt a ih =>
    obtain h | h := Out.orElse_found_ne h
    · exact ih h
    · exact ⟨i,h⟩

theorem beginsWith_self (sensitive : Bool) (c : Byte) (s : Bytes) : beginsWith sensitive [c] (c::s) = true := by
  rw [beginsWith,beginsWith,Bool.and_true,sameChar]
  split_ifs
  · exact beq_self_eq_true c
  · exact beq_self_eq_true (tolower c)

/-- What is found goes through the strings of the tree. -/
theorem search_musts (T : Subject) {r : Rx} (hr : r.Ok) {k : ℕ → Out} {i : ℕ}
    (h : (T.search r k i).found ≠ none) :
    ∀ m ∈ musts r, m ≠ [] ∧ ∃ j, beginsWith T.sensitive m (T.subj.drop j) = true := by
  induction r generalizing k i with
  | leaf l =>
    cases l with
    | exactly s =>
      intro m hm
      obtain rfl := List.mem_singleton.mp hm
      refine ⟨hr.2,i,?_⟩
      rw [Subject.search,Subject.step] at h
      split_ifs at h with hhead htext
      · exact absurd rfl h
      · exact absurd rfl h
      · obtain ⟨c,s,rfl⟩ := List.exists_cons_of_ne_nil hr.2
        cases s with
        | nil =>
          have hc : c = T.at_ i := not_not.mp hhead
          have hlt : i < T.subj.length := by
            apply T.lt_of_at
            rw [← hc]
            intro h0
            apply hr.1
            rw [h0]
            exact List.mem_cons_self
          rw [List.drop_eq_getElem_cons hlt,show T.subj[i] = c by
            rw [hc,Subject.at_,List.getD_eq_getElem _ _ hlt]]
          exact beginsWith_self _ c _
        | cons d s =>
          by_contra hb
          exact htext ⟨by rw [List.length_cons,List.length_cons]; omega,hb⟩
    | _ => exact fun m hm => absurd hm List.not_mem_nil
  | seq a b iha ihb =>
    intro m hm
    obtain hm | hm := List.mem_append.mp hm
    · exact iha hr.1 h m hm
    · obtain ⟨j,hj⟩ := search_goes_on T a h
      exact ihb hr.2.1 hj m hm
  | loop1 a ih => exact ih hr.1 h
  | _ => exact fun m hm => absurd hm List.not_mem_nil

theorem present_of_beginsWith {m s : Bytes} {j : ℕ} (hm : m ≠ []) (h : beginsWith true m (s.drop j) = true) :
    present m s = true := by
  obtain ⟨d,m,rfl⟩ := List.exists_cons_of_ne_nil hm
  induction s generalizing j with
  | nil =>
    rw [List.drop_nil] at h
    cases h
  | cons c s ih =>
    rw [present,Bool.or_eq_true]
    cases j with
    | zero =>
      left
      have hc : d = c := beq_iff_eq.mp (Bool.and_eq_true_iff.mp h).1
      rw [hc] at h ⊢
      rw [List.headD_cons,beq_self_eq_true,show beginsWith true (c::m) (c::s) = true from h]
      rfl
    | succ j =>
      right
      exact ih h

/-- The tree of a pattern. -/
def treeOf (sensitive : Bool) (exp : Bytes) : Option Rx :=
  match read sensitive (5*exp.length+5) false exp 1 with
  | .ok (a,_) => some a
  | .error _ => none

/-- The program of a pattern, and what is read from the pattern. -/
structure Compiled (sensitive : Bool) (exp : Bytes) (prog : Program) (a : Rx) : Prop where
  tree : treeOf sensitive exp = some a
  holds : Subject.Holds prog.code a
  prefilters : ∀ T, Prefilters prog a T
  must : ∀ m, prog.must = some m → ∃ b, a = .last b ∧ m ∈ musts b
  meaning : sensitive = true → ∃ p, Says exp p ∧ ∀ T, Plain T → Agrees T a p

/-- Where something is found, the string that must appear is there. -/
theorem Compiled.appears {sensitive : Bool} {exp : Bytes} {prog : Program} {a : Rx}
    (hc : Compiled sensitive exp prog a) {i : ℕ} (h : (T.search a done i).found ≠ none) {m : Bytes}
    (hm : prog.must = some m) : m ≠ [] ∧ ∃ j, beginsWith T.sensitive m (T.subj.drop j) = true := by
  obtain ⟨b,rfl,hmem⟩ := hc.must m hm
  exact search_musts T hc.holds.ok.1 h m hmem

/-- The shortcuts of a single alternative at 4. -/
theorem shortcuts_single {b : Rx} (hlay : Lay code b 4 (some e) none e) (hend : NodeAt code e .END none)
    (hb : b.Ok) (flag : Bool) {prog : Program} (hprog : prog = ⟨code,
      if opAt code 4 = .EXACTLY then (operand code 4).headD 0 else 0,opAt code 4 = .BOL,
      if flag then longest code code.length 4 none else none⟩) :
    (∀ T, Prefilters prog (.last b) T) ∧ ∀ m, prog.must = some m → m ∈ musts b := by
  subst hprog
  refine ⟨fun T => ⟨?_,?_⟩,?_⟩
  · intro hstart i _ hne
    have hop : opAt code 4 = .EXACTLY := by
      by_contra hop
      exact hstart (if_neg hop)
    obtain ⟨l,next,hfirst⟩ := hlay.first hb (.inl hop)
    simp only [if_pos hop] at hne
    exact hfirst.exactly hop hne
  · intro hanchor i _ hi
    have hop : opAt code 4 = .BOL := of_decide_eq_true hanchor
    obtain ⟨l,next,hfirst⟩ := hlay.first hb (.inr hop)
    exact hfirst.bol hop hi
  · intro m hm
    simp only at hm
    split_ifs at hm
    refine Lay.only hlay hb (fun _ h => h) (fun q hq => ?_) code.length none m nofun hm
    cases hq
    exact .node hend nofun nofun nofun

theorem shortcuts_none (code : Bytes) (a : Rx) : (∀ T, Prefilters ⟨code,0,false,none⟩ a T) ∧
    ∀ m, (⟨code,0,false,none⟩ : Program).must = some m → ∃ b, a = .last b ∧ m ∈ musts b :=
  ⟨fun _ => ⟨fun h => absurd rfl h,nofun⟩,fun _ => nofun⟩

theorem ok_compile {sensitive : Bool} {exp : Bytes} {prog : Program} (h0 : 0 ∉ exp)
    (h : compile sensitive exp = .ok prog) : ∃ a, Compiled sensitive exp prog a := by
  obtain ⟨⟨ret,flags,ps⟩,h1,h⟩ := ok_of_bind h
  have hgrow : [MAGIC].length ≤ codeGrow := by decide
  obtain ⟨a,hread,rfl,hlay⟩ := (writes_ok sensitive _).1 _ _ _ _ _ (by exact hgrow) le_rfl (by exact h0) h1
  obtain ⟨-,halts⟩ := (reads_ok sensitive _).1 _ _ _ _ _ _ _ (by exact h0) le_rfl hread
  obtain ⟨e,hlay,hend⟩ := hlay
  have htree : treeOf sensitive exp = some a := by
    rw [treeOf,hread]
  have hholds : Subject.Holds ps.code a := ⟨halts.ok,halts.alts,e,hlay,hend⟩
  suffices hshort : prog.code = ps.code ∧ (∀ T, Prefilters prog a T) ∧ ∀ m, prog.must = some m →
      ∃ b, a = .last b ∧ m ∈ musts b by
    obtain ⟨hcode,hpre,hmust⟩ := hshort
    refine ⟨a,htree,hcode ▸ hholds,hpre,hmust,fun hsens => ?_⟩
    obtain ⟨p,hp,hagrees⟩ := halts.meaning hsens
    exact ⟨p,⟨_,hp⟩,hagrees⟩
  cases hlay with
  | last hnode hb =>
    have hnext : parseNext ps.code 1 = some e := hnode.parseNext nofun
    have hop : opAt ps.code e = .END := hend.opAt
    simp only [hnext,if_pos hop] at h
    cases h
    obtain ⟨hpre,hmust⟩ := shortcuts_single hb hend halts.ok.1 flags.spStart rfl
    exact ⟨rfl,hpre,fun m hm => ⟨_,rfl,hmust m hm⟩⟩
  | @alt _ _ _ m _ _ _ hnode hb ha =>
    have hnext : parseNext ps.code 1 = some m := hnode.parseNext nofun
    have hop : opAt ps.code m ≠ .END := by
      rw [Rx.opAt_of_isAlt ha halts.ok.2.2.2]
      exact nofun
    simp only [hnext,if_neg hop] at h
    cases h
    exact ⟨rfl,shortcuts_none _ _⟩
  | _ => cases halts.alts

end Smx.Regx
