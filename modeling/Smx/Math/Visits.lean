import Smx.Math.Expr

/-! The calls that the functions of `%expr` make of one another: all of them are made with fuel enough for what is left
of the text, and none hands over an l-value that has a name. -/
namespace Smx

inductive ExprCall (σ : Type)
  | binOp2 (v1 : ℚ) (c : Cursor σ)
  | binOp (v1 : ℚ) (c : Cursor σ)
  | top (c : Cursor σ)
  | l2 (c : Cursor σ)
  | group (c : Cursor σ)
  | lv (c : Cursor σ)
  | expr (c : Cursor σ)

namespace ExprHost
variable {σ : Type} (H : ExprHost σ)

/-- The calls that a call with `n+1` units of fuel makes itself, with `n` units; the turns of a loop count as calls. -/
def calls (n : ℕ) : ExprCall σ → List (ExprCall σ)
  | .binOp2 v1 c =>
    match c.p with
    | [] => []
    | d::p =>
      if isspace d then [.binOp2 v1 { c with p }]
      else
        match binOp2 d with
        | none => []
        | some op =>
          if p.head? = some (ch '=') then
            let r := H.parseExprTop n ⟨p.tail,c.s,none⟩
            let c' := H.setLVal { r.2 with lval := c.lval } (op v1 r.1)
            .top ⟨p.tail,c.s,none⟩::if d = ch '^' ∧ c.lval.isSome then [] else [.binOp2 (op v1 r.1) c']
          else
            let r := H.parseExprL2 n ⟨p,c.s,none⟩
            [.l2 ⟨p,c.s,none⟩,.binOp2 (op v1 r.1) { r.2 with lval := c.lval }]
  | .binOp v1 c =>
    match c.p with
    | [] => []
    | d::p =>
      if isspace d then [.binOp v1 { c with p }]
      else if d = ch '=' then
        if p.head? = some (ch '=') then
          let r := H.parseExprTop n ⟨p.tail,c.s,none⟩
          [.top ⟨p.tail,c.s,none⟩,.binOp (if v1 = r.1 then 1 else 0) { r.2 with lval := c.lval }]
        else
          let r := H.parseExprTop n ⟨p,c.s,none⟩
          [.top ⟨p,c.s,none⟩,.binOp r.1 (H.setLVal { r.2 with lval := c.lval } r.1)]
      else if d = ch ')' then []
      else
        match binOp d with
        | some op =>
          if p.head? = some (ch '=') then
            let r := H.parseExprTop n ⟨p.tail,c.s,none⟩
            [.top ⟨p.tail,c.s,none⟩,.binOp (op v1 r.1) (H.setLVal { r.2 with lval := c.lval } (op v1 r.1))]
          else
            let r := H.parseExprL2 n ⟨p,c.s,none⟩
            [.l2 ⟨p,c.s,none⟩,.binOp (op v1 r.1) { r.2 with lval := c.lval }]
        | none =>
          let r := H.parseExprBinOp2 n v1 c
          .binOp2 v1 c::if r.2.p.length = c.p.length then [] else [.binOp r.1 r.2]
  | .top c =>
    let r := H.parseExpr n c
    [.expr c,.binOp r.1 r.2]
  | .l2 c =>
    let r := H.parseExpr n c
    [.expr c,.binOp2 r.1 r.2]
  | .group c => [.top { c with p := c.p.tail }]
  | .lv c =>
    let c : Cursor σ := { c with p := c.p.dropWhile isspace }
    if c.p.head? = some (ch '(') then [.group c] else []
  | .expr c =>
    match c.p with
    | [] => []
    | d::p =>
      if iscsymf d then []
      else if isdigit d then []
      else if d = ch '(' then [.group c]
      else if d = ch '-' then
        if p.head? = some (ch '-') then [.lv ⟨p.tail,c.s,some []⟩] else [.expr { c with p }]
      else if d = ch '+' then
        if p.head? = some (ch '+') then [.lv ⟨p.tail,c.s,some []⟩] else [.expr { c with p }]
      else [.expr { c with p }]

/-- The calls that are made while `EvalExpr` evaluates a text, with the fuel they have. -/
inductive Reached (s : σ) (expr : Bytes) : ℕ → ExprCall σ → Prop
  | top : Reached s expr (exprFuel (cstr expr)) (.top ⟨cstr expr,s,none⟩)
  | call {n : ℕ} {k k' : ExprCall σ} : Reached s expr (n+1) k → k' ∈ H.calls n k → Reached s expr n k'

end ExprHost

/-- A function has gone on from a cursor: it has gone back over nothing and kept the l-value. -/
structure Cursor.Onward {σ : Type} (c d : Cursor σ) : Prop where
  length : d.p.length ≤ c.p.length
  lval : d.lval = c.lval

namespace Cursor.Onward
variable {σ : Type} {a b c : Cursor σ}

theorem refl (c : Cursor σ) : c.Onward c := ⟨le_refl _,rfl⟩

theorem trans (h : a.Onward b) (h' : b.Onward c) : a.Onward c :=
  ⟨h'.length.trans h.length,h'.lval.trans h.lval⟩

end Cursor.Onward

theorem strtod_length_le (s : Bytes) : (strtod s).2.length ≤ s.length := by
  have hdrop (t : Bytes) : (t.dropWhile isdigit).length ≤ t.length := (List.dropWhile_suffix isdigit).length_le
  have htail (t : Bytes) : t.tail.length ≤ t.length := by simp
  have hpoint : (if (s.dropWhile isdigit).head? = some (ch '.') then (s.dropWhile isdigit).tail.dropWhile isdigit
      else s.dropWhile isdigit).length ≤ s.length := by
    split_ifs
    · exact (hdrop _).trans ((htail _).trans (hdrop s))
    · exact hdrop s
  simp only [strtod]
  generalize (if (s.dropWhile isdigit).head? = some (ch '.') then (s.dropWhile isdigit).tail.dropWhile isdigit
    else s.dropWhile isdigit) = t at hpoint ⊢
  have hexp : ((if t.tail.head? = some (ch '-') ∨ t.tail.head? = some (ch '+') then t.tail.tail else t.tail).dropWhile
      isdigit).length ≤ s.length := by
    refine (hdrop _).trans ?_
    split_ifs
    · exact (htail _).trans ((htail _).trans hpoint)
    · exact (htail _).trans hpoint
  by_cases he : t.head? = some (ch 'e') ∨ t.head? = some (ch 'E')
  · rw [if_pos he]
    by_cases hes : (if t.tail.head? = some (ch '-') ∨ t.tail.head? = some (ch '+') then t.tail.tail
        else t.tail).takeWhile isdigit = []
    · rw [if_pos hes]
      exact hpoint
    · rw [if_neg hes]
      exact hexp
  · rw [if_neg he]
    exact hpoint

theorem exprArgs_length_le (cur : Option Bytes) (p : Bytes) : (exprArgs cur p).2.length ≤ p.length := by
  induction p generalizing cur with
  | nil => cases cur <;> simp [exprArgs]
  | cons c p ih =>
    cases cur with
    | none =>
      simp only [exprArgs]
      split_ifs
      · exact (ih none).trans (by simp)
      · exact (ih none).trans (by simp)
      · simp
      · exact (ih (some [c])).trans (by simp)
    | some cur =>
      simp only [exprArgs]
      split_ifs
      · exact (ih none).trans (by simp)
      · simp
      · exact (ih (some (cur ++ [c]))).trans (by simp)

namespace ExprHost
variable {σ : Type} (H : ExprHost σ)

/-- What the scan of `ParseExprVar` takes into a name. -/
def isName (d : Byte) : Bool := iscsym d || d == ch '-' || d == ch '/'

theorem parseExprVar_eq (c : Cursor σ) : H.parseExprVar c =
    if H.find c.s (c.p.takeWhile isName) then
      let p := (c.p.dropWhile isName).dropWhile isspace
      let a := if p.head? = some (ch '(') then exprArgs none p.tail else ([],p)
      let r := H.eval c.s (c.p.takeWhile isName) a.1
      (r.1,⟨a.2,r.2,c.lval.map fun _ => c.p.takeWhile isName⟩)
    else (0,⟨c.p.dropWhile isName,c.s,c.lval.map fun _ => c.p.takeWhile isName⟩) := rfl

theorem parseExprVar_behind (c : Cursor σ) : (H.parseExprVar c).2.p.length ≤ (c.p.dropWhile isName).length := by
  have hblank := dropWhile_length_le (c.p.dropWhile isName)
  rw [parseExprVar_eq]
  simp only
  split_ifs
  · refine (exprArgs_length_le none _).trans ?_
    rw [List.length_tail]
    exact (Nat.sub_le _ _).trans hblank
  · exact hblank
  · exact le_refl _

theorem parseExprVar_length_le (c : Cursor σ) : (H.parseExprVar c).2.p.length ≤ c.p.length :=
  (H.parseExprVar_behind c).trans (List.dropWhile_suffix isName).length_le

@[simp] theorem setLVal_p (c : Cursor σ) (v : ℚ) : (H.setLVal c v).p = c.p := by
  unfold setLVal
  split <;> rfl

@[simp] theorem setLVal_lval (c : Cursor σ) (v : ℚ) : (H.setLVal c v).lval = c.lval := by
  unfold setLVal
  split <;> rfl

/-- An l-value without a name takes nothing. -/
theorem setLVal_nameless {c : Cursor σ} (h : c.lval.getD [] = []) (v : ℚ) : H.setLVal c v = c := by
  unfold setLVal
  split
  · rfl
  · rfl
  · next name hname heq =>
    rw [heq] at h
    exact absurd h hname

/-- All functions but `ParseExprLV`, which may give its l-value a name, go onward. -/
structure GoesOnward (n : ℕ) : Prop where
  binOp2 : ∀ v (c : Cursor σ), c.Onward (H.parseExprBinOp2 n v c).2
  binOp : ∀ v (c : Cursor σ), c.Onward (H.parseExprBinOp n v c).2
  top : ∀ c : Cursor σ, c.Onward (H.parseExprTop n c).2
  l2 : ∀ c : Cursor σ, c.Onward (H.parseExprL2 n c).2
  group : ∀ c : Cursor σ, c.Onward (H.parseExprGroup n c).2
  lv : ∀ c : Cursor σ, (H.parseExprLV n c).2.p.length ≤ c.p.length
  expr : ∀ c : Cursor σ, c.Onward (H.parseExpr n c).2

variable {H} {n : ℕ}

/-- Behind a character, and behind what was read there. -/
theorem onward_tail {c : Cursor σ} {d : Byte} {p : Bytes} (hp : c.p = d::p) : c.Onward { c with p } :=
  ⟨by rw [hp,List.length_cons]; exact Nat.le_succ _,rfl⟩

theorem onward_behind {c : Cursor σ} {d : Byte} {p q : Bytes} {r : ℚ × Cursor σ} {s : σ} (hp : c.p = d::p)
    (hq : q.length ≤ p.length) (h : (⟨q,s,none⟩ : Cursor σ).Onward r.2) : c.Onward { r.2 with lval := c.lval } := by
  have hlen : c.p.length = p.length+1 := by rw [hp,List.length_cons]
  have hr : r.2.p.length ≤ q.length := h.length
  exact ⟨by simp only; omega,rfl⟩

theorem onward_setLVal {c d : Cursor σ} (h : c.Onward d) (v : ℚ) : c.Onward (H.setLVal d v) :=
  ⟨by rw [setLVal_p]; exact h.length,by rw [setLVal_lval]; exact h.lval⟩

theorem GoesOnward.binOp2_succ (h : H.GoesOnward n) (v : ℚ) (c : Cursor σ) :
    c.Onward (H.parseExprBinOp2 (n+1) v c).2 := by
  rw [parseExprBinOp2]
  split
  · exact .refl c
  · next d p hp =>
    have htail : p.tail.length ≤ p.length := by simp
    by_cases hspace : isspace d = true
    · rw [if_pos hspace]
      exact (onward_tail hp).trans (h.binOp2 v _)
    rw [if_neg hspace]
    split
    · exact .refl c
    · next op hop =>
      simp only
      have hset := onward_setLVal (H := H) (onward_behind hp htail (h.top ⟨p.tail,c.s,none⟩))
        (op v (H.parseExprTop n ⟨p.tail,c.s,none⟩).1)
      split_ifs
      · exact hset
      · exact hset.trans (h.binOp2 _ _)
      · exact (onward_behind hp (le_refl _) (h.l2 ⟨p,c.s,none⟩)).trans (h.binOp2 _ _)

theorem GoesOnward.binOp_succ (h : H.GoesOnward n) (v : ℚ) (c : Cursor σ) :
    c.Onward (H.parseExprBinOp (n+1) v c).2 := by
  rw [parseExprBinOp]
  split
  · exact .refl c
  · next d p hp =>
    have htail : p.tail.length ≤ p.length := by simp
    have htop := onward_behind hp htail (h.top ⟨p.tail,c.s,none⟩)
    have htop' := onward_behind hp (le_refl _) (h.top ⟨p,c.s,none⟩)
    by_cases hspace : isspace d = true
    · rw [if_pos hspace]
      exact (onward_tail hp).trans (h.binOp v _)
    rw [if_neg hspace]
    by_cases hset : d = ch '='
    · rw [if_pos hset]
      simp only
      split_ifs
      · exact htop.trans (h.binOp _ _)
      · exact htop.trans (h.binOp _ _)
      · exact (onward_setLVal htop' _).trans (h.binOp _ _)
    rw [if_neg hset]
    by_cases hrp : d = ch ')'
    · rw [if_pos hrp]
      exact .refl c
    rw [if_neg hrp]
    split
    · simp only
      split_ifs
      · exact (onward_setLVal htop _).trans (h.binOp _ _)
      · exact (onward_behind hp (le_refl _) (h.l2 ⟨p,c.s,none⟩)).trans (h.binOp _ _)
    · simp only
      split_ifs
      · exact h.binOp2 v c
      · exact (h.binOp2 v c).trans (h.binOp _ _)

theorem GoesOnward.group_succ (h : H.GoesOnward n) (c : Cursor σ) : c.Onward (H.parseExprGroup (n+1) c).2 := by
  have htop := h.top { c with p := c.p.tail }
  have hlen : (H.parseExprTop n { c with p := c.p.tail }).2.p.length ≤ c.p.tail.length := htop.length
  have htail : c.p.tail.length ≤ c.p.length := by simp
  have hblank := dropWhile_length_le (H.parseExprTop n { c with p := c.p.tail }).2.p
  rw [parseExprGroup]
  refine ⟨?_,htop.lval⟩
  simp only
  split_ifs
  · rw [List.length_tail]
    omega
  · omega

theorem GoesOnward.lv_succ (h : H.GoesOnward n) (c : Cursor σ) : (H.parseExprLV (n+1) c).2.p.length ≤ c.p.length := by
  have hblank := dropWhile_length_le c.p
  rw [parseExprLV]
  simp only
  split_ifs
  · exact (h.group _).length.trans hblank
  · exact (H.parseExprVar_length_le _).trans hblank

theorem GoesOnward.expr_succ (h : H.GoesOnward n) (c : Cursor σ) : c.Onward (H.parseExpr (n+1) c).2 := by
  rw [parseExpr]
  split
  · exact .refl c
  · next d p hp =>
    have htail : p.tail.length ≤ p.length := by simp
    have hlen : c.p.length = p.length+1 := by rw [hp,List.length_cons]
    have hlv : (H.parseExprLV n ⟨p.tail,c.s,some []⟩).2.p.length ≤ p.tail.length := h.lv _
    have hnext := onward_tail hp
    split_ifs
    · exact ⟨H.parseExprVar_length_le _,rfl⟩
    · exact ⟨strtod_length_le c.p,rfl⟩
    · exact h.group c
    · exact ⟨by simp only [setLVal_p]; omega,rfl⟩
    · exact hnext.trans (h.expr _)
    · exact ⟨by simp only [setLVal_p]; omega,rfl⟩
    · exact hnext.trans (h.expr _)
    · exact hnext.trans (h.expr _)
    · exact hnext.trans (h.expr _)

theorem goesOnward (H : ExprHost σ) (n : ℕ) : H.GoesOnward n := by
  induction n with
  | zero =>
    refine ⟨fun v c => ?_,fun v c => ?_,fun c => ?_,fun c => ?_,fun c => ?_,fun c => ?_,fun c => ?_⟩
    · exact .refl c
    · exact .refl c
    · exact .refl c
    · exact .refl c
    · exact .refl c
    · exact le_refl _
    · exact .refl c
  | succ n ih =>
    refine ⟨ih.binOp2_succ,ih.binOp_succ,fun c => ?_,fun c => ?_,ih.group_succ,ih.lv_succ,ih.expr_succ⟩
    · rw [parseExprTop]
      exact (ih.expr c).trans (ih.binOp _ _)
    · rw [parseExprL2]
      exact (ih.expr c).trans (ih.binOp2 _ _)

/-- The l-value that is handed over has no name. -/
def Nameless (c : Cursor σ) : Prop := c.lval.getD [] = []

/-- A call has an l-value without a name at most, and fuel for what is left of the text. -/
def Provided (n : ℕ) : ExprCall σ → Prop
  | .binOp2 _ c => Nameless c ∧ 4*c.p.length+1 ≤ n
  | .binOp _ c => Nameless c ∧ 4*c.p.length+2 ≤ n
  | .top c => Nameless c ∧ 4*c.p.length+3 ≤ n
  | .l2 c => Nameless c ∧ 4*c.p.length+3 ≤ n
  | .group c => Nameless c ∧ c.p ≠ [] ∧ 4*c.p.length+1 ≤ n
  | .lv c => Nameless c ∧ 4*c.p.length+2 ≤ n
  | .expr c => Nameless c ∧ 4*c.p.length+2 ≤ n

theorem provided_one {k : ExprCall σ} (h : Provided n k) : ∀ k' ∈ [k], Provided n k' := by
  intro k' hk
  obtain rfl := List.mem_singleton.mp hk
  exact h

theorem provided_two {k l : ExprCall σ} (h : Provided n k) (h' : Provided n l) : ∀ k' ∈ [k,l], Provided n k' := by
  intro k' hk
  rcases List.mem_cons.mp hk with rfl | hk
  · exact h
  · exact provided_one h' k' hk

theorem provided_binOp2 {v1 : ℚ} {c : Cursor σ} (h : Provided (n+1) (.binOp2 v1 c)) :
    ∀ k ∈ H.calls n (.binOp2 v1 c), Provided n k := by
  obtain ⟨hname,hfuel⟩ := h
  simp only [calls]
  split
  · exact List.forall_mem_nil _
  · next d p hp =>
    have htail : p.tail.length ≤ p.length := by simp
    have hlen : c.p.length = p.length+1 := by rw [hp,List.length_cons]
    have htop : (H.parseExprTop n ⟨p.tail,c.s,none⟩).2.p.length ≤ p.tail.length := ((goesOnward H n).top _).length
    have hl2 : (H.parseExprL2 n ⟨p,c.s,none⟩).2.p.length ≤ p.length := ((goesOnward H n).l2 _).length
    by_cases hspace : isspace d = true
    · rw [if_pos hspace]
      exact provided_one ⟨hname,by simp only; omega⟩
    rw [if_neg hspace]
    split
    · exact List.forall_mem_nil _
    · split_ifs
      · exact provided_one ⟨rfl,by simp only; omega⟩
      · refine provided_two ⟨rfl,by simp only; omega⟩ ⟨?_,by simp only [setLVal_p]; omega⟩
        simpa [Nameless] using hname
      · exact provided_two ⟨rfl,by simp only; omega⟩ ⟨hname,by simp only; omega⟩

theorem provided_binOp {v1 : ℚ} {c : Cursor σ} (h : Provided (n+1) (.binOp v1 c)) :
    ∀ k ∈ H.calls n (.binOp v1 c), Provided n k := by
  obtain ⟨hname,hfuel⟩ := h
  simp only [calls]
  split
  · exact List.forall_mem_nil _
  · next d p hp =>
    have htail : p.tail.length ≤ p.length := by simp
    have hlen : c.p.length = p.length+1 := by rw [hp,List.length_cons]
    have htop : (H.parseExprTop n ⟨p.tail,c.s,none⟩).2.p.length ≤ p.tail.length := ((goesOnward H n).top _).length
    have htop' : (H.parseExprTop n ⟨p,c.s,none⟩).2.p.length ≤ p.length := ((goesOnward H n).top _).length
    have hl2 : (H.parseExprL2 n ⟨p,c.s,none⟩).2.p.length ≤ p.length := ((goesOnward H n).l2 _).length
    by_cases hspace : isspace d = true
    · rw [if_pos hspace]
      exact provided_one ⟨hname,by simp only; omega⟩
    rw [if_neg hspace]
    by_cases hset : d = ch '='
    · rw [if_pos hset]
      split
      · exact provided_two ⟨rfl,by simp only; omega⟩ ⟨hname,by simp only; omega⟩
      · refine provided_two ⟨rfl,by simp only; omega⟩ ⟨?_,by simp only [setLVal_p]; omega⟩
        simpa [Nameless] using hname
    rw [if_neg hset]
    by_cases hrp : d = ch ')'
    · rw [if_pos hrp]
      exact List.forall_mem_nil _
    rw [if_neg hrp]
    split
    · split_ifs
      · refine provided_two ⟨rfl,by simp only; omega⟩ ⟨?_,by simp only [setLVal_p]; omega⟩
        simpa [Nameless] using hname
      · exact provided_two ⟨rfl,by simp only; omega⟩ ⟨hname,by simp only; omega⟩
    · have hfactor := (goesOnward H n).binOp2 v1 c
      split_ifs with hstay
      · exact provided_one ⟨hname,by omega⟩
      · refine provided_two ⟨hname,by omega⟩ ⟨?_,?_⟩
        · rw [Nameless,hfactor.lval]
          exact hname
        · have hle := hfactor.length
          omega

theorem provided_expr {c : Cursor σ} (h : Provided (n+1) (.expr c)) : ∀ k ∈ H.calls n (.expr c), Provided n k := by
  obtain ⟨hname,hfuel⟩ := h
  simp only [calls]
  split
  · exact List.forall_mem_nil _
  · next d p hp =>
    have htail : p.tail.length ≤ p.length := by simp
    have hlen : c.p.length = p.length+1 := by rw [hp,List.length_cons]
    have hnext : Provided n (.expr { c with p }) := ⟨hname,by simp only; omega⟩
    have hlv : Provided n (.lv (⟨p.tail,c.s,some []⟩ : Cursor σ)) := ⟨rfl,by simp only; omega⟩
    split_ifs
    · exact List.forall_mem_nil _
    · exact List.forall_mem_nil _
    · exact provided_one ⟨hname,by simp [hp],by omega⟩
    · exact provided_one hlv
    · exact provided_one hnext
    · exact provided_one hlv
    · exact provided_one hnext
    · exact provided_one hnext

theorem provided_calls {k : ExprCall σ} (h : Provided (n+1) k) : ∀ k' ∈ H.calls n k, Provided n k' := by
  cases k with
  | binOp2 v1 c => exact provided_binOp2 h
  | binOp v1 c => exact provided_binOp h
  | top c =>
    obtain ⟨hname,hfuel⟩ := h
    have hexpr := (goesOnward H n).expr c
    refine provided_two ⟨hname,by omega⟩ ⟨?_,?_⟩
    · rw [Nameless,hexpr.lval]
      exact hname
    · have hle := hexpr.length
      omega
  | l2 c =>
    obtain ⟨hname,hfuel⟩ := h
    have hexpr := (goesOnward H n).expr c
    refine provided_two ⟨hname,by omega⟩ ⟨?_,?_⟩
    · rw [Nameless,hexpr.lval]
      exact hname
    · have hle := hexpr.length
      omega
  | group c =>
    obtain ⟨hname,hne,hfuel⟩ := h
    have hpos := List.length_pos_of_ne_nil hne
    exact provided_one ⟨hname,by simp only [List.length_tail]; omega⟩
  | lv c =>
    obtain ⟨hname,hfuel⟩ := h
    have hblank := dropWhile_length_le c.p
    simp only [calls]
    split_ifs with hlp
    · refine provided_one ⟨hname,fun hnil => ?_,by simp only; omega⟩
      simp only at hnil
      rw [hnil] at hlp
      cases hlp
    · nofun
  | expr c => exact provided_expr h

/-- Every call that is made while a text is evaluated is provided for. -/
theorem Reached.provided {s : σ} {expr : Bytes} {k : ExprCall σ} (h : H.Reached s expr n k) : Provided n k := by
  induction h with
  | top => exact ⟨rfl,le_refl _⟩
  | call _ hk ih => exact provided_calls ih _ hk

end ExprHost
end Smx
