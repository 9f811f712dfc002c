import Smx.Context.Bindings
import Smx.Math.Visits

/-! Assignments as operands of `%expr`: what they come to, and when they bind their variable. -/
namespace Smx

/-- The name of a variable. -/
structure VarName where
  first : Byte
  rest : Bytes
  iscsymf_first : iscsymf first = true
  iscsym_rest : ∀ c ∈ rest, iscsym c = true

def VarName.text (x : VarName) : Bytes := x.first::x.rest

/-- A text that is read as one expression wherever a closing parenthesis follows, and what it evaluates to. -/
structure ExprText {σ : Type} (H : ExprHost σ) where
  text : Bytes
  value : σ → ℚ × σ
  head : text.head? ≠ some (ch '=')
  reads : ∀ s rest n, 4*(text ++ ch ')'::rest).length+3 ≤ n →
    H.parseExprTop n ⟨text ++ ch ')'::rest,s,none⟩ = ((value s).1,⟨ch ')'::rest,(value s).2,none⟩)

inductive AssignOp
  | set
  | add
  | sub
  | mul
  | div
  | pow
  deriving DecidableEq

namespace AssignOp

def text : AssignOp → Bytes
  | set => str "="
  | add => str "+="
  | sub => str "-="
  | mul => str "*="
  | div => str "/="
  | pow => str "^="

/-- The new value of the variable, from its old one and the operand. -/
def apply : AssignOp → ℚ → ℚ → ℚ
  | set => fun _ e => e
  | add => (·+·)
  | sub => (·-·)
  | mul => (·*·)
  | div => (·/·)
  | pow => powQ

/-- The character of the operator that is taken into the name in front of it. -/
def swallowed : AssignOp → Option Byte
  | sub => some (ch '-')
  | div => some (ch '/')
  | _ => none

end AssignOp

/-- The assignments: `(x=e)` and the like, `++x` and `--x`. -/
inductive Assignment {σ : Type} (H : ExprHost σ)
  | assign (x : VarName) (op : AssignOp) (e : ExprText H)
  | step (x : VarName) (down : Bool)

namespace ExprHost
variable {σ : Type} (H : ExprHost σ)

/-- The value of a name that is read without arguments. -/
def readVar (s : σ) (name : Bytes) : ℚ × σ := if H.find s name then H.eval s name [] else (0,s)

end ExprHost

namespace Assignment
variable {σ : Type} {H : ExprHost σ}

def var : Assignment H → VarName
  | assign x _ _ => x
  | step x _ => x

def text : Assignment H → Bytes
  | assign x op e => ch '('::(x.text ++ op.text ++ e.text ++ [ch ')'])
  | step x down => (if down then str "--" else str "++") ++ x.text

/-- The new value, with what is left when the variable has been looked at and the operand evaluated. -/
def newValue (s : σ) : Assignment H → ℚ × σ
  | assign x op e =>
    let r := H.readVar s x.text
    let o := e.value r.2
    (op.apply r.1 o.1,o.2)
  | step x down =>
    let r := H.readVar s x.text
    (if down then r.1-1 else r.1+1,r.2)

/-- A larger expression may go on so: the name ends, and no arguments follow it. -/
def Ends (rest : Bytes) : Assignment H → Prop
  | assign _ _ _ => True
  | step _ _ => (∀ c ∈ rest.head?, iscsym c = false) ∧ (rest.dropWhile isspace).head? ≠ some (ch '(')

/-- `ParseExpr` gives the new value, leaves the variable bound to it, and goes on behind the assignment. -/
def Takes (a : Assignment H) (n : ℕ) (c : Cursor σ) (rest : Bytes) : Prop :=
  ∃ p, p.dropWhile isspace = rest.dropWhile isspace ∧ H.parseExpr n c =
    ((a.newValue c.s).1,⟨p,H.mapObj (a.newValue c.s).2 (a.newValue c.s).1 a.var.text,c.lval⟩)

/-- While a text is evaluated, `ParseExpr` gets to the assignment that stands in front of `rest`. -/
def Visited (a : Assignment H) (s : σ) (expr rest : Bytes) (n : ℕ) (c : Cursor σ) : Prop :=
  H.Reached s expr n (.expr c) ∧ c.p = a.text ++ rest

/-- The assignment in front of `rest` takes effect when the text is evaluated. -/
def TakesEffect (a : Assignment H) (s : σ) (expr rest : Bytes) : Prop :=
  (∃ n c, a.Visited s expr rest n c) ∧ ∀ n c, a.Visited s expr rest n c → a.Takes n c rest

/-- Nothing has to be done for the assignment: once the operand is evaluated the variable has the new value, and where
the operator runs into the name, what the operand comes to by itself is the new value too. A step needs a name that ends
where it should. -/
def Settled (s : σ) (rest : Bytes) : Assignment H → Prop
  | assign x op e =>
    let v := (assign x op e).newValue s
    match op.swallowed with
    | none => H.mapObj v.2 v.1 x.text = v.2
    | some d => e.value (H.readVar s (x.text ++ [d])).2 = (v.1,H.mapObj v.2 v.1 x.text)
  | step _ _ => ∀ c ∈ rest.head?, c ≠ ch '-' ∧ c ≠ ch '/'

end Assignment

section
variable {σ : Type} {H : ExprHost σ} {s : σ} {name rest : Bytes} {lval : Option Bytes} {n : ℕ}

theorem isName_of_iscsym {c : Byte} (h : iscsym c = true) : ExprHost.isName c = true := by
  simp [ExprHost.isName,h]

theorem VarName.iscsym_text (x : VarName) : ∀ c ∈ x.text, iscsym c = true := by
  intro c hc
  rcases List.mem_cons.mp hc with rfl | hc
  · simp [iscsym,x.iscsymf_first]
  · exact x.iscsym_rest c hc

theorem takeWhile_isName (hname : ∀ c ∈ name, ExprHost.isName c = true)
    (hrest : ∀ c ∈ rest.head?, ExprHost.isName c = false) :
    (name ++ rest).takeWhile ExprHost.isName = name ∧ (name ++ rest).dropWhile ExprHost.isName = rest := by
  rw [List.takeWhile_append_of_pos hname,List.dropWhile_append_of_pos hname]
  cases rest with
  | nil => simp
  | cons c rest =>
    have hc := hrest c rfl
    rw [List.takeWhile_cons_of_neg (by simp [hc]),List.dropWhile_cons_of_neg (by simp [hc]),List.append_nil]
    exact ⟨rfl,rfl⟩

/-- `ParseExprVar` at a name that no arguments follow. -/
theorem parseExprVar_name (hname : ∀ c ∈ name, ExprHost.isName c = true)
    (hrest : ∀ c ∈ rest.head?, ExprHost.isName c = false) (hargs : (rest.dropWhile isspace).head? ≠ some (ch '(')) :
    H.parseExprVar ⟨name ++ rest,s,lval⟩ = ((H.readVar s name).1,
      ⟨if H.find s name then rest.dropWhile isspace else rest,(H.readVar s name).2,lval.map fun _ => name⟩) := by
  obtain ⟨htake,hdrop⟩ := takeWhile_isName hname hrest
  rw [ExprHost.parseExprVar_eq,ExprHost.readVar]
  simp only [htake,hdrop,if_neg hargs]
  split_ifs <;> rfl

/-- At a closing parenthesis the loops end. -/
theorem binOp_paren (v : ℚ) (p : Bytes) :
    H.parseExprBinOp (n+1) v ⟨ch ')'::p,s,lval⟩ = (v,⟨ch ')'::p,s,lval⟩) := by
  rw [ExprHost.parseExprBinOp]
  rfl

theorem binOp2_paren (v : ℚ) (p : Bytes) :
    H.parseExprBinOp2 (n+1) v ⟨ch ')'::p,s,lval⟩ = (v,⟨ch ')'::p,s,lval⟩) := by
  rw [ExprHost.parseExprBinOp2]
  rfl

theorem head_append_paren {t : Bytes} (h : t.head? ≠ some (ch '=')) (p : Bytes) :
    (t ++ ch ')'::p).head? ≠ some (ch '=') := by
  cases t with
  | nil => simp [ch]
  | cons c t => exact h

/-- The assignments of `ParseExprBinOp2`, where the l-value has no name: the operand is evaluated, nothing is bound. -/
theorem binOp2_assign {d : Byte} {f : ℚ → ℚ → ℚ} (hd : binOp2 d = some f) (hspace : isspace d = false)
    (e : ExprText H) (v : ℚ) (hlval : lval.getD [] = []) (hn : 4*(e.text ++ ch ')'::rest).length+3 ≤ n) :
    H.parseExprBinOp2 (n+1) v ⟨d::ch '='::(e.text ++ ch ')'::rest),s,lval⟩ =
      (f v (e.value s).1,⟨ch ')'::rest,(e.value s).2,lval⟩) := by
  have hset (w : ℚ) : H.setLVal ⟨ch ')'::rest,(e.value s).2,lval⟩ w = ⟨ch ')'::rest,(e.value s).2,lval⟩ :=
    H.setLVal_nameless hlval w
  obtain ⟨m,rfl⟩ : ∃ m, n = m+1 := ⟨n-1,by omega⟩
  rw [ExprHost.parseExprBinOp2]
  simp only [hspace,hd,Bool.false_eq_true,if_false,List.head?_cons,if_true,List.tail_cons,e.reads s rest (m+1) hn,hset,
    binOp2_paren]
  split_ifs <;> rfl

/-- `ParseExprBinOp` hands them on. -/
theorem binOp_assign2 {d : Byte} {f : ℚ → ℚ → ℚ} (hd : binOp2 d = some f) (hspace : isspace d = false)
    (e : ExprText H) (v : ℚ) (hlval : lval.getD [] = []) (hn : 4*(e.text ++ ch ')'::rest).length+3 ≤ n) :
    H.parseExprBinOp (n+2) v ⟨d::ch '='::(e.text ++ ch ')'::rest),s,lval⟩ =
      (f v (e.value s).1,⟨ch ')'::rest,(e.value s).2,lval⟩) := by
  obtain ⟨heq,hrp,hnone⟩ := binOp2_facts (c := d) (by rw [hd]; rfl)
  rw [ExprHost.parseExprBinOp]
  simp only [hspace,Bool.false_eq_true,if_false,if_neg heq,if_neg hrp,hnone,
    binOp2_assign hd hspace e v hlval hn]
  rw [if_neg (by simp only [List.length_cons,List.length_append]; omega),binOp_paren]

/-- `ParseExprBinOp` at an assignment whose l-value has no name: the operand is evaluated, and nothing is bound. -/
theorem binOp_assign {op : AssignOp} (hop : op.swallowed = none) (e : ExprText H) (v : ℚ)
    (hlval : lval.getD [] = []) (hn : 4*(e.text ++ ch ')'::rest).length+3 ≤ n) :
    H.parseExprBinOp (n+2) v ⟨op.text ++ (e.text ++ ch ')'::rest),s,lval⟩ =
      (op.apply v (e.value s).1,⟨ch ')'::rest,(e.value s).2,lval⟩) := by
  have hreads (m : ℕ) (hm : n ≤ m) : H.parseExprTop m ⟨e.text ++ ch ')'::rest,s,none⟩ =
      ((e.value s).1,⟨ch ')'::rest,(e.value s).2,none⟩) := e.reads s rest m (hn.trans hm)
  have hset (w : ℚ) : H.setLVal ⟨ch ')'::rest,(e.value s).2,lval⟩ w = ⟨ch ')'::rest,(e.value s).2,lval⟩ :=
    H.setLVal_nameless hlval w
  cases op with
  | set =>
    change H.parseExprBinOp (n+2) v ⟨ch '='::(e.text ++ ch ')'::rest),s,lval⟩ = _
    rw [ExprHost.parseExprBinOp]
    simp only [if_neg (show ¬isspace (ch '=') = true by decide),if_true,if_neg (head_append_paren e.head rest),
      hreads (n+1) (Nat.le_succ n),hset,binOp_paren,AssignOp.apply]
  | add =>
    change H.parseExprBinOp (n+2) v ⟨ch '+'::ch '='::(e.text ++ ch ')'::rest),s,lval⟩ = _
    rw [ExprHost.parseExprBinOp]
    simp only [if_neg (show ¬isspace (ch '+') = true by decide),if_neg (show ¬ch '+' = ch '=' by decide),
      if_neg (show ¬ch '+' = ch ')' by decide),show binOp (ch '+') = some (·+·) from rfl,List.head?_cons,if_true,
      List.tail_cons,hreads (n+1) (Nat.le_succ n),hset,binOp_paren,AssignOp.apply]
  | sub => cases hop
  | mul => exact binOp_assign2 (d := ch '*') rfl rfl e v hlval hn
  | div => cases hop
  | pow => exact binOp_assign2 (d := ch '^') rfl rfl e v hlval hn

/-- An operator that does not run into the name ends it. -/
theorem op_head {op : AssignOp} (hop : op.swallowed = none) : ∃ d q, op.text = d::q ∧ ExprHost.isName d = false ∧
    isspace d = false ∧ d ≠ ch '(' := by
  cases op with
  | sub => cases hop
  | div => cases hop
  | _ => exact ⟨_,_,rfl,by decide,by decide,by decide⟩

theorem iscsymf_facts {c : Byte} (h : iscsymf c = true) : isspace c = false ∧ c ≠ ch '(' ∧ c ≠ ch ':' := by
  refine ⟨?_,?_,?_⟩
  · cases hspace : isspace c with
    | false => rfl
    | true =>
      rw [(isspace_facts hspace).1] at h
      cases h
  · rintro rfl
    exact absurd h (by decide)
  · rintro rfl
    exact absurd h (by decide)

/-- `ParseExpr` at an operand in parentheses that assigns to a name: its value is right, and nothing is bound. -/
theorem parseExpr_assign {c : Byte} {y : Bytes} (hc : iscsymf c = true) (hy : ∀ d ∈ y, ExprHost.isName d = true)
    {op : AssignOp} (hop : op.swallowed = none) (e : ExprText H) (hlval : lval.getD [] = [])
    (hn : 4*(e.text ++ ch ')'::rest).length+3 ≤ n) :
    H.parseExpr (n+5) ⟨ch '('::(c::y ++ (op.text ++ (e.text ++ ch ')'::rest))),s,lval⟩ =
      (op.apply (H.readVar s (c::y)).1 (e.value (H.readVar s (c::y)).2).1,
        ⟨rest,(e.value (H.readVar s (c::y)).2).2,lval⟩) := by
  obtain ⟨d,q,hq,hname,hspace,hlp⟩ := op_head hop
  have hhead : (op.text ++ (e.text ++ ch ')'::rest)).head? = some d := by rw [hq]; rfl
  have hdrop : (op.text ++ (e.text ++ ch ')'::rest)).dropWhile isspace = op.text ++ (e.text ++ ch ')'::rest) := by
    rw [hq,List.cons_append,List.dropWhile_cons_of_neg (by simp [hspace])]
  have hyc : ∀ b ∈ c::y, ExprHost.isName b = true := by
    intro b hb
    rcases List.mem_cons.mp hb with rfl | hb
    · exact isName_of_iscsym (by simp [iscsym,hc])
    · exact hy b hb
  -- the name is looked at, through an l-value of its own
  have hvar : H.parseExpr (n+2) ⟨c::y ++ (op.text ++ (e.text ++ ch ')'::rest)),s,lval⟩ =
      ((H.readVar s (c::y)).1,⟨op.text ++ (e.text ++ ch ')'::rest),(H.readVar s (c::y)).2,lval⟩) := by
    rw [List.cons_append,ExprHost.parseExpr]
    simp only [hc,if_true]
    have hstop : ∀ b ∈ (op.text ++ (e.text ++ ch ')'::rest)).head?, ExprHost.isName b = false := by
      rw [hhead]
      simpa using hname
    have hargs : ((op.text ++ (e.text ++ ch ')'::rest)).dropWhile isspace).head? ≠ some (ch '(') := by
      rw [hdrop,hhead]
      simpa using hlp
    rw [← List.cons_append,parseExprVar_name hyc hstop hargs,hdrop]
    simp only [ite_self]
  have htop : H.parseExprTop (n+3) ⟨c::y ++ (op.text ++ (e.text ++ ch ')'::rest)),s,lval⟩ =
      (op.apply (H.readVar s (c::y)).1 (e.value (H.readVar s (c::y)).2).1,
        ⟨ch ')'::rest,(e.value (H.readVar s (c::y)).2).2,lval⟩) := by
    rw [ExprHost.parseExprTop]
    simp only [hvar]
    exact binOp_assign hop e _ hlval hn
  have hgroup : H.parseExprGroup (n+4) ⟨ch '('::(c::y ++ (op.text ++ (e.text ++ ch ')'::rest))),s,lval⟩ =
      (op.apply (H.readVar s (c::y)).1 (e.value (H.readVar s (c::y)).2).1,
        ⟨rest,(e.value (H.readVar s (c::y)).2).2,lval⟩) := by
    rw [ExprHost.parseExprGroup]
    simp only [List.tail_cons,htop]
    rfl
  rw [ExprHost.parseExpr]
  exact hgroup

/-- An operator that runs into the name leaves an assignment to a longer one. -/
theorem parseExpr_swallowed {c : Byte} {y : Bytes} (hc : iscsymf c = true) (hy : ∀ d ∈ y, iscsym d = true)
    {op : AssignOp} {d : Byte} (hop : op.swallowed = some d) (e : ExprText H) (hlval : lval.getD [] = [])
    (hn : 4*(e.text ++ ch ')'::rest).length+3 ≤ n) :
    H.parseExpr (n+5) ⟨ch '('::(c::y ++ (op.text ++ (e.text ++ ch ')'::rest))),s,lval⟩ =
      ((e.value (H.readVar s (c::y ++ [d])).2).1,⟨rest,(e.value (H.readVar s (c::y ++ [d])).2).2,lval⟩) := by
  have htext : op.text = d::AssignOp.set.text ∧ ExprHost.isName d = true := by
    cases op with
    | sub => exact Option.some.inj hop ▸ ⟨rfl,by decide⟩
    | div => exact Option.some.inj hop ▸ ⟨rfl,by decide⟩
    | _ => cases hop
  have hyd : ∀ b ∈ y ++ [d], ExprHost.isName b = true := by
    intro b hb
    rcases List.mem_append.mp hb with hb | hb
    · exact isName_of_iscsym (hy b hb)
    · obtain rfl := List.mem_singleton.mp hb
      exact htext.2
  have h := parseExpr_assign (H := H) (s := s) hc hyd (rfl : AssignOp.set.swallowed = none) e hlval hn
  rw [htext.1]
  simpa [AssignOp.apply] using h

namespace Assignment
variable {c : Cursor σ}

/-- `ParseExpr` at a step: the name behind it is looked at through its l-value, which takes the new value. -/
theorem parseExpr_step (x : VarName) (down : Bool) (hp : c.p = (step x down : Assignment H).text ++ rest) :
    H.parseExpr (n+2) c =
      let r := H.parseExprVar ⟨x.text ++ rest,c.s,some []⟩
      let v := if down then r.1-1 else r.1+1
      (v,{ H.setLVal r.2 v with lval := c.lval }) := by
  obtain ⟨hspace,hlp,-⟩ := iscsymf_facts x.iscsymf_first
  have hlv : H.parseExprLV (n+1) ⟨x.text ++ rest,c.s,some []⟩ = H.parseExprVar ⟨x.text ++ rest,c.s,some []⟩ := by
    have hdrop : (x.text ++ rest).dropWhile isspace = x.text ++ rest :=
      List.dropWhile_cons_of_neg (by simp [hspace])
    have hhead : (x.text ++ rest).head? ≠ some (ch '(') := fun heq => hlp (Option.some.inj heq)
    rw [ExprHost.parseExprLV]
    simp only [hdrop,if_neg hhead]
  cases down with
  | true =>
    have hminus : c.p = ch '-'::ch '-'::(x.text ++ rest) := hp
    rw [ExprHost.parseExpr,hminus,← hlv]
    rfl
  | false =>
    have hplus : c.p = ch '+'::ch '+'::(x.text ++ rest) := hp
    rw [ExprHost.parseExpr,hplus,← hlv]
    rfl

/-- A step whose name ends where it should takes effect. -/
theorem takes_step (x : VarName) (down : Bool) (hends : (step x down : Assignment H).Ends rest)
    (hrest : ∀ d ∈ rest.head?, d ≠ ch '-' ∧ d ≠ ch '/') (hp : c.p = (step x down : Assignment H).text ++ rest) :
    (step x down : Assignment H).Takes (n+2) c rest := by
  have hstop : ∀ d ∈ rest.head?, ExprHost.isName d = false := by
    intro d hd
    simp [ExprHost.isName,hends.1 d hd,hrest d hd]
  have hvar : H.parseExprVar ⟨x.text ++ rest,c.s,some []⟩ = ((H.readVar c.s x.text).1,
      ⟨if H.find c.s x.text then rest.dropWhile isspace else rest,(H.readVar c.s x.text).2,some x.text⟩) :=
    parseExprVar_name (fun d hd => isName_of_iscsym (x.iscsym_text d hd)) hstop hends.2
  refine ⟨if H.find c.s x.text then rest.dropWhile isspace else rest,?_,?_⟩
  · split_ifs
    · exact dropWhile_idem rest
    · rfl
  · rw [parseExpr_step x down hp,hvar]
    rfl

/-- One whose name does not reads on beyond its end. -/
theorem not_takes_step (x : VarName) (down : Bool) {d : Byte} {p : Bytes} (hd : d = ch '-' ∨ d = ch '/')
    (hp : c.p = (step x down : Assignment H).text ++ d::p) : ¬(step x down : Assignment H).Takes (n+2) c (d::p) := by
  rintro ⟨q,hq,heq⟩
  have hname : ExprHost.isName d = true ∧ isspace d = false := by
    obtain rfl | rfl := hd <;> exact ⟨by decide,by decide⟩
  have hread : (H.parseExprVar ⟨x.text ++ d::p,c.s,some []⟩).2.p = q := by
    rw [parseExpr_step x down hp] at heq
    have hcursor := congrArg (fun r : ℚ × Cursor σ => r.2.p) heq
    simpa only [ExprHost.setLVal_p] using hcursor
  have hbehind : ((x.text ++ d::p).dropWhile ExprHost.isName).length ≤ p.length := by
    rw [List.dropWhile_append_of_pos fun b hb => isName_of_iscsym (x.iscsym_text b hb),
      List.dropWhile_cons_of_pos hname.1]
    exact (List.dropWhile_suffix _).length_le
  have hshort : q.length ≤ p.length := hread ▸ (H.parseExprVar_behind ⟨x.text ++ d::p,c.s,some []⟩).trans hbehind
  have hlong : p.length+1 ≤ q.length := by
    rw [List.dropWhile_cons_of_neg (by simp [hname.2])] at hq
    have hle := dropWhile_length_le q
    rwa [hq,List.length_cons] at hle
  omega

/-- An assignment of the other kind takes effect exactly when nothing has to be done for it. -/
theorem takes_assign_iff (x : VarName) (op : AssignOp) (e : ExprText H) (hlval : c.lval.getD [] = [])
    (hp : c.p = (assign x op e).text ++ rest) (hn : 4*c.p.length+2 ≤ n) :
    (assign x op e).Takes n c rest ↔ (assign x op e).Settled c.s rest := by
  have hshape : c.p = ch '('::(x.first::x.rest ++ (op.text ++ (e.text ++ ch ')'::rest))) := by
    simp [hp,text,VarName.text]
  have hpos : 1 ≤ op.text.length := by cases op <;> decide
  obtain ⟨m,rfl⟩ : ∃ m, n = m+5 := by
    refine ⟨n-5,?_⟩
    rw [hshape] at hn
    simp only [List.length_append,List.length_cons] at hn
    omega
  have hfuel : 4*(e.text ++ ch ')'::rest).length+3 ≤ m := by
    rw [hshape] at hn
    simp only [List.length_append,List.length_cons] at hn ⊢
    omega
  have hc : c = ⟨ch '('::(x.first::x.rest ++ (op.text ++ (e.text ++ ch ')'::rest))),c.s,c.lval⟩ := by rw [← hshape]
  cases hop : op.swallowed with
  | none =>
    have hread : H.parseExpr (m+5) c =
        (((assign x op e).newValue c.s).1,⟨rest,((assign x op e).newValue c.s).2,c.lval⟩) := by
      conv_lhs => rw [hc]
      exact parseExpr_assign x.iscsymf_first (fun d hd => isName_of_iscsym (x.iscsym_rest d hd)) hop e hlval hfuel
    simp only [Takes,Settled,hop,hread,Prod.mk.injEq,true_and,Cursor.mk.injEq,and_true]
    constructor
    · rintro ⟨q,-,-,heq⟩
      exact heq.symm
    · intro heq
      exact ⟨rest,rfl,rfl,heq.symm⟩
  | some d =>
    have hread : H.parseExpr (m+5) c = ((e.value (H.readVar c.s (x.text ++ [d])).2).1,
        ⟨rest,(e.value (H.readVar c.s (x.text ++ [d])).2).2,c.lval⟩) := by
      conv_lhs => rw [hc]
      exact parseExpr_swallowed x.iscsymf_first x.iscsym_rest hop e hlval hfuel
    simp only [Takes,Settled,hop,hread,Prod.mk.injEq,Cursor.mk.injEq,and_true]
    constructor
    · rintro ⟨q,-,hvalue,-,hstate⟩
      exact Prod.ext hvalue hstate
    · intro heq
      obtain ⟨hvalue,hstate⟩ := Prod.ext_iff.mp heq
      exact ⟨rest,rfl,hvalue,rfl,hstate⟩

/-- Wherever `ParseExpr` gets to an assignment, it takes effect exactly under its condition. -/
theorem takes_iff (a : Assignment H) {expr : Bytes} {t : σ} (hends : a.Ends rest) (h : a.Visited t expr rest n c) :
    a.Takes n c rest ↔ a.Settled c.s rest := by
  obtain ⟨hname,hfuel⟩ := h.1.provided
  cases a with
  | assign x op e => exact takes_assign_iff x op e hname h.2 hfuel
  | step x down =>
    obtain ⟨m,rfl⟩ : ∃ m, n = m+2 := ⟨n-2,by omega⟩
    constructor
    · intro htakes d hd
      obtain ⟨p,rfl⟩ := List.head?_eq_some_iff.mp hd
      by_contra hnot
      exact not_takes_step x down (by tauto) h.2 htakes
    · intro hsettled
      exact takes_step x down hends hsettled h.2

/-- `ParseExpr` gets to an assignment at the beginning of a text. -/
theorem visited_alone (a : Assignment H) {expr : Bytes} (h : cstr expr = a.text ++ rest) :
    a.Visited s expr rest (4*(cstr expr).length+2) ⟨cstr expr,s,none⟩ :=
  ⟨.call .top List.mem_cons_self,h⟩

end Assignment

/-- What is read right is read as one expression in front of a parenthesis. -/
def ExprText.ofReads (H : ExprHost σ) {t : Bytes} {v : ℚ} (h : ReadsAs 0 t v) : ExprText H where
  text := t
  value s := (v,s)
  head := by
    obtain ⟨c,q,rfl,hc⟩ := h.head
    intro heq
    obtain rfl := Option.some.inj heq
    exact absurd hc (by decide)
  reads s rest n hn := by
    have hend : ChainEnd (ch ')'::rest) := by
      refine ⟨fun c hc => ?_,fun c hc => ?_⟩
      · obtain rfl := Option.some.inj hc
        decide
      · obtain rfl := Option.some.inj hc
        rfl
    obtain ⟨m,hm,htop⟩ := (h.parsed H).2.2 rfl [] (ch ')'::rest) s none n (List.forall_mem_nil _) hend hn
    obtain ⟨m,rfl⟩ : ∃ k, m = k+1 := ⟨m-1,by omega⟩
    rw [List.nil_append] at htop
    rw [htop]
    exact binOp_paren v rest

end

/-- What a name is bound to: a number, or anything else that can be evaluated. -/
inductive NumObj (μ : Type)
  | dbl (v : ℚ)
  | other (obj : μ)

section
variable {κ μ : Type} [DecidableEq κ] (this : κ) (up : List κ)
  (run : μ → List Bytes → Bindings κ (NumObj μ) → ℚ × Bindings κ (NumObj μ))

/-- The context in which `%expr` is evaluated. -/
def ctxHost : ExprHost (Bindings κ (NumObj μ)) where
  find m name := (find (plain m fun _ => false) name none (this::up)).isSome
  eval m name args :=
    match find (plain m fun _ => false) name none (this::up) with
    | some (.dbl v,_) => (v,m)
    | some (.other obj,_) => run obj args m
    | none => (0,m)
  mapObj m v name := mapObj m this (.dbl v) name

@[simp] theorem ctxHost_mapObj (m : Bindings κ (NumObj μ)) (v : ℚ) (name : Bytes) :
    (ctxHost this up run).mapObj m v name = setKey m this (mapKey name) (some (.dbl v)) := rfl

/-- A variable that is bound to a number in the current context is read as that number. -/
theorem readVar_mapObj (m : Bindings κ (NumObj μ)) (v : ℚ) (x : VarName) :
    (ctxHost this up run).readVar ((ctxHost this up run).mapObj m v x.text) x.text =
      (v,(ctxHost this up run).mapObj m v x.text) := by
  have hcolon : x.text.head? ≠ some (ch ':') := fun heq => (iscsymf_facts x.iscsymf_first).2.2 (Option.some.inj heq)
  have hfind : find (plain (mapObj m this (.dbl v) x.text) fun _ => false) x.text none (this::up) =
      some (.dbl v,this) := by
    have hl : (plain (mapObj m this (.dbl v) x.text) fun _ => false).findL this x.text = some (.dbl v) := by
      rw [plain_findL,mapObj,setKey_self]
    rw [find_of_not_colon _ hcolon,searched_none,definitions_cons_some hl]
    rfl
  simp only [ExprHost.readVar,ctxHost,hfind]
  rfl

/-- What comes after an assignment that takes effect sees it. -/
theorem Assignment.Takes.readVar {a : Assignment (ctxHost this up run)} {n : ℕ}
    {c : Cursor (Bindings κ (NumObj μ))} {rest : Bytes} (h : a.Takes n c rest) :
    ((ctxHost this up run).readVar ((ctxHost this up run).parseExpr n c).2.s a.var.text).1 =
      ((ctxHost this up run).parseExpr n c).1 := by
  obtain ⟨p,-,heq⟩ := h
  rw [heq]
  exact (Prod.ext_iff.mp (readVar_mapObj this up run _ _ a.var)).1

end

/-- A context by itself. -/
def soleHost : ExprHost (Bindings ℕ (NumObj Empty)) := ctxHost 0 [] nofun

def varX : VarName := ⟨ch 'x',[],rfl,nofun⟩

end Smx
