import Mathlib.Algebra.Field.Rat
import Mathlib.Tactic.NormNum
import Smx.Base.Number

/-! `%expr`: six functions that share a cursor. Numbers are rationals. -/
namespace Smx

/-- The cursor `p`, the context behind `ctx`, and `lval`: the name it is mapped to, or no pointer. -/
structure Cursor (σ : Type) where
  p : Bytes
  s : σ
  lval : Option Bytes

/-- What `ParseExprVar` and `qObjLVal` ask of the context. -/
structure ExprHost (σ : Type) where
  /-- `Find` -/
  find : σ → Bytes → Bool
  /-- the number that the object of a name evaluates to -/
  eval : σ → Bytes → List Bytes → ℚ × σ
  mapObj : σ → ℚ → Bytes → σ

def isalpha (c : Byte) : Bool := (65 ≤ c && c ≤ 90) || (97 ≤ c && c ≤ 122)
def iscsymf (c : Byte) : Bool := isalpha c || c == ch '_'
def iscsym (c : Byte) : Bool := iscsymf c || isdigit c

/-- A number without a sign, as `strtod` reads it: digits, a fraction, an exponent of ten. -/
def strtod (s : Bytes) : ℚ × Bytes :=
  let ds := s.takeWhile isdigit
  let s := s.dropWhile isdigit
  let fs := if s.head? = some (ch '.') then s.tail.takeWhile isdigit else []
  let s := if s.head? = some (ch '.') then s.tail.dropWhile isdigit else s
  let v : ℚ := (digitsValue 0 ds : ℚ)+(digitsValue 0 fs : ℚ)/10^fs.length
  if s.head? = some (ch 'e') ∨ s.head? = some (ch 'E') then
    let neg := s.tail.head? = some (ch '-')
    let e := if neg ∨ s.tail.head? = some (ch '+') then s.tail.tail else s.tail
    let es := e.takeWhile isdigit
    if es = [] then (v,s)
    else ((if neg then v/10^digitsValue 0 es else v*10^digitsValue 0 es),e.dropWhile isdigit)
  else (v,s)

/-- `pow`; between rationals, for exponents that are integers. -/
def powQ (x y : ℚ) : ℚ := if y.den = 1 then x^y.num else 0

/-- The operators of `ParseExprBinOp2`. -/
def binOp2 (c : Byte) : Option (ℚ → ℚ → ℚ) :=
  if c = ch '/' then some (·/·) else if c = ch '*' then some (·*·) else if c = ch '^' then some powQ else none

/-- The operators of `ParseExprBinOp` that are not assignments. -/
def binOp (c : Byte) : Option (ℚ → ℚ → ℚ) :=
  if c = ch '+' then some (·+·) else if c = ch '-' then some (·-·) else none

/-- The loop of `ParseExprArgs`, between the arguments or in one. -/
def exprArgs : Option Bytes → Bytes → List Bytes × Bytes
  | none,[] => ([],[])
  | some cur,[] => ([cur],[])
  | none,c::p =>
    if isspace c then exprArgs none p
    else if c = ch ',' then
      let r := exprArgs none p
      ([]::r.1,r.2)
    else if c = ch ')' then ([[]],p)
    else exprArgs (some [c]) p
  | some cur,c::p =>
    if c = ch ',' then
      let r := exprArgs none p
      (cur::r.1,r.2)
    else if c = ch ')' then ([cur],p)
    else exprArgs (some (cur ++ [c])) p

/-- Four units of fuel for each character are enough. -/
def exprFuel (p : Bytes) : ℕ := 4*p.length+3

namespace ExprHost
variable {σ : Type} (H : ExprHost σ)

/-- `lval->Set(v)`, where there is one. -/
def setLVal (c : Cursor σ) (v : ℚ) : Cursor σ :=
  match c.lval with
  | none => c
  | some [] => c
  | some name => { c with s := H.mapObj c.s v name }

/-- `ParseExprVar`. -/
def parseExprVar (c : Cursor σ) : ℚ × Cursor σ :=
  let named (d : Byte) : Bool := iscsym d || d == ch '-' || d == ch '/'
  let name := c.p.takeWhile named
  let c : Cursor σ := { c with p := c.p.dropWhile named, lval := c.lval.map fun _ => name }
  if H.find c.s name then
    let p := c.p.dropWhile isspace
    let a := if p.head? = some (ch '(') then exprArgs none p.tail else ([],p)
    let r := H.eval c.s name a.1
    (r.1,{ c with p := a.2, s := r.2 })
  else (0,c)

mutual

/-- `ParseExprBinOp2`. Each call takes one unit of fuel. -/
def parseExprBinOp2 : ℕ → ℚ → Cursor σ → ℚ × Cursor σ
  | 0,v1,c => (v1,c)
  | n+1,v1,c =>
    match c.p with
    | [] => (v1,c)
    | d::p =>
      if isspace d then parseExprBinOp2 n v1 { c with p }
      else
        match binOp2 d with
        | none => (v1,c)
        | some op =>
          if p.head? = some (ch '=') then
            let r := parseExprTop n ⟨p.tail,c.s,none⟩
            let c := H.setLVal { r.2 with lval := c.lval } (op v1 r.1)
            if d = ch '^' ∧ c.lval.isSome then (op v1 r.1,c) else parseExprBinOp2 n (op v1 r.1) c
          else
            let r := parseExprL2 n ⟨p,c.s,none⟩
            parseExprBinOp2 n (op v1 r.1) { r.2 with lval := c.lval }

/-- `ParseExprBinOp`. -/
def parseExprBinOp : ℕ → ℚ → Cursor σ → ℚ × Cursor σ
  | 0,v1,c => (v1,c)
  | n+1,v1,c =>
    match c.p with
    | [] => (v1,c)
    | d::p =>
      if isspace d then parseExprBinOp n v1 { c with p }
      else if d = ch '=' then
        if p.head? = some (ch '=') then
          let r := parseExprTop n ⟨p.tail,c.s,none⟩
          parseExprBinOp n (if v1 = r.1 then 1 else 0) { r.2 with lval := c.lval }
        else
          let r := parseExprTop n ⟨p,c.s,none⟩
          parseExprBinOp n r.1 (H.setLVal { r.2 with lval := c.lval } r.1)
      else if d = ch ')' then (v1,c)
      else
        match binOp d with
        | some op =>
          if p.head? = some (ch '=') then
            let r := parseExprTop n ⟨p.tail,c.s,none⟩
            parseExprBinOp n (op v1 r.1) (H.setLVal { r.2 with lval := c.lval } (op v1 r.1))
          else
            let r := parseExprL2 n ⟨p,c.s,none⟩
            parseExprBinOp n (op v1 r.1) { r.2 with lval := c.lval }
        | none =>
          let r := parseExprBinOp2 n v1 c
          if r.2.p.length = c.p.length then r else parseExprBinOp n r.1 r.2

/-- `ParseExprTop`. -/
def parseExprTop : ℕ → Cursor σ → ℚ × Cursor σ
  | 0,c => (0,c)
  | n+1,c =>
    let r := parseExpr n c
    parseExprBinOp n r.1 r.2

/-- `ParseExprL2`. -/
def parseExprL2 : ℕ → Cursor σ → ℚ × Cursor σ
  | 0,c => (0,c)
  | n+1,c =>
    let r := parseExpr n c
    parseExprBinOp2 n r.1 r.2

/-- `ParseExprGroup`, at a parenthesis. -/
def parseExprGroup : ℕ → Cursor σ → ℚ × Cursor σ
  | 0,c => (0,c)
  | n+1,c =>
    let r := parseExprTop n { c with p := c.p.tail }
    let p := r.2.p.dropWhile isspace
    (r.1,{ r.2 with p := if p.head? = some (ch ')') then p.tail else p })

/-- `ParseExprLV`. -/
def parseExprLV : ℕ → Cursor σ → ℚ × Cursor σ
  | 0,c => (0,c)
  | n+1,c =>
    let c : Cursor σ := { c with p := c.p.dropWhile isspace }
    if c.p.head? = some (ch '(') then parseExprGroup n c else H.parseExprVar c

/-- `ParseExpr`. -/
def parseExpr : ℕ → Cursor σ → ℚ × Cursor σ
  | 0,c => (0,c)
  | n+1,c =>
    match c.p with
    | [] => (0,c)
    | d::p =>
      if iscsymf d then
        let r := H.parseExprVar { c with lval := some [] }
        (r.1,{ r.2 with lval := c.lval })
      else if isdigit d then
        let r := strtod c.p
        (r.1,{ c with p := r.2 })
      else if d = ch '(' then parseExprGroup n c
      else if d = ch '-' then
        if p.head? = some (ch '-') then
          let r := parseExprLV n ⟨p.tail,c.s,some []⟩
          (r.1-1,{ H.setLVal r.2 (r.1-1) with lval := c.lval })
        else
          let r := parseExpr n { c with p }
          (-r.1,r.2)
      else if d = ch '+' then
        if p.head? = some (ch '+') then
          let r := parseExprLV n ⟨p.tail,c.s,some []⟩
          (r.1+1,{ H.setLVal r.2 (r.1+1) with lval := c.lval })
        else parseExpr n { c with p }
      else if d = ch '!' then
        let r := parseExpr n { c with p }
        ((if r.1 = 0 then 0 else 1),r.2)
      else parseExpr n { c with p }

end

/-- The number that `EvalExpr` prints; for an empty string none. -/
def evalExpr (s : σ) (expr : Bytes) : Option ℚ :=
  if expr = [] then none else some (H.parseExprTop (exprFuel (cstr expr)) ⟨cstr expr,s,none⟩).1

end ExprHost

/-- A decimal number: digits, and a fraction if there is a point. -/
structure Literal where
  digits : Bytes
  fraction : Option Bytes
  ne_nil : digits ≠ []
  isdigit_digits : ∀ c ∈ digits, isdigit c = true
  isdigit_fraction : ∀ fs ∈ fraction, ∀ c ∈ fs, isdigit c = true

namespace Literal

def text (l : Literal) : Bytes :=
  match l.fraction with
  | none => l.digits
  | some fs => l.digits ++ ch '.'::fs

def value (l : Literal) : ℚ :=
  match l.fraction with
  | none => digitsValue 0 l.digits
  | some fs => digitsValue 0 l.digits+(digitsValue 0 fs : ℚ)/10^fs.length

end Literal

inductive BinaryOp
  | add
  | sub
  | mul
  | div
  | pow
  deriving DecidableEq

namespace BinaryOp

def char : BinaryOp → Byte
  | add => ch '+'
  | sub => ch '-'
  | mul => ch '*'
  | div => ch '/'
  | pow => ch '^'

def prec : BinaryOp → ℕ
  | add | sub => 1
  | mul | div => 2
  | pow => 3

/-- The least precedence that stands on the left without parentheses: `+ - * /` associate to the left. -/
def left : BinaryOp → ℕ
  | add | sub => 1
  | mul | div => 2
  | pow => 4

def right (op : BinaryOp) : ℕ := op.prec+1

def apply : BinaryOp → ℚ → ℚ → ℚ
  | add => (·+·)
  | sub => (·-·)
  | mul => (·*·)
  | div => (·/·)
  | pow => powQ

end BinaryOp

inductive ExprTree
  | num (l : Literal)
  | bin (op : BinaryOp) (a b : ExprTree)

namespace ExprTree

def value : ExprTree → ℚ
  | num l => l.value
  | bin op a b => op.apply a.value b.value

/-- Divisors are not 0, and exponents are natural numbers. -/
def Defined : ExprTree → Prop
  | num _ => True
  | bin op a b => a.Defined ∧ b.Defined ∧
      match op with
      | .div => b.value ≠ 0
      | .pow => ∃ n : ℕ, b.value = n
      | _ => True

/-- A product of operands that have no operator of their own outside of parentheses. -/
def Product : ExprTree → Prop
  | num _ => True
  | bin .mul a b => a.Product ∧ ∀ c d, b ≠ bin .pow c d
  | bin .add _ _ => True
  | bin .sub _ _ => True
  | bin .div _ _ => False
  | bin .pow _ _ => False

/-- In a chain of `*`, `/` and `^` nothing follows a power, and nothing but a power follows a quotient. -/
def Readable : ExprTree → Prop
  | num _ => True
  | bin op a b => a.Readable ∧ b.Readable ∧ (op = .mul ∨ op = .div → a.Product)

end ExprTree

def Blank (w : Bytes) : Prop := ∀ c ∈ w, isspace c = true

/-- The texts of a tree where a precedence of at least `k` is needed: with blanks between the tokens, and with
parentheses where they are needed. -/
inductive Renders : ℕ → ExprTree → Bytes → Prop
  | num (k : ℕ) (l : Literal) : Renders k (.num l) l.text
  | bin {k : ℕ} {op : BinaryOp} {a b : ExprTree} {t u w w' : Bytes} : k ≤ op.prec → Renders op.left a t →
      Renders op.right b u → Blank w → Blank w' → Renders k (.bin op a b) (t ++ w ++ op.char::w' ++ u)
  | paren {k : ℕ} {op : BinaryOp} {a b : ExprTree} {t w w' : Bytes} : op.prec < k →
      Renders 0 (.bin op a b) t → Blank w → Blank w' → Renders k (.bin op a b) (ch '('::w ++ t ++ w' ++ [ch ')'])

/-- Every text of the tree is read to its end, and the value of the tree comes out. -/
def ReadRight (tree : ExprTree) : Prop :=
  ∀ (σ : Type) (H : ExprHost σ) (s : σ) (t w w' : Bytes), tree.Defined → Renders 0 tree t → Blank w → Blank w' →
    H.parseExprTop (exprFuel (w ++ t ++ w')) ⟨w ++ t ++ w',s,none⟩ = (tree.value,⟨[],s,none⟩)

/-- What the functions read: an operand, a chain of `*`, `/` and `^` from the right, and sums from the left. -/
inductive ReadsAs : ℕ → Bytes → ℚ → Prop
  | num (l : Literal) : ReadsAs 2 l.text l.value
  | paren {t w w' : Bytes} {v : ℚ} : ReadsAs 0 t v → Blank w → Blank w' → ReadsAs 2 (ch '('::w ++ t ++ w' ++ [ch ')']) v
  | operand {t : Bytes} {v : ℚ} : ReadsAs 2 t v → ReadsAs 1 t v
  | chain {t u w w' : Bytes} {v x : ℚ} {op : BinaryOp} : 1 < op.prec → ReadsAs 2 t v → ReadsAs 1 u x → Blank w →
      Blank w' → ReadsAs 1 (t ++ w ++ op.char::w' ++ u) (op.apply v x)
  | term {t : Bytes} {v : ℚ} : ReadsAs 1 t v → ReadsAs 0 t v
  | sum {t u w w' : Bytes} {v x : ℚ} {op : BinaryOp} : op.prec = 1 → ReadsAs 0 t v → ReadsAs 1 u x → Blank w →
      Blank w' → ReadsAs 0 (t ++ w ++ op.char::w' ++ u) (op.apply v x)

section
variable {t u w rest p : Bytes} {v x : ℚ} {n : ℕ}

/-- A number ends here. -/
def NumberEnd (rest : Bytes) : Prop :=
  ∀ c ∈ rest.head?, isdigit c = false ∧ c ≠ ch '.' ∧ c ≠ ch 'e' ∧ c ≠ ch 'E'

/-- A chain of `*`, `/` and `^` ends here. -/
def ChainEnd (rest : Bytes) : Prop :=
  NumberEnd rest ∧ ∀ c ∈ (rest.dropWhile isspace).head?, binOp2 c = none

theorem takeWhile_digits (hdigits : ∀ c ∈ t, isdigit c = true) (hrest : ∀ c ∈ rest.head?, isdigit c = false) :
    (t ++ rest).takeWhile isdigit = t ∧ (t ++ rest).dropWhile isdigit = rest := by
  have hnil : rest.takeWhile isdigit = [] ∧ rest.dropWhile isdigit = rest := by
    cases rest with
    | nil => exact ⟨rfl,rfl⟩
    | cons c rest =>
      have hc := hrest c rfl
      exact ⟨List.takeWhile_cons_of_neg (by simp [hc]),List.dropWhile_cons_of_neg (by simp [hc])⟩
  rw [List.takeWhile_append_of_pos hdigits,List.dropWhile_append_of_pos hdigits,hnil.1,hnil.2,List.append_nil]
  exact ⟨rfl,rfl⟩

theorem strtod_literal (l : Literal) (h : NumberEnd rest) : strtod (l.text ++ rest) = (l.value,rest) := by
  have hdigit : ∀ c ∈ rest.head?, isdigit c = false := fun c hc => (h c hc).1
  have hpoint : rest.head? ≠ some (ch '.') := fun hc => (h _ hc).2.1 rfl
  have hexp : ¬(rest.head? = some (ch 'e') ∨ rest.head? = some (ch 'E')) := by
    rintro (hc | hc)
    · exact (h _ hc).2.2.1 rfl
    · exact (h _ hc).2.2.2 rfl
  cases hfraction : l.fraction with
  | none =>
    obtain ⟨htake,hdrop⟩ := takeWhile_digits l.isdigit_digits hdigit
    simp only [strtod,Literal.text,Literal.value,hfraction,htake,hdrop,if_neg hpoint,if_neg hexp]
    simp [digitsValue]
  | some fs =>
    have hstop : ∀ c ∈ (ch '.'::(fs ++ rest)).head?, isdigit c = false := by
      intro c hc
      obtain rfl := Option.some.inj hc
      decide
    obtain ⟨htake,hdrop⟩ := takeWhile_digits l.isdigit_digits hstop
    obtain ⟨htake',hdrop'⟩ := takeWhile_digits (l.isdigit_fraction fs hfraction) hdigit
    simp only [strtod,Literal.text,Literal.value,hfraction,List.append_assoc,List.cons_append,htake,hdrop,
      List.head?_cons,if_true,List.tail_cons,htake',hdrop',if_neg hexp]

theorem literal_head (l : Literal) : ∃ c s, l.text = c::s ∧ isdigit c = true := by
  obtain ⟨c,s,hs⟩ := List.exists_cons_of_ne_nil l.ne_nil
  have hc : isdigit c = true := l.isdigit_digits c (hs ▸ List.mem_cons_self)
  rw [Literal.text]
  cases l.fraction with
  | none => exact ⟨c,s,hs,hc⟩
  | some fs => exact ⟨c,s ++ ch '.'::fs,by rw [hs]; rfl,hc⟩

/-- Every text that is read begins with a digit or a parenthesis. -/
theorem ReadsAs.head {k : ℕ} (h : ReadsAs k t v) : ∃ c s, t = c::s ∧ (isdigit c = true ∨ c = ch '(') := by
  induction h with
  | num l =>
    obtain ⟨c,s,hs,hc⟩ := literal_head l
    exact ⟨c,s,hs,.inl hc⟩
  | paren => exact ⟨_,_,rfl,.inr rfl⟩
  | operand _ ih => exact ih
  | chain _ _ _ _ _ ih =>
    obtain ⟨c,s,rfl,hc⟩ := ih
    exact ⟨c,_,rfl,hc⟩
  | term _ ih => exact ih
  | sum _ _ _ _ _ ih =>
    obtain ⟨c,s,rfl,hc⟩ := ih
    exact ⟨c,_,rfl,hc⟩

theorem dropWhile_blank (hw : Blank w) (rest : Bytes) : (w ++ rest).dropWhile isspace = rest.dropWhile isspace :=
  List.dropWhile_append_of_pos hw

theorem isspace_facts {c : Byte} (h : isspace c = true) : iscsymf c = false ∧ isdigit c = false ∧ c ≠ ch '(' ∧
    c ≠ ch '-' ∧ c ≠ ch '+' ∧ c ≠ ch '!' ∧ c ≠ ch '=' ∧ c ≠ ch '.' ∧ c ≠ ch 'e' ∧ c ≠ ch 'E' ∧ binOp2 c = none := by
  have hall : ∀ c : Byte, isspace c = true → c = 32 ∨ c = 9 ∨ c = 10 ∨ c = 11 ∨ c = 12 ∨ c = 13 := by
    intro c hc
    grind [isspace]
  obtain rfl | rfl | rfl | rfl | rfl | rfl := hall c h <;>
    exact ⟨by decide,by decide,by decide,by decide,by decide,by decide,by decide,by decide,by decide,by decide,rfl⟩

/-- Behind an operator there are blanks and an operand. -/
theorem ne_equals {k : ℕ} (hw : Blank w) (h : ReadsAs k t v) (rest : Bytes) :
    (w ++ t ++ rest).head? ≠ some (ch '=') := by
  cases w with
  | nil =>
    obtain ⟨c,s,rfl,hc⟩ := h.head
    intro heq
    obtain rfl := Option.some.inj heq
    exact absurd hc (by decide)
  | cons c w =>
    intro heq
    obtain rfl := Option.some.inj heq
    exact absurd (hw _ List.mem_cons_self) (by decide)

section
variable {σ : Type} (H : ExprHost σ) {s : σ} {lval : Option Bytes}

theorem binOp2_blank (hw : Blank w) (v : ℚ) (rest : Bytes) (n : ℕ) :
    H.parseExprBinOp2 (n+w.length) v ⟨w ++ rest,s,lval⟩ = H.parseExprBinOp2 n v ⟨rest,s,lval⟩ := by
  induction w generalizing n with
  | nil => rfl
  | cons c w ih =>
    have hc := hw c List.mem_cons_self
    rw [List.length_cons,← Nat.add_assoc,List.cons_append,ExprHost.parseExprBinOp2]
    simp only [hc,if_true]
    exact ih (fun d hd => hw d (List.mem_cons_of_mem c hd)) n

theorem binOp_blank (hw : Blank w) (v : ℚ) (rest : Bytes) (n : ℕ) :
    H.parseExprBinOp (n+w.length) v ⟨w ++ rest,s,lval⟩ = H.parseExprBinOp n v ⟨rest,s,lval⟩ := by
  induction w generalizing n with
  | nil => rfl
  | cons c w ih =>
    have hc := hw c List.mem_cons_self
    rw [List.length_cons,← Nat.add_assoc,List.cons_append,ExprHost.parseExprBinOp]
    simp only [hc,if_true]
    exact ih (fun d hd => hw d (List.mem_cons_of_mem c hd)) n

theorem expr_blank (hw : Blank w) (rest : Bytes) (n : ℕ) :
    H.parseExpr (n+w.length) ⟨w ++ rest,s,lval⟩ = H.parseExpr n ⟨rest,s,lval⟩ := by
  induction w generalizing n with
  | nil => rfl
  | cons c w ih =>
    obtain ⟨hsym,hdigit,hlp,hm,hp,hn,-⟩ := isspace_facts (hw c List.mem_cons_self)
    rw [List.length_cons,← Nat.add_assoc,List.cons_append,ExprHost.parseExpr]
    simp only [hsym,hdigit,if_neg hlp,if_neg hm,if_neg hp,if_neg hn,Bool.false_eq_true,if_false]
    exact ih (fun d hd => hw d (List.mem_cons_of_mem c hd)) n

theorem split_blank (rest : Bytes) : ∃ w, Blank w ∧ rest = w ++ rest.dropWhile isspace :=
  ⟨rest.takeWhile isspace,fun _ hc => List.mem_takeWhile_imp hc,(List.takeWhile_append_dropWhile).symm⟩

/-- At the end of a chain only blanks are passed over. -/
theorem binOp2_end (h : ∀ c ∈ (rest.dropWhile isspace).head?, binOp2 c = none) (v : ℚ) (hn : rest.length < n) :
    H.parseExprBinOp2 n v ⟨rest,s,lval⟩ = (v,⟨rest.dropWhile isspace,s,lval⟩) := by
  obtain ⟨w,hw,hrest⟩ := split_blank rest
  have hlen : rest.length = w.length+(rest.dropWhile isspace).length := by
    conv_lhs => rw [hrest]
    exact List.length_append
  obtain ⟨m,rfl⟩ : ∃ m, n = m+1+w.length := ⟨n-1-w.length,by omega⟩
  conv_lhs => rw [hrest]
  rw [binOp2_blank H hw,ExprHost.parseExprBinOp2]
  cases hd : rest.dropWhile isspace with
  | nil => rfl
  | cons c r =>
    have hc : isspace c = false := by
      have hhead := List.head?_dropWhile_not isspace rest
      rw [hd] at hhead
      simpa using hhead
    have hop := h c (by rw [hd]; rfl)
    simp only [hc,hop,Bool.false_eq_true,if_false]

/-- `ParseExpr` reads the text of an operand. -/
def ReadsOperand (t : Bytes) (v : ℚ) : Prop :=
  ∀ w rest s lval n, Blank w → NumberEnd rest → 4*(w ++ t ++ rest).length+2 ≤ n →
    H.parseExpr n ⟨w ++ t ++ rest,s,lval⟩ = (v,⟨rest,s,lval⟩)

/-- `ParseExpr` reads the first operand of a chain, and `ParseExprBinOp2` what follows. -/
def ReadsChain (t : Bytes) (v : ℚ) : Prop :=
  ∀ w rest s lval, Blank w → ChainEnd rest → ∃ v0 p0,
    (∀ n, 4*(w ++ t ++ rest).length+2 ≤ n → H.parseExpr n ⟨w ++ t ++ rest,s,lval⟩ = (v0,⟨p0,s,lval⟩)) ∧
    (∀ n, 4*p0.length+1 ≤ n →
      H.parseExprBinOp2 n v0 ⟨p0,s,lval⟩ = (v,⟨rest.dropWhile isspace,s,lval⟩)) ∧
    p0.length < (w ++ t ++ rest).length ∧
    (p0 = rest ∧ v0 = v ∨ ∃ w1 c p1, p0 = w1 ++ c::p1 ∧ Blank w1 ∧ isspace c = false ∧ (binOp2 c).isSome ∧
      (rest.dropWhile isspace).length < (c::p1).length)

/-- `ParseExprTop` reads a sum, and goes on behind it. -/
def ReadsSum (t : Bytes) (v : ℚ) : Prop :=
  ∀ w rest s lval n, Blank w → ChainEnd rest → 4*(w ++ t ++ rest).length+3 ≤ n →
    ∃ m, 4*(rest.dropWhile isspace).length+2 ≤ m ∧ H.parseExprTop n ⟨w ++ t ++ rest,s,lval⟩ =
      H.parseExprBinOp m v ⟨rest.dropWhile isspace,s,lval⟩

theorem ReadsChain.l2 (h : ReadsChain H t v) {w : Bytes} (hw : Blank w) (hrest : ChainEnd rest)
    (hn : 4*(w ++ t ++ rest).length+3 ≤ n) :
    H.parseExprL2 n ⟨w ++ t ++ rest,s,lval⟩ = (v,⟨rest.dropWhile isspace,s,lval⟩) := by
  obtain ⟨v0,p0,hexpr,hop,hlen,-⟩ := h w rest s lval hw hrest
  obtain ⟨n,rfl⟩ : ∃ m, n = m+1 := ⟨n-1,by omega⟩
  rw [ExprHost.parseExprL2,hexpr n (by omega)]
  exact hop n (by omega)

theorem dropWhile_length_le (rest : Bytes) : (rest.dropWhile isspace).length ≤ rest.length :=
  (List.dropWhile_suffix isspace).length_le

theorem dropWhile_idem (rest : Bytes) : (rest.dropWhile isspace).dropWhile isspace = rest.dropWhile isspace := by
  cases hd : rest.dropWhile isspace with
  | nil => rfl
  | cons c r =>
    have hhead := List.head?_dropWhile_not isspace rest
    rw [hd] at hhead
    exact List.dropWhile_cons_of_neg (by simpa using hhead)

theorem numberEnd_append (hw : Blank w) (hrest : NumberEnd rest) : NumberEnd (w ++ rest) := by
  cases w with
  | nil => exact hrest
  | cons c w =>
    intro d hd
    obtain rfl := Option.some.inj hd
    obtain ⟨-,hdigit,-,-,-,-,-,hpoint,he,hE,-⟩ := isspace_facts (hw _ List.mem_cons_self)
    exact ⟨hdigit,hpoint,he,hE⟩

theorem numberEnd_char (op : BinaryOp) (rest : Bytes) : NumberEnd (op.char::rest) := by
  intro c hc
  obtain rfl := Option.some.inj hc
  cases op <;> decide

/-- An operator of `ParseExprBinOp2` with its right operand. -/
theorem ReadsOperand.chain {op : BinaryOp} {x : ℚ} (ht : ReadsOperand H t v) (hu : ReadsChain H u x)
    (hleft : ReadsAs 2 t v) (hright : ReadsAs 1 u x) (hprec : 1 < op.prec) {w1 w2 : Bytes} (hw1 : Blank w1) (hw2 : Blank w2) :
    ReadsChain H (t ++ w1 ++ op.char::w2 ++ u) (op.apply v x) := by
  intro w rest s lval hw hrest
  have hop : binOp2 op.char = some op.apply ∧ isspace op.char = false := by
    cases op with
    | add => exact absurd hprec (by decide)
    | sub => exact absurd hprec (by decide)
    | _ => exact ⟨rfl,rfl⟩
  have hshape : w ++ (t ++ w1 ++ op.char::w2 ++ u) ++ rest = w ++ t ++ (w1 ++ op.char::(w2 ++ u ++ rest)) := by
    simp
  have hend : NumberEnd (w1 ++ op.char::(w2 ++ u ++ rest)) := numberEnd_append hw1 (numberEnd_char op _)
  have hle := dropWhile_length_le rest
  refine ⟨v,w1 ++ op.char::(w2 ++ u ++ rest),fun n hn => ?_,fun n hn => ?_,?_,.inr ⟨w1,op.char,_,rfl,hw1,hop.2,?_,?_⟩⟩
  · rw [hshape] at hn ⊢
    exact ht w _ s lval n hw hend hn
  · simp only [List.length_append,List.length_cons] at hn
    obtain ⟨m,rfl⟩ : ∃ m, n = m+1+w1.length := ⟨n-1-w1.length,by omega⟩
    have hl2 : H.parseExprL2 m ⟨w2 ++ u ++ rest,s,none⟩ = (x,⟨rest.dropWhile isspace,s,none⟩) := by
      refine hu.l2 H hw2 hrest ?_
      simp only [List.length_append]
      omega
    rw [binOp2_blank H hw1,ExprHost.parseExprBinOp2]
    simp only [hop.1,hop.2,Bool.false_eq_true,if_false,if_neg (ne_equals hw2 hright rest),hl2]
    have hstop : ∀ c ∈ ((rest.dropWhile isspace).dropWhile isspace).head?, binOp2 c = none := by
      rw [dropWhile_idem]
      exact hrest.2
    rw [binOp2_end H hstop _ (by omega),dropWhile_idem]
  · obtain ⟨c,r,rfl,-⟩ := hleft.head
    simp only [List.length_append,List.length_cons]
    omega
  · rw [hop.1]
    rfl
  · simp only [List.length_append,List.length_cons]
    omega

theorem ReadsOperand.alone (ht : ReadsOperand H t v) (hread : ReadsAs 2 t v) : ReadsChain H t v := by
  intro w rest s lval hw hrest
  refine ⟨v,rest,fun n hn => ht w rest s lval n hw hrest.1 hn,fun n hn => ?_,?_,.inl ⟨rfl,rfl⟩⟩
  · exact binOp2_end H hrest.2 v (by omega)
  · obtain ⟨c,r,rfl,-⟩ := hread.head
    simp only [List.length_append,List.length_cons]
    omega

/-- The operators of `ParseExprBinOp2` are none of `ParseExprBinOp`'s own characters. -/
theorem binOp2_facts {c : Byte} (h : (binOp2 c).isSome) : c ≠ ch '=' ∧ c ≠ ch ')' ∧ binOp c = none := by
  have hc : c = ch '/' ∨ c = ch '*' ∨ c = ch '^' := by
    rw [binOp2] at h
    split_ifs at h with hdiv hmul hpow
    · exact .inl hdiv
    · exact .inr (.inl hmul)
    · exact .inr (.inr hpow)
    · cases h
  obtain rfl | rfl | rfl := hc <;> exact ⟨by decide,by decide,rfl⟩

/-- The first chain of a sum is read through `ParseExprBinOp`. -/
theorem ReadsChain.term (ht : ReadsChain H t v) : ReadsSum H t v := by
  intro w rest s lval n hw hrest hn
  obtain ⟨v0,p0,hexpr,hop,hlen,hcase⟩ := ht w rest s lval hw hrest
  obtain ⟨n,rfl⟩ : ∃ m, n = m+1 := ⟨n-1,by omega⟩
  rw [ExprHost.parseExprTop,hexpr n (by omega)]
  have hle := dropWhile_length_le rest
  obtain ⟨rfl,rfl⟩ | ⟨w1,c,p1,rfl,hw1,hc,hsome,hshort⟩ := hcase
  · obtain ⟨w2,hw2,hsplit⟩ := split_blank p0
    have hlen2 : p0.length = w2.length+(p0.dropWhile isspace).length := by
      conv_lhs => rw [hsplit]
      exact List.length_append
    obtain ⟨m,rfl⟩ : ∃ m, n = m+w2.length := ⟨n-w2.length,by omega⟩
    refine ⟨m,by omega,?_⟩
    conv_lhs => rw [hsplit]
    exact binOp_blank H hw2 v0 _ m
  · obtain ⟨heq,hrp,hnone⟩ := binOp2_facts hsome
    simp only [List.length_append,List.length_cons] at hn hlen hop hshort
    obtain ⟨m,rfl⟩ : ∃ m, n = m+1+w1.length := ⟨n-1-w1.length,by omega⟩
    have hchain : H.parseExprBinOp2 m v0 ⟨c::p1,s,lval⟩ = (v,⟨rest.dropWhile isspace,s,lval⟩) := by
      rw [← hop (m+w1.length) (by omega),binOp2_blank H hw1]
    refine ⟨m,by omega,?_⟩
    rw [binOp_blank H hw1,ExprHost.parseExprBinOp]
    have hne : (rest.dropWhile isspace).length ≠ (c::p1).length := by
      rw [List.length_cons]
      omega
    simp only [hc,Bool.false_eq_true,if_false,if_neg heq,if_neg hrp,hnone,hchain,if_neg hne]

/-- A sum goes on with a chain. -/
theorem ReadsSum.sum {op : BinaryOp} {x : ℚ} (ht : ReadsSum H t v) (hu : ReadsChain H u x)
    (hright : ReadsAs 1 u x) (hprec : op.prec = 1) {w1 w2 : Bytes} (hw1 : Blank w1) (hw2 : Blank w2) :
    ReadsSum H (t ++ w1 ++ op.char::w2 ++ u) (op.apply v x) := by
  intro w rest s lval n hw hrest hn
  have hop : binOp op.char = some op.apply ∧ isspace op.char = false ∧ op.char ≠ ch '=' ∧ op.char ≠ ch ')' ∧
      binOp2 op.char = none := by
    cases op with
    | add => exact ⟨rfl,rfl,by decide,by decide,rfl⟩
    | sub => exact ⟨rfl,rfl,by decide,by decide,rfl⟩
    | _ => exact absurd hprec (by decide)
  obtain ⟨hbin,hspace,heq,hrp,htwo⟩ := hop
  have hshape : w ++ (t ++ w1 ++ op.char::w2 ++ u) ++ rest = w ++ t ++ (w1 ++ op.char::(w2 ++ u ++ rest)) := by
    simp
  have hdrop : (w1 ++ op.char::(w2 ++ u ++ rest)).dropWhile isspace = op.char::(w2 ++ u ++ rest) := by
    rw [dropWhile_blank hw1]
    exact List.dropWhile_cons_of_neg (by simp [hspace])
  have hend : ChainEnd (w1 ++ op.char::(w2 ++ u ++ rest)) := by
    refine ⟨numberEnd_append hw1 (numberEnd_char op _),fun c hc => ?_⟩
    rw [hdrop] at hc
    obtain rfl := Option.some.inj hc
    exact htwo
  rw [hshape] at hn ⊢
  obtain ⟨m,hm,htop⟩ := ht w _ s lval n hw hend hn
  rw [hdrop] at hm htop
  simp only [List.length_append,List.length_cons] at hm
  have hle := dropWhile_length_le rest
  obtain ⟨m,rfl⟩ : ∃ k, m = k+1 := ⟨m-1,by omega⟩
  have hl2 : H.parseExprL2 m ⟨w2 ++ u ++ rest,s,none⟩ = (x,⟨rest.dropWhile isspace,s,none⟩) := by
    refine hu.l2 H hw2 hrest ?_
    simp only [List.length_append]
    omega
  refine ⟨m,by omega,?_⟩
  rw [htop,ExprHost.parseExprBinOp]
  simp only [hspace,Bool.false_eq_true,if_false,if_neg heq,if_neg hrp,hbin,if_neg (ne_equals hw2 hright rest),hl2]

theorem readsOperand_num (l : Literal) : ReadsOperand H l.text l.value := by
  intro w rest s lval n hw hrest hn
  obtain ⟨c,r,htext,hc⟩ := literal_head l
  have hsym : iscsymf c = false := by
    have hall : ∀ c : Byte, isdigit c = true → iscsymf c = false := by
      intro c hc
      grind [isdigit,iscsymf,isalpha,ch]
    exact hall c hc
  simp only [List.length_append] at hn
  obtain ⟨m,rfl⟩ : ∃ k, n = k+1+w.length := ⟨n-1-w.length,by omega⟩
  have hstrtod := strtod_literal l hrest
  rw [htext] at hstrtod ⊢
  rw [List.append_assoc,expr_blank H hw,List.cons_append,ExprHost.parseExpr]
  rw [List.cons_append] at hstrtod
  simp only [hsym,hc,Bool.false_eq_true,if_false,if_true,hstrtod]

theorem ReadsSum.paren (ht : ReadsSum H t v) {w1 w2 : Bytes} (hw1 : Blank w1) (hw2 : Blank w2) :
    ReadsOperand H (ch '('::w1 ++ t ++ w2 ++ [ch ')']) v := by
  intro w rest s lval n hw hrest hn
  have hshape : w ++ (ch '('::w1 ++ t ++ w2 ++ [ch ')']) ++ rest =
      w ++ ch '('::(w1 ++ t ++ (w2 ++ ch ')'::rest)) := by simp
  have hdrop : (w2 ++ ch ')'::rest).dropWhile isspace = ch ')'::rest := by
    rw [dropWhile_blank hw2]
    exact List.dropWhile_cons_of_neg (by decide)
  have hend : ChainEnd (w2 ++ ch ')'::rest) := by
    refine ⟨numberEnd_append hw2 fun c hc => ?_,fun c hc => ?_⟩
    · obtain rfl := Option.some.inj hc
      decide
    · rw [hdrop] at hc
      obtain rfl := Option.some.inj hc
      rfl
  rw [hshape] at hn ⊢
  simp only [List.length_append,List.length_cons] at hn
  obtain ⟨m,rfl⟩ : ∃ k, n = k+2+w.length := ⟨n-2-w.length,by omega⟩
  obtain ⟨k,hk,htop⟩ := ht w1 _ s lval m hw1 hend (by simp only [List.length_append,List.length_cons]; omega)
  rw [hdrop] at hk htop
  obtain ⟨k,rfl⟩ : ∃ j, k = j+1 := ⟨k-1,by omega⟩
  have hstop : H.parseExprBinOp (k+1) v ⟨ch ')'::rest,s,lval⟩ = (v,⟨ch ')'::rest,s,lval⟩) := by
    rw [ExprHost.parseExprBinOp]
    rfl
  rw [expr_blank H hw,ExprHost.parseExpr]
  have hgroup : H.parseExprGroup (m+1) ⟨ch '('::(w1 ++ t ++ (w2 ++ ch ')'::rest)),s,lval⟩ = (v,⟨rest,s,lval⟩) := by
    rw [ExprHost.parseExprGroup]
    simp only [List.tail_cons,htop,hstop]
    rfl
  exact hgroup

/-- The functions of `%expr` read what `ReadsAs` says. -/
theorem ReadsAs.parsed {k : ℕ} (h : ReadsAs k t v) :
    (k = 2 → ReadsOperand H t v) ∧ (k = 1 → ReadsChain H t v) ∧ (k = 0 → ReadsSum H t v) := by
  induction h with
  | num l => exact ⟨fun _ => readsOperand_num H l,nofun,nofun⟩
  | paren _ hw hw' ih => exact ⟨fun _ => (ih.2.2 rfl).paren H hw hw',nofun,nofun⟩
  | operand h ih => exact ⟨nofun,fun _ => (ih.1 rfl).alone H h,nofun⟩
  | chain hprec h h' hw hw' ih ih' =>
    exact ⟨nofun,fun _ => (ih.1 rfl).chain H (ih'.2.1 rfl) h h' hprec hw hw',nofun⟩
  | term _ ih => exact ⟨nofun,nofun,fun _ => (ih.2.1 rfl).term H⟩
  | sum hprec _ h' hw hw' ih ih' =>
    exact ⟨nofun,nofun,fun _ => (ih.2.2 rfl).sum H (ih'.2.1 rfl) h' hprec hw hw'⟩

/-- The whole text is read. -/
theorem ReadsAs.top (h : ReadsAs 0 t v) {w w' : Bytes} (hw : Blank w) (hw' : Blank w') (s : σ) :
    H.parseExprTop (exprFuel (w ++ t ++ w')) ⟨w ++ t ++ w',s,none⟩ = (v,⟨[],s,none⟩) := by
  have hdrop : w'.dropWhile isspace = [] := List.dropWhile_eq_nil_iff.mpr hw'
  have hend : ChainEnd w' := by
    constructor
    · have hend : NumberEnd (w' ++ []) := numberEnd_append hw' nofun
      rwa [List.append_nil] at hend
    · rw [hdrop]
      nofun
  obtain ⟨m,hm,htop⟩ := (h.parsed H).2.2 rfl w w' s none _ hw hend (le_refl _)
  rw [hdrop] at hm htop
  rw [exprFuel,htop]
  obtain ⟨m,rfl⟩ : ∃ k, m = k+1 := ⟨m-1,by omega⟩
  rw [ExprHost.parseExprBinOp]

end

/-- What the text of a tree is read as where a precedence of at least `k` is needed. -/
structure ReadsTree (k : ℕ) (tree : ExprTree) (t : Bytes) : Prop where
  sum : k ≤ 1 → ReadsAs 0 t tree.value
  product : k = 2 → tree.Product → ∀ (op : BinaryOp) (u : Bytes) (x : ℚ) (w w' : Bytes), op.prec = 2 →
    ReadsAs 1 u x → Blank w → Blank w' → ReadsAs 1 (t ++ w ++ op.char::w' ++ u) (op.apply tree.value x)
  chain : 2 ≤ k → ReadsAs 1 t tree.value
  factor : 3 ≤ k → (∀ a b, tree ≠ .bin .pow a b) → ReadsAs 2 t tree.value
  operand : 4 ≤ k → ReadsAs 2 t tree.value

/-- An operand can stand in every place. -/
theorem readsTree_operand (tree : ExprTree) (h : ReadsAs 2 t tree.value) (k : ℕ) : ReadsTree k tree t := by
  refine ⟨fun _ => .term (.operand h),fun _ _ op u x w w' hop hu hw hw' => ?_,fun _ => .operand h,fun _ _ => h,
    fun _ => h⟩
  exact .chain (hop ▸ by decide) h hu hw hw'

/-- A product goes on with an operator and a chain. -/
theorem mul_apply {op : BinaryOp} (hop : op.prec = 2) (a b x : ℚ) : a*op.apply b x = op.apply (a*b) x := by
  cases op with
  | mul => exact (mul_assoc a b x).symm
  | div => exact (mul_div_assoc a b x).symm
  | _ => cases hop

theorem Renders.reads {k : ℕ} {tree : ExprTree} (h : Renders k tree t) (hread : tree.Readable) :
    ReadsTree k tree t := by
  induction h with
  | num k l => exact readsTree_operand (.num l) (.num l) k
  | @bin k op a b t u w w' hk _ _ hw hw' iha ihb =>
    obtain ⟨hra,hrb,hproduct⟩ := hread
    have ha := iha hra
    have hb := ihb hrb
    have hpow : op = .pow → ReadsAs 1 (t ++ w ++ op.char::w' ++ u) (ExprTree.bin op a b).value := by
      rintro rfl
      exact .chain (by decide) (ha.operand (by decide)) (.operand (hb.operand (by decide))) hw hw'
    have hfactor : op.prec = 2 → ReadsAs 1 (t ++ w ++ op.char::w' ++ u) (ExprTree.bin op a b).value := by
      intro hop
      cases op with
      | mul => exact ha.product (by decide) (hproduct (.inl rfl)) .mul u _ w w' rfl (hb.chain (by decide)) hw hw'
      | div => exact ha.product (by decide) (hproduct (.inr rfl)) .div u _ w w' rfl (hb.chain (by decide)) hw hw'
      | _ => cases hop
    have hchain : 2 ≤ op.prec → ReadsAs 1 (t ++ w ++ op.char::w' ++ u) (ExprTree.bin op a b).value := by
      intro hop
      cases op with
      | mul => exact hfactor rfl
      | div => exact hfactor rfl
      | pow => exact hpow rfl
      | _ => exact absurd hop (by decide)
    refine ⟨fun _ => ?_,fun hk2 hprod op' u' x v v' hop' hu' hv hv' => ?_,fun hk2 => hchain (hk2.trans hk),
      fun hk3 hne => ?_,fun hk4 => ?_⟩
    · by_cases hop : 2 ≤ op.prec
      · exact .term (hchain hop)
      · cases op with
        | add => exact .sum rfl (ha.sum (by decide)) (hb.chain (by decide)) hw hw'
        | sub => exact .sum rfl (ha.sum (by decide)) (hb.chain (by decide)) hw hw'
        | _ => exact absurd (by decide) hop
    · cases op with
      | mul =>
        obtain ⟨hpa,hne⟩ := hprod
        have hinner : ReadsAs 1 (u ++ v ++ op'.char::v' ++ u') (op'.apply b.value x) :=
          .chain (hop' ▸ by decide) (hb.factor (by decide) hne) hu' hv hv'
        have houter := ha.product (by decide) hpa .mul _ _ w w' rfl hinner hw hw'
        have hshape : t ++ w ++ BinaryOp.mul.char::w' ++ u ++ v ++ op'.char::v' ++ u' =
            t ++ w ++ BinaryOp.mul.char::w' ++ (u ++ v ++ op'.char::v' ++ u') := by simp
        rw [hshape]
        have hvalue : BinaryOp.mul.apply a.value (op'.apply b.value x) =
            op'.apply (ExprTree.bin .mul a b).value x := mul_apply hop' _ _ _
        exact hvalue ▸ houter
      | div => exact hprod.elim
      | pow => exact hprod.elim
      | _ => exact absurd (hk2 ▸ hk) (by decide)
    · cases op with
      | pow => exact absurd rfl (hne a b)
      | _ => exact absurd (hk3.trans hk) (by decide)
    · cases op <;> exact absurd (hk4.trans hk) (by decide)
  | @paren k op a b t w w' hk _ hw hw' ih =>
    exact readsTree_operand (.bin op a b) (.paren ((ih hread).sum (Nat.zero_le 1)) hw hw') k

/-- Where in every chain of `*`, `/` and `^` a power comes last and a quotient last or in front of a power,
the value of the tree comes out. -/
theorem readRight_of_readable {tree : ExprTree} (h : tree.Readable) : ReadRight tree := by
  intro σ H s t w w' _ hrender hw hw'
  exact ((hrender.reads h).sum (Nat.zero_le 1)).top H hw hw' s

/-- The literal of one digit. -/
def digit (n : Fin 10) : Literal where
  digits := [48+UInt8.ofNat n]
  fraction := none
  ne_nil := List.cons_ne_nil _ _
  isdigit_digits c hc := by
    obtain rfl := List.mem_singleton.mp hc
    revert n
    decide
  isdigit_fraction := nofun

theorem readRight_sum : ReadRight (.bin .sub (.bin .mul (.num (digit 2)) (.num (digit 3))) (.num (digit 4))) :=
  readRight_of_readable ⟨⟨trivial,trivial,fun _ => trivial⟩,trivial,fun hop => absurd hop (by decide)⟩

/-- `8/4/2` is read as `8/(4/2)`. -/
theorem quotients_read_right :
    ¬ReadRight (.bin .div (.bin .div (.num (digit 8)) (.num (digit 4))) (.num (digit 2))) ∧
      (⟨fun _ _ => false,fun s _ _ => (0,s),fun s _ _ => s⟩ : ExprHost Unit).evalExpr () (str "8/4/2") = some 4 := by
  have hv (n : Fin 10) : (digit n).value = (n : ℕ) := by
    have hall : ∀ n : Fin 10, digitsValue 0 (digit n).digits = (n : ℕ) := by decide
    exact congrArg Nat.cast (hall n)
  let H : ExprHost Unit := ⟨fun _ _ => false,fun s _ _ => (0,s),fun s _ _ => s⟩
  have hnil : Blank [] := List.forall_mem_nil _
  have hread : ReadsAs 0 (str "8/4/2") ((digit 8).value/((digit 4).value/(digit 2).value)) := by
    have htext : str "8/4/2" = (digit 8).text ++ [] ++ BinaryOp.div.char::[] ++
        ((digit 4).text ++ [] ++ BinaryOp.div.char::[] ++ (digit 2).text) := by decide
    rw [htext]
    have hprec : 1 < BinaryOp.div.prec := by decide
    have hright : ReadsAs 1 _ ((digit 4).value/(digit 2).value) :=
      .chain hprec (.num (digit 4)) (.operand (.num (digit 2))) hnil hnil
    exact .term (.chain hprec (.num (digit 8)) hright hnil hnil)
  have htop := hread.top H hnil hnil ()
  have h8 : (digit 8).value = 8 := hv 8
  have h4 : (digit 4).value = 4 := hv 4
  have h2 : (digit 2).value = 2 := hv 2
  rw [List.nil_append,List.append_nil,h8,h4,h2] at htop
  constructor
  · intro h
    have hdefined : (ExprTree.bin .div (.bin .div (.num (digit 8)) (.num (digit 4))) (.num (digit 2))).Defined := by
      refine ⟨⟨trivial,trivial,?_⟩,trivial,?_⟩
      · change (digit 4).value ≠ 0
        rw [h4]
        norm_num
      · change (digit 2).value ≠ 0
        rw [h2]
        norm_num
    have hrender : Renders 0 (.bin .div (.bin .div (.num (digit 8)) (.num (digit 4))) (.num (digit 2)))
        (str "8/4/2") := by
      have htext : str "8/4/2" = ((digit 8).text ++ [] ++ BinaryOp.div.char::[] ++ (digit 4).text) ++ [] ++
          BinaryOp.div.char::[] ++ (digit 2).text := by decide
      rw [htext]
      exact .bin (by decide) (.bin (by decide) (.num _ _) (.num _ _) hnil hnil) (.num _ _) hnil hnil
    have hright := h Unit H () (str "8/4/2") [] [] hdefined hrender hnil hnil
    rw [List.nil_append,List.append_nil,htop] at hright
    have hvalue : (8 : ℚ)/(4/2) = (digit 8).value/(digit 4).value/(digit 2).value := congrArg Prod.fst hright
    rw [h8,h4,h2] at hvalue
    norm_num at hvalue
  · have hcstr : cstr (str "8/4/2") = str "8/4/2" := by decide
    have hne : str "8/4/2" ≠ [] := by decide
    rw [ExprHost.evalExpr,if_neg hne,hcstr,htop]
    norm_num

end
end Smx
