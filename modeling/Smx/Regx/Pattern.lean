import Smx.Regx.Compile
import Smx.Regx.Tree

/-! Regular expressions: what a pattern says, and what it is to match. -/
namespace Smx.Regx

/-- A regular expression. -/
inductive Pat
  | bol
  | eol
  | wordStart
  | wordEnd
  | any
  | chr (c : Byte)
  /-- a bracket: ranges of characters, or all others -/
  | cls (neg : Bool) (items : List (Byte × Byte))
  | empty
  | seq (p q : Pat)
  | alt (p q : Pat)
  | group (n : ℕ) (p : Pat)
  | star (p : Pat)
  | plus (p : Pat)
  | opt (p : Pat)

/-- A character is in one of the ranges. -/
def InClass (items : List (Byte × Byte)) (c : Byte) : Prop := ∃ r ∈ items, r.1 ≤ c ∧ c ≤ r.2

/-- The pattern takes the text `s` from `i` to `j`, through the marks of its groups. -/
inductive Path (s : Bytes) : Pat → ℕ → List Mark → ℕ → Prop
  | bol : Path s .bol 0 [] 0
  | eol : Path s .eol s.length [] s.length
  | wordStart {i : ℕ} (h : isword (s.getD i 0) = true) (hprev : i = 0 ∨ isword (s.getD (i-1) 0) = false) :
    Path s .wordStart i [] i
  | wordEnd {i : ℕ} (hi : i ≤ s.length) (h : isword (s.getD i 0) = false) : Path s .wordEnd i [] i
  | any {i : ℕ} (hi : i < s.length) : Path s .any i [] (i+1)
  | chr {c : Byte} {i : ℕ} (h : s[i]? = some c) : Path s (.chr c) i [] (i+1)
  | cls {neg : Bool} {items : List (Byte × Byte)} {c : Byte} {i : ℕ} (h : s[i]? = some c)
    (hc : InClass items c ↔ neg = false) : Path s (.cls neg items) i [] (i+1)
  | empty {i : ℕ} (hi : i ≤ s.length) : Path s .empty i [] i
  | seq {p q : Pat} {i j k : ℕ} {ms ms' : List Mark} (hp : Path s p i ms j) (hq : Path s q j ms' k) :
    Path s (.seq p q) i (ms ++ ms') k
  | altLeft {p q : Pat} {i j : ℕ} {ms : List Mark} (hp : Path s p i ms j) : Path s (.alt p q) i ms j
  | altRight {p q : Pat} {i j : ℕ} {ms : List Mark} (hq : Path s q i ms j) : Path s (.alt p q) i ms j
  | group {n : ℕ} {p : Pat} {i j : ℕ} {ms : List Mark} (hp : Path s p i ms j) :
    Path s (.group n p) i (.start n i::ms ++ [.stop n j]) j
  | starNil {p : Pat} {i : ℕ} (hi : i ≤ s.length) : Path s (.star p) i [] i
  | starCons {p : Pat} {i j k : ℕ} {ms ms' : List Mark} (hp : Path s p i ms j)
    (hq : Path s (.star p) j ms' k) : Path s (.star p) i (ms ++ ms') k
  | plus {p : Pat} {i j k : ℕ} {ms ms' : List Mark} (hp : Path s p i ms j) (hq : Path s (.star p) j ms' k) :
    Path s (.plus p) i (ms ++ ms') k
  | optNone {p : Pat} {i : ℕ} (hi : i ≤ s.length) : Path s (.opt p) i [] i
  | optSome {p : Pat} {i j : ℕ} {ms : List Mark} (hp : Path s p i ms j) : Path s (.opt p) i ms j

/-- The text from `i` to `j` matches. -/
def Matches (s : Bytes) (p : Pat) (i j : ℕ) : Prop := ∃ ms, Path s p i ms j

/-- A character for itself, quoted or not. -/
inductive Lit : Bytes → Byte → Bytes → Prop
  | plain {c : Byte} {t : Bytes} (hc : ismagic c = false) (hm : ismult c = false) (hb : c ≠ ch '\\') :
    Lit (c::t) c t
  | quoted {c : Byte} {t : Bytes} (hl : c ≠ ch '<') (hr : c ≠ ch '>') : Lit (ch '\\'::c::t) c t

/-- Characters and ranges up to a `]`. A `-` stands for itself in front of it, and otherwise makes a range
of the characters at its sides. -/
inductive Items : Byte → Bytes → List (Byte × Byte) → Bytes → Prop
  | stop {prev : Byte} {t : Bytes} : Items prev (ch ']'::t) [] t
  | dash {prev : Byte} {t : Bytes} : Items prev (ch '-'::ch ']'::t) [(ch '-',ch '-')] t
  | range {prev d : Byte} {t t' : Bytes} {items : List (Byte × Byte)} (hd : d ≠ ch ']') (hle : prev ≤ d)
    (h : Items d t items t') : Items prev (ch '-'::d::t) ((prev,d)::items) t'
  | chr {prev c : Byte} {t t' : Bytes} {items : List (Byte × Byte)} (hc : c ≠ ch ']') (hd : c ≠ ch '-')
    (h : Items c t items t') : Items prev (c::t) ((c,c)::items) t'

/-- The inside of a bracket, where a `]` or `-` at the start stands for itself. -/
inductive Bracket : Bytes → List (Byte × Byte) → Bytes → Prop
  | first {c : Byte} {t t' : Bytes} {items : List (Byte × Byte)} (hc : c = ch ']' ∨ c = ch '-')
    (h : Items c t items t') : Bracket (c::t) ((c,c)::items) t'
  | other {c : Byte} {t t' : Bytes} {items : List (Byte × Byte)} (hc : c ≠ ch ']' ∧ c ≠ ch '-')
    (h : Items (ch '[') (c::t) items t') : Bracket (c::t) items t'

/-- Nothing of an alternative is left. -/
def Ends (t : Bytes) : Prop := t = [] ∨ ∃ c ∈ [ch ')',ch '|',ch '\n'], t.head? = some c

/-- No `*`, `+` or `?` follows. -/
def NoMult (t : Bytes) : Prop := ismult (t.headD 0) = false

inductive Kind
  | atom
  | piece
  | branch
  | regex

/-- The grammar. A text begins with an expression of a kind, behind which another is left; groups are
numbered from `n` on, and the next one is `m`. -/
inductive Reads : Kind → ℕ → Bytes → Pat → ℕ → Bytes → Prop
  | bol {n : ℕ} {t : Bytes} : Reads .atom n (ch '^'::t) .bol n t
  | eol {n : ℕ} {t : Bytes} : Reads .atom n (ch '$'::t) .eol n t
  | any {n : ℕ} {t : Bytes} : Reads .atom n (ch '.'::t) .any n t
  | cls {n : ℕ} {t t' : Bytes} {items : List (Byte × Byte)} (hc : t.head? ≠ some (ch '^'))
    (h : Bracket t items t') : Reads .atom n (ch '['::t) (.cls false items) n t'
  | but {n : ℕ} {t t' : Bytes} {items : List (Byte × Byte)} (h : Bracket t items t') :
    Reads .atom n (ch '['::ch '^'::t) (.cls true items) n t'
  | group {n m : ℕ} {t t' : Bytes} {p : Pat} (h : Reads .regex (n+1) t p m (ch ')'::t')) :
    Reads .atom n (ch '('::t) (.group n p) m t'
  | wordStart {n : ℕ} {t : Bytes} : Reads .atom n (ch '\\'::ch '<'::t) .wordStart n t
  | wordEnd {n : ℕ} {t : Bytes} : Reads .atom n (ch '\\'::ch '>'::t) .wordEnd n t
  | lit {n : ℕ} {t t' : Bytes} {c : Byte} (h : Lit t c t') : Reads .atom n t (.chr c) n t'
  | once {n m : ℕ} {t t' : Bytes} {p : Pat} (h : Reads .atom n t p m t') (hm : NoMult t') :
    Reads .piece n t p m t'
  | star {n m : ℕ} {t t' : Bytes} {p : Pat} (h : Reads .atom n t p m (ch '*'::t')) (hm : NoMult t') :
    Reads .piece n t (.star p) m t'
  | starLazy {n m : ℕ} {t t' : Bytes} {p : Pat} (h : Reads .atom n t p m (ch '*'::ch '?'::t'))
    (hm : NoMult t') : Reads .piece n t (.star p) m t'
  | plus {n m : ℕ} {t t' : Bytes} {p : Pat} (h : Reads .atom n t p m (ch '+'::t')) (hm : NoMult t') :
    Reads .piece n t (.plus p) m t'
  | plusLazy {n m : ℕ} {t t' : Bytes} {p : Pat} (h : Reads .atom n t p m (ch '+'::ch '?'::t'))
    (hm : NoMult t') : Reads .piece n t (.plus p) m t'
  | opt {n m : ℕ} {t t' : Bytes} {p : Pat} (h : Reads .atom n t p m (ch '?'::t')) (hm : NoMult t') :
    Reads .piece n t (.opt p) m t'
  | stop {n : ℕ} {t : Bytes} (h : Ends t) : Reads .branch n t .empty n t
  | more {n m k : ℕ} {t t' t'' : Bytes} {p q : Pat} (hn : ¬Ends t) (hp : Reads .piece n t p m t')
    (hq : Reads .branch m t' q k t'') : Reads .branch n t (.seq p q) k t''
  | last {n m : ℕ} {t t' : Bytes} {p : Pat} (h : Reads .branch n t p m t')
    (ht : ∀ c, t'.head? = some c → c ≠ ch '|' ∧ c ≠ ch '\n') : Reads .regex n t p m t'
  | alt {n m k : ℕ} {c : Byte} {t t' t'' : Bytes} {p q : Pat} (hp : Reads .branch n t p m (c::t'))
    (hc : c = ch '|' ∨ c = ch '\n') (hq : Reads .regex m t' q k t'') : Reads .regex n t (.alt p q) k t''

/-- What a whole pattern says. -/
def Says (exp : Bytes) (p : Pat) : Prop := ∃ m, Reads .regex 1 exp p m []

end Smx.Regx
