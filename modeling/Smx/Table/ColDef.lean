import Mathlib.Data.List.Chain
import Mathlib.Logic.Relation
import Smx.Math.Itoa

/-! `CTabFmt::ColDef`: the format string of a column, read specifier by specifier. -/
namespace Smx

/-- `ColFmt` -/
structure ColFmt where
  hdr : Byte := 0
  pre : Byte := 0
  pad : Byte := 0
  wid : ℤ := 0
  spc : ℤ := 0
  sum : Byte := 0
  dec : ℤ := 0
  dch : Byte := 0
  trz : ℤ := 0
  tho : Byte := 0
  rgb : ℤ := 0
  neg : ℤ := 0
  zer : Byte := 0
  att : ℕ := 0
  pos : Byte := 0
  tdx : Option Bytes := none
  tdn : ℤ := 0
  deriving DecidableEq

def ATT_U : ℕ := 1
def ATT_B : ℕ := 2
def ATT_I : ℕ := 4
def ATT_NULL : ℕ := 32

/-- The digits in front as a number, and what is behind them; for base 0 the base comes from the text. -/
def numberAt (base : ℕ) (t : Bytes) : ℕ × Bytes :=
  if base = 0 then readDigits t
  else (readIn base t,(skip0x base t).dropWhile fun c => digitOf c < base)

/-- `strtol(s, &e, base)` as an `int`, and `e`. Without a number `e` is `s`. -/
def strtolEnd (base : ℕ) (s : Bytes) : ℤ × Bytes :=
  let t := s.dropWhile isspace
  let neg := t.head? = some (ch '-')
  let t := if t.head? = some (ch '-') ∨ t.head? = some (ch '+') then t.tail else t
  let (n,e) := numberAt base t
  if e.length = t.length then (0,s)
  else (int32 (if neg then max (-2^63) (-n) else min (2^63-1) n),e)

/-- `if (p[1] == '=') ++p;` and the `++p` behind it. -/
def skipEq (p : Bytes) : Bytes := if p.head? = some (ch '=') then p.tail else p

/-- The loop of `parseqstr` behind a pair of quotes: what it copies, and where it stops. -/
def copyQuoted : ℕ → Bytes → Bytes × Bytes
  | 0,u => ([],u)
  | n+1,u =>
    let c := u.takeWhile (· != T_SQ)
    match u.dropWhile (· != T_SQ) with
    | q::r::v =>
      if r = T_SQ then
        -- the next round begins at the second quote of the pair
        let (more,ep) := copyQuoted n (r::v)
        (c ++ more,ep)
      else (c,q::r::v)
    | ep => (c,ep)

/-- `parseqstr`, behind the quote: the text, and where it stops. -/
def parseqstr (t : Bytes) : Bytes × Bytes :=
  let c := t.takeWhile (· != T_SQ)
  match t.dropWhile (· != T_SQ) with
  | q::r::v =>
    if r = T_SQ then
      let (more,ep) := copyQuoted v.length.succ v
      (c ++ q::more,ep)
    else (c,q::r::v)
  | ep => (c,ep)

/-- One round of the loop at the character `c`: what is left of the string, unless its end is passed. -/
def colStep (c : Byte) (p : Bytes) (col : ColFmt) : Option (Bytes × ColFmt) :=
  if c = ch 'r' ∨ c = ch 'l' ∨ c = ch 'c' ∨ c = ch 'd' then
    -- after `++p` the letter is read again, and it is the `=`
    let pad := if p.head? = some (ch '=') then ch '=' else c
    let n := strtolEnd 0 (skipEq p)
    some (n.2,{ col with pad := pad, wid := n.1 })
  else if c = ch '.' then
    let n := strtolEnd 0 (skipEq p)
    some (n.2,{ col with dec := n.1 })
  else if c = ch '$' then some (p,{ col with pre := ch '$' })
  else if c = ch '%' then some (p,{ col with pos := ch '%' })
  else if c = ch 'p' then
    let n := strtolEnd 0 (skipEq p)
    some (n.2,{ col with spc := n.1 })
  else if c = ch 'f' then
    let n := strtolEnd 16 (skipEq p)
    some (n.2,{ col with rgb := n.1 })
  else if c = ch 'z' then some (skipEq p,{ col with zer := (skipEq p).headD 0 })
  else if c = ch 'n' then
    let n := strtolEnd 16 (skipEq p)
    some (n.2,{ col with neg := n.1 })
  else if c = ch 's' then some (p,{ col with sum := ch 's' })
  else if c = ch 'h' then some (p,{ col with hdr := ch 'h' })
  else if c = ch 'u' then some (p,{ col with att := col.att ||| ATT_U })
  else if c = ch 'b' then some (p,{ col with att := col.att ||| ATT_B })
  else if c = ch 'i' then some (p,{ col with att := col.att ||| ATT_I })
  else if c = ch '!' then some (p,{ col with att := col.att ||| ATT_NULL })
  else if c = ch ',' ∨ c = ch ';' then
    match (if p.head? = some (ch '=') then p.tail else c::p) with
    | [] => none
    | d::rest => some (rest,{ col with tho := if d = ch '0' then 0 else d })
  else if c = ch 't' then
    match skipEq p with
    | d::rest =>
      if isdigit d then some (rest,{ col with trz := int32 ((strtolEnd 0 (d::rest)).1+1) })
      else some (d::rest,{ col with trz := 1 })
    | [] => some ([],{ col with trz := 1 })
  else if c = T_SQ then
    let (text,ep) := parseqstr p
    some (if ep.head? = some T_SQ then ep.tail else ep,
      { col with tdx := some text, tdn := (text.length : ℤ).bmod 256 })
  else some (p,col)

def colLoop : ℕ → Bytes → ColFmt → Option ColFmt
  | _,[],col => some col
  | 0,_::_,_ => none
  | n+1,c::p,col => (colStep c p col).bind fun r => colLoop n r.1 r.2

/-- `ColDef`; `none` where it reads behind the end of its string. -/
def colDef (col : ColFmt) (fmt : Bytes) : Option ColFmt := colLoop fmt.length fmt { col with dec := -1 }

example : colDef {} (str "l20.2,z-fFF00s'it''s'") = some
    { pad := ch 'l', wid := 20, dec := 2, tho := ch ',', zer := ch '-', rgb := 0xFF00, sum := ch 's',
      tdx := some (str "it's"), tdn := 4 } := by decide +kernel

example : colDef {} (str "r=8,=") = none := by decide +kernel

/-! ### The specifiers -/

inductive Align
  | right
  | left
  | center
  | decimal
  deriving DecidableEq

def Align.letter : Align → Byte
  | .right => ch 'r'
  | .left => ch 'l'
  | .center => ch 'c'
  | .decimal => ch 'd'

/-- What stands in a numeric column for zero. -/
inductive ZeroMark
  | zero
  | dash
  | empty
  deriving DecidableEq

def ZeroMark.letter : ZeroMark → Byte
  | .zero => ch '0'
  | .dash => ch '-'
  | .empty => ch '_'

/-- A number that is an `int`, written in decimal digits. -/
structure DecNum where
  num : ℕ
  lt : num < 2^31

def DecNum.text (n : DecNum) : Bytes := decDigits n.num

/-- A number that is an `int`, as it is written in hexadecimal digits. -/
structure HexNum where
  text : Bytes
  ne_nil : text ≠ []
  hex : ∀ c ∈ text, digitOf c < 16
  lt : readIn 16 text < 2^31

def HexNum.num (n : HexNum) : ℕ := readIn 16 n.text

/-- The documented specifiers; `eq` is the `=` in front of the value. -/
inductive Spec
  | align (a : Align) (eq : Bool) (wid : DecNum)
  | decimals (eq : Bool) (n : DecNum)
  | currency
  | percent
  | pad (eq : Bool) (n : DecNum)
  | color (eq : Bool) (n : HexNum)
  | zero (eq : Bool) (mark : ZeroMark)
  | negative (eq : Bool) (n : HexNum)
  | sum
  | header
  | underline
  | bold
  | italic
  | null
  /-- `,` alone, or the separator behind `,=`. -/
  | thousands (sep : Option {c : Byte // c ≠ 0})
  /-- `t`, or the number of decimals that stay. -/
  | trim (eq : Bool) (n : Option {n : DecNum // n.num+1 < 2^31})
  | quoted (content : {t : Bytes // 0 ∉ t})

def eqText (eq : Bool) : Bytes := if eq then [ch '='] else []

/-- A text with each of its quotes doubled. -/
def quoteDoubled (content : Bytes) : Bytes := content.flatMap fun c => if c = T_SQ then [T_SQ,T_SQ] else [c]

namespace Spec

def text : Spec → Bytes
  | align a eq wid => a.letter::(eqText eq ++ wid.text)
  | decimals eq n => ch '.'::(eqText eq ++ n.text)
  | currency => [ch '$']
  | percent => [ch '%']
  | pad eq n => ch 'p'::(eqText eq ++ n.text)
  | color eq n => ch 'f'::(eqText eq ++ n.text)
  | zero eq mark => ch 'z'::(eqText eq ++ [mark.letter])
  | negative eq n => ch 'n'::(eqText eq ++ n.text)
  | sum => [ch 's']
  | header => [ch 'h']
  | underline => [ch 'u']
  | bold => [ch 'b']
  | italic => [ch 'i']
  | null => [ch '!']
  | thousands none => [ch ',']
  | thousands (some sep) => [ch ',',ch '=',sep.val]
  | trim eq none => ch 't'::eqText eq
  | trim eq (some n) => ch 't'::(eqText eq ++ n.val.text)
  | quoted content => T_SQ::(quoteDoubled content.val ++ [T_SQ])

/-- What a specifier says about the column. -/
def apply (col : ColFmt) : Spec → ColFmt
  | align a _ wid => { col with pad := a.letter, wid := wid.num }
  | decimals _ n => { col with dec := n.num }
  | currency => { col with pre := ch '$' }
  | percent => { col with pos := ch '%' }
  | pad _ n => { col with spc := n.num }
  | color _ n => { col with rgb := n.num }
  | zero _ mark => { col with zer := mark.letter }
  | negative _ n => { col with neg := n.num }
  | sum => { col with sum := ch 's' }
  | header => { col with hdr := ch 'h' }
  | underline => { col with att := col.att ||| ATT_U }
  | bold => { col with att := col.att ||| ATT_B }
  | italic => { col with att := col.att ||| ATT_I }
  | null => { col with att := col.att ||| ATT_NULL }
  | thousands none => { col with tho := ch ',' }
  | thousands (some sep) => { col with tho := if sep.val = ch '0' then 0 else sep.val }
  | trim _ none => { col with trz := 1 }
  | trim _ (some n) => { col with trz := n.val.num+1 }
  | quoted content => { col with tdx := some content.val, tdn := content.val.length }

/-- The specifier ends with a hexadecimal number. -/
def EndsHex : Spec → Bool
  | color _ _ => true
  | negative _ _ => true
  | _ => false

/-- The letter of the specifier is a hexadecimal digit. -/
def BeginsHex : Spec → Bool
  | align .center _ _ => true
  | align .decimal _ _ => true
  | color _ _ => true
  | bold => true
  | _ => false

def IsQuoted : Spec → Bool
  | quoted _ => true
  | _ => false

/-- A quoted text has one quote at most. -/
def OneQuote : Spec → Prop
  | quoted content => content.val.count T_SQ ≤ 1
  | _ => True

/-- Whether an alignment has an `=`. -/
def alignEq : Spec → Option Bool
  | align _ eq _ => some eq
  | _ => none

def content : Spec → Option Bytes
  | quoted content => some content.val
  | _ => none

def IsDecimals : Spec → Bool
  | decimals _ _ => true
  | _ => false

end Spec

/-- The string of a sequence of specifiers. -/
def specText (specs : List Spec) : Bytes := specs.flatMap Spec.text

/-- No number runs on into the next specifier, no quoted text into another, and none has two quotes. -/
def SpecsApart (specs : List Spec) : Prop :=
  specs.IsChain (fun s s' => ¬(s.EndsHex ∧ s'.BeginsHex) ∧ ¬(s.IsQuoted ∧ s'.IsQuoted)) ∧ ∀ s ∈ specs, s.OneQuote

/-- Each field has the value of its last specifier, and the others are as they were. -/
def SetsFields (specs : List Spec) (col : ColFmt) : Prop := colDef col (specText specs) = some (specs.foldl Spec.apply col)

/-- The last alignment has no `=`, the last quoted text is not longer than a `char` can count, and the decimals are
given, or were the default. -/
structure LastRight (specs : List Spec) (col : ColFmt) : Prop where
  align : ∀ eq ∈ (specs.filterMap Spec.alignEq).getLast?, eq = false
  quoted : ∀ t ∈ (specs.filterMap Spec.content).getLast?, t.length < 128
  decimals : col.dec = -1 ∨ ∃ s ∈ specs, s.IsDecimals

/-- The cursor of the loop comes to a place in the string. -/
inductive Comes : Bytes → Bytes → Prop
  | here (p : Bytes) : Comes p p
  | step {c : Byte} {p q r : Bytes} {col : ColFmt} : colStep c p {} = some (q,col) → Comes q r → Comes (c::p) r

section
variable {n : ℕ} {c : Byte} {p rest t : Bytes} {col col' : ColFmt}

/-! ### Numbers -/

theorem strtolEnd_eq (base : ℕ) {e : Bytes} (hc : isspace c = false) (hm : c ≠ ch '-') (hp : c ≠ ch '+')
    (h : numberAt base (c::t) = (n,e)) (hlt : n < 2^31) (hend : e.length ≤ t.length) :
    strtolEnd base (c::t) = ((n : ℤ),e) := by
  have hdrop : (c::t).dropWhile isspace = c::t := List.dropWhile_cons_of_neg (by simp [hc])
  have hlen : ¬e.length = t.length+1 := by omega
  have hint : int32 (min (2^63-1) (n : ℤ)) = n := by
    rw [min_eq_right (by omega)]
    exact int32_of_mem (by omega)
  norm_num at hint
  simp [strtolEnd,hdrop,hm,hp,h,hlen,hint]

/-- The letters that specifiers begin with. -/
def specHeads : Bytes := str "rlcd.$%pfznshubi!,t'"

/-- What stands behind a specifier. -/
def Behind (rest : Bytes) : Prop := ∀ c ∈ rest.head?, c ∈ specHeads

theorem plain_of_head (h : c ∈ specHeads) : isdigit c = false ∧ c ≠ ch 'x' ∧ c ≠ ch 'X' ∧ c ≠ ch '=' := by
  have hall : (specHeads.all fun c => !isdigit c && c != ch 'x' && c != ch 'X' && c != ch '=') = true := rfl
  have hc := List.all_eq_true.mp hall c h
  simpa [and_assoc] using hc

theorem skipEq_eqText (eq : Bool) (h : t.head? ≠ some (ch '=')) : skipEq (eqText eq ++ t) = t := by
  cases eq with
  | true => rfl
  | false => exact if_neg h

theorem strtolEnd_decNum (num : DecNum) (hrest : Behind rest) :
    strtolEnd 0 (num.text ++ rest) = ((num.num : ℤ),rest) := by
  obtain ⟨d,ds,hcons⟩ := List.exists_cons_of_ne_nil (decDigits_ne_nil num.num)
  have hd : isdigit d = true := (decDigits_spec num.num).1 d (by rw [hcons]; exact List.mem_cons_self)
  have hread : readDigits (decDigits num.num ++ rest) = (num.num,rest) := by
    apply readDigits_decDigits
    intro c hc
    have hplain := plain_of_head (hrest c hc)
    exact ⟨hplain.1,hplain.2.1,hplain.2.2.1⟩
  have hlen : rest.length ≤ (ds ++ rest).length := by
    rw [List.length_append]
    exact Nat.le_add_left _ _
  rw [hcons] at hread
  obtain ⟨hspace,hm,hp⟩ := digits_plain hd
  rw [DecNum.text,hcons]
  exact strtolEnd_eq 0 hspace hm hp hread num.lt hlen

theorem skip0x_eq (h : ∀ z x v, t = z::x::v → x ≠ ch 'x' ∧ x ≠ ch 'X') : skip0x 16 t = t := by
  unfold skip0x
  split
  · next z x d v =>
    obtain ⟨hx,hx'⟩ := h z x (d::v) rfl
    exact if_neg fun h => h.2.2.1.elim hx hx'
  · rfl

theorem strtolEnd_hexNum (num : HexNum) (hrest : Behind rest) (hhex : ∀ c ∈ rest.head?, 16 ≤ digitOf c) :
    strtolEnd 16 (num.text ++ rest) = ((num.num : ℤ),rest) := by
  obtain ⟨t,hne,ht,hlt⟩ := num
  rw [HexNum.num]
  cases t with
  | nil => exact absurd rfl hne
  | cons d t =>
    have hskip : skip0x 16 (d::t ++ rest) = d::t ++ rest := by
      apply skip0x_eq
      intro z x v heq
      cases t with
      | nil =>
        obtain ⟨-,rfl⟩ := List.cons.inj heq
        have hplain := plain_of_head (hrest x rfl)
        exact ⟨hplain.2.1,hplain.2.2.1⟩
      | cons x' t =>
        obtain ⟨-,hcons⟩ := List.cons.inj heq
        have hx : digitOf x < 16 := by
          rw [← (List.cons.inj hcons).1]
          exact ht x' (by simp)
        constructor <;> rintro rfl <;> exact absurd hx (by decide)
    have hstop : (d::t ++ rest).takeWhile (fun c => decide (digitOf c < 16)) = d::t ∧
        (d::t ++ rest).dropWhile (fun c => decide (digitOf c < 16)) = rest :=
      takeWhile_stop (fun c hc => decide_eq_true (ht c hc)) (fun c hc => decide_eq_false (hhex c hc).not_gt)
    have hself : (d::t).takeWhile (fun c => decide (digitOf c < 16)) = d::t :=
      List.takeWhile_eq_self_iff.mpr fun c hc => decide_eq_true (ht c hc)
    have hnumber : numberAt 16 (d::t ++ rest) = (readIn 16 (d::t),rest) := by
      rw [numberAt,if_neg (by decide),readIn,readIn,hskip,skip0x_digits ht,hstop.1,hstop.2,hself]
    have hlen : rest.length ≤ (t ++ rest).length := by
      rw [List.length_append]
      exact Nat.le_add_left _ _
    obtain ⟨hspace,hm,hp⟩ := plain_of_digitOf ((ht d List.mem_cons_self).trans (by decide : 16 < 36))
    exact strtolEnd_eq 16 hspace hm hp hnumber hlt hlen

/-! ### Quoted texts -/

theorem quoteDoubled_of_plain (h : T_SQ ∉ t) : quoteDoubled t = t := by
  induction t with
  | nil => rfl
  | cons c t ih =>
    obtain ⟨hc,ht⟩ := not_or.mp (mt List.mem_cons.mpr h)
    rw [quoteDoubled,List.flatMap_cons,if_neg (Ne.symm hc)]
    exact congrArg (c::·) (ih ht)

theorem span_quote (h : T_SQ ∉ t) (rest : Bytes) : (t ++ T_SQ::rest).takeWhile (· != T_SQ) = t ∧
    (t ++ T_SQ::rest).dropWhile (· != T_SQ) = T_SQ::rest := by
  apply takeWhile_stop
  · intro c hc
    simpa using ne_of_mem_of_not_mem hc h
  · rintro c ⟨⟩
    simp

theorem copyQuoted_eq (h : T_SQ ∉ t) (hrest : rest.head? ≠ some T_SQ) (n : ℕ) :
    copyQuoted (n+1) (t ++ T_SQ::rest) = (t,T_SQ::rest) := by
  obtain ⟨htake,hdrop⟩ := span_quote h rest
  rw [copyQuoted,htake,hdrop]
  cases rest with
  | nil => rfl
  | cons r rest => exact if_neg fun hr => hrest (congrArg some hr)

theorem parseqstr_plain (h : T_SQ ∉ t) (hrest : rest.head? ≠ some T_SQ) :
    parseqstr (t ++ T_SQ::rest) = (t,T_SQ::rest) := by
  obtain ⟨htake,hdrop⟩ := span_quote h rest
  rw [parseqstr,htake,hdrop]
  cases rest with
  | nil => rfl
  | cons r rest => exact if_neg fun hr => hrest (congrArg some hr)

theorem parseqstr_quote {u : Bytes} (ht : T_SQ ∉ t) (hu : T_SQ ∉ u) (hrest : rest.head? ≠ some T_SQ) :
    parseqstr (t ++ T_SQ::T_SQ::(u ++ T_SQ::rest)) = (t ++ T_SQ::u,T_SQ::rest) := by
  obtain ⟨htake,hdrop⟩ := span_quote ht (T_SQ::(u ++ T_SQ::rest))
  rw [parseqstr,htake,hdrop]
  simp only [if_true,copyQuoted_eq hu hrest]

/-- A quoted text with one quote at most is read back. -/
theorem parseqstr_eq (h : t.count T_SQ ≤ 1) (hrest : rest.head? ≠ some T_SQ) :
    parseqstr (quoteDoubled t ++ T_SQ::rest) = (t,T_SQ::rest) := by
  by_cases hmem : T_SQ ∈ t
  · obtain ⟨a,b,rfl,ha⟩ := List.eq_append_cons_of_mem hmem
    have hb : T_SQ ∉ b := by
      rw [List.count_append,List.count_cons_self] at h
      exact List.count_eq_zero.mp (by omega)
    have htext : quoteDoubled (a ++ T_SQ::b) = a ++ T_SQ::T_SQ::b := by
      have hparts : quoteDoubled (a ++ T_SQ::b) = quoteDoubled a ++ T_SQ::T_SQ::quoteDoubled b := by
        simp [quoteDoubled]
      rw [hparts,quoteDoubled_of_plain ha,quoteDoubled_of_plain hb]
    have hshape : a ++ T_SQ::T_SQ::b ++ T_SQ::rest = a ++ T_SQ::T_SQ::(b ++ T_SQ::rest) := by simp
    rw [htext,hshape,parseqstr_quote ha hb hrest]
  · rw [quoteDoubled_of_plain hmem,parseqstr_plain hmem hrest]

/-! ### One specifier -/

/-- One round of the loop. -/
def ColMove (s s' : Bytes × ColFmt) : Prop := ∃ c p, s.1 = c::p ∧ colStep c p s.2 = some s'

/-- What `ColDef` makes of a specifier. -/
def Spec.done (col : ColFmt) : Spec → ColFmt
  | .align a eq wid => { col with pad := if eq then ch '=' else a.letter, wid := wid.num }
  | .quoted content => { col with tdx := some content.val, tdn := (content.val.length : ℤ).bmod 256 }
  | s => s.apply col

theorem colMove_of_step {q : Bytes} (h : colStep c p col = some (q,col')) : ColMove (c::p,col) (q,col') := ⟨c,p,rfl,h⟩

theorem reads_of_step {q : Bytes} (h : colStep c p col = some (q,col')) :
    Relation.ReflTransGen ColMove (c::p,col) (q,col') := .single (colMove_of_step h)

theorem decNum_head_ne (num : DecNum) (rest : Bytes) : (num.text ++ rest).head? ≠ some (ch '=') := by
  obtain ⟨d,ds,hcons⟩ := List.exists_cons_of_ne_nil (decDigits_ne_nil num.num)
  have hd : isdigit d = true := (decDigits_spec num.num).1 d (by rw [hcons]; exact List.mem_cons_self)
  rw [DecNum.text,hcons]
  rintro ⟨rfl⟩
  exact absurd hd (by decide)

theorem hexNum_head_ne (num : HexNum) (rest : Bytes) : (num.text ++ rest).head? ≠ some (ch '=') := by
  obtain ⟨d,ds,hcons⟩ := List.exists_cons_of_ne_nil num.ne_nil
  have hd := num.hex d (by rw [hcons]; exact List.mem_cons_self)
  rw [hcons]
  rintro ⟨rfl⟩
  exact absurd hd (by decide)

theorem colStep_align (a : Align) (eq : Bool) (num : DecNum) (hrest : Behind rest) :
    colStep a.letter (eqText eq ++ (num.text ++ rest)) col =
      some (rest,{ col with pad := if eq then ch '=' else a.letter, wid := num.num }) := by
  have hletter : a.letter = ch 'r' ∨ a.letter = ch 'l' ∨ a.letter = ch 'c' ∨ a.letter = ch 'd' := by
    cases a <;> simp [Align.letter]
  have hpad : (if (eqText eq ++ (num.text ++ rest)).head? = some (ch '=') then ch '=' else a.letter) =
      if eq then ch '=' else a.letter := by
    cases eq with
    | true => rfl
    | false => exact if_neg (decNum_head_ne num rest)
  rw [colStep,if_pos hletter]
  simp only [skipEq_eqText eq (decNum_head_ne num rest),strtolEnd_decNum num hrest,hpad]

theorem colStep_decimals (p : Bytes) (col : ColFmt) : colStep (ch '.') p col =
    some ((strtolEnd 0 (skipEq p)).2,{ col with dec := (strtolEnd 0 (skipEq p)).1 }) := rfl

theorem colStep_pad (p : Bytes) (col : ColFmt) : colStep (ch 'p') p col =
    some ((strtolEnd 0 (skipEq p)).2,{ col with spc := (strtolEnd 0 (skipEq p)).1 }) := rfl

theorem colStep_color (p : Bytes) (col : ColFmt) : colStep (ch 'f') p col =
    some ((strtolEnd 16 (skipEq p)).2,{ col with rgb := (strtolEnd 16 (skipEq p)).1 }) := rfl

theorem colStep_negative (p : Bytes) (col : ColFmt) : colStep (ch 'n') p col =
    some ((strtolEnd 16 (skipEq p)).2,{ col with neg := (strtolEnd 16 (skipEq p)).1 }) := rfl

theorem colStep_quoted (p : Bytes) (col : ColFmt) : colStep T_SQ p col =
    some (if (parseqstr p).2.head? = some T_SQ then (parseqstr p).2.tail else (parseqstr p).2,
      { col with tdx := some (parseqstr p).1, tdn := ((parseqstr p).1.length : ℤ).bmod 256 }) := rfl

theorem colStep_zero (eq : Bool) (mark : ZeroMark) (rest : Bytes) (col : ColFmt) :
    colStep (ch 'z') (eqText eq ++ mark.letter::rest) col =
      some (mark.letter::rest,{ col with zer := mark.letter }) := by
  cases eq <;> cases mark <;> rfl

theorem colStep_mark (mark : ZeroMark) (rest : Bytes) (col : ColFmt) :
    colStep mark.letter rest col = some (rest,col) := by
  cases mark <;> rfl

/-- The cursor is left at the mark, which is then passed as an unknown character. -/
theorem reads_zero (eq : Bool) (mark : ZeroMark) (rest : Bytes) (col : ColFmt) :
    Relation.ReflTransGen ColMove (ch 'z'::(eqText eq ++ mark.letter::rest),col)
      (rest,{ col with zer := mark.letter }) :=
  .head (colMove_of_step (colStep_zero eq mark rest col)) (reads_of_step (colStep_mark mark rest _))

theorem colStep_digit (hc : isdigit c = true) (p : Bytes) (col : ColFmt) : colStep c p col = some (p,col) := by
  have hne : ∀ d, isdigit d = false → c ≠ d := by
    rintro d hd rfl
    rw [hc] at hd
    cases hd
  simp [colStep,hne _ (rfl : isdigit (ch 'r') = false),hne _ (rfl : isdigit (ch 'l') = false),
    hne _ (rfl : isdigit (ch 'c') = false),hne _ (rfl : isdigit (ch 'd') = false),
    hne _ (rfl : isdigit (ch '.') = false),hne _ (rfl : isdigit (ch '$') = false),
    hne _ (rfl : isdigit (ch '%') = false),hne _ (rfl : isdigit (ch 'p') = false),
    hne _ (rfl : isdigit (ch 'f') = false),hne _ (rfl : isdigit (ch 'z') = false),
    hne _ (rfl : isdigit (ch 'n') = false),hne _ (rfl : isdigit (ch 's') = false),
    hne _ (rfl : isdigit (ch 'h') = false),hne _ (rfl : isdigit (ch 'u') = false),
    hne _ (rfl : isdigit (ch 'b') = false),hne _ (rfl : isdigit (ch 'i') = false),
    hne _ (rfl : isdigit (ch '!') = false),hne _ (rfl : isdigit (ch ',') = false),
    hne _ (rfl : isdigit (ch ';') = false),hne _ (rfl : isdigit (ch 't') = false),
    hne _ (rfl : isdigit T_SQ = false)]

/-- Digits are passed as unknown characters. -/
theorem reads_digits (ht : ∀ c ∈ t, isdigit c = true) (rest : Bytes) (col : ColFmt) :
    Relation.ReflTransGen ColMove (t ++ rest,col) (rest,col) := by
  induction t with
  | nil => exact .refl
  | cons c t ih =>
    obtain ⟨hc,ht⟩ := List.forall_mem_cons.mp ht
    exact .head (colMove_of_step (colStep_digit hc (t ++ rest) col)) (ih ht)

theorem colStep_trim (eq : Bool) (col : ColFmt) (hrest : Behind rest) :
    colStep (ch 't') (eqText eq ++ rest) col = some (rest,{ col with trz := 1 }) := by
  have hne : rest.head? ≠ some (ch '=') := by
    intro h
    exact (plain_of_head (hrest _ h)).2.2.2 rfl
  have hstep : colStep (ch 't') (eqText eq ++ rest) col = match skipEq (eqText eq ++ rest) with
    | d::rest =>
      if isdigit d then some (rest,{ col with trz := int32 ((strtolEnd 0 (d::rest)).1+1) })
      else some (d::rest,{ col with trz := 1 })
    | [] => some ([],{ col with trz := 1 }) := rfl
  rw [hstep,skipEq_eqText eq hne]
  cases rest with
  | nil => rfl
  | cons d rest =>
    have hd := (plain_of_head (hrest d rfl)).1
    simp [hd]

/-- Only the first digit of the number is passed with it, and the others then one by one. -/
theorem reads_trim (eq : Bool) (num : DecNum) (hlt : num.num+1 < 2^31) (hrest : Behind rest) (col : ColFmt) :
    Relation.ReflTransGen ColMove (ch 't'::(eqText eq ++ (num.text ++ rest)),col)
      (rest,{ col with trz := num.num+1 }) := by
  obtain ⟨d,ds,hcons⟩ := List.exists_cons_of_ne_nil (decDigits_ne_nil num.num)
  have hdigits : ∀ c ∈ d::ds, isdigit c = true := by
    rw [← hcons]
    exact (decDigits_spec num.num).1
  have htext : num.text = d::ds := hcons
  have hread := strtolEnd_decNum num hrest
  have hskip := skipEq_eqText eq (decNum_head_ne num rest)
  rw [htext,List.cons_append] at hread hskip
  have hint : int32 ((num.num : ℤ)+1) = num.num+1 := int32_of_mem (by omega)
  have hstep : colStep (ch 't') (eqText eq ++ (num.text ++ rest)) col =
      some (ds ++ rest,{ col with trz := num.num+1 }) := by
    have heq : colStep (ch 't') (eqText eq ++ (num.text ++ rest)) col =
      match skipEq (eqText eq ++ (num.text ++ rest)) with
      | d::rest =>
        if isdigit d then some (rest,{ col with trz := int32 ((strtolEnd 0 (d::rest)).1+1) })
        else some (d::rest,{ col with trz := 1 })
      | [] => some ([],{ col with trz := 1 }) := rfl
    rw [heq,htext,List.cons_append,hskip]
    simp only [hread,hdigits d List.mem_cons_self,if_true,hint]
  exact .head (colMove_of_step hstep) (reads_digits (fun c hc => hdigits c (List.mem_cons_of_mem d hc)) rest _)

theorem reads_quoted (content : {t : Bytes // 0 ∉ t}) (hone : content.val.count T_SQ ≤ 1)
    (hrest : rest.head? ≠ some T_SQ) (col : ColFmt) :
    Relation.ReflTransGen ColMove (T_SQ::(quoteDoubled content.val ++ T_SQ::rest),col)
      (rest,(Spec.quoted content).done col) := by
  have hparse := parseqstr_eq hone hrest
  apply reads_of_step
  rw [colStep_quoted,hparse]
  rfl

/-- A specifier is read, and the cursor is behind it. -/
theorem reads_spec (s : Spec) (hone : s.OneQuote) (hrest : Behind rest)
    (hhex : s.EndsHex = true → ∀ c ∈ rest.head?, 16 ≤ digitOf c)
    (hquote : s.IsQuoted = true → rest.head? ≠ some T_SQ) (col : ColFmt) :
    Relation.ReflTransGen ColMove (s.text ++ rest,col) (rest,s.done col) := by
  cases s with
  | align a eq wid =>
    apply reads_of_step
    rw [List.append_eq,List.append_assoc,colStep_align a eq wid hrest]
    rfl
  | decimals eq n =>
    apply reads_of_step
    rw [List.append_eq,List.append_assoc,colStep_decimals,skipEq_eqText eq (decNum_head_ne n rest),
      strtolEnd_decNum n hrest]
    rfl
  | currency => exact reads_of_step rfl
  | percent => exact reads_of_step rfl
  | pad eq n =>
    apply reads_of_step
    rw [List.append_eq,List.append_assoc,colStep_pad,skipEq_eqText eq (decNum_head_ne n rest),
      strtolEnd_decNum n hrest]
    rfl
  | color eq n =>
    apply reads_of_step
    rw [List.append_eq,List.append_assoc,colStep_color,skipEq_eqText eq (hexNum_head_ne n rest),
      strtolEnd_hexNum n hrest (hhex rfl)]
    rfl
  | zero eq mark =>
    rw [Spec.text,List.cons_append,List.append_assoc]
    exact reads_zero eq mark rest col
  | negative eq n =>
    apply reads_of_step
    rw [List.append_eq,List.append_assoc,colStep_negative,skipEq_eqText eq (hexNum_head_ne n rest),
      strtolEnd_hexNum n hrest (hhex rfl)]
    rfl
  | sum => exact reads_of_step rfl
  | header => exact reads_of_step rfl
  | underline => exact reads_of_step rfl
  | bold => exact reads_of_step rfl
  | italic => exact reads_of_step rfl
  | null => exact reads_of_step rfl
  | thousands sep =>
    cases sep with
    | none =>
      apply reads_of_step
      have hne : rest.head? ≠ some (ch '=') := fun h => (plain_of_head (hrest _ h)).2.2.2 rfl
      have hstep : colStep (ch ',') rest col = match (if rest.head? = some (ch '=') then rest.tail else ch ','::rest) with
        | [] => none
        | d::rest => some (rest,{ col with tho := if d = ch '0' then 0 else d }) := rfl
      rw [List.append_eq,List.nil_append,hstep,if_neg hne]
      rfl
    | some sep => exact reads_of_step rfl
  | trim eq n =>
    cases n with
    | none =>
      rw [Spec.text,List.cons_append]
      exact reads_of_step (colStep_trim eq col hrest)
    | some n =>
      rw [Spec.text,List.cons_append,List.append_assoc]
      exact reads_trim eq n.val n.property hrest col
  | quoted content =>
    rw [Spec.text,List.cons_append,List.append_assoc,List.singleton_append]
    exact reads_quoted content hone (hquote rfl) col

/-! ### Sequences of specifiers -/

theorem head_mem_specHeads (s : Spec) (rest : Bytes) : Behind (s.text ++ rest) := by
  have hall : ∀ l : List Byte, (l.all fun c => specHeads.contains c) = true → ∀ c ∈ l, c ∈ specHeads := by
    intro l hl c hc
    simpa using List.all_eq_true.mp hl c hc
  have hheads := hall specHeads rfl
  intro c hc
  cases s with
  | align a eq wid => cases a <;> cases hc <;> exact hheads _ (by simp [specHeads,str,Align.letter,ch])
  | thousands sep => cases sep <;> cases hc <;> exact hheads _ (by simp [specHeads,str,ch])
  | trim eq n => cases n <;> cases hc <;> exact hheads _ (by simp [specHeads,str,ch])
  | _ => cases hc; exact hheads _ (by simp [specHeads,str,ch,T_SQ])

theorem behind_specText (specs : List Spec) : Behind (specText specs) := by
  cases specs with
  | nil => rintro c ⟨⟩
  | cons s specs => exact head_mem_specHeads s (specText specs)

theorem hex_head (s : Spec) (h : s.BeginsHex = false) (rest : Bytes) : ∀ c ∈ (s.text ++ rest).head?, 16 ≤ digitOf c := by
  intro c hc
  cases s with
  | align a eq wid =>
    cases a with
    | center => exact absurd h (by simp [Spec.BeginsHex])
    | decimal => exact absurd h (by simp [Spec.BeginsHex])
    | _ => cases hc; decide
  | color eq n => exact absurd h (by simp [Spec.BeginsHex])
  | bold => exact absurd h (by decide)
  | thousands sep => cases sep <;> cases hc <;> decide
  | trim eq n => cases n <;> cases hc <;> decide
  | _ => cases hc; decide

theorem quote_head (s : Spec) (h : s.IsQuoted = false) (rest : Bytes) : (s.text ++ rest).head? ≠ some T_SQ := by
  intro hc
  cases s with
  | align a eq wid => cases a <;> exact absurd (Option.some.inj hc) (by decide)
  | quoted content => exact absurd h (by simp [Spec.IsQuoted])
  | thousands sep => cases sep <;> exact absurd (Option.some.inj hc) (by decide)
  | trim eq n => cases n <;> exact absurd (Option.some.inj hc) (by decide)
  | _ => exact absurd (Option.some.inj hc) (by decide)

/-- Specifiers that are apart are read one after the other. -/
theorem reads_specs {specs : List Spec} (h : SpecsApart specs) (col : ColFmt) :
    Relation.ReflTransGen ColMove (specText specs,col) ([],specs.foldl Spec.done col) := by
  induction specs generalizing col with
  | nil => exact .refl
  | cons s specs ih =>
    obtain ⟨hchain,hone⟩ := h
    have htail : SpecsApart specs := ⟨hchain.tail,fun s hs => hone s (List.mem_cons_of_mem _ hs)⟩
    have hnext : (s.EndsHex = true → ∀ c ∈ (specText specs).head?, 16 ≤ digitOf c) ∧
        (s.IsQuoted = true → (specText specs).head? ≠ some T_SQ) := by
      cases specs with
      | nil =>
        refine ⟨fun _ => ?_,fun _ => ?_⟩
        · rintro c ⟨⟩
        · rintro ⟨⟩
      | cons s' specs =>
        obtain ⟨hhex,hquoted⟩ := (List.isChain_cons_cons.mp hchain).1
        refine ⟨fun hs => hex_head s' ?_ _,fun hs => quote_head s' ?_ _⟩
        · exact Bool.eq_false_iff.mpr fun hs' => hhex ⟨hs,hs'⟩
        · exact Bool.eq_false_iff.mpr fun hs' => hquoted ⟨hs,hs'⟩
    have hfirst := reads_spec s (hone s List.mem_cons_self) (behind_specText specs) hnext.1 hnext.2 col
    exact hfirst.trans (ih htail _)

/-! ### The loop -/

theorem numberAt_length (base : ℕ) (t : Bytes) : (numberAt base t).2.length ≤ t.length := by
  have hdrop : ∀ (p : Byte → Bool) (u : Bytes), (u.dropWhile p).length ≤ u.length :=
    fun p u => (List.dropWhile_suffix p).length_le
  rw [numberAt]
  split_ifs
  · have hbase : (baseOf t).2.length ≤ t.length := by
      unfold baseOf
      split
      · split_ifs <;> simp
      · split_ifs <;> simp
      · simp
    exact (hdrop _ _).trans hbase
  · have hskip : (skip0x base t).length ≤ t.length := by
      unfold skip0x
      split
      · split_ifs <;> simp
      · exact le_rfl
    exact (hdrop _ _).trans hskip

theorem strtolEnd_length (base : ℕ) (s : Bytes) : (strtolEnd base s).2.length ≤ s.length := by
  have hblank : (s.dropWhile isspace).length ≤ s.length := (List.dropWhile_suffix _).length_le
  have hend (t : Bytes) (x : ℤ) (ht : t.length ≤ s.length) :
      (if (numberAt base t).2.length = t.length then ((0 : ℤ),s) else (x,(numberAt base t).2)).2.length ≤ s.length := by
    split_ifs
    · exact le_rfl
    · exact (numberAt_length base t).trans ht
  rw [strtolEnd]
  apply hend
  split_ifs
  · rw [List.length_tail]
    omega
  · exact hblank

theorem skipEq_length (p : Bytes) : (skipEq p).length ≤ p.length := by
  rw [skipEq]
  split_ifs
  · rw [List.length_tail]
    omega
  · exact le_rfl

theorem copyQuoted_length (n : ℕ) (u : Bytes) : (copyQuoted n u).2.length ≤ u.length := by
  induction n generalizing u with
  | zero => exact le_rfl
  | succ n ih =>
    have hdrop : (u.dropWhile (· != T_SQ)).length ≤ u.length := (List.dropWhile_suffix _).length_le
    rw [copyQuoted]
    split
    · next q r v heq =>
      rw [heq,List.length_cons] at hdrop
      split_ifs
      · exact (ih (r::v)).trans (by omega)
      · simpa using hdrop
    · exact hdrop

theorem parseqstr_length (t : Bytes) : (parseqstr t).2.length ≤ t.length := by
  have hdrop : (t.dropWhile (· != T_SQ)).length ≤ t.length := (List.dropWhile_suffix _).length_le
  rw [parseqstr]
  split
  · next q r v heq =>
    rw [heq,List.length_cons,List.length_cons] at hdrop
    split_ifs
    · exact (copyQuoted_length _ v).trans (by omega)
    · simpa using hdrop
  · exact hdrop

theorem colStep_thousands (hc : c = ch ',' ∨ c = ch ';') (p : Bytes) (col : ColFmt) :
    colStep c p col = match (if p.head? = some (ch '=') then p.tail else c::p) with
      | [] => none
      | d::rest => some (rest,{ col with tho := if d = ch '0' then 0 else d }) := by
  rcases hc with rfl | rfl <;> rfl

/-- The round goes on with a rest of the string that is not longer, and does not depend on the column. -/
def Moves (p : Bytes) (r : ColFmt → Option (Bytes × ColFmt)) : Prop :=
  ∃ (q : Bytes) (f : ColFmt → ColFmt), q.length ≤ p.length ∧ ∀ col, r col = some (q,f col)

theorem moves_some {q : Bytes} (f : ColFmt → ColFmt) (h : q.length ≤ p.length) : Moves p fun col => some (q,f col) :=
  ⟨q,f,h,fun _ => rfl⟩

theorem moves_ite {P : Prop} [Decidable P] {r r' : ColFmt → Option (Bytes × ColFmt)} (h : P → Moves p r)
    (h' : ¬P → Moves p r') : Moves p fun col => if P then r col else r' col := by
  split_ifs with hp
  · exact h hp
  · exact h' hp

theorem moves_thousands (hc : c = ch ',' ∨ c = ch ';') (hp : p ≠ [ch '=']) : Moves p (colStep c p) := by
  have hstep : colStep c p = fun col => match (if p.head? = some (ch '=') then p.tail else c::p) with
      | [] => none
      | d::rest => some (rest,{ col with tho := if d = ch '0' then 0 else d }) := funext (colStep_thousands hc p)
  rw [hstep]
  split_ifs with heq
  · obtain ⟨q,rfl⟩ := List.head?_eq_some_iff.mp heq
    cases q with
    | nil => exact absurd rfl hp
    | cons d q =>
      apply moves_some (fun col => { col with tho := if d = ch '0' then 0 else d })
      rw [List.length_cons,List.length_cons]
      omega
  · exact moves_some (fun col => { col with tho := if c = ch '0' then 0 else c }) le_rfl

theorem moves_trim : Moves p (colStep (ch 't') p) := by
  have hskip := skipEq_length p
  have hstep : colStep (ch 't') p = fun col => match skipEq p with
      | d::rest =>
        if isdigit d then some (rest,{ col with trz := int32 ((strtolEnd 0 (d::rest)).1+1) })
        else some (d::rest,{ col with trz := 1 })
      | [] => some ([],{ col with trz := 1 }) := rfl
  rw [hstep]
  cases hrest : skipEq p with
  | nil => exact moves_some (fun col => { col with trz := 1 }) (Nat.zero_le _)
  | cons d rest =>
    rw [hrest,List.length_cons] at hskip
    refine moves_ite (fun _ => ?_) fun _ => ?_
    · exact moves_some (fun col => { col with trz := int32 ((strtolEnd 0 (d::rest)).1+1) }) (by omega)
    · exact moves_some (fun col => { col with trz := 1 }) hskip

theorem moves_quoted : Moves p (colStep T_SQ p) := by
  have hparse := parseqstr_length p
  refine ⟨_,_,?_,colStep_quoted p⟩
  split_ifs
  · rw [List.length_tail]
    omega
  · exact hparse

theorem moves_colStep (h : ¬((c = ch ',' ∨ c = ch ';') ∧ p = [ch '='])) : Moves p (colStep c p) := by
  have hnum (base : ℕ) : (strtolEnd base (skipEq p)).2.length ≤ p.length :=
    (strtolEnd_length base _).trans (skipEq_length p)
  by_cases hsep : c = ch ',' ∨ c = ch ';'
  · exact moves_thousands hsep fun hp => h ⟨hsep,hp⟩
  by_cases htrim : c = ch 't'
  · rw [htrim]
    exact moves_trim
  by_cases hquote : c = T_SQ
  · rw [hquote]
    exact moves_quoted
  unfold colStep
  simp only [if_neg hsep,if_neg htrim,if_neg hquote]
  refine moves_ite (fun _ => moves_some _ (hnum 0)) fun _ => ?_
  refine moves_ite (fun _ => moves_some _ (hnum 0)) fun _ => ?_
  refine moves_ite (fun _ => moves_some _ le_rfl) fun _ => ?_
  refine moves_ite (fun _ => moves_some _ le_rfl) fun _ => ?_
  refine moves_ite (fun _ => moves_some _ (hnum 0)) fun _ => ?_
  refine moves_ite (fun _ => moves_some _ (hnum 16)) fun _ => ?_
  refine moves_ite (fun _ => moves_some _ (skipEq_length p)) fun _ => ?_
  refine moves_ite (fun _ => moves_some _ (hnum 16)) fun _ => ?_
  refine moves_ite (fun _ => moves_some _ le_rfl) fun _ => ?_
  refine moves_ite (fun _ => moves_some _ le_rfl) fun _ => ?_
  refine moves_ite (fun _ => moves_some _ le_rfl) fun _ => ?_
  refine moves_ite (fun _ => moves_some _ le_rfl) fun _ => ?_
  refine moves_ite (fun _ => moves_some _ le_rfl) fun _ => ?_
  exact moves_ite (fun _ => moves_some _ le_rfl) fun _ => moves_some _ le_rfl

/-- Only `,=` at the end of the string takes the cursor past it. -/
theorem colStep_past (hc : c = ch ',' ∨ c = ch ';') (col : ColFmt) : colStep c [ch '='] col = none := by
  rw [colStep_thousands hc]
  rfl

theorem colStep_length {q : Bytes} (h : colStep c p col = some (q,col')) : q.length ≤ p.length := by
  have hpast : ¬((c = ch ',' ∨ c = ch ';') ∧ p = [ch '=']) := by
    rintro ⟨hc,rfl⟩
    rw [colStep_past hc] at h
    cases h
  obtain ⟨q',f,hlen,hstep⟩ := moves_colStep hpast
  rw [hstep] at h
  cases h
  exact hlen

theorem colLoop_nil (n : ℕ) (col : ColFmt) : colLoop n [] col = some col := by
  cases n <;> rfl

/-- A reading that comes to the end of the string is what the loop does. -/
theorem colLoop_of_reads (h : Relation.ReflTransGen ColMove (p,col) ([],col')) (hn : p.length ≤ n) :
    colLoop n p col = some col' := by
  induction n generalizing p col with
  | zero =>
    obtain rfl := List.eq_nil_of_length_eq_zero (Nat.le_zero.mp hn)
    rcases Relation.ReflTransGen.cases_head h with heq | ⟨s,⟨c,p,hp,-⟩,-⟩
    · cases heq
      rfl
    · cases hp
  | succ n ih =>
    rcases Relation.ReflTransGen.cases_head h with heq | ⟨⟨q,col₁⟩,⟨c,p',hp,hstep⟩,hrest⟩
    · cases heq
      rfl
    · replace hp : p = c::p' := hp
      subst hp
      have hlen := colStep_length hstep
      rw [List.length_cons] at hn
      rw [colLoop,hstep,Option.bind_some]
      exact ih hrest (hlen.trans (Nat.le_of_succ_le_succ hn))

theorem colDef_eq {specs : List Spec} (h : SpecsApart specs) (col : ColFmt) :
    colDef col (specText specs) = some (specs.foldl Spec.done { col with dec := -1 }) :=
  colLoop_of_reads (reads_specs h _) le_rfl

/-- The loop stays in the string unless the cursor comes to a separator with only `=` behind it. -/
theorem colLoop_isSome_iff {n : ℕ} (hn : p.length ≤ n) (col : ColFmt) :
    (colLoop n p col).isSome = true ↔ ∀ c, c = ch ',' ∨ c = ch ';' → ¬Comes p [c,ch '='] := by
  induction n generalizing p col with
  | zero =>
    obtain rfl := List.eq_nil_of_length_eq_zero (Nat.le_zero.mp hn)
    refine iff_of_true rfl ?_
    rintro c - ⟨⟩
  | succ n ih =>
    cases p with
    | nil =>
      refine iff_of_true rfl ?_
      rintro c - ⟨⟩
    | cons c p =>
      rw [List.length_cons] at hn
      rw [colLoop]
      by_cases hpast : (c = ch ',' ∨ c = ch ';') ∧ p = [ch '=']
      · obtain ⟨hc,rfl⟩ := hpast
        rw [colStep_past hc]
        exact iff_of_false Bool.false_ne_true fun h => h c hc (.here _)
      · obtain ⟨q,f,hlen,hstep⟩ := moves_colStep hpast
        rw [hstep,Option.bind_some,ih (p := q) (hlen.trans (Nat.le_of_succ_le_succ hn))]
        refine forall₂_congr fun d hd => not_congr ⟨fun h => .step (hstep {}) h,fun h => ?_⟩
        cases h with
        | here => exact absurd ⟨hd,rfl⟩ hpast
        | step hstep' hrest =>
          rw [hstep] at hstep'
          cases hstep'
          exact hrest

/-! ### Which field is wrong -/

/-- What the code has made of the specifiers, and what they say, up to three fields. -/
structure Differs (specs : List Spec) (col a b : ColFmt) (pad : Byte) (tdn dec : ℤ) : Prop where
  eq : b = { a with pad := pad, tdn := tdn, dec := dec }
  pad : a.pad = pad ↔ ∀ eq ∈ (specs.filterMap Spec.alignEq).getLast?, eq = false
  tdn : a.tdn = tdn ↔ ∀ t ∈ (specs.filterMap Spec.content).getLast?, t.length < 128
  dec : a.dec = dec ↔ col.dec = -1 ∨ ∃ s ∈ specs, s.IsDecimals

theorem bmod_eq_self_iff (n : ℕ) : (n : ℤ).bmod 256 = n ↔ n < 128 := by
  constructor
  · intro h
    have hlt := Int.bmod_lt (x := n) (m := 256) (by decide)
    rw [h] at hlt
    have hnum : (((256 : ℕ) : ℤ)+1)/2 = 128 := by decide
    omega
  · intro h
    exact Int.bmod_eq_of_le (by omega) (by omega)

theorem align_letter_ne (a : Align) : ch '=' ≠ a.letter := by
  cases a <;> decide

theorem differs_step {specs : List Spec} {a b : ColFmt} {pad : Byte} {tdn dec : ℤ}
    (h : Differs specs col a b pad tdn dec) (s : Spec) :
    ∃ pad tdn dec, Differs (specs ++ [s]) col (s.done a) (s.apply b) pad tdn dec := by
  obtain ⟨rfl,hpad,htdn,hdec⟩ := h
  cases s with
  | align l eq wid =>
    refine ⟨l.letter,tdn,dec,rfl,?_,?_,?_⟩
    · cases eq with
      | true => simp [Spec.done,Spec.alignEq,align_letter_ne l]
      | false => simp [Spec.done,Spec.alignEq]
    · simpa [Spec.done,Spec.content] using htdn
    · simpa [Spec.done,Spec.IsDecimals] using hdec
  | quoted content =>
    refine ⟨pad,content.val.length,dec,rfl,?_,?_,?_⟩
    · simpa [Spec.done,Spec.alignEq] using hpad
    · simp only [Spec.done,bmod_eq_self_iff,List.filterMap_append]
      simp [Spec.content]
    · simpa [Spec.done,Spec.IsDecimals] using hdec
  | decimals eq n =>
    refine ⟨pad,tdn,n.num,rfl,?_,?_,?_⟩
    · simpa [Spec.done,Spec.apply,Spec.alignEq] using hpad
    · simpa [Spec.done,Spec.apply,Spec.content] using htdn
    · simp [Spec.done,Spec.apply,Spec.IsDecimals]
  | thousands sep =>
    refine ⟨pad,tdn,dec,by cases sep <;> rfl,?_,?_,?_⟩
    · cases sep <;> simpa [Spec.done,Spec.apply,Spec.alignEq] using hpad
    · cases sep <;> simpa [Spec.done,Spec.apply,Spec.content] using htdn
    · cases sep <;> simpa [Spec.done,Spec.apply,Spec.IsDecimals] using hdec
  | trim eq n =>
    refine ⟨pad,tdn,dec,by cases n <;> rfl,?_,?_,?_⟩
    · cases n <;> simpa [Spec.done,Spec.apply,Spec.alignEq] using hpad
    · cases n <;> simpa [Spec.done,Spec.apply,Spec.content] using htdn
    · cases n <;> simpa [Spec.done,Spec.apply,Spec.IsDecimals] using hdec
  | _ =>
    refine ⟨pad,tdn,dec,rfl,?_,?_,?_⟩
    · simpa [Spec.done,Spec.apply,Spec.alignEq] using hpad
    · simpa [Spec.done,Spec.apply,Spec.content] using htdn
    · simpa [Spec.done,Spec.apply,Spec.IsDecimals] using hdec

theorem exists_differs (specs : List Spec) (col : ColFmt) : ∃ pad tdn dec, Differs specs col
    (specs.foldl Spec.done { col with dec := -1 }) (specs.foldl Spec.apply col) pad tdn dec := by
  induction specs using List.reverseRecOn with
  | nil =>
    refine ⟨col.pad,col.tdn,col.dec,rfl,?_,?_,?_⟩
    · simp
    · simp
    · simp only [List.not_mem_nil,false_and,exists_false,or_false]
      exact eq_comm
  | append_singleton specs s ih =>
    obtain ⟨pad,tdn,dec,h⟩ := ih
    rw [List.foldl_append,List.foldl_append]
    exact differs_step h s

theorem setsFields_iff {specs : List Spec} (h : SpecsApart specs) (col : ColFmt) :
    SetsFields specs col ↔ LastRight specs col := by
  obtain ⟨pad,tdn,dec,heq,hpad,htdn,hdec⟩ := exists_differs specs col
  rw [SetsFields,colDef_eq h,Option.some_inj,heq]
  constructor
  · intro hsame
    refine ⟨hpad.mp ?_,htdn.mp ?_,hdec.mp ?_⟩
    · exact congrArg ColFmt.pad hsame
    · exact congrArg ColFmt.tdn hsame
    · exact congrArg ColFmt.dec hsame
  · intro hlast
    rw [← hpad.mpr hlast.align,← htdn.mpr hlast.quoted,← hdec.mpr hlast.decimals]

/-- `ColDef` sets the fields, of specifiers that are apart, if the last of each kind is right, and it stays in its
string unless it comes to a `,=` or `;=` at the end. -/
theorem colDef_right (col : ColFmt) :
    (∀ specs, SpecsApart specs → (SetsFields specs col ↔ LastRight specs col)) ∧
      ∀ fmt, (colDef col fmt).isSome = true ↔ ∀ c, c = ch ',' ∨ c = ch ';' → ¬Comes fmt [c,ch '='] :=
  ⟨fun _ h => setsFields_iff h col,fun _ => colLoop_isSome_iff le_rfl _⟩

/-- `r5'it''s'.2` -/
def plainSpecs : List Spec :=
  [.align .right false ⟨5,by decide⟩,.quoted ⟨str "it's",by decide⟩,.decimals false ⟨2,by decide⟩]

theorem specsApart_plainSpecs : SpecsApart plainSpecs := by
  refine ⟨by simp [plainSpecs,Spec.EndsHex,Spec.IsQuoted],?_⟩
  simp only [plainSpecs,List.forall_mem_cons]
  exact ⟨trivial,by show _ ≤ 1; decide,trivial,by simp⟩

theorem colDef_right_plain : (SetsFields plainSpecs {} ↔ LastRight plainSpecs {}) ∧
    ((colDef {} (str "r5,=")).isSome = true ↔
      ∀ c, c = ch ',' ∨ c = ch ';' → ¬Comes (str "r5,=") [c,ch '=']) :=
  ⟨(colDef_right {}).1 plainSpecs specsApart_plainSpecs,(colDef_right {}).2 (str "r5,=")⟩

/-- With an `=` the alignment is lost, and behind `,=` the end of the string is passed. -/
theorem not_colDef_right : ¬(∀ specs col, SetsFields specs col) ∧ ¬∀ fmt col, (colDef col fmt).isSome = true := by
  constructor
  · intro h
    have hset := h [.align .right true ⟨5,by decide⟩] { dec := -1 }
    have hpad := congrArg (Option.map ColFmt.pad) hset
    exact absurd hpad (by decide +kernel)
  · intro h
    exact absurd (h (str ",=") {}) (by decide)

end

end Smx
