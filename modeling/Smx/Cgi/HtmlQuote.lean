import Smx.Base.Number
import Smx.Lib.Escape

/-! `%html-quote`. -/
namespace Smx

/-- `isprint` in the C locale. -/
def isprint (c : Byte) : Bool := 32 ≤ c && c ≤ 126

/-- The `switch` of `EvalHtmlQuote`. -/
def htmlQuoteChar (c : Byte) : Bytes :=
  if c = ch '>' then str "&gt;"
  else if c = ch '<' then str "&lt;"
  else if c = ch '&' then str "&amp;"
  else if c = ch '"' then str "&quot;"
  else if isprint c || isspace c then [c]
  else [ch '&'] ++ [ch '#'] ++ itoa c.toNat ++ [ch ';']

/-- `EvalHtmlQuote`: the loop ends at the NUL. -/
def evalHtmlQuote (args : List Bytes) : Bytes :=
  match args with
  | [] => []
  | html::_ => (cstr html).flatMap htmlQuoteChar

/-- The entities with names, and what they stand for. -/
def namedEntities : List (Bytes × Byte) :=
  [(str "&gt;",ch '>'),(str "&lt;",ch '<'),(str "&amp;",ch '&'),(str "&quot;",ch '"')]

/-- An entity in front of a text: the character it stands for, and its length. -/
def readEntity (p : Bytes) : Option (Byte × ℕ) :=
  match namedEntities.find? fun e => e.1.isPrefixOf p with
  | some e => some (e.2,e.1.length)
  | none =>
    match p with
    | amp::hash::rest =>
      let digits := rest.takeWhile isdigit
      if amp = ch '&' ∧ hash = ch '#' ∧ digits ≠ [] ∧ digitsValue 0 digits < 256 ∧
          (rest.dropWhile isdigit).head? = some (ch ';') then
        some (UInt8.ofNat (digitsValue 0 digits),digits.length+3)
      else none
    | _ => none

/-- The text in which the characters stand in place of their entities. -/
def replaceEntities (p : Bytes) : Bytes := Escape.decode readEntity 0 p

/-- No markup is left in what is put out for `s`: each `&` begins an entity that was put out for a character of `s`,
and with the characters in place of the entities it is `s` again. -/
structure QuotesHtml (s : Bytes) : Prop where
  noMarkup : ∀ c ∈ evalHtmlQuote [s], c ≠ ch '<' ∧ c ≠ ch '>' ∧ c ≠ ch '"'
  amp : ∀ a b, evalHtmlQuote [s] = a ++ ch '&'::b → ∃ s₁ c s₂ e, s = s₁ ++ c::s₂ ∧ a = evalHtmlQuote [s₁] ∧
    ch '&'::b = e ++ evalHtmlQuote [s₂] ∧ readEntity e = some (c,e.length)
  lossless : replaceEntities (evalHtmlQuote [s]) = s

variable {c : Byte} {s : Bytes}

theorem namedEntities_eq : namedEntities = [([38,103,116,59],62),([38,108,116,59],60),([38,97,109,112,59],38),
    ([38,113,117,111,116,59],34)] := by decide

/-- A character is put out as it is, or as an entity that stands for it. -/
theorem htmlQuoteChar_cases (c : Byte) :
    htmlQuoteChar c = [c] ∧ c ≠ ch '>' ∧ c ≠ ch '<' ∧ c ≠ ch '&' ∧ c ≠ ch '"' ∨
    (htmlQuoteChar c,c) ∈ namedEntities ∨
    ∃ digits, htmlQuoteChar c = ch '&'::ch '#'::(digits ++ [ch ';']) ∧ digits ≠ [] ∧ (∀ d ∈ digits, isdigit d = true) ∧
      digitsValue 0 digits = c.toNat := by
  have hdigits := itoa_digits (n := c.toNat) (by have hlt := c.toNat_lt; omega)
  rw [htmlQuoteChar]
  have hform (digits : Bytes) : [ch '&'] ++ [ch '#'] ++ digits ++ [ch ';'] = ch '&'::ch '#'::(digits ++ [ch ';']) := by
    simp
  split_ifs with hgt hlt hamp hquot hplain
  · right; left
    rw [hgt]
    exact List.mem_cons_self
  · right; left
    rw [hlt]
    exact List.mem_cons_of_mem _ List.mem_cons_self
  · right; left
    rw [hamp]
    exact List.mem_cons_of_mem _ (List.mem_cons_of_mem _ List.mem_cons_self)
  · right; left
    rw [hquot]
    exact List.mem_cons_of_mem _ (List.mem_cons_of_mem _ (List.mem_cons_of_mem _ List.mem_cons_self))
  · exact .inl ⟨rfl,hgt,hlt,hamp,hquot⟩
  · right; right
    exact ⟨itoa c.toNat,hform _,hdigits⟩

/-- What is common to the entities with names. -/
theorem namedEntities_spec {e : Bytes × Byte} (h : e ∈ namedEntities) :
    e.1.head? = some (ch '&') ∧ ch '&' ∉ e.1.tail ∧ ∀ d ∈ e.1, d ≠ ch '<' ∧ d ≠ ch '>' ∧ d ≠ ch '"' := by
  have hall : ∀ e ∈ namedEntities, e.1.head? = some 38 ∧ 38 ∉ e.1.tail ∧ ∀ d ∈ e.1, d ≠ 60 ∧ d ≠ 62 ∧ d ≠ 34 := by
    simp [namedEntities_eq]
  exact hall e h

theorem readEntity_named {e : Bytes × Byte} (h : e ∈ namedEntities) (p : Bytes) :
    readEntity (e.1 ++ p) = some (e.2,e.1.length) := by
  rw [namedEntities_eq] at h
  simp only [List.mem_cons,List.not_mem_nil,or_false] at h
  rcases h with rfl | rfl | rfl | rfl <;> simp [readEntity,namedEntities_eq,List.find?,List.isPrefixOf]

theorem readEntity_number {digits : Bytes} (hne : digits ≠ []) (hdigits : ∀ d ∈ digits, isdigit d = true)
    (hvalue : digitsValue 0 digits = c.toNat) (p : Bytes) :
    readEntity (ch '&'::ch '#'::(digits ++ ch ';'::p)) = some (c,digits.length+3) := by
  have hsemi : isdigit (ch ';') = false := by decide
  have htake : (digits ++ ch ';'::p).takeWhile isdigit = digits := by
    rw [List.takeWhile_append_of_pos hdigits,List.takeWhile_cons_of_neg (by simp [hsemi]),List.append_nil]
  have hdrop : (digits ++ ch ';'::p).dropWhile isdigit = ch ';'::p := by
    rw [List.dropWhile_append_of_pos hdigits,List.dropWhile_cons_of_neg (by simp [hsemi])]
  have hfind (q : Bytes) : namedEntities.find? (fun e => e.1.isPrefixOf (ch '&'::ch '#'::q)) = none := by
    have hamp : ch '&' = 38 := rfl
    have hhash : ch '#' = 35 := rfl
    simp [namedEntities_eq,List.find?,List.isPrefixOf,hamp,hhash]
  simp [readEntity,hfind,htake,hdrop,hne,hvalue,c.toNat_lt]

/-- Entities begin with an ampersand. -/
theorem readEntity_plain (h : c ≠ ch '&') (p : Bytes) : readEntity (c::p) = none := by
  have hamp : (38 == c) = false := beq_eq_false_iff_ne.mpr (Ne.symm h)
  have hfind : namedEntities.find? (fun e => e.1.isPrefixOf (c::p)) = none := by
    simp [namedEntities_eq,List.find?,List.isPrefixOf,hamp]
  cases p with
  | nil => simp [readEntity,hfind]
  | cons d p => simp [readEntity,hfind,h]

theorem writes_htmlQuoteChar (c : Byte) : Escape.Writes readEntity c (htmlQuoteChar c) := by
  rcases htmlQuoteChar_cases c with ⟨hc,-,-,hamp,-⟩ | he | ⟨digits,hc,hne,hdigits,hvalue⟩
  · rw [hc]
    exact .plain (readEntity_plain hamp)
  · refine .escape ?_ (readEntity_named he)
    intro hnil
    have hhead := (namedEntities_spec he).1
    rw [hnil] at hhead
    cases hhead
  · rw [hc]
    apply Escape.Writes.escape (List.cons_ne_nil _ _)
    intro p
    simpa using readEntity_number hne hdigits hvalue p

/-- No character is put out as markup, and an ampersand only in front. -/
theorem htmlQuoteChar_plain (c : Byte) :
    (∀ d ∈ htmlQuoteChar c, d ≠ ch '<' ∧ d ≠ ch '>' ∧ d ≠ ch '"') ∧ ch '&' ∉ (htmlQuoteChar c).tail := by
  rcases htmlQuoteChar_cases c with ⟨hc,hgt,hlt,-,hquot⟩ | he | ⟨digits,hc,-,hdigits,-⟩
  · rw [hc]
    simp [hgt,hlt,hquot]
  · obtain ⟨-,htail,hall⟩ := namedEntities_spec he
    exact ⟨hall,htail⟩
  · have hplain : ∀ d ∈ digits, d ≠ ch '<' ∧ d ≠ ch '>' ∧ d ≠ ch '"' ∧ d ≠ ch '&' := by
      intro d hd
      have hdigit := hdigits d hd
      refine ⟨?_,?_,?_,?_⟩ <;> rintro rfl <;> exact absurd hdigit (by decide)
    rw [hc]
    constructor
    · intro d hd
      simp only [List.mem_cons,List.mem_append,List.not_mem_nil,or_false] at hd
      rcases hd with rfl | rfl | hd | rfl
      · decide
      · decide
      · exact ⟨(hplain d hd).1,(hplain d hd).2.1,(hplain d hd).2.2.1⟩
      · decide
    · intro h
      simp only [List.tail_cons,List.mem_cons,List.mem_append,List.not_mem_nil,or_false] at h
      rcases h with h | h | h
      · exact absurd h (by decide)
      · exact (hplain _ h).2.2.2 rfl
      · exact absurd h (by decide)

/-- An ampersand that is put out is the start of what a character is put out as. -/
theorem readEntity_htmlQuoteChar (h : (htmlQuoteChar c).head? = some (ch '&')) :
    readEntity (htmlQuoteChar c) = some (c,(htmlQuoteChar c).length) := by
  rcases htmlQuoteChar_cases c with ⟨hc,-,-,hamp,-⟩ | he | ⟨digits,hc,hne,hdigits,hvalue⟩
  · rw [hc] at h
    exact absurd (Option.some.inj h) hamp
  · simpa using readEntity_named he []
  · rw [hc]
    simpa using readEntity_number hne hdigits hvalue []

/-- Quoting is safe and loses nothing. -/
theorem evalHtmlQuote_safe (s : Bytes) (hs : 0 ∉ s) : QuotesHtml s := by
  have hout {p : Bytes} (hp : 0 ∉ p) : evalHtmlQuote [p] = p.flatMap htmlQuoteChar := by
    rw [evalHtmlQuote,cstr_of_nul_free hp]
  constructor
  · intro c hc
    rw [hout hs,List.mem_flatMap] at hc
    obtain ⟨d,-,hd⟩ := hc
    exact (htmlQuoteChar_plain d).1 c hd
  · intro a b heq
    rw [hout hs] at heq
    obtain ⟨s₁,c,s₂,rfl,rfl,hb⟩ := Escape.exists_of_flatMap_eq (fun c _ => (htmlQuoteChar_plain c).2) heq
    have hs₁ : 0 ∉ s₁ := fun h => hs (List.mem_append_left _ h)
    have hs₂ : 0 ∉ s₂ := fun h => hs (List.mem_append_right _ (List.mem_cons_of_mem _ h))
    refine ⟨s₁,c,s₂,htmlQuoteChar c,rfl,(hout hs₁).symm,by rw [hout hs₂,hb],?_⟩
    apply readEntity_htmlQuoteChar
    cases hq : htmlQuoteChar c with
    | nil =>
      have hw := writes_htmlQuoteChar c
      rw [hq] at hw
      generalize he : ([] : Bytes) = e at hw
      cases hw with
      | plain h => cases he
      | escape hne h => exact absurd he.symm hne
    | cons d e =>
      rw [hq,List.cons_append] at hb
      rw [(List.cons.inj hb).1]
      rfl
  · rw [hout hs]
    exact Escape.decode_flatMap fun c _ => writes_htmlQuoteChar c

theorem evalHtmlQuote_safe_script : QuotesHtml (str "<b>&gt;1;") := evalHtmlQuote_safe (str "<b>&gt;1;") (by decide)

end Smx
