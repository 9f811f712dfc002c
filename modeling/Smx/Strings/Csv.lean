import Smx.Lib.Csv
import Smx.Strings.Substr

/-! `%csv-quote` and `%csv-quoteq`. -/
namespace Smx

/-- A byte written into a buffer; `none` behind its end. -/
def writeAt (o : Bytes) (p : ℕ) (c : Byte) : Option Bytes := if p < o.length then some (o.set p c) else none

/-- `memcpy`; `none` where it reaches over the end of the buffer. -/
def writeAll (o : Bytes) (p : ℕ) (d : Bytes) : Option Bytes :=
  if p+d.length ≤ o.length then some (o.take p ++ d ++ o.drop (p+d.length)) else none

/-- `CsvQuoteQ`: the buffer and `po`. -/
def csvQuoteQ : Bytes → Bytes → ℕ → Option (Bytes × ℕ)
  | [],o,po => some (o,po)
  | c::pi,o,po =>
    if c = ch '"' then do
      let o ← writeAt o po (ch '"')
      csvQuoteQ pi (← writeAt o (po+1) c) (po+2)
    else do
      csvQuoteQ pi (← writeAt o po c) (po+1)

/-- The loop of a quoter, which puts a `quote` twice where it stands in `pi`: the buffer and `po`. -/
def doubleInto (quote : Byte) : Bytes → Bytes → ℕ → Option (Bytes × ℕ)
  | [],o,po => some (o,po)
  | c::pi,o,po =>
    if c = quote then do
      let o ← writeAt o po quote
      doubleInto quote pi (← writeAt o (po+1) c) (po+2)
    else do
      doubleInto quote pi (← writeAt o po c) (po+1)

/-- The buffer of `CStr o(s.Length()*2 + 2)`, with what `malloc` finds in memory. -/
def csvBuffer (blank : ℕ → Byte) (s : Text) : Option Bytes :=
  (intValue (s.length*2+2)).map fun n => (List.range n.toNat).map blank

/-- The two quotes and what is between them, from `pi` on; `skipped` is copied before. -/
def csvQuoted (o skipped pi : Bytes) : Option Bytes := do
  let o ← writeAt o 0 (ch '"')
  let o ← writeAll o 1 skipped
  let (o,po) ← csvQuoteQ pi o 1
  let o ← writeAt o po (ch '"')
  return o.take (po+1)

/-- The loop of `EvalCsvQuote`, behind the `skipped` bytes. -/
def csvQuoteLoop (blank : ℕ → Byte) (s : Text) (skipped : Bytes) : Bytes → Option Bytes
  | [] => some s.bytes
  | c::pi =>
    if c = ch '"' ∨ c = ch ',' then do csvQuoted (← csvBuffer blank s) skipped (c::pi)
    else csvQuoteLoop blank s (skipped ++ [c]) pi

/-- `EvalCsvQuote`. -/
def evalCsvQuote (blank : ℕ → Byte) (s : Text) : Option Bytes := csvQuoteLoop blank s [] (cstr s.bytes)

/-- `EvalCsvQuoteQ`. -/
def evalCsvQuoteQ (blank : ℕ → Byte) (s : Text) : Option Bytes := do
  csvQuoted (← csvBuffer blank s) [] (cstr s.bytes)

/-- Commas, double quotes, and line ends. -/
def csv : Csv Byte where
  sep := ch ','
  quote := ch '"'
  brk c := c = 13 || c = 10
  quote_ne_sep := by decide
  brk_quote := by decide

/-- `out` is one field of a record, with value `s`. -/
def OneField (out s : Bytes) : Prop := ∀ rest, csv.ends rest = true → csv.readField (out ++ rest) = some (s,rest)

/-- Both quoters stay in their buffers and put out a field that is read as `s`. -/
def QuotesReadably (blank : ℕ → Byte) (s : Text) : Prop :=
  (∃ out, evalCsvQuote blank s = some out ∧ OneField out s.bytes) ∧
  ∃ out, evalCsvQuoteQ blank s = some out ∧ OneField out s.bytes

variable {blank : ℕ → Byte} {s : Text} {a o r pi skipped : Bytes} {b c : Byte} {p : ℕ}

theorem writeAt_append : writeAt (a ++ b::r) a.length c = some (a ++ c::r) := by
  simp [writeAt]

theorem csvQuoteQ_eq_doubleInto : csvQuoteQ pi o p = doubleInto (ch '"') pi o p := by
  induction pi generalizing o p with
  | nil => rfl
  | cons c pi ih => simp only [csvQuoteQ,doubleInto,ih]

/-- The doubled text is written behind what is there. -/
theorem doubleInto_eq (f : Csv Byte) (h : (f.double pi).length ≤ r.length) : doubleInto f.quote pi (a ++ r) a.length =
    some (a ++ (f.double pi ++ r.drop (f.double pi).length),(a ++ f.double pi).length) := by
  induction pi generalizing a r with
  | nil => simp [doubleInto,Csv.double]
  | cons c pi ih =>
    rw [Csv.double_cons] at h ⊢
    by_cases hc : c = f.quote
    · subst hc
      obtain _ | ⟨x,_ | ⟨y,r⟩⟩ := r
      · simp at h
      · simp at h
      · have hnext : doubleInto f.quote pi ((a ++ [f.quote,f.quote]) ++ r) (a ++ [f.quote,f.quote]).length = _ :=
          ih (by simpa using h)
        have hsecond : writeAt ((a ++ [f.quote]) ++ y::r) (a ++ [f.quote]).length f.quote = _ := writeAt_append
        simp only [List.append_assoc,List.length_append,List.length_cons,List.length_nil,List.cons_append,List.nil_append,
          Nat.zero_add] at hnext hsecond
        simp [doubleInto,writeAt_append,hsecond,hnext]
    · cases r with
      | nil => simp [hc] at h
      | cons x r =>
        have hnext : doubleInto f.quote pi ((a ++ [c]) ++ r) (a ++ [c]).length = _ := ih (by simpa [hc] using h)
        simp only [List.append_assoc,List.length_append,List.length_cons,List.length_nil,List.cons_append,List.nil_append,
          Nat.zero_add] at hnext
        simp [doubleInto,hc,writeAt_append,hnext]

/-- Behind a quote in front of a buffer with room: the doubled text, and a quote at the end. -/
theorem doubleInto_quoted (f : Csv Byte) (pi r : Bytes) (h : 2*pi.length+1 ≤ r.length) :
    ((doubleInto f.quote pi (f.quote::r) 1).bind fun w => (writeAt w.1 w.2 f.quote).bind fun o => some (o.take (w.2+1))) =
      some (f.quote::(f.double pi ++ [f.quote])) := by
  have hdouble := Csv.length_double_le (f := f) pi
  have hloop : doubleInto f.quote pi ([f.quote] ++ r) [f.quote].length = _ := doubleInto_eq f (by omega)
  have hleft : r.drop (f.double pi).length ≠ [] := by
    rw [ne_eq,List.drop_eq_nil_iff]
    omega
  obtain ⟨y,r',hr'⟩ := List.exists_cons_of_ne_nil hleft
  have hlast : writeAt (([f.quote] ++ f.double pi) ++ y::r') ([f.quote] ++ f.double pi).length f.quote = _ := writeAt_append
  simp only [hr',List.cons_append,List.nil_append,List.length_cons,List.length_nil,Nat.zero_add] at hloop hlast
  have htake : (f.double pi).take ((f.double pi).length+1) = f.double pi := List.take_of_length_le (by omega)
  simp [hloop,hlast,List.take_append,htake]

/-- What was skipped is copied, and overwritten. -/
theorem csvQuoted_eq (h : 2*pi.length+2 ≤ o.length) (hskipped : skipped.length < o.length) :
    csvQuoted o skipped pi = some (ch '"'::(csv.double pi ++ [ch '"'])) := by
  obtain ⟨x,r,rfl⟩ := List.exists_cons_of_ne_nil (List.ne_nil_of_length_pos (by omega : 0 < o.length))
  simp only [List.length_cons] at h hskipped
  have hlen : (skipped ++ r.drop skipped.length).length = r.length := by
    simp only [List.length_append,List.length_drop]
    omega
  have hfirst : writeAt (x::r) 0 (ch '"') = some (ch '"'::r) := writeAt_append (a := [])
  have hcopy : writeAll (ch '"'::r) 1 skipped = some (ch '"'::(skipped ++ r.drop skipped.length)) := by
    have hroom : skipped.length ≤ r.length := by omega
    simp [writeAll,hroom,Nat.add_comm 1]
  generalize skipped ++ r.drop skipped.length = q at hlen hcopy
  have hquoted := doubleInto_quoted csv pi q (by omega)
  simp only [csvQuoted,hfirst,hcopy,csvQuoteQ_eq_doubleInto,Option.bind_eq_bind,Option.bind_some]
  exact hquoted

/-- The bytes at which `EvalCsvQuote` begins to quote. -/
def csvQuotes (c : Byte) : Bool := c = ch '"' || c = ch ','

theorem csvQuoteLoop_plain (h : ∀ c ∈ pi, csvQuotes c = false) : csvQuoteLoop blank s skipped pi = some s.bytes := by
  induction pi generalizing skipped with
  | nil => rfl
  | cons c pi ih =>
    have hc := h c List.mem_cons_self
    simp only [csvQuotes,Bool.or_eq_false_iff,decide_eq_false_iff_not] at hc
    rw [csvQuoteLoop,if_neg (by simp [hc])]
    exact ih fun d hd => h d (List.mem_cons_of_mem c hd)

theorem csvQuoteLoop_quoted (h : ∀ d ∈ a, csvQuotes d = false) (hc : csvQuotes c = true) :
    csvQuoteLoop blank s skipped (a ++ c::pi) = (csvBuffer blank s).bind fun o => csvQuoted o (skipped ++ a) (c::pi) := by
  induction a generalizing skipped with
  | nil =>
    rw [List.nil_append,csvQuoteLoop,if_pos (by simpa [csvQuotes] using hc)]
    simp
  | cons d a ih =>
    have hd := h d List.mem_cons_self
    simp only [csvQuotes,Bool.or_eq_false_iff,decide_eq_false_iff_not] at hd
    rw [List.cons_append,csvQuoteLoop,if_neg (by simp [hd]),ih fun e he => h e (List.mem_cons_of_mem d he),
      List.append_assoc]
    rfl

theorem csvBuffer_none (h : ¬s.length*2+2 < 2^31) : csvBuffer blank s = none := by
  have hint : ¬IsInt (s.length*2+2) := fun h' => h h'.2
  simp [csvBuffer,intValue,hint]

theorem csvBuffer_some (blank : ℕ → Byte) (h : s.length*2+2 < 2^31) :
    ∃ o, csvBuffer blank s = some o ∧ o.length = 2*s.bytes.length+2 := by
  have hlen := s.length_mem
  refine ⟨_,by rw [csvBuffer,intValue_of_isInt ⟨by omega,h⟩]; rfl,?_⟩
  rw [List.length_map,List.length_range,Text.length]
  omega

theorem oneField_quoted (v : Bytes) : OneField (ch '"'::(csv.double v ++ [ch '"'])) v :=
  fun _ hrest => (Csv.Field.quoted v).read hrest

/-- A field has one value. -/
theorem OneField.unique {out v w : Bytes} (h : OneField out v) (h' : OneField out w) : v = w := by
  have hread := (h [] rfl).symm.trans (h' [] rfl)
  exact congrArg Prod.fst (Option.some.inj hread)

theorem evalCsvQuoteQ_eq (hs : 0 ∉ s.bytes) (hfit : s.length*2+2 < 2^31) :
    evalCsvQuoteQ blank s = some (ch '"'::(csv.double s.bytes ++ [ch '"'])) := by
  obtain ⟨o,ho,hlen⟩ := csvBuffer_some blank hfit
  rw [evalCsvQuoteQ,ho,cstr_of_nul_free hs]
  exact csvQuoted_eq (by omega) (by simp; omega)

/-- What is in front of the first comma or quote is left out, where there is one. -/
theorem evalCsvQuote_eq (blank : ℕ → Byte) (hs : 0 ∉ s.bytes) (hfit : s.length*2+2 < 2^31) :
    (∀ c ∈ s.bytes, csvQuotes c = false) ∧ evalCsvQuote blank s = some s.bytes ∨
    ∃ a c p, s.bytes = a ++ c::p ∧ (∀ d ∈ a, csvQuotes d = false) ∧ csvQuotes c = true ∧
      evalCsvQuote blank s = some (ch '"'::(csv.double (c::p) ++ [ch '"'])) := by
  rw [evalCsvQuote,cstr_of_nul_free hs]
  by_cases h : ∀ c ∈ s.bytes, csvQuotes c = false
  · exact .inl ⟨h,csvQuoteLoop_plain h⟩
  · right
    have hsplit : s.bytes.takeWhile (fun c => !csvQuotes c) ++ s.bytes.dropWhile (fun c => !csvQuotes c) = s.bytes :=
      List.takeWhile_append_dropWhile
    have hne : s.bytes.dropWhile (fun c => !csvQuotes c) ≠ [] := by
      rw [ne_eq,List.dropWhile_eq_nil_iff]
      simpa using h
    have hhead := List.head_dropWhile_not (fun c => !csvQuotes c) hne
    obtain ⟨c,p,hcp⟩ := List.exists_cons_of_ne_nil hne
    simp only [hcp,List.head_cons,Bool.not_eq_false'] at hhead
    rw [hcp] at hsplit
    have ha : ∀ d ∈ s.bytes.takeWhile (fun c => !csvQuotes c), csvQuotes d = false := fun d hd => by
      simpa using List.mem_takeWhile_imp hd
    generalize s.bytes.takeWhile (fun c => !csvQuotes c) = a at hsplit ha
    refine ⟨a,c,p,hsplit.symm,ha,hhead,?_⟩
    obtain ⟨o,ho,hlen⟩ := csvBuffer_some blank hfit
    rw [← hsplit,csvQuoteLoop_quoted ha hhead,ho]
    have hsize := congrArg List.length hsplit
    simp only [List.length_append,List.length_cons] at hsize
    exact csvQuoted_eq (by simp only [List.length_cons]; omega) (by simp only [List.nil_append]; omega)

/-- Both are right iff the buffer's size is an `int`, and the string is in no need of quotes or begins with a
comma or a quote. -/
theorem quotesReadably_iff (blank : ℕ → Byte) (s : Text) (hs : 0 ∉ s.bytes) : QuotesReadably blank s ↔
    s.length*2+2 < 2^31 ∧ ((∀ c ∈ s.bytes, csv.special c = false) ∨ ∃ c ∈ s.bytes.head?, c = ch ',' ∨ c = ch '"') := by
  by_cases hfit : s.length*2+2 < 2^31
  · have hq : ∃ out, evalCsvQuoteQ blank s = some out ∧ OneField out s.bytes :=
      ⟨_,evalCsvQuoteQ_eq hs hfit,oneField_quoted _⟩
    simp only [QuotesReadably,hq,and_true,hfit,true_and]
    rcases evalCsvQuote_eq blank hs hfit with ⟨hplain,heq⟩ | ⟨a,c,p,hsplit,ha,hc,heq⟩
    · rw [heq]
      constructor
      · rintro ⟨_,⟨⟩,hone⟩
        left
        have hread := hone [] rfl
        rw [List.append_nil] at hread
        apply Csv.plain_of_readField _ hread
        intro hhead
        have hquote := hplain (ch '"') (List.mem_of_mem_head? hhead)
        exact absurd hquote (by decide)
      · rintro (hnone | ⟨c,hc,hcase⟩)
        · exact ⟨_,rfl,fun _ hrest => (Csv.Field.plain hnone).read hrest⟩
        · have hno := hplain c (List.mem_of_mem_head? hc)
          rcases hcase with rfl | rfl <;> exact absurd hno (by decide)
    · rw [heq]
      constructor
      · rintro ⟨_,⟨⟩,hone⟩
        right
        have hvalue := hone.unique (oneField_quoted _)
        rw [hvalue]
        refine ⟨c,rfl,?_⟩
        simpa [csvQuotes,or_comm] using hc
      · intro hcase
        have hnil : a = [] := by
          cases a with
          | nil => rfl
          | cons d a =>
            exfalso
            rcases hcase with hnone | ⟨e,he,hcase⟩
            · have hspecial := hnone c (by simp [hsplit])
              have hc : c = ch '"' ∨ c = ch ',' := by simpa [csvQuotes] using hc
              rcases hc with rfl | rfl <;> exact absurd hspecial (by decide)
            · have hd := ha d List.mem_cons_self
              rw [hsplit] at he
              obtain rfl := Option.some.inj he
              rcases hcase with rfl | rfl <;> exact absurd hd (by decide)
        rw [hnil,List.nil_append] at hsplit
        rw [hsplit]
        exact ⟨_,rfl,oneField_quoted _⟩
  · refine iff_of_false ?_ fun h => hfit h.1
    rintro ⟨-,out,hout,-⟩
    rw [evalCsvQuoteQ,csvBuffer_none hfit] at hout
    cases hout

theorem quotesReadably_comma : QuotesReadably (fun _ => 0) ⟨str ",\n",by decide⟩ ↔
    (⟨str ",\n",by decide⟩ : Text).length*2+2 < 2^31 ∧
      ((∀ c ∈ str ",\n", csv.special c = false) ∨ ∃ c ∈ (str ",\n").head?, c = ch ',' ∨ c = ch '"') :=
  quotesReadably_iff (fun _ => 0) ⟨str ",\n",by decide⟩ (by decide)

/-- The text in front of the first comma is lost. -/
theorem front_lost : 0 ∉ str "a,b" ∧ ¬QuotesReadably (fun _ => 0) ⟨str "a,b",by decide⟩ := by
  refine ⟨by decide,?_⟩
  rintro ⟨⟨out,hout,hone⟩,-⟩
  have heval : evalCsvQuote (fun _ => 0) ⟨str "a,b",by decide⟩ = some (ch '"'::(csv.double (str ",b") ++ [ch '"'])) := by
    decide
  obtain rfl := Option.some.inj (heval.symm.trans hout)
  exact absurd (hone.unique (oneField_quoted (str ",b"))) (by decide)
end Smx
