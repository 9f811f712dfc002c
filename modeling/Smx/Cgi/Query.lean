import Smx.Cgi.FormMap
import Smx.Cgi.Url

/-! `ParseFormString`: the fields of a query string. -/
namespace Smx

/-- What is added when the string has ended: `n` is the name, `v` the bytes from `v1` to `v2`. -/
def lastPair (n : Bytes) (v : Option Bytes) (m : FormMap) : FormMap :=
  match v with
  | none => m
  | some v => if n ≠ [] ∧ v ≠ [] then m.set (urlDecode n) v else m

mutual
/-- The outer loop: `n` is the text since the last separator, and `v1`, `v2` keep what they were
after the value before it. -/
def nameLoop : Bytes → Bytes → Option Bytes → FormMap → FormMap
  | [],n,v,m => lastPair n v m
  | c::p,n,v,m =>
    if c = ch '=' then valueLoop p n [] m
    else if c = ch '&' ∨ c = ch '?' then nameLoop p [] v m
    else nameLoop p (n ++ [c]) v m

/-- The inner loop, which decodes a value in place. -/
def valueLoop : Bytes → Bytes → Bytes → FormMap → FormMap
  | [],n,v,m => lastPair n (some v) m
  | c::p,n,v,m =>
    if c = ch '=' ∨ c = ch '&' then nameLoop p [] (some v) (m.set (urlDecode n) v)
    else if c = T_PCT then
      match p with
      | a::b::rest =>
        if isxdigit a && isxdigit b then valueLoop rest n (v ++ [hexByte a b]) m
        else valueLoop (a::b::rest) n (v ++ [c]) m
      | p => valueLoop p n (v ++ [c]) m
    else if c = ch '+' then valueLoop p n (v ++ [ch ' ']) m
    else valueLoop p n (v ++ [c]) m
end

/-- `ParseFormString`. -/
def parseFormString (s : Bytes) (m : FormMap) : FormMap := nameLoop (cstr s) [] none m

/-- A name and a value of a form, as C strings. -/
structure FormPair where
  name : Bytes
  value : Bytes
  name_ne : name ≠ []
  name_nul : 0 ∉ name
  value_nul : 0 ∉ value

namespace FormPair

def text (pair : FormPair) : Bytes := urlEncode pair.name ++ ch '='::urlEncode pair.value

/-- The pairs as `UrlEncode` writes them, joined by `&`. -/
def formText : List FormPair → Bytes
  | [] => []
  | [pair] => pair.text
  | pair::pairs => pair.text ++ ch '&'::formText pairs

def raw (pair : FormPair) : Bytes × Bytes := (pair.name,pair.value)

end FormPair

theorem valueLoop_unreserved {c : Byte} (h : Unreserved c) (p n v : Bytes) (m : FormMap) :
    valueLoop (c::p) n v m = valueLoop p n (v ++ [c]) m := by
  obtain ⟨-,hpct,hplus,heq,hamp,-⟩ := h
  rw [valueLoop.eq_def]
  simp only [if_neg (not_or.mpr ⟨heq,hamp⟩),if_neg hpct,if_neg hplus]

theorem valueLoop_separator {c : Byte} (h : c = ch '=' ∨ c = ch '&') (p n v : Bytes) (m : FormMap) :
    valueLoop (c::p) n v m = nameLoop p [] (some v) (m.set (urlDecode n) v) := by
  rw [valueLoop.eq_def]
  simp only [if_pos h]

theorem valueLoop_plus (p n v : Bytes) (m : FormMap) :
    valueLoop (ch '+'::p) n v m = valueLoop p n (v ++ [ch ' ']) m := by
  have hsep : ¬(ch '+' = ch '=' ∨ ch '+' = ch '&') := by decide
  have hpct : ch '+' ≠ T_PCT := by decide
  rw [valueLoop.eq_def]
  simp only [if_neg hsep,if_neg hpct,if_true]

theorem valueLoop_urlEncodeChar (u : Byte) (p n v : Bytes) (m : FormMap) :
    valueLoop (urlEncodeChar u ++ p) n v m = valueLoop p n (v ++ [u]) m := by
  obtain ⟨h,hu⟩ | ⟨h,rfl⟩ | h := urlEncodeChar_cases u
  · rw [h]
    exact valueLoop_unreserved hu p n v m
  · rw [h]
    exact valueLoop_plus p n v m
  · obtain ⟨ha,hb,-⟩ := u2hex_digits u
    rw [h]
    simp only [hexChar,List.cons_append,List.nil_append]
    rw [valueLoop.eq_def]
    have hsep : ¬(T_PCT = ch '=' ∨ T_PCT = ch '&') := by decide
    simp only [if_neg hsep,if_true,ha,hb,Bool.and_self,hexByte_u2hex]

theorem valueLoop_urlEncode {s : Bytes} (h : 0 ∉ s) (p n v : Bytes) (m : FormMap) :
    valueLoop (urlEncode s ++ p) n v m = valueLoop p n (v ++ s) m := by
  rw [urlEncode,cstr_of_nul_free h]
  clear h
  induction s generalizing v with
  | nil => simp
  | cons u s ih =>
    rw [List.flatMap_cons,List.append_assoc,valueLoop_urlEncodeChar,ih,List.append_assoc]
    rfl

/-- No separator of names. -/
def NoSeparator (s : Bytes) : Prop := ∀ c ∈ s, c ≠ ch '=' ∧ c ≠ ch '&' ∧ c ≠ ch '?'

instance (s : Bytes) : Decidable (NoSeparator s) := inferInstanceAs (Decidable (∀ c ∈ s, _))

theorem nameLoop_noSeparator {s : Bytes} (h : NoSeparator s) (p n : Bytes) (v : Option Bytes)
    (m : FormMap) : nameLoop (s ++ p) n v m = nameLoop p (n ++ s) v m := by
  induction s generalizing n with
  | nil => simp
  | cons c s ih =>
    obtain ⟨⟨heq,hamp,hquest⟩,hs⟩ := List.forall_mem_cons.mp h
    rw [List.cons_append,nameLoop,if_neg heq,if_neg (not_or.mpr ⟨hamp,hquest⟩),ih hs,
      List.append_assoc]
    rfl

theorem urlEncode_noSeparator (url : Bytes) : NoSeparator (urlEncode url) :=
  fun c hc => (urlEncode_bytes url c hc).2

namespace FormPair
variable {pair last : FormPair} {pairs pre : List FormPair}

theorem nul_not_mem_text (pair : FormPair) : 0 ∉ pair.text := by
  intro h
  obtain h | h := List.mem_append.mp h
  · exact (urlEncode_bytes _ 0 h).1 rfl
  · obtain h | h := List.mem_cons.mp h
    · exact absurd h (by decide)
    · exact (urlEncode_bytes _ 0 h).1 rfl

theorem formText_cons (hne : pairs ≠ []) : formText (pair::pairs) = pair.text ++ ch '&'::formText pairs := by
  cases pairs with
  | nil => exact absurd rfl hne
  | cons x pairs => rfl

theorem nul_not_mem_formText (pairs : List FormPair) : 0 ∉ formText pairs := by
  induction pairs with
  | nil => exact List.not_mem_nil
  | cons pair pairs ih =>
    by_cases hne : pairs = []
    · rw [hne]
      exact nul_not_mem_text pair
    · rw [formText_cons hne]
      intro h
      obtain h | h := List.mem_append.mp h
      · exact nul_not_mem_text pair h
      · obtain h | h := List.mem_cons.mp h
        · exact absurd h (by decide)
        · exact ih h

/-- The name of a pair is read up to the equals sign. -/
theorem nameLoop_text (pair : FormPair) (p : Bytes) (v : Option Bytes) (m : FormMap) :
    nameLoop (pair.text ++ p) [] v m = valueLoop p (urlEncode pair.name) pair.value m := by
  rw [text,List.append_assoc,nameLoop_noSeparator (urlEncode_noSeparator _),List.nil_append,
    List.cons_append,nameLoop,if_pos rfl,valueLoop_urlEncode pair.value_nul,List.nil_append]

/-- A pair before another one is put in whatever its value is. -/
theorem nameLoop_pair (pair : FormPair) (p : Bytes) (v : Option Bytes) (m : FormMap) :
    nameLoop (pair.text ++ ch '&'::p) [] v m =
      nameLoop p [] (some pair.value) (m.set pair.name pair.value) := by
  rw [nameLoop_text,valueLoop_separator (.inr rfl),urlDecode_urlEncode pair.name_nul]

/-- The last pair is put in unless its value is empty. -/
theorem nameLoop_last (pair : FormPair) (v : Option Bytes) (m : FormMap) :
    nameLoop pair.text [] v m =
      m.setAll (if pair.value = [] then [] else [pair.raw]) := by
  have htext := nameLoop_text pair [] v m
  rw [List.append_nil] at htext
  rw [htext,valueLoop,lastPair,urlDecode_urlEncode pair.name_nul]
  have hname := urlEncode_ne_nil pair.name_nul pair.name_ne
  by_cases hvalue : pair.value = []
  · rw [if_pos hvalue,if_neg fun h => h.2 hvalue]
    rfl
  · rw [if_neg hvalue,if_pos ⟨hname,hvalue⟩]
    rfl

theorem nameLoop_formText (pre : List FormPair) (last : FormPair) (v : Option Bytes) (m : FormMap) :
    nameLoop (formText (pre ++ [last])) [] v m =
      m.setAll (pre.map raw ++ if last.value = [] then [] else [last.raw]) := by
  induction pre generalizing v m with
  | nil => exact nameLoop_last last v m
  | cons pair pre ih =>
    rw [List.cons_append,formText_cons (List.append_ne_nil_of_right_ne_nil _ (List.cons_ne_nil _ _)),
      nameLoop_pair,ih]
    rfl

theorem parse_formText (pre : List FormPair) (last : FormPair) (m : FormMap) :
    parseFormString (formText (pre ++ [last])) m =
      m.setAll (pre.map raw ++ if last.value = [] then [] else [last.raw]) := by
  rw [parseFormString,cstr_of_nul_free (nul_not_mem_formText _),nameLoop_formText]

end FormPair

end Smx
