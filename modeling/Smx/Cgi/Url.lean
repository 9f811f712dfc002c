import Smx.Base.Number
import Mathlib.Data.List.TakeWhile

/-! Texts as they stand in a URL: `UrlEncode`, and the two loops that read them back. -/
namespace Smx

def isxdigit (c : Byte) : Bool :=
  (48 ≤ c && c ≤ 57) || (65 ≤ c && c ≤ 70) || (97 ≤ c && c ≤ 102)

def hex2int (c : Byte) : Byte :=
  if c ≤ ch '9' then c - ch '0' else if c < ch 'Z' then c - ch 'A' + 10 else c - ch 'a' + 10

/-- The byte of two hex digits. -/
def hexByte (a b : Byte) : Byte := hex2int a <<< 4 ||| hex2int b

def u2hex (c : Byte) : Byte := if c < 10 then ch '0' + c else c - 10 + ch 'A'

/-- A byte behind a per cent sign. -/
def hexChar (u : Byte) : Bytes := [T_PCT,u2hex (u >>> 4),u2hex (u &&& 0xF)]

def urlEncodeChar (u : Byte) : Bytes :=
  if u = ch ' ' then [ch '+']
  else if u = ch '/' ∨ u = ch '\\' ∨ u = ch '+' ∨ u = ch ',' ∨ u = ch '`' then hexChar u
  else if u ≤ 41 ∨ 123 ≤ u ∨ (58 ≤ u ∧ u ≤ 64) then hexChar u
  else [u]

/-- `UrlEncode`, which reads a C string. -/
def urlEncode (url : Bytes) : Bytes := (cstr url).flatMap urlEncodeChar

/-- Bytes that are written behind `out`, into a buffer of `cap` bytes. -/
def putIn (cap : ℤ) (bytes out : Bytes) : Option Bytes :=
  if (out.length+bytes.length : ℤ) ≤ cap then some (out ++ bytes) else none

/-- The loop of `UrlEncode`; none where it writes behind the buffer. -/
def urlEncodeLoop (cap : ℤ) : Bytes → Bytes → Option Bytes
  | [],out => some out
  | u::url,out => (putIn cap (urlEncodeChar u) out).bind (urlEncodeLoop cap url)

/-- `UrlEncode` with its buffer, whose size is an `int`. -/
def urlEncodeBuf (url : Bytes) : Option Bytes :=
  if url = [] then some [] else urlEncodeLoop (int32 (url.length*3)) (cstr url) []

/-- `UrlDecode`. -/
def urlDecode : Bytes → Bytes
  | [] => []
  | c::p =>
    if c = T_PCT then
      match p with
      | a::b::rest =>
        if isxdigit a && isxdigit b then hexByte a b::urlDecode rest else c::urlDecode (a::b::rest)
      | p => c::urlDecode p
    else if c = ch '+' then ch ' '::urlDecode p
    else c::urlDecode p

/-- The bytes that `UrlEncode` leaves alone and that mean nothing in a query string. -/
def Unreserved (c : Byte) : Prop :=
  c ≠ 0 ∧ c ≠ T_PCT ∧ c ≠ ch '+' ∧ c ≠ ch '=' ∧ c ≠ ch '&' ∧ c ≠ ch '?'

instance (c : Byte) : Decidable (Unreserved c) := inferInstanceAs (Decidable (_ ∧ _))

/-- The two digits of a byte. -/
theorem u2hex_byte (u : Byte) : hexByte (u2hex (u >>> 4)) (u2hex (u &&& 0xF)) = u ∧
    isxdigit (u2hex (u >>> 4)) = true ∧ isxdigit (u2hex (u &&& 0xF)) = true ∧
      Unreserved (u2hex (u >>> 4)) ∧ Unreserved (u2hex (u &&& 0xF)) := by
  revert u
  apply forall_byte
  decide +kernel

theorem hexByte_u2hex (u : Byte) : hexByte (u2hex (u >>> 4)) (u2hex (u &&& 0xF)) = u := (u2hex_byte u).1

theorem u2hex_digits (u : Byte) :
    isxdigit (u2hex (u >>> 4)) = true ∧ isxdigit (u2hex (u &&& 0xF)) = true ∧
      Unreserved (u2hex (u >>> 4)) ∧ Unreserved (u2hex (u &&& 0xF)) := (u2hex_byte u).2

/-- A byte is written as itself, a blank as a plus sign, and any other byte in hex. -/
theorem urlEncodeChar_cases (u : Byte) :
    (urlEncodeChar u = [u] ∧ Unreserved u) ∨ (urlEncodeChar u = [ch '+'] ∧ u = ch ' ') ∨
      urlEncodeChar u = hexChar u := by
  revert u
  apply forall_byte
  decide +kernel

/-- No byte written is a NUL or separates names. -/
theorem urlEncode_bytes (url : Bytes) :
    ∀ c ∈ urlEncode url, c ≠ 0 ∧ c ≠ ch '=' ∧ c ≠ ch '&' ∧ c ≠ ch '?' := by
  have hplain {c : Byte} (h : Unreserved c) : c ≠ 0 ∧ c ≠ ch '=' ∧ c ≠ ch '&' ∧ c ≠ ch '?' :=
    ⟨h.1,h.2.2.2.1,h.2.2.2.2.1,h.2.2.2.2.2⟩
  intro c hc
  obtain ⟨u,-,hc⟩ := List.mem_flatMap.mp hc
  obtain ⟨h,hu⟩ | ⟨h,hu⟩ | h := urlEncodeChar_cases u
  · rw [h,List.mem_singleton] at hc
    exact hplain (hc ▸ hu)
  · rw [h,List.mem_singleton] at hc
    subst hc
    decide
  · obtain ⟨-,-,ha,hb⟩ := u2hex_digits u
    rw [h,hexChar] at hc
    simp only [List.mem_cons,List.not_mem_nil,or_false] at hc
    obtain rfl | rfl | rfl := hc
    · decide
    · exact hplain ha
    · exact hplain hb

theorem urlDecode_unreserved {c : Byte} (h : Unreserved c) (p : Bytes) :
    urlDecode (c::p) = c::urlDecode p := by
  rw [urlDecode.eq_def]
  simp only [if_neg h.2.1,if_neg h.2.2.1]

theorem urlDecode_plus (p : Bytes) : urlDecode (ch '+'::p) = ch ' '::urlDecode p := by
  rw [urlDecode.eq_def]
  rfl

theorem urlDecode_hexChar (u : Byte) (p : Bytes) : urlDecode (hexChar u ++ p) = u::urlDecode p := by
  obtain ⟨ha,hb,-⟩ := u2hex_digits u
  simp only [hexChar,List.cons_append,List.nil_append]
  rw [urlDecode.eq_def]
  simp only [if_true,ha,hb,Bool.and_self,hexByte_u2hex]

theorem urlDecode_urlEncodeChar (u : Byte) (p : Bytes) :
    urlDecode (urlEncodeChar u ++ p) = u::urlDecode p := by
  obtain ⟨h,hu⟩ | ⟨h,hu⟩ | h := urlEncodeChar_cases u
  · rw [h]
    exact urlDecode_unreserved hu p
  · rw [h,hu]
    exact urlDecode_plus p
  · rw [h]
    exact urlDecode_hexChar u p

/-- What `UrlEncode` writes, `UrlDecode` reads back. -/
theorem urlDecode_urlEncode {url : Bytes} (h : 0 ∉ url) : urlDecode (urlEncode url) = url := by
  rw [urlEncode,cstr_of_nul_free h]
  induction url with
  | nil => rfl
  | cons u url ih =>
    rw [List.mem_cons,not_or] at h
    rw [List.flatMap_cons,urlDecode_urlEncodeChar,ih h.2]

theorem urlEncode_ne_nil {url : Bytes} (h : 0 ∉ url) (hne : url ≠ []) : urlEncode url ≠ [] := by
  intro hnil
  apply hne
  rw [← urlDecode_urlEncode h,hnil]
  rfl

/-- The bytes that a field of a URL may have: printable ASCII, and nothing that ends a field. -/
def FieldByte (c : Byte) : Prop :=
  ch ' ' < c ∧ c < 127 ∧ c ∉ [ch '=',ch '&',ch '?',ch '#',T_SQ,T_DQ]

instance (c : Byte) : Decidable (FieldByte c) := inferInstanceAs (Decidable (_ ∧ _))

theorem urlEncodeChar_field (u : Byte) : ∀ c ∈ urlEncodeChar u, FieldByte c := by
  have hchar : (urlEncodeChar u).all (fun c => decide (FieldByte c)) = true := by
    revert u
    apply forall_byte
    decide +kernel
  intro c hc
  exact of_decide_eq_true (List.all_eq_true.mp hchar c hc)

theorem urlEncode_field (url : Bytes) : ∀ c ∈ urlEncode url, FieldByte c := by
  intro c hc
  obtain ⟨u,-,hc⟩ := List.mem_flatMap.mp hc
  exact urlEncodeChar_field u c hc

theorem length_urlEncodeChar (u : Byte) :
    1 ≤ (urlEncodeChar u).length ∧ (urlEncodeChar u).length ≤ 3 := by
  have hone : 1 ≤ 3 := by decide
  obtain ⟨h,-⟩ | ⟨h,-⟩ | h := urlEncodeChar_cases u <;> rw [h]
  · exact ⟨le_rfl,hone⟩
  · exact ⟨le_rfl,hone⟩
  · exact ⟨hone,le_rfl⟩

theorem length_flatMap_urlEncodeChar (url : Bytes) :
    url.length ≤ (url.flatMap urlEncodeChar).length ∧
      (url.flatMap urlEncodeChar).length ≤ url.length*3 := by
  induction url with
  | nil => exact ⟨le_rfl,le_rfl⟩
  | cons u url ih =>
    obtain ⟨hlow,hhigh⟩ := length_urlEncodeChar u
    rw [List.flatMap_cons,List.length_append,List.length_cons]
    omega

/-- The loop stays in its buffer just where everything it writes fits. -/
theorem urlEncodeLoop_eq {cap : ℤ} (url out : Bytes) (hout : (out.length : ℤ) ≤ cap) :
    urlEncodeLoop cap url out =
      if ((out ++ url.flatMap urlEncodeChar).length : ℤ) ≤ cap
      then some (out ++ url.flatMap urlEncodeChar) else none := by
  induction url generalizing out with
  | nil =>
    rw [List.flatMap_nil,List.append_nil,if_pos hout]
    rfl
  | cons u url ih =>
    rw [urlEncodeLoop,putIn,List.flatMap_cons,← List.append_assoc]
    by_cases hfit : (out.length+(urlEncodeChar u).length : ℤ) ≤ cap
    · rw [if_pos hfit,Option.bind_some,ih]
      rw [List.length_append]
      exact_mod_cast hfit
    · rw [if_neg hfit,if_neg]
      · rfl
      · simp only [List.length_append,Nat.cast_add]
        omega

theorem urlEncodeBuf_eq_none {url : Bytes} (hne : url ≠ []) (hnul : 0 ∉ url)
    (hcap : int32 (url.length*3) < url.length) : urlEncodeBuf url = none := by
  obtain ⟨u,rest,rfl⟩ := List.exists_cons_of_ne_nil hne
  rw [urlEncodeBuf,if_neg hne,cstr_of_nul_free hnul]
  obtain ⟨hchar,-⟩ := length_urlEncodeChar u
  obtain ⟨hrest,-⟩ := length_flatMap_urlEncodeChar rest
  generalize int32 ((u::rest).length*3) = cap at *
  rw [urlEncodeLoop,putIn]
  by_cases hfit : (([] : Bytes).length+(urlEncodeChar u).length : ℤ) ≤ cap
  · rw [if_pos hfit,Option.bind_some,List.nil_append,urlEncodeLoop_eq,if_neg]
    · simp only [List.length_append,List.length_cons,Nat.cast_add] at hcap ⊢
      omega
    · rw [List.length_nil] at hfit
      omega
  · rw [if_neg hfit]
    rfl

theorem urlEncodeBuf_eq_some {url : Bytes} (hnul : 0 ∉ url) (hlen : url.length*3 < 2^31) :
    urlEncodeBuf url = some (urlEncode url) := by
  by_cases hne : url = []
  · rw [hne]
    rfl
  · have hcap : int32 (url.length*3) = url.length*3 := int32_of_mem ⟨by omega,by omega⟩
    obtain ⟨-,hhigh⟩ := length_flatMap_urlEncodeChar url
    rw [urlEncodeBuf,if_neg hne,urlEncode,cstr_of_nul_free hnul,hcap,urlEncodeLoop_eq,List.nil_append,
      if_pos (by omega)]
    rw [List.length_nil]
    omega

/-- Three times the length of a longer text is no `int`, and what it wraps to is too small. -/
theorem int32_triple_lt {n : ℤ} (hlow : 2^31 ≤ n*3) (hhigh : n < 2^31-1) : int32 (n*3) < n := by
  have hwraps : n*3/2^32 = 0 ∨ n*3/2^32 = 1 := by omega
  unfold int32
  rw [Int.bmod_def]
  rcases hwraps with h | h <;> omega

/-- A text comes back, and is written inside the buffer, where three times its length is an `int`. -/
theorem urlCoding_iff {url : Bytes} (hnul : 0 ∉ url) (hlen : url.length < 2^31-1) :
    (∃ out, urlEncodeBuf url = some out ∧ urlDecode out = url ∧ ∀ c ∈ out, FieldByte c) ↔
      url.length*3 < 2^31 := by
  constructor
  · rintro ⟨out,hout,-⟩
    by_contra hlong
    have hne : url ≠ [] := by
      rintro rfl
      exact hlong (by decide)
    rw [urlEncodeBuf_eq_none hne hnul (int32_triple_lt (by omega) (by omega))] at hout
    cases hout
  · intro hshort
    exact ⟨_,urlEncodeBuf_eq_some hnul hshort,urlDecode_urlEncode hnul,urlEncode_field url⟩

theorem urlCoding_iff_query : (∃ out, urlEncodeBuf (str "a=1&b=2") = some out ∧
    urlDecode out = str "a=1&b=2" ∧ ∀ c ∈ out, FieldByte c) ↔ (str "a=1&b=2").length*3 < 2^31 :=
  urlCoding_iff (by decide) (by decide)

theorem urlEncodeBuf_replicate {n : ℕ} (hlow : 2^31 ≤ n*3) (hhigh : n < 2^31-1) :
    urlEncodeBuf (List.replicate n (ch 'a')) = none := by
  apply urlEncodeBuf_eq_none
  · intro hnil
    have hzero := congrArg List.length hnil
    rw [List.length_replicate,List.length_nil] at hzero
    omega
  · intro hmem
    exact absurd (List.eq_of_mem_replicate hmem) (by decide)
  · rw [List.length_replicate]
    exact int32_triple_lt (by omega) (by omega)

/-- The buffer for 715827883 letters is none at all. -/
theorem urlCoding_overruns : ¬∃ out, urlEncodeBuf (List.replicate 715827883 (ch 'a')) = some out ∧
    urlDecode out = List.replicate 715827883 (ch 'a') ∧ ∀ c ∈ out, FieldByte c := by
  rintro ⟨out,hout,-⟩
  rw [urlEncodeBuf_replicate (by norm_num) (by norm_num)] at hout
  cases hout

end Smx
