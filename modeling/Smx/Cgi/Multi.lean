import Smx.Base.Bytes
import Smx.Cgi.FormMap

/-! `ParseMulti`: a form that was sent in several parts, each with headers and a body of its own. -/
namespace Smx

/-- Line feed, two dashes and the boundary: what `ParseMultiBody` looks for. -/
def delimiter (bound : Bytes) : Bytes := ch '\n'::ch '-'::ch '-'::bound

/-- The first delimiter: what stands before it, and behind it. -/
def findDelimiter (bound : Bytes) : Bytes → Option (Bytes × Bytes)
  | [] => none
  | c::p =>
    if delimiter bound <+: c::p then some ([],(c::p).drop (delimiter bound).length)
    else (findDelimiter bound p).map fun r => (c::r.1,r.2)

/-- `ParseMultiBody`: the body, and what stands behind the delimiter; length 0 stands for no delimiter. -/
def parseMultiBody (bound p : Bytes) : Bytes × Bytes :=
  match findDelimiter bound p with
  | none => ([],[])
  -- a CR in front of the delimiter is optional
  | some (b,p) => (if b.getLast? = some (ch '\r') then b.dropLast else b,p)

/-- `*vname` and `*fname`, where `none` is a null pointer. -/
structure DispNames where
  vname : Option Bytes
  fname : Option Bytes
  deriving DecidableEq

def DispNames.put (names : DispNames) (n v : Bytes) : DispNames :=
  if SameName n (str "name") then { names with vname := some v }
  else if SameName n (str "filename") then { names with fname := some v }
  else names

/-- The value behind a `=` and its blanks, and where the next name begins. `set` says that `v2` is no null pointer,
as it is until a value has been closed; `none` where it is read. -/
def dispValue (set : Bool) (p : Bytes) : Option (Bytes × Bytes) :=
  if p.head? = some (ch '"') then
    if ch '"' ∈ p.tail then
      some (rtrim (p.tail.takeWhile (· != ch '"')),((p.tail.dropWhile (· != ch '"')).drop 2).dropWhile isspace)
    else if set then some (p.tail,[]) else none
  -- the `;` is made a NUL, at which the loop ends
  else if ch ';' ∈ p then some (rtrim (p.takeWhile (· != ch ';')),[])
  else if set then some (p,[]) else none

/-- The loop of `ParseCDisp`, with the name so far. -/
def parseCDispLoop : ℕ → Bytes → Bool → DispNames → Bytes → Option DispNames
  | _,_,_,names,[] => some names
  | 0,_,_,_,_::_ => none
  | k+1,n,set,names,c::p =>
    if c = ch '=' then
      (dispValue set (p.dropWhile isspace)).bind fun r => parseCDispLoop k [] true (names.put n r.1) r.2
    else if c = ch ';' then parseCDispLoop k [] set names (p.dropWhile isspace)
    else parseCDispLoop k (n ++ [c]) set names p

/-- `ParseCDisp` on a C string. -/
def parseCDisp (str : Bytes) : Option DispNames :=
  parseCDispLoop str.length [] false ⟨none,none⟩ (str.dropWhile isspace)

/-- The calls of `Set` for a part: the file name goes to `myFormMap` and the body to `myFileMap`, or the body to
`myFormMap`. -/
structure Upload where
  name : Bytes
  file : Option Bytes
  body : Bytes
  deriving DecidableEq

/-- Behind a blank line; `none` where `c_disp` is read before it was set. The names are made C strings in place, so
that only the text before the first `=` is left of `c_disp`. -/
def multiBody (bound : Bytes) (c_disp : Option Bytes) (p : Bytes) : Option (List Upload × Option Bytes × Bytes) :=
  let (b,p) := parseMultiBody bound p
  if b = [] then some ([],c_disp,p)
  else
    c_disp.bind fun str => (parseCDisp str).map fun names =>
      -- for `Set` a null name is the empty one
      ([⟨names.vname.getD [],names.fname,b⟩],some (str.takeWhile (· != ch '=')),p)

/-- Behind the end of a line, where there is one here. -/
def lineEnd (p : Bytes) : Option Bytes :=
  if p.head? = some (ch '\n') then some p.tail
  else if p.take 2 = [ch '\r',ch '\n'] then some (p.drop 2)
  else none

/-- The value of a header and what is left behind the NUL that closes it; `p` is the text behind the colon. -/
def headerValue (p : Bytes) : Bytes × Bytes :=
  let v1 := p.dropWhile isspace
  let line := v1.takeWhile fun c => c != ch '\n' && c != 0
  -- from an empty line `v2` goes back to the colon
  if line = [] then ([],p.tail) else (rtrim line,v1.drop ((rtrim line).length+1))

/-- One round of the loop of `ParseMulti`: the calls of `Set`, the name so far, `c_disp`, and what is left. -/
def multiStep (bound n : Bytes) (c_disp : Option Bytes) (c : Byte) (p : Bytes) :
    Option (List Upload × Bytes × Option Bytes × Bytes) :=
  if c = ch '\n' then
    match lineEnd p with
    | some q => (multiBody bound c_disp q).map fun r => (r.1,n,r.2)
    | none => some ([],[],c_disp,p.dropWhile isspace)
  else if c = ch ':' then
    let (v,q) := headerValue p
    some ([],[],if SameName (cstr n) (str "content-disposition") then some v else c_disp,q)
  else some ([],n ++ [c],c_disp,p)

def multiLoop (bound : Bytes) : ℕ → Bytes → Option Bytes → Bytes → Option (List Upload)
  | _,_,_,[] => some []
  | 0,_,_,_::_ => none
  | k+1,n,c_disp,c::p =>
    (multiStep bound n c_disp c p).bind fun r => (multiLoop bound k r.2.1 r.2.2.1 r.2.2.2).map (r.1 ++ ·)

/-- `ParseMulti` on the bytes of the message, behind which there is a NUL; `none` where a pointer that was not set
is read. -/
def parseMulti (bound str : Bytes) : Option (List Upload) :=
  let p := if ch '-'::ch '-'::bound <+: str then str.drop (bound.length+2) else str
  multiLoop bound str.length [] none (p.dropWhile isspace)

/-- `myFormMap` and `myFileMap` after the calls. -/
def addParts (maps : FormMap × FormMap) (us : List Upload) : FormMap × FormMap :=
  us.foldl (fun maps u => (maps.1.set u.name (u.file.getD u.body),
    match u.file with
    | none => maps.2
    | some _ => maps.2.set u.name u.body)) maps

/-! ### The message -/

def crlf : Bytes := [ch '\r',ch '\n']

structure Header where
  name : Bytes
  value : Bytes
  deriving DecidableEq

def Header.text (h : Header) : Bytes := h.name ++ ch ':'::h.value ++ crlf

/-- A parameter of a disposition, with a quoted value. -/
structure Param where
  gap : Bytes
  key : Bytes
  value : Bytes
  deriving DecidableEq

def Param.text (q : Param) : Bytes := ch ';'::q.gap ++ q.key ++ ch '='::ch '"'::q.value ++ [ch '"']

/-- A part: its disposition among further headers, and its body. -/
structure Part where
  before : List Header
  label : Bytes
  kind : Bytes
  params : List Param
  after : List Header
  body : Bytes
  name : Bytes
  file : Option Bytes
  deriving DecidableEq

namespace Part

def disposition (p : Part) : Header := ⟨p.label,p.kind ++ p.params.flatMap Param.text⟩

def headers (p : Part) : List Header := p.before ++ p.disposition::p.after

def text (p : Part) : Bytes := p.headers.flatMap Header.text ++ crlf ++ p.body

def upload (p : Part) : Upload := ⟨p.name,p.file,p.body⟩

end Part

def formMessage (bound : Bytes) (parts : List Part) : Bytes :=
  ch '-'::ch '-'::bound ++ parts.flatMap (fun p => crlf ++ p.text ++ ch '\r'::delimiter bound) ++
    ch '-'::ch '-'::crlf

/-- A boundary is no end of a line, and a C string. -/
structure Boundary (bound : Bytes) : Prop where
  cr : ch '\r' ∉ bound
  lf : ch '\n' ∉ bound
  nul : 0 ∉ bound

structure Header.WellFormed (h : Header) : Prop where
  name : h.name ≠ []
  token : ∀ c ∈ h.name, isspace c = false ∧ c ≠ ch ':' ∧ c ≠ 0
  value : ∀ c ∈ h.value, c ≠ ch '\n' ∧ c ≠ 0

/-- The name a disposition has. -/
def IsDisposition (name : Bytes) : Prop := SameName name (str "content-disposition")

structure Param.WellFormed (q : Param) : Prop where
  gap : ∀ c ∈ q.gap, isspace c = true ∧ c ≠ ch '\n'
  key : ∀ c ∈ q.key, isspace c = false ∧ c ≠ ch '=' ∧ c ≠ ch ';' ∧ c ≠ 0
  value : ∀ c ∈ q.value, c ≠ ch '"' ∧ c ≠ ch '\n' ∧ c ≠ 0

/-- The values of the parameters with a name. -/
def valuesOf (name : Bytes) (params : List Param) : List Bytes :=
  (params.filter fun q => SameName q.key name).map Param.value

/-- There is one name and at most one file name, and no line of the part is the delimiter. -/
structure Part.WellFormed (bound : Bytes) (p : Part) : Prop where
  further : ∀ h ∈ p.before ++ p.after, h.WellFormed ∧ ¬IsDisposition h.name
  label : IsDisposition p.label
  kind : ∀ c ∈ p.kind, c ≠ ch '=' ∧ c ≠ ch ';' ∧ c ≠ ch '\n' ∧ c ≠ 0
  params : ∀ q ∈ p.params, q.WellFormed
  name : valuesOf (str "name") p.params = [p.name]
  file : valuesOf (str "filename") p.params = p.file.toList
  delimiter : ¬ch '\r'::delimiter bound <:+: crlf ++ p.text

/-- Each part comes back. -/
def Recovers (bound : Bytes) (parts : List Part) : Prop :=
  parseMulti bound (formMessage bound parts) = some (parts.map Part.upload)

def Header.blank (h : Header) : Bool := h.value.all isspace

/-- The headers that are read: a header without a value takes the next line for it. Where there is none, the body is
spoilt, unless it begins with a NUL. -/
def headersRead (body : Bytes) : List Header → Option (List Header)
  | [] => some []
  | [h] => if h.blank = true ∧ (body.dropWhile isspace).head? ≠ some 0 then none else some [h]
  | h::g::hs =>
    if h.blank then (headersRead body hs).map (h::·) else (headersRead body (g::hs)).map (h::·)

namespace Part

/-- The headers end with the blank line, and the body and the names are put down as they are. -/
structure Kept (bound : Bytes) (p : Part) : Prop where
  headers : headersRead p.body p.headers ≠ none
  body : p.body ≠ []
  delimiter : ¬delimiter bound <:+: p.body
  name : rtrim p.name = p.name
  file : ∀ f ∈ p.file, rtrim f = f

/-- The disposition is read. -/
def Disposed (p : Part) : Prop := ∃ hs, headersRead p.body p.headers = some hs ∧ p.disposition ∈ hs

/-- The names are those of a part whose disposition is not read. -/
def Nameless (p : Part) : Prop := p.name = [] ∧ p.file = none

end Part

structure ReadableForm (bound : Bytes) (parts : List Part) : Prop where
  kept : ∀ p ∈ parts, p.Kept bound
  first : ∀ p ∈ parts.head?, p.Disposed
  rest : ∀ p ∈ parts.tail, p.Disposed ∨ p.Nameless

variable {bound n p q b rest : Bytes} {c_disp : Option Bytes} {c : Byte} {k : ℕ}

/-! ### The delimiter -/

theorem Boundary.cr_not_mem (hb : Boundary bound) : ch '\r' ∉ delimiter bound := by
  simp only [delimiter,List.mem_cons,not_or]
  exact ⟨by decide,by decide,by decide,hb.cr⟩

/-- A delimiter does not go on across a CR. -/
theorem prefix_before_cr (hb : Boundary bound) {s : Bytes} (h : delimiter bound <+: p ++ ch '\r'::s) :
    delimiter bound <+: p := by
  obtain hle | hle := Nat.lt_or_ge p.length (delimiter bound).length
  · have hlong : p ++ [ch '\r'] <+: p ++ ch '\r'::s := ⟨s,List.append_assoc p _ s⟩
    have hcr : p ++ [ch '\r'] <+: delimiter bound := by
      refine List.prefix_of_prefix_length_le hlong h ?_
      rw [List.length_append]
      exact hle
    exact absurd (hcr.subset (List.mem_append_right p List.mem_cons_self)) hb.cr_not_mem
  · exact List.prefix_of_prefix_length_le h (List.prefix_append p _) hle

theorem findDelimiter_eq {r : Bytes × Bytes} (h : findDelimiter bound p = some r) :
    p = r.1 ++ delimiter bound ++ r.2 ∧ ¬delimiter bound <:+: r.1 := by
  induction p generalizing r with
  | nil => cases h
  | cons c p ih =>
    rw [findDelimiter] at h
    split_ifs at h with hc
    · obtain rfl := Option.some.inj h
      obtain ⟨s,hs⟩ := hc
      refine ⟨?_,fun hin => by cases List.eq_nil_of_infix_nil hin⟩
      rw [← hs,List.drop_left,List.nil_append]
    · obtain ⟨r',hr',rfl⟩ := Option.map_eq_some_iff.mp h
      obtain ⟨heq,hfree⟩ := ih hr'
      refine ⟨congrArg (List.cons c) heq,fun hin => ?_⟩
      obtain hpre | hin := List.infix_cons_iff.mp hin
      · refine hc (hpre.trans ?_)
        rw [heq,List.append_assoc]
        exact List.prefix_append (c::r'.1) _
      · exact hfree hin

theorem not_infix_of_find (h : findDelimiter bound p = none) : ¬delimiter bound <:+: p := by
  induction p with
  | nil => exact fun hin => by cases List.eq_nil_of_infix_nil hin
  | cons c p ih =>
    rw [findDelimiter] at h
    split_ifs at h with hc
    exact fun hin => (List.infix_cons_iff.mp hin).elim hc (ih (Option.map_eq_none_iff.mp h))

theorem findDelimiter_here (h : delimiter bound <+: p) :
    findDelimiter bound p = some ([],p.drop (delimiter bound).length) := by
  cases p with
  | nil => cases List.prefix_nil.mp h
  | cons c p => rw [findDelimiter,if_pos h]

theorem findDelimiter_append (hb : Boundary bound) (h : ¬delimiter bound <:+: b) (rest : Bytes) :
    findDelimiter bound (b ++ ch '\r'::(delimiter bound ++ rest)) = some (b ++ [ch '\r'],rest) := by
  have hnext (c : Byte) (p : Bytes) (hc : ¬delimiter bound <+: c::p) :
      findDelimiter bound (c::p) = (findDelimiter bound p).map fun r => (c::r.1,r.2) := by
    rw [findDelimiter,if_neg hc]
  induction b with
  | nil =>
    have hcr : ¬delimiter bound <+: ch '\r'::(delimiter bound ++ rest) := fun hpre => by
      cases List.prefix_nil.mp (prefix_before_cr hb hpre)
    rw [List.nil_append,hnext _ _ hcr,findDelimiter_here (List.prefix_append _ rest),List.drop_left]
    rfl
  | cons c b ih =>
    obtain ⟨hpre,hin⟩ := not_or.mp (mt List.infix_cons_iff.mpr h)
    have hc : ¬delimiter bound <+: c::(b ++ ch '\r'::(delimiter bound ++ rest)) := fun hpre' =>
      hpre (prefix_before_cr hb hpre')
    exact (hnext _ _ hc).trans (by rw [ih hin]; rfl)

theorem parseMultiBody_append (hb : Boundary bound) (h : ¬delimiter bound <:+: b) (rest : Bytes) :
    parseMultiBody bound (b ++ ch '\r'::(delimiter bound ++ rest)) = (b,rest) := by
  rw [parseMultiBody,findDelimiter_append hb h]
  simp only [List.getLast?_append,List.getLast?_singleton,Option.some_or,if_true,List.dropLast_concat]

/-- The body stands in front of a delimiter, and does not contain one. -/
theorem parseMultiBody_suffix (h : (parseMultiBody bound p).1 ≠ []) :
    ∃ s, s ++ delimiter bound ++ (parseMultiBody bound p).2 = p ∧ ¬delimiter bound <:+: s ∧
      (parseMultiBody bound p).1 <+: s := by
  rw [parseMultiBody] at h ⊢
  cases hfind : findDelimiter bound p with
  | none =>
    rw [hfind] at h
    exact absurd rfl h
  | some r =>
    obtain ⟨heq,hfree⟩ := findDelimiter_eq hfind
    refine ⟨r.1,heq.symm,hfree,?_⟩
    dsimp only
    split_ifs with hcr
    · exact List.dropLast_prefix r.1
    · exact List.prefix_rfl

theorem parseMultiBody_snd_suffix (bound p : Bytes) : (parseMultiBody bound p).2 <:+ p := by
  rw [parseMultiBody]
  cases hfind : findDelimiter bound p with
  | none => exact List.nil_suffix
  | some r =>
    obtain ⟨heq,-⟩ := findDelimiter_eq hfind
    exact heq ▸ List.suffix_append _ r.2

/-! ### A round of the loop -/

theorem headerValue_suffix (p : Bytes) : (headerValue p).2 <:+ p := by
  rw [headerValue]
  split_ifs with hline
  · exact List.tail_suffix p
  · exact (List.drop_suffix _ _).trans (List.dropWhile_suffix _)

theorem lineEnd_suffix (h : lineEnd p = some q) : q <:+ p := by
  rw [lineEnd] at h
  split_ifs at h
  · exact Option.some.inj h ▸ List.tail_suffix p
  · exact Option.some.inj h ▸ List.drop_suffix 2 p

/-- What a round can do: go on without a call, or put down a body from behind a blank line. -/
theorem multiStep_cases {r : List Upload × Bytes × Option Bytes × Bytes}
    (h : multiStep bound n c_disp c p = some r) :
    r.1 = [] ∧ r.2.2.2 <:+ p ∨
    ∃ q str names, q <:+ p ∧ (parseMultiBody bound q).1 ≠ [] ∧ parseCDisp str = some names ∧
      r = ([⟨names.vname.getD [],names.fname,(parseMultiBody bound q).1⟩],n,
        some (str.takeWhile (· != ch '=')),(parseMultiBody bound q).2) := by
  rw [multiStep] at h
  by_cases hlf : c = ch '\n'
  · rw [if_pos hlf] at h
    cases hend : lineEnd p with
    | none =>
      rw [hend] at h
      obtain rfl := Option.some.inj h
      exact .inl ⟨rfl,List.dropWhile_suffix _⟩
    | some q =>
      rw [hend] at h
      obtain ⟨r',hr',rfl⟩ := Option.map_eq_some_iff.mp h
      have hq := lineEnd_suffix hend
      rw [multiBody] at hr'
      dsimp only at hr'
      split_ifs at hr' with hbody
      · obtain rfl := Option.some.inj hr'
        exact .inl ⟨rfl,(parseMultiBody_snd_suffix bound q).trans hq⟩
      · obtain ⟨str,hstr,hr'⟩ := Option.bind_eq_some_iff.mp hr'
        obtain ⟨names,hnames,rfl⟩ := Option.map_eq_some_iff.mp hr'
        exact .inr ⟨q,str,names,hq,hbody,hnames,rfl⟩
  · rw [if_neg hlf] at h
    by_cases hcolon : c = ch ':'
    · rw [if_pos hcolon] at h
      obtain rfl := Option.some.inj h
      exact .inl ⟨rfl,headerValue_suffix p⟩
    · rw [if_neg hcolon] at h
      obtain rfl := Option.some.inj h
      exact .inl ⟨rfl,List.suffix_rfl⟩

theorem multiStep_suffix {r : List Upload × Bytes × Option Bytes × Bytes}
    (h : multiStep bound n c_disp c p = some r) : r.2.2.2 <:+ p := by
  obtain ⟨-,hr⟩ | ⟨q,str,names,hq,-,-,rfl⟩ := multiStep_cases h
  · exact hr
  · exact (parseMultiBody_snd_suffix bound q).trans hq

/-- With enough rounds it does not matter how many there are. -/
theorem multiLoop_fuel {j : ℕ} (hk : p.length ≤ k) (hj : p.length ≤ j) :
    multiLoop bound k n c_disp p = multiLoop bound j n c_disp p := by
  induction k generalizing j n c_disp p with
  | zero =>
    obtain rfl := List.length_eq_zero_iff.mp (Nat.le_zero.mp hk)
    rw [multiLoop.eq_1,multiLoop.eq_1]
  | succ k ih =>
    cases p with
    | nil => rw [multiLoop.eq_1,multiLoop.eq_1]
    | cons c p =>
      obtain ⟨j,rfl⟩ : ∃ i, j = i+1 := ⟨j-1,by rw [List.length_cons] at hj; omega⟩
      rw [multiLoop,multiLoop]
      refine Option.bind_congr fun r hr => ?_
      have hle := (multiStep_suffix hr).length_le
      rw [ih (hle.trans (Nat.le_of_succ_le_succ hk)) (hle.trans (Nat.le_of_succ_le_succ hj))]

/-- The loop, with a round for each byte. -/
def multiScan (bound n : Bytes) (c_disp : Option Bytes) (p : Bytes) : Option (List Upload) :=
  multiLoop bound p.length n c_disp p

theorem multiScan_cons : multiScan bound n c_disp (c::p) =
    (multiStep bound n c_disp c p).bind fun r => (multiScan bound r.2.1 r.2.2.1 r.2.2.2).map (r.1 ++ ·) := by
  rw [multiScan,List.length_cons,multiLoop]
  refine Option.bind_congr fun r hr => ?_
  rw [multiScan,multiLoop_fuel (multiStep_suffix hr).length_le le_rfl]
end Smx
