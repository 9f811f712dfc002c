import Mathlib.Data.List.Perm.Basic
import Smx.Base.Bytes

/-! `html-clean`: tags that are allowed are copied, others left out, and those left open are closed. -/
namespace Smx

/-- The loop of `ParseAry`, with the item so far; `none` where it never ends, or reads on behind the terminator. -/
def parseAryFrom (toks : Bytes) : Bytes → Bytes → Option (List Bytes)
  | o,[] => some (if o = [] then [] else [o])
  | o,c::p =>
    if c ∈ toks then
      match p with
      -- the character behind a separator is passed over, also where it is the terminator
      | [] => none
      -- the loop that looks for a character which is no separator does not move on
      | d::p => if toks.head? = some d then none else (parseAryFrom toks [d] p).map (o::·)
    else parseAryFrom toks (o ++ [c]) p

def parseAry (p toks : Bytes) : Option (List Bytes) := parseAryFrom toks [] p

/-- The values in the tag tables: -1, 0 and 1. -/
inductive TagKind
  | strip
  | nostate
  | state
  deriving DecidableEq

/-- `Find` in a table, given as the list of the calls of `Set`. -/
def findTag (name : Bytes) : List (Bytes × TagKind) → Option TagKind
  | [] => none
  | e::tags =>
    match findTag name tags with
    | some kind => some kind
    | none => if SameName e.1 name then some e.2 else none

/-- `myTags` -/
def myTags : List (Bytes × TagKind) :=
  (["br","dd","dt","hr","img","li","p","input"].map fun t => (str t,.nostate)) ++
  (["a","address","b","blink","center","code","dl","em","font","form","h1","h2","h3","h4","h5","h6","i","ol","pre",
    "select","strong","textarea","tt","u","ul"].map fun t => (str t,.state))

/-- The table of the lists given by the caller. -/
def callerTags (ok_strip ok_nostate ok_state : Bytes) : Option (List (Bytes × TagKind)) := do
  let nostate ← parseAry ok_nostate (str ",;")
  let state ← parseAry ok_state (str ",;")
  let strip ← parseAry ok_strip (str ",;")
  pure (nostate.map (·,.nostate) ++ state.map (·,.state) ++ strip.map (·,.strip))

/-- The kind of a tag, by the table of the caller or else by `myTags`. -/
def tagKind (tags : List (Bytes × TagKind)) (name : Bytes) : Option TagKind :=
  match findTag name tags with
  | some kind => some kind
  | none => findTag name myTags

/-- What ends the name of a tag. -/
def isTagEnd (c : Byte) : Bool := isspace c || c == ch '>'

/-- The `/` behind a `<`, and the blanks behind it. -/
def slash (p : Bytes) : Bytes := if p.head? = some (ch '/') then ch '/'::p.tail.takeWhile isspace else []

def nameStart (p : Bytes) : Bytes := if p.head? = some (ch '/') then p.tail.dropWhile isspace else p

/-- The name of a tag, and what stands behind it; `p` is the text behind the `<`. -/
def tagName (p : Bytes) : Bytes := (nameStart p).takeWhile fun c => !isTagEnd c

def behindName (p : Bytes) : Bytes := (nameStart p).dropWhile fun c => !isTagEnd c

/-- A piece of the output. -/
inductive Token
  | text (c : Byte)
  | tag (cl : Bool) (name whole : Bytes)
  deriving DecidableEq

def Token.bytes : Token → Bytes
  | text c => [c]
  | tag _ _ whole => whole

/-- `state`: the names of tags, and how many of them are open. -/
abbrev TagState := List (Bytes × ℤ)

def TagState.bump (name : Bytes) (by_ : ℤ) : TagState → TagState
  | [] => [(name,by_)]
  | e::state => if SameName e.1 name then (e.1,e.2+by_)::state else e::bump name by_ state

/-- The loop over the text, with a unit of fuel for each character. The result is `none` where the search for the end
of a name goes on behind the terminator. -/
def cleanLoop (tags : List (Bytes × TagKind)) : ℕ → Bytes → TagState → Option (List Token × TagState)
  | 0,_,state => some ([],state)
  | _+1,[],state => some ([],state)
  | n+1,c::p,state =>
    if c = ch '<' then
      let cl : Bool := p.head? = some (ch '/')
      let name := tagName p
      let rest := behindName p
      if rest = [] then none
      else
        let left := rest.dropWhile (· != ch '>')
        let whole := ch '<'::slash p ++ name ++ rest.takeWhile (· != ch '>') ++ left.take 1
        match tagKind tags name with
        | none => cleanLoop tags n left.tail state
        | some .strip => cleanLoop tags n left.tail state
        | some .nostate => (cleanLoop tags n left.tail state).map fun r => (.tag cl name whole::r.1,r.2)
        | some .state =>
          (cleanLoop tags n left.tail (state.bump name (if cl then -1 else 1))).map fun r =>
            (.tag cl name whole::r.1,r.2)
    else (cleanLoop tags n p state).map fun r => (.text c::r.1,r.2)

/-- A closing tag. -/
def closeTag (name : Bytes) : Bytes := ch '<'::ch '/'::name ++ [ch '>']

/-- The closing tags for what is still open. -/
def closers (state : TagState) : List Token :=
  state.flatMap fun e => List.replicate e.2.toNat (.tag true e.1 (closeTag e.1))

/-- The order in which a table is gone through. -/
structure ScanOrder where
  scan : TagState → TagState
  perm : ∀ state, (scan state).Perm state

/-- `EvalHtmlClean`: the pieces put out. -/
def evalHtmlClean (order : ScanOrder) (html ok_strip ok_nostate ok_state : Bytes) : Option (List Token) := do
  let tags ← callerTags ok_strip ok_nostate ok_state
  let r ← cleanLoop tags (cstr html).length (cstr html) []
  pure (r.1 ++ closers (order.scan r.2))

/-- A list that `ParseAry` reads: behind each separator stands a character, and not another first separator. What
stands there begins an item whatever it is. -/
def ListOk (toks : Bytes) : Bytes → Prop
  | [] => True
  | c::p =>
    if c ∈ toks then
      match p with
      | [] => False
      | d::p => toks.head? ≠ some d ∧ ListOk toks p
    else ListOk toks p

/-- A tag that may be put out. -/
def Allowed (tags : List (Bytes × TagKind)) (name : Bytes) : Prop :=
  tagKind tags name = some .nostate ∨ tagKind tags name = some .state

/-- What stands behind the `<` of a tag: a `/` with blanks, a name, and the rest from its end on. -/
structure TagText (cl : Bool) (mark name rest : Bytes) : Prop where
  mark : if cl then ∃ w, mark = ch '/'::w ∧ ∀ c ∈ w, isspace c = true else mark = []
  start : ∀ c, (name ++ rest).head? = some c → if cl then isspace c = false else c ≠ ch '/'
  name : ∀ c ∈ name, isTagEnd c = false
  rest : ∃ c, rest.head? = some c ∧ isTagEnd c = true

/-- A text in which the name of every tag ends, and its pieces: characters, and tags up to a `>` or the end. -/
inductive Lexes : Bytes → List Token → Prop
  | nil : Lexes [] []
  | text {c : Byte} {s : Bytes} {toks : List Token} (hc : c ≠ ch '<') (h : Lexes s toks) :
    Lexes (c::s) (.text c::toks)
  | tag {cl : Bool} {mark name body s : Bytes} {toks : List Token} (ht : TagText cl mark name (body ++ ch '>'::s))
    (hbody : ch '>' ∉ body) (h : Lexes s toks) : Lexes (ch '<'::(mark ++ name ++ (body ++ ch '>'::s)))
      (.tag cl name (ch '<'::mark ++ name ++ body ++ [ch '>'])::toks)
  | last {cl : Bool} {mark name body : Bytes} (ht : TagText cl mark name body) (hbody : ch '>' ∉ body) :
    Lexes (ch '<'::(mark ++ name ++ body)) [.tag cl name (ch '<'::mark ++ name ++ body)]

namespace Token

/-- An opening tag of a name. -/
def opens (name : Bytes) : Token → Bool
  | tag false name' _ => SameName name' name
  | _ => false

/-- A closing tag of a name. -/
def closes (name : Bytes) : Token → Bool
  | tag true name' _ => SameName name' name
  | _ => false

end Token

/-- The opening tags of a name that the closing ones leave over. -/
def balance (name : Bytes) (toks : List Token) : ℤ := toks.countP (Token.opens name)-toks.countP (Token.closes name)

instance (tags : List (Bytes × TagKind)) (name : Bytes) : Decidable (Allowed tags name) :=
  inferInstanceAs (Decidable (_ ∨ _))

/-- A piece that is put out. -/
def passes (tags : List (Bytes × TagKind)) : Token → Bool
  | .text _ => true
  | .tag _ name _ => Allowed tags name

/-- What a piece changes in `state`. -/
def TagState.after (tags : List (Bytes × TagKind)) (state : TagState) : Token → TagState
  | .text _ => state
  | .tag cl name _ => if tagKind tags name = some .state then state.bump name (if cl then -1 else 1) else state

/-- How many tags of a name are open. -/
def TagState.value (name : Bytes) : TagState → ℤ
  | [] => 0
  | e::state => if SameName e.1 name then e.2 else TagState.value name state

/-- Every `<` put out begins an allowed tag, and every opening tag that is to be closed has a closing tag of its own
behind it: from each place on there are as many closing tags as opening ones. -/
structure SafeHtml (tags : List (Bytes × TagKind)) (out : List Token) : Prop where
  allowed : ∀ t ∈ out, ∀ pre rest, t.bytes = pre ++ ch '<'::rest → Allowed tags (tagName rest)
  closed : ∀ name, tagKind tags name = some .state → ∀ suf, suf <:+ out →
    suf.countP (Token.opens name) ≤ suf.countP (Token.closes name)

/-- The conditions on the pieces of the text. -/
structure CleanText (tags : List (Bytes × TagKind)) (toks : List Token) : Prop where
  /-- A further `<` in an allowed tag begins an allowed tag itself. -/
  inner : ∀ cl name whole, Token.tag cl name whole ∈ toks → Allowed tags name → ∀ pre rest,
    whole = ch '<'::pre ++ ch '<'::rest → Allowed tags (tagName rest)
  /-- So does a `<` in the name of a tag that is left open. -/
  added : ∀ cl name whole, Token.tag cl name whole ∈ toks → tagKind tags name = some .state →
    0 < balance name toks → ∀ pre rest, closeTag name = ch '<'::pre ++ ch '<'::rest → Allowed tags (tagName rest)
  /-- Nowhere are more tags closed than have been opened, but for those that are closed too often at the end. -/
  balanced : ∀ name, tagKind tags name = some .state → ∀ pre, pre <+: toks → min 0 (balance name toks) ≤ balance name pre

section
variable {toks o p q : Bytes} {tags : List (Bytes × TagKind)} {a b : Bytes}

theorem parseAryFrom_isSome : (parseAryFrom toks o p).isSome ↔ ListOk toks p := by
  induction hlen : p.length using Nat.strong_induction_on generalizing o p with
  | _ len ih =>
    cases p with
    | nil => exact iff_of_true rfl trivial
    | cons c p =>
      rw [parseAryFrom.eq_def,ListOk.eq_def]
      simp only
      split
      · cases p with
        | nil => exact iff_of_false Bool.false_ne_true id
        | cons d p =>
          simp only
          split
          next hd => exact iff_of_false Bool.false_ne_true fun h => h.1 hd
          next hd =>
            rw [Option.isSome_map,and_iff_right hd]
            refine ih p.length ?_ rfl
            rw [← hlen]
            exact Nat.lt_succ_of_lt (Nat.lt_succ_self _)
      · refine ih p.length ?_ rfl
        rw [← hlen]
        exact Nat.lt_succ_self _

theorem findTag_congr (h : SameName a b) (tags : List (Bytes × TagKind)) : findTag a tags = findTag b tags := by
  induction tags with
  | nil => rfl
  | cons e tags ih =>
    have hiff : SameName e.1 a ↔ SameName e.1 b := ⟨fun ha => ha.trans h,fun hb => hb.trans h.symm⟩
    rw [findTag,findTag,ih]
    simp only [hiff]

theorem tagKind_congr (h : SameName a b) : tagKind tags a = tagKind tags b := by
  rw [tagKind,tagKind,findTag_congr h,findTag_congr h]

theorem Allowed.congr (h : SameName a b) : Allowed tags a ↔ Allowed tags b := by
  rw [Allowed,Allowed,tagKind_congr h]

theorem isTagEnd_of_isspace {c : Byte} (h : isspace c = true) : isTagEnd c = true := by
  rw [isTagEnd,h]
  rfl

/-- The parts of a tag are found again. -/
theorem TagText.reads {cl : Bool} {mark name rest : Bytes} (h : TagText cl mark name rest) :
    slash (mark ++ name ++ rest) = mark ∧ tagName (mark ++ name ++ rest) = name ∧
      behindName (mark ++ name ++ rest) = rest ∧ decide ((mark ++ name ++ rest).head? = some (ch '/')) = cl := by
  obtain ⟨c,hc,hend⟩ := h.rest
  obtain ⟨rest,rfl⟩ : ∃ r, rest = c::r := by
    cases rest with
    | nil => cases hc
    | cons d r => exact ⟨r,by rw [Option.some.inj hc]⟩
  have hstart : slash (mark ++ name ++ c::rest) = mark ∧ nameStart (mark ++ name ++ c::rest) = name ++ c::rest ∧
      decide ((mark ++ name ++ c::rest).head? = some (ch '/')) = cl := by
    cases cl with
    | true =>
      obtain ⟨w,rfl,hw⟩ := h.mark
      have hhead : ((ch '/'::w) ++ name ++ c::rest).head? = some (ch '/') := rfl
      have hstop : ∀ d, (name ++ c::rest).head? = some d → isspace d = false := h.start
      have htail : ((ch '/'::w) ++ name ++ c::rest).tail = w ++ (name ++ c::rest) := List.append_assoc _ _ _
      rw [slash,nameStart,if_pos hhead,if_pos hhead,htail,List.takeWhile_append_of_pos hw,
        List.dropWhile_append_of_pos hw]
      obtain ⟨d,r,hdr⟩ := List.exists_cons_of_ne_nil (List.append_ne_nil_of_right_ne_nil name (List.cons_ne_nil c rest))
      rw [hdr] at hstop ⊢
      have hd := hstop d rfl
      rw [List.takeWhile_cons_of_neg (by simp [hd]),List.dropWhile_cons_of_neg (by simp [hd]),List.append_nil]
      exact ⟨rfl,rfl,decide_eq_true hhead⟩
    | false =>
      obtain rfl : mark = [] := h.mark
      have hne : ([] ++ name ++ c::rest).head? ≠ some (ch '/') := fun hf => h.start _ hf rfl
      rw [slash,nameStart,if_neg hne,if_neg hne]
      exact ⟨rfl,rfl,decide_eq_false hne⟩
  obtain ⟨hslash,hname,hcl⟩ := hstart
  have hall : ∀ d ∈ name, (!isTagEnd d) = true := fun d hd => by rw [h.name d hd]; rfl
  refine ⟨hslash,?_,?_,hcl⟩
  · rw [tagName,hname,List.takeWhile_append_of_pos hall,List.takeWhile_cons_of_neg (by simp [hend]),List.append_nil]
  · rw [behindName,hname,List.dropWhile_append_of_pos hall,List.dropWhile_cons_of_neg (by simp [hend])]

/-- What the loop finds behind a `<` are the parts of a tag, when there is an end to its name. -/
theorem tagText_of (h : behindName p ≠ []) :
    TagText (decide (p.head? = some (ch '/'))) (slash p) (tagName p) (behindName p) ∧
      p = slash p ++ tagName p ++ behindName p := by
  have hparts : tagName p ++ behindName p = nameStart p := List.takeWhile_append_dropWhile
  refine ⟨⟨?_,?_,?_,?_⟩,?_⟩
  · by_cases hs : p.head? = some (ch '/')
    · rw [decide_eq_true hs,slash,if_pos hs]
      exact ⟨_,rfl,fun c hc => List.mem_takeWhile_imp hc⟩
    · rw [decide_eq_false hs,slash,if_neg hs]
      rfl
  · intro c hc
    rw [hparts,nameStart] at hc
    by_cases hs : p.head? = some (ch '/')
    · rw [if_pos hs] at hc
      rw [decide_eq_true hs]
      have hnot := List.head?_dropWhile_not isspace p.tail
      rw [hc] at hnot
      exact hnot
    · rw [if_neg hs] at hc
      rw [decide_eq_false hs]
      exact fun hslash => hs (hslash ▸ hc)
  · intro c hc
    exact (Bool.not_eq_true' _).mp (List.mem_takeWhile_imp (p := fun c => !isTagEnd c) hc)
  · obtain ⟨c,r,hcr⟩ := List.exists_cons_of_ne_nil h
    refine ⟨c,by rw [hcr]; rfl,?_⟩
    have hnot := List.head?_dropWhile_not (fun c => !isTagEnd c) (nameStart p)
    rw [show (nameStart p).dropWhile (fun c => !isTagEnd c) = c::r from hcr] at hnot
    simpa using hnot
  · rw [List.append_assoc,hparts,slash,nameStart]
    by_cases hs : p.head? = some (ch '/')
    · rw [if_pos hs,if_pos hs,List.cons_append,List.takeWhile_append_dropWhile]
      exact (List.cons_head?_tail hs).symm
    · rw [if_neg hs,if_neg hs]
      rfl

variable {n : ℕ} {ts : List Token}

/-- One round over a tag. -/
theorem cleanLoop_tag (tags : List (Bytes × TagKind)) {cl : Bool} {mark name rest : Bytes}
    (ht : TagText cl mark name rest) (n : ℕ) (st : TagState) :
    let t := Token.tag cl name (ch '<'::mark ++ name ++ rest.takeWhile (· != ch '>') ++
      (rest.dropWhile (· != ch '>')).take 1)
    cleanLoop tags (n+1) (ch '<'::(mark ++ name ++ rest)) st =
      (cleanLoop tags n (rest.dropWhile (· != ch '>')).tail (st.after tags t)).map fun r =>
        ([t].filter (passes tags) ++ r.1,r.2) := by
  intro t
  obtain ⟨hslash,hname,hrest,hcl⟩ := ht.reads
  have hne : rest ≠ [] := by
    obtain ⟨c,hc,-⟩ := ht.rest
    intro hnil
    rw [hnil] at hc
    cases hc
  have hpass : [t].filter (passes tags) = if Allowed tags name then [t] else [] := by
    simp only [List.filter_cons,List.filter_nil,passes,t,decide_eq_true_eq]
  rw [cleanLoop]
  simp only [if_true,hslash,hname,hrest,hcl,if_neg hne,hpass,TagState.after,t]
  cases hkind : tagKind tags name with
  | none => simp [Allowed,hkind]
  | some kind =>
    cases kind with
    | strip => simp [Allowed,hkind]
    | nostate => simp [Allowed,hkind]
    | state => simp [Allowed,hkind]

/-- The loop puts out the allowed pieces of the text, and counts the tags to be closed. -/
theorem cleanLoop_of_lexes (h : Lexes p ts) (hn : p.length ≤ n) (st : TagState) :
    cleanLoop tags n p st = some (ts.filter (passes tags),ts.foldl (TagState.after tags) st) := by
  induction h generalizing n st with
  | nil =>
    cases n with
    | zero => rfl
    | succ n => rfl
  | @text c s toks hc h ih =>
    obtain ⟨n,rfl⟩ : ∃ k, n = k+1 := ⟨n-1,by rw [List.length_cons] at hn; omega⟩
    rw [cleanLoop,if_neg hc,ih (Nat.le_of_succ_le_succ hn)]
    rfl
  | @tag cl mark name body s toks ht hbody h ih =>
    obtain ⟨n,rfl⟩ : ∃ k, n = k+1 := ⟨n-1,by rw [List.length_cons] at hn; omega⟩
    have hall : ∀ c ∈ body, (c != ch '>') = true := fun c hc => bne_iff_ne.mpr fun h => hbody (h ▸ hc)
    have htake : (body ++ ch '>'::s).takeWhile (· != ch '>') = body := by
      rw [List.takeWhile_append_of_pos hall,List.takeWhile_cons_of_neg (by simp),List.append_nil]
    have hdrop : (body ++ ch '>'::s).dropWhile (· != ch '>') = ch '>'::s := by
      rw [List.dropWhile_append_of_pos hall,List.dropWhile_cons_of_neg (by simp)]
    have hlen : s.length ≤ n := by
      simp only [List.length_cons,List.length_append] at hn
      omega
    have hround := cleanLoop_tag tags ht n st
    simp only [htake,hdrop,List.tail_cons,ih hlen] at hround
    rw [hround,Option.map_some,← List.filter_append]
    rfl
  | @last cl mark name body ht hbody =>
    obtain ⟨n,rfl⟩ : ∃ k, n = k+1 := ⟨n-1,by rw [List.length_cons] at hn; omega⟩
    have hall : ∀ c ∈ body, (c != ch '>') = true := fun c hc => bne_iff_ne.mpr fun h => hbody (h ▸ hc)
    have htake : body.takeWhile (· != ch '>') = body := List.takeWhile_eq_self_iff.mpr hall
    have hdrop : body.dropWhile (· != ch '>') = [] := List.dropWhile_eq_nil_iff.mpr hall
    have hend (st : TagState) : cleanLoop tags n [] st = some ([],st) := by
      cases n with
      | zero => rfl
      | succ n => rfl
    have hround := cleanLoop_tag tags ht n st
    simp only [htake,hdrop,List.tail_nil,hend,List.take_nil,List.append_nil] at hround
    rw [hround,Option.map_some,List.append_nil]
    rfl

/-- Where the loop ends, the text is of that form. -/
theorem exists_lexes {r : List Token × TagState} {st : TagState} (h : cleanLoop tags n p st = some r)
    (hn : p.length ≤ n) : ∃ ts, Lexes p ts := by
  induction n generalizing p st r with
  | zero =>
    obtain rfl := List.length_eq_zero_iff.mp (Nat.le_zero.mp hn)
    exact ⟨[],.nil⟩
  | succ n ih =>
    cases p with
    | nil => exact ⟨[],.nil⟩
    | cons c p =>
      have hle := Nat.le_of_succ_le_succ hn
      by_cases hc : c = ch '<'
      · have hne : behindName p ≠ [] := by
          intro hnil
          rw [cleanLoop,if_pos hc,if_pos hnil] at h
          cases h
        obtain ⟨ht,hp⟩ := tagText_of hne
        have hround := cleanLoop_tag tags ht n st
        rw [← hp,← hc,h] at hround
        obtain ⟨r',hr',-⟩ := Option.map_eq_some_iff.mp hround.symm
        have hsplit : (behindName p).takeWhile (· != ch '>') ++ (behindName p).dropWhile (· != ch '>') = behindName p :=
          List.takeWhile_append_dropWhile
        have hbody : ch '>' ∉ (behindName p).takeWhile (· != ch '>') := fun hmem =>
          absurd (List.mem_takeWhile_imp hmem) (by simp)
        cases hleft : (behindName p).dropWhile (· != ch '>') with
        | nil =>
          rw [hleft,List.append_nil] at hsplit
          rw [hsplit] at hbody
          have hlex := Lexes.last ht hbody
          rw [← hp] at hlex
          exact ⟨_,hc ▸ hlex⟩
        | cons d left =>
          obtain rfl : d = ch '>' := by
            have hnot := List.head?_dropWhile_not (· != ch '>') (behindName p)
            rw [hleft] at hnot
            simpa using hnot
          rw [hleft] at hr' hsplit
          have hlen : left.length ≤ n := by
            have hlen := congrArg List.length hp
            rw [← hsplit] at hlen
            simp only [List.length_append,List.length_cons] at hlen
            omega
          obtain ⟨ts,hts⟩ := ih hr' hlen
          rw [← hsplit] at ht
          have hlex := Lexes.tag ht hbody hts
          rw [hsplit,← hp] at hlex
          exact ⟨_,hc ▸ hlex⟩
      · rw [cleanLoop,if_neg hc] at h
        obtain ⟨r',hr',-⟩ := Option.map_eq_some_iff.mp h
        obtain ⟨ts,hts⟩ := ih hr' hle
        exact ⟨_,.text hc hts⟩

/-- The pieces of a text: what is no tag is no `<`, and a tag begins with its name, in which nothing ends it. -/
theorem Lexes.piece (h : Lexes p ts) : (∀ c, Token.text c ∈ ts → c ≠ ch '<') ∧
    ∀ cl name whole, Token.tag cl name whole ∈ ts → (∃ r, whole = ch '<'::r ∧ tagName r = name) ∧
      ∀ c ∈ name, isTagEnd c = false := by
  induction h with
  | nil => exact ⟨fun _ h => absurd h List.not_mem_nil,fun _ _ _ h => absurd h List.not_mem_nil⟩
  | @text c s toks hc h ih =>
    refine ⟨fun d hd => ?_,fun cl name whole hmem => ih.2 cl name whole ((List.mem_cons.mp hmem).resolve_left nofun)⟩
    obtain heq | hmem := List.mem_cons.mp hd
    · exact Token.text.inj heq ▸ hc
    · exact ih.1 d hmem
  | @tag cl mark name body s toks ht hbody h ih =>
    refine ⟨fun d hd => ih.1 d ((List.mem_cons.mp hd).resolve_left nofun),fun cl' name' whole hmem => ?_⟩
    obtain heq | hmem := List.mem_cons.mp hmem
    · obtain ⟨-,rfl,rfl⟩ := Token.tag.inj heq
      have hshort : TagText cl mark name' (body ++ [ch '>']) := by
        have hhead : (body ++ [ch '>']).head? = (body ++ ch '>'::s).head? := by
          cases body with
          | nil => rfl
          | cons c body => rfl
        refine ⟨ht.mark,fun c hc => ht.start c ?_,ht.name,hhead ▸ ht.rest⟩
        rw [← hc,List.head?_append,← hhead,← List.head?_append]
      refine ⟨⟨mark ++ name' ++ (body ++ [ch '>']),?_,hshort.reads.2.1⟩,ht.name⟩
      simp only [List.cons_append,List.append_assoc]
    · exact ih.2 cl' name' whole hmem
  | @last cl mark name body ht hbody =>
    refine ⟨fun d hd => absurd (List.mem_singleton.mp hd) nofun,fun cl' name' whole hmem => ?_⟩
    obtain ⟨-,rfl,rfl⟩ := Token.tag.inj (List.mem_singleton.mp hmem)
    exact ⟨⟨mark ++ name' ++ body,rfl,ht.reads.2.1⟩,ht.name⟩

namespace TagState
variable {st : TagState} {name name' : Bytes}

theorem value_bump (name name' : Bytes) (d : ℤ) (st : TagState) :
    (st.bump name' d).value name = st.value name + if SameName name' name then d else 0 := by
  induction st with
  | nil =>
    rw [bump,value,value,value,Int.zero_add]
  | cons e st ih =>
    rw [bump]
    by_cases he : SameName e.1 name'
    · rw [if_pos he,value,value]
      by_cases hname : SameName e.1 name
      · rw [if_pos hname,if_pos hname,if_pos (he.symm.trans hname)]
      · rw [if_neg hname,if_neg hname,if_neg fun h => hname (he.trans h),Int.add_zero]
    · rw [if_neg he,value,value]
      by_cases hname : SameName e.1 name
      · rw [if_pos hname,if_pos hname,if_neg fun h => he (hname.trans h.symm),Int.add_zero]
      · rw [if_neg hname,if_neg hname,ih]

theorem mem_bump {e : Bytes × ℤ} {d : ℤ} (h : e ∈ st.bump name d) : e.1 = name ∨ ∃ e' ∈ st, e'.1 = e.1 := by
  induction st with
  | nil =>
    rw [bump] at h
    exact .inl (List.mem_singleton.mp h ▸ rfl)
  | cons e' st ih =>
    rw [bump] at h
    split at h
    · obtain rfl | h := List.mem_cons.mp h
      · exact .inr ⟨e',List.mem_cons_self,rfl⟩
      · exact .inr ⟨e,List.mem_cons_of_mem _ h,rfl⟩
    · obtain rfl | h := List.mem_cons.mp h
      · exact .inr ⟨e,List.mem_cons_self,rfl⟩
      · obtain h | ⟨e2,he2,heq⟩ := ih h
        · exact .inl h
        · exact .inr ⟨e2,List.mem_cons_of_mem _ he2,heq⟩

/-- No name stands in the table twice. -/
def Distinct (st : TagState) : Prop := st.Pairwise fun a b => ¬SameName a.1 b.1

theorem Distinct.bump (h : st.Distinct) (name : Bytes) (d : ℤ) : (st.bump name d).Distinct := by
  induction st with
  | nil => exact List.pairwise_singleton _ _
  | cons e st ih =>
    obtain ⟨he,hst⟩ := List.pairwise_cons.mp h
    rw [TagState.bump]
    split
    next => exact List.pairwise_cons.mpr ⟨he,hst⟩
    next hne =>
      refine List.pairwise_cons.mpr ⟨fun e' he' => ?_,ih hst⟩
      obtain heq | ⟨e2,he2,heq⟩ := mem_bump he'
      · rw [heq]
        exact hne
      · rw [← heq]
        exact he e2 he2

theorem Distinct.value_eq (h : st.Distinct) {e : Bytes × ℤ} (he : e ∈ st) (hname : SameName e.1 name) :
    st.value name = e.2 := by
  induction st with
  | nil => cases he
  | cons e' st ih =>
    obtain ⟨he',hst⟩ := List.pairwise_cons.mp h
    rw [value]
    obtain rfl | hmem := List.mem_cons.mp he
    · rw [if_pos hname]
    · rw [if_neg fun hsame => he' e hmem (hsame.trans hname.symm),ih hst hmem]

theorem exists_of_value (h : st.value name ≠ 0) : ∃ e ∈ st, SameName e.1 name ∧ e.2 = st.value name := by
  induction st with
  | nil => exact absurd rfl h
  | cons e st ih =>
    rw [value] at h ⊢
    by_cases hname : SameName e.1 name
    · rw [if_pos hname]
      exact ⟨e,List.mem_cons_self,hname,rfl⟩
    · rw [if_neg hname] at h ⊢
      obtain ⟨e',he',h'⟩ := ih h
      exact ⟨e',List.mem_cons_of_mem _ he',h'⟩

/-- The closing tags of a name that are added. -/
theorem Distinct.closers_count (h : st.Distinct) (name : Bytes) :
    (closers st).countP (Token.closes name) = (st.value name).toNat := by
  induction st with
  | nil => rfl
  | cons e st ih =>
    obtain ⟨he,hst⟩ := List.pairwise_cons.mp h
    have hrest := ih hst
    rw [closers] at hrest ⊢
    rw [List.flatMap_cons,List.countP_append,List.countP_replicate,hrest,value]
    by_cases hname : SameName e.1 name
    · have hzero : TagState.value name st = 0 := by
        by_contra hne
        obtain ⟨e',he',hsame,-⟩ := exists_of_value hne
        exact he e' he' (hname.trans hsame.symm)
      have hcl : Token.closes name (.tag true e.1 (closeTag e.1)) = true := decide_eq_true hname
      rw [if_pos hname,hcl,if_pos rfl,hzero]
      rfl
    · have hcl : Token.closes name (.tag true e.1 (closeTag e.1)) = false := decide_eq_false hname
      rw [if_neg hname,hcl,if_neg Bool.false_ne_true,Nat.zero_add]

theorem closers_opens (st : TagState) (name : Bytes) : (closers st).countP (Token.opens name) = 0 := by
  rw [List.countP_eq_zero]
  intro t ht
  obtain ⟨e,-,hmem⟩ := List.mem_flatMap.mp ht
  rw [List.eq_of_mem_replicate hmem]
  exact Bool.false_ne_true

end TagState

theorem opens_passes {name : Bytes} (h : tagKind tags name = some .state) {t : Token} (ht : t.opens name = true) :
    passes tags t = true := by
  cases t with
  | text c => rfl
  | tag cl name' whole =>
    cases cl with
    | true => cases ht
    | false => exact decide_eq_true ((Allowed.congr (of_decide_eq_true ht)).mpr (.inr h))

theorem closes_passes {name : Bytes} (h : tagKind tags name = some .state) {t : Token} (ht : t.closes name = true) :
    passes tags t = true := by
  cases t with
  | text c => rfl
  | tag cl name' whole =>
    cases cl with
    | false => cases ht
    | true => exact decide_eq_true ((Allowed.congr (of_decide_eq_true ht)).mpr (.inr h))

/-- What is left out are no tags that are to be closed. -/
theorem countP_filter_passes {f : Token → Bool} (hf : ∀ t, f t = true → passes tags t = true) (ts : List Token) :
    (ts.filter (passes tags)).countP f = ts.countP f := by
  rw [List.countP_filter]
  refine List.countP_congr fun t _ => ?_
  rw [Bool.and_eq_true]
  exact and_iff_left_of_imp (hf t)

theorem count_opens {name : Bytes} (h : tagKind tags name = some .state) (ts : List Token) :
    (ts.filter (passes tags)).countP (Token.opens name) = ts.countP (Token.opens name) :=
  countP_filter_passes (fun _ => opens_passes h) ts

theorem count_closes {name : Bytes} (h : tagKind tags name = some .state) (ts : List Token) :
    (ts.filter (passes tags)).countP (Token.closes name) = ts.countP (Token.closes name) :=
  countP_filter_passes (fun _ => closes_passes h) ts

theorem balance_append (name : Bytes) (ts ts' : List Token) :
    balance name (ts ++ ts') = balance name ts + balance name ts' := by
  rw [balance,balance,balance,List.countP_append,List.countP_append]
  omega

/-- The table counts the tags that are open. -/
theorem value_after {name : Bytes} (h : tagKind tags name = some .state) (ts : List Token) (st : TagState) :
    (ts.foldl (TagState.after tags) st).value name = st.value name+balance name ts := by
  induction ts generalizing st with
  | nil => exact (Int.add_zero _).symm
  | cons t ts ih =>
    have hone : (st.after tags t).value name = st.value name+balance name [t] := by
      cases t with
      | text c => exact (Int.add_zero _).symm
      | tag cl name' whole =>
        by_cases hname : SameName name' name
        · have hkind : tagKind tags name' = some .state := (tagKind_congr hname).trans h
          rw [TagState.after,if_pos hkind,TagState.value_bump,if_pos hname,balance]
          cases cl with
          | true => simp [Token.opens,Token.closes,hname]
          | false => simp [Token.opens,Token.closes,hname]
        · have hvalue : (st.after tags (.tag cl name' whole)).value name = st.value name := by
            rw [TagState.after]
            split
            · rw [TagState.value_bump,if_neg hname,Int.add_zero]
            · rfl
          rw [hvalue,balance]
          cases cl with
          | true => simp [Token.opens,Token.closes,hname]
          | false => simp [Token.opens,Token.closes,hname]
    have hsplit : balance name (t::ts) = balance name [t]+balance name ts := balance_append name [t] ts
    rw [List.foldl_cons,ih,hone,hsplit,Int.add_assoc]

/-- The table lists names of tags that are to be closed. -/
theorem mem_after {e : Bytes × ℤ} {st : TagState} (h : e ∈ ts.foldl (TagState.after tags) st) :
    (∃ e' ∈ st, e'.1 = e.1) ∨ tagKind tags e.1 = some .state ∧ ∃ cl whole, Token.tag cl e.1 whole ∈ ts := by
  induction ts generalizing st with
  | nil => exact .inl ⟨e,h,rfl⟩
  | cons t ts ih =>
    obtain ⟨e1,he1,heq⟩ | ⟨hkind,cl,whole,hmem⟩ := ih h
    · cases t with
      | text c => exact .inl ⟨e1,he1,heq⟩
      | tag cl name whole =>
        rw [TagState.after] at he1
        split at he1
        next hkind =>
          obtain hname | ⟨e2,he2,heq2⟩ := TagState.mem_bump he1
          · obtain rfl : e.1 = name := heq.symm.trans hname
            exact .inr ⟨hkind,cl,whole,List.mem_cons_self⟩
          · exact .inl ⟨e2,he2,heq2.trans heq⟩
        next => exact .inl ⟨e1,he1,heq⟩
    · exact .inr ⟨hkind,cl,whole,List.mem_cons_of_mem _ hmem⟩

theorem distinct_after (ts : List Token) {st : TagState} (h : st.Distinct) :
    (ts.foldl (TagState.after tags) st).Distinct := by
  induction ts generalizing st with
  | nil => exact h
  | cons t ts ih =>
    refine ih ?_
    cases t with
    | text c => exact h
    | tag cl name whole =>
      rw [TagState.after]
      split
      · exact h.bump _ _
      · exact h

theorem tolower_lt_iff (c : Byte) : tolower c = ch '<' ↔ c = ch '<' := by
  grind [tolower,ch]

theorem tagName_map (p : Bytes) : tagName (p.map tolower) = (tagName p).map tolower := by
  have hspace : isspace ∘ tolower = isspace := by
    funext c
    grind [isspace,tolower]
  have hend : (fun c => !isTagEnd c) ∘ tolower = fun c => !isTagEnd c := by
    funext c
    grind [isTagEnd,isspace,tolower,ch]
  have hslash : (p.map tolower).head? = some (ch '/') ↔ p.head? = some (ch '/') := by
    have hbyte : ∀ c, tolower c = ch '/' ↔ c = ch '/' := by grind [tolower,ch]
    cases p with
    | nil => exact Iff.rfl
    | cons c p => simpa using hbyte c
  have hstart : nameStart (p.map tolower) = (nameStart p).map tolower := by
    rw [nameStart,nameStart]
    by_cases hs : p.head? = some (ch '/')
    · rw [if_pos hs,if_pos (hslash.mpr hs),← List.map_tail,List.dropWhile_map,hspace]
    · rw [if_neg hs,if_neg fun h => hs (hslash.mp h)]
  rw [tagName,hstart,List.takeWhile_map,hend]
  rfl

/-- The tags that begin in a text have their names whatever the case of its letters. -/
theorem inner_congr {x y : Bytes} (h : SameName x y)
    (hx : ∀ pre rest, x = ch '<'::pre ++ ch '<'::rest → Allowed tags (tagName rest)) :
    ∀ pre rest, y = ch '<'::pre ++ ch '<'::rest → Allowed tags (tagName rest) := by
  intro pre rest hy
  have hmap : x.map tolower = (ch '<'::pre).map tolower ++ ch '<'::rest.map tolower := by
    rw [show x.map tolower = y.map tolower from h,hy,List.map_append]
    rfl
  obtain ⟨x1,x2,rfl,h1,h2⟩ := List.map_eq_append_iff.mp hmap
  obtain ⟨c,x1,rfl,hc,-⟩ := List.map_eq_cons_iff.mp h1
  obtain ⟨d,x2,rfl,hd,hrest⟩ := List.map_eq_cons_iff.mp h2
  obtain rfl := (tolower_lt_iff c).mp hc
  obtain rfl := (tolower_lt_iff d).mp hd
  refine (Allowed.congr ?_).mp (hx x1 x2 rfl)
  have hname := congrArg tagName hrest
  rwa [tagName_map,tagName_map] at hname

theorem closeTag_congr (h : SameName a b) : SameName (closeTag a) (closeTag b) := by
  simp only [SameName,closeTag,List.map_append,List.map_cons,show a.map tolower = b.map tolower from h]

theorem tagName_closeTag {name : Bytes} (h : ∀ c ∈ name, isTagEnd c = false) :
    tagName (ch '/'::name ++ [ch '>']) = name := by
  have ht : TagText true [ch '/'] name [ch '>'] := by
    refine ⟨⟨[],rfl,List.forall_mem_nil _⟩,fun c hc => ?_,h,⟨ch '>',rfl,rfl⟩⟩
    have hnot : isTagEnd c = false ∨ c = ch '>' := by
      cases name with
      | nil => exact .inr (Option.some.inj hc).symm
      | cons d name => exact .inl (h c (Option.some.inj hc ▸ List.mem_cons_self))
    obtain hnot | rfl := hnot
    · exact Bool.eq_false_iff.mpr fun hspace => Bool.false_ne_true (hnot.symm.trans (isTagEnd_of_isspace hspace))
    · decide
  exact ht.reads.2.1

/-- The pieces put out for a text. -/
def putOut (order : ScanOrder) (tags : List (Bytes × TagKind)) (ts : List Token) : List Token :=
  ts.filter (passes tags) ++ closers (order.scan (ts.foldl (TagState.after tags) []))

variable {order : ScanOrder}

theorem count_added {name : Bytes} (h : tagKind tags name = some .state) (ts : List Token) :
    (closers (order.scan (ts.foldl (TagState.after tags) []))).countP (Token.closes name) =
      (balance name ts).toNat := by
  have hperm : (closers (order.scan (ts.foldl (TagState.after tags) []))).Perm
      (closers (ts.foldl (TagState.after tags) [])) := (order.perm _).flatMap_right _
  rw [hperm.countP_eq,(distinct_after ts List.Pairwise.nil).closers_count,value_after h]
  exact congrArg Int.toNat (Int.zero_add _)

theorem safe_of_clean (hlex : Lexes p ts) (h : CleanText tags ts) : SafeHtml tags (putOut order tags ts) := by
  obtain ⟨htext,htag⟩ := hlex.piece
  refine ⟨fun t ht pre rest hbytes => ?_,fun name hname suf hsuf => ?_⟩
  · obtain hmem | hmem := List.mem_append.mp ht
    · obtain ⟨hmem,hpass⟩ := List.mem_filter.mp hmem
      cases t with
      | text c =>
        have hc : ch '<' ∈ [c] := by
          rw [show [c] = pre ++ ch '<'::rest from hbytes]
          exact List.mem_append_right _ List.mem_cons_self
        exact absurd (List.mem_singleton.mp hc).symm (htext c hmem)
      | tag cl name whole =>
        obtain ⟨⟨r,hr,hname⟩,-⟩ := htag cl name whole hmem
        have hall : Allowed tags name := of_decide_eq_true hpass
        have hwhole : whole = pre ++ ch '<'::rest := hbytes
        cases pre with
        | nil =>
          obtain rfl : r = rest := (List.cons.inj (hr.symm.trans hwhole)).2
          exact hname ▸ hall
        | cons c pre =>
          obtain rfl : ch '<' = c := (List.cons.inj (hr.symm.trans hwhole)).1
          exact h.inner cl name whole hmem hall pre rest hwhole
    · obtain ⟨e,he,hmem⟩ := List.mem_flatMap.mp hmem
      obtain ⟨hcount,rfl⟩ := List.mem_replicate.mp hmem
      have he := (order.perm _).mem_iff.mp he
      obtain ⟨_,hnil,-⟩ | ⟨hkind,cl,whole,hmem⟩ := mem_after he
      · cases hnil
      have hvalue := (distinct_after ts List.Pairwise.nil).value_eq he rfl
      rw [value_after hkind] at hvalue
      have hopen : 0 < balance e.1 ts := by
        have hzero : TagState.value e.1 [] = 0 := rfl
        omega
      have hclose : closeTag e.1 = pre ++ ch '<'::rest := hbytes
      cases pre with
      | nil =>
        obtain rfl : ch '/'::e.1 ++ [ch '>'] = rest := (List.cons.inj hclose).2
        rw [tagName_closeTag (htag cl e.1 whole hmem).2]
        exact .inr hkind
      | cons c pre =>
        obtain rfl : ch '<' = c := (List.cons.inj hclose).1
        exact h.added cl e.1 whole hmem hkind hopen pre rest hclose
  · obtain ⟨front,hfront⟩ := hsuf
    obtain ⟨s,hs,rfl⟩ | ⟨s,-,hs⟩ := List.append_eq_append_iff.mp hfront
    · obtain ⟨ts1,ts2,rfl,-,rfl⟩ := List.filter_eq_append_iff.mp hs
      have hbalance := h.balanced name hname ts1 (List.prefix_append _ _)
      rw [balance_append] at hbalance
      rw [List.countP_append,List.countP_append,count_opens hname,count_closes hname,
        TagState.closers_opens,count_added hname,balance_append]
      rw [balance,balance] at hbalance ⊢
      omega
    · have hzero : (s ++ suf).countP (Token.opens name) = 0 := by
        rw [← hs]
        exact TagState.closers_opens _ _
      rw [List.countP_append] at hzero
      omega

theorem clean_of_safe (hlex : Lexes p ts) (h : SafeHtml tags (putOut order tags ts)) : CleanText tags ts := by
  refine ⟨fun cl name whole hmem hall pre rest hwhole => ?_,fun cl name whole hmem hname hopen => ?_,
    fun name hname pre hpre => ?_⟩
  · exact h.allowed (.tag cl name whole) (List.mem_append_left _ (List.mem_filter.mpr ⟨hmem,decide_eq_true hall⟩))
      (ch '<'::pre) rest hwhole
  · have hvalue := value_after hname ts []
    have hzero : TagState.value name [] = 0 := rfl
    have hopened : (ts.foldl (TagState.after tags) []).value name ≠ 0 := by omega
    obtain ⟨e,he,hsame,heq⟩ := TagState.exists_of_value hopened
    have hadded : Token.tag true e.1 (closeTag e.1) ∈ putOut order tags ts := by
      refine List.mem_append_right _ (List.mem_flatMap.mpr ⟨e,(order.perm _).mem_iff.mpr he,?_⟩)
      exact List.mem_replicate.mpr ⟨by omega,rfl⟩
    exact inner_congr (closeTag_congr hsame) fun pre rest hclose => h.allowed _ hadded (ch '<'::pre) rest hclose
  · obtain ⟨suf,rfl⟩ := hpre
    have hclosed := h.closed name hname (suf.filter (passes tags) ++
      closers (order.scan ((pre ++ suf).foldl (TagState.after tags) []))) (by
        rw [putOut,List.filter_append,List.append_assoc]
        exact List.suffix_append _ _)
    rw [List.countP_append,List.countP_append,count_opens hname,count_closes hname,
      TagState.closers_opens,count_added hname] at hclosed
    rw [balance_append] at hclosed ⊢
    rw [balance,balance] at hclosed ⊢
    omega

theorem callerTags_isSome (ok_strip ok_nostate ok_state : Bytes) : (callerTags ok_strip ok_nostate ok_state).isSome ↔
    ListOk (str ",;") ok_strip ∧ ListOk (str ",;") ok_nostate ∧ ListOk (str ",;") ok_state := by
  rw [← parseAryFrom_isSome (o := []),← parseAryFrom_isSome (o := []),← parseAryFrom_isSome (o := [])]
  change _ ↔ (parseAry ok_strip (str ",;")).isSome ∧ (parseAry ok_nostate (str ",;")).isSome ∧
    (parseAry ok_state (str ",;")).isSome
  rw [callerTags]
  cases parseAry ok_nostate (str ",;") with
  | none => simp
  | some nostate =>
    cases parseAry ok_state (str ",;") with
    | none => simp
    | some state =>
      cases parseAry ok_strip (str ",;") with
      | none => simp
      | some strip => simp

end

/-- What the filter puts out for a text. -/
theorem evalHtmlClean_of_lexes {order : ScanOrder} {html ok_strip ok_nostate ok_state : Bytes}
    {tags : List (Bytes × TagKind)} {ts : List Token} (htags : callerTags ok_strip ok_nostate ok_state = some tags)
    (hlex : Lexes (cstr html) ts) :
    evalHtmlClean order html ok_strip ok_nostate ok_state = some (putOut order tags ts) := by
  rw [evalHtmlClean,htags]
  change (cleanLoop tags (cstr html).length (cstr html) []).bind _ = _
  rw [cleanLoop_of_lexes hlex le_rfl]
  rfl

end Smx
