import Smx.Compile.Agree

/-! Reading what `Decompile` prints. The text of a literal record is printed as it is, so the
reader finds the same tree again only where it copies every byte of it. -/
namespace Smx
open EmitM (emit capture liftExn quiet Follows Matches)

/-- A record for each byte. -/
def Code.bytes : Bytes → Code → Code
  | [],rest => rest
  | c::s,rest => .out [.byte c] (bytes s rest)

theorem Code.bytes_append (a b : Bytes) (rest : Code) :
    Code.bytes (a ++ b) rest = Code.bytes a (Code.bytes b rest) := by
  induction a with
  | nil => rfl
  | cons c a ih => exact congrArg (Code.out [.byte c]) ih

mutual

/-- The tree with its literal text byte by byte: how the text was cut into records is gone. -/
def Code.norm (render : List Piece → Bytes) : Code → Code
  | .nil => .nil
  | .out text rest => .bytes (render text) (rest.norm render)
  | .func name args rest => .func name (args.norm render) (rest.norm render)
  | .junk c rest => .junk c (rest.norm render)

def CodeArgs.norm (render : List Piece → Bytes) : CodeArgs → CodeArgs
  | .nil => .nil
  | .raw quoted text rest => .raw quoted text (rest.norm render)
  | .code body rest => .code (body.norm render) (rest.norm render)

end

theorem CodeArgs.length_norm (render : List Piece → Bytes) (args : CodeArgs) :
    (args.norm render).length = args.length := by
  cases args with
  | nil => rfl
  | raw _ _ rest => exact congrArg (· + 1) (rest.length_norm render)
  | code _ rest => exact congrArg (· + 1) (rest.length_norm render)

theorem Code.append_bytes (s : Bytes) (a b : Code) :
    (Code.bytes s a).append b = Code.bytes s (a.append b) := by
  induction s with
  | nil => rfl
  | cons c s ih => exact congrArg (Code.out [.byte c]) ih

theorem Code.norm_append (render : List Piece → Bytes) (a b : Code) :
    (a.append b).norm render = (a.norm render).append (b.norm render) := by
  cases a with
  | nil => rfl
  | out text rest =>
    rw [Code.append,Code.norm,Code.norm,norm_append render rest b,Code.append_bytes]
  | func name args rest => rw [Code.append,Code.norm,Code.norm,norm_append render rest b,Code.append]
  | junk c rest => rw [Code.append,Code.norm,Code.norm,norm_append render rest b,Code.append]

theorem Code.norm_flush (text : List Piece) (rest : Code) :
    (Code.flush text rest).norm sourceText = .bytes (sourceText text) (rest.norm sourceText) := by
  unfold Code.flush
  split_ifs with h
  · subst h
    rfl
  · rfl

namespace Host
variable {σ ο : Type} (H : Host σ ο) (qmapOf : Bytes → Option Bytes)

theorem meaning_bytes (s : Bytes) (rest : Code) :
    H.meaning qmapOf sourceText (.bytes s rest) =
      emit s >>= fun _ => H.meaning qmapOf sourceText rest := by
  induction s with
  | nil => rw [EmitM.emit_nil_bind,Code.bytes]
  | cons c s ih =>
    rw [Code.bytes,meaning,ih]
    exact (EmitM.emit_append_bind [c] s _).symm

variable (render : List Piece → Bytes)

mutual

theorem meaning_norm (code : Code) :
    H.meaning qmapOf sourceText (code.norm render) = H.meaning qmapOf render code := by
  match code with
  | .nil => rfl
  | .out text rest => rw [Code.norm,meaning_bytes,meaning,meaning_norm rest]
  | .func name args rest =>
    rw [Code.norm,meaning,meaning,meaningArgs_norm args,meaning_norm rest,CodeArgs.length_norm]
  | .junk c rest => rfl

theorem meaningArgs_norm (args : CodeArgs) :
    H.meaningArgs qmapOf sourceText (args.norm render) = H.meaningArgs qmapOf render args := by
  match args with
  | .nil => rfl
  | .raw quoted text rest => rw [CodeArgs.norm,meaningArgs,meaningArgs,meaningArgs_norm rest]
  | .code body rest =>
    rw [CodeArgs.norm,meaningArgs,meaningArgs,meaning_norm body,meaningArgs_norm rest]

end

end Host

/-- A literal text that is read as it stands, from one state of the reader to another; `next` is
the byte that follows it, and `copy` says which bytes the reader copies. -/
inductive Copied (strict : Bool) (copy : ArgSt → Byte → Option ArgSt) (next : Byte) :
    ArgSt → Bytes → ArgSt → Prop
  | nil (st : ArgSt) : Copied strict copy next st [] st
  | byte {st st' st'' : ArgSt} {c : Byte} {text : Bytes} (heof : c ≠ EOF) (hpct : c ≠ T_PCT)
      (hcopy : copy st c = some st') (h : Copied strict copy next st' text st'') :
      Copied strict copy next st (c::text) st''
  /-- a percent sign before the end of the call, or of everything -/
  | last (st : ArgSt) (hnext : next = T_RP ∧ strict = false ∨ next = EOF) :
      Copied strict copy next st [T_PCT] { st with numsp := 0 }
  | punct {st st' : ArgSt} {d : Byte} {text : Bytes} (hstrict : strict = false)
      (hsym : isqsymf d = false) (hpunct : isPunct d = true) (h : Copied strict copy next { st with numsp := 0 } (d::text) st') :
      Copied strict copy next st (T_PCT::d::text) st'
  | other {st st' : ArgSt} {d : Byte} {text : Bytes} (hsym : isqsymf d = false) (heof : d ≠ EOF)
      (hpct : d ≠ T_PCT) (hpunct : isPunct d = false)
      (h : Copied strict copy next { st with numsp := 0 } text st') :
      Copied strict copy next st (T_PCT::d::text) st'
  /-- a name that is no call -/
  | broken {st st' : ArgSt} {d c : Byte} {text name rest : Bytes} (hsym : isqsymf d = true)
      (hscan : scanName [d] text = (name,c,rest)) (heof : c ≠ EOF) (hlp : c ≠ T_LP) (hpct : c ≠ T_PCT)
      (h : Copied strict copy next { st with numsp := 0 } rest st') :
      Copied strict copy next st (T_PCT::d::text) st'
  | brokenLast (st : ArgSt) {d : Byte} {text : Bytes} (hnext : next = EOF) (hsym : isqsymf d = true)
      (htext : ∀ c ∈ text, isqsym c = true) :
      Copied strict copy next st (T_PCT::d::text) { st with numsp := 0 }

/-- The bytes that `ParseArg` copies. -/
def argCopy (st : ArgSt) (c : Byte) : Option ArgSt :=
  if c = T_ESC then none
  else
    match argAct st c with
    | .put st' => some st'
    | _ => none

/-- `Parse` copies all of them. -/
def parseCopy (st : ArgSt) (_ : Byte) : Option ArgSt := some st

/-- A quoted argument that is read as it stands up to its separator. -/
def RawCopied (sep : Byte) (quoted : Bool) (text : Bytes) : Prop :=
  ∀ tail, (argHead ((if quoted then T_SQ::text else text) ++ sep::tail)).1 = quoted ∧
    (sep = T_COMMA → (argHead ((if quoted then T_SQ::text else text) ++ sep::tail)).2.1 ≠ EOF) ∧
    parseArgQuoted (argHead ((if quoted then T_SQ::text else text) ++ sep::tail)).2.1
      (argHead ((if quoted then T_SQ::text else text) ++ sep::tail)).2.2 = (text,sep == T_COMMA,tail)

/-- What separates an argument from the rest. -/
def CodeArgs.sep (rest : CodeArgs) : Byte := if rest.length = 0 then T_RP else T_COMMA

/-- The first byte of what is printed. -/
def Code.first? : Code → Option Byte
  | .nil => none
  | .out text rest => (compText text).head?.or rest.first?
  | .func _ _ _ => some T_PCT
  | .junk _ _ => none

/-- A byte an evaluated argument may start with: no blank and no quote. -/
def opensArg (c : Byte) : Bool := !isspace c && c != T_SQ && c != T_DQ && c != T_LC && c != EOF

mutual

/-- The literal text of a tree is read as it stands: `buf` is the literal text read since the last
call, in the state `st`; `next` is what ends the text. -/
def Code.Copies (strict : Bool) (copy : ArgSt → Byte → Option ArgSt) (next : Byte) :
    ArgSt → Bytes → Code → Prop
  | st,buf,.nil => ∃ st', Copied strict copy next st buf st' ∧
      (next ≠ EOF → argAct st' next = .stop (next == T_COMMA) ∧ st'.numsp = 0)
  | st,buf,.out text rest => rest.Copies strict copy next st (buf ++ compText text)
  | st,buf,.func _ args rest => ∃ st', Copied strict copy T_PCT st buf st' ∧ args.Copies strict ∧
      rest.Copies strict copy next { st' with numsp := 0 } []
  | _,_,.junk _ _ => False

def CodeArgs.Copies (strict : Bool) : CodeArgs → Prop
  | .nil => True
  | .raw quoted text rest => RawCopied rest.sep quoted text ∧ rest.Copies strict
  | .code body rest => (∀ c ∈ body.first?, opensArg c = true) ∧
      body.Copies strict argCopy rest.sep {} [] ∧ rest.Copies strict

end

theorem scanName_append {name text tail name' rest : Bytes} {c : Byte}
    (h : scanName name text = (name',c,rest)) (hc : c ≠ EOF) :
    scanName name (text ++ tail) = (name',c,rest ++ tail) := by
  induction text generalizing name with
  | nil =>
    cases h
    exact absurd rfl hc
  | cons d text ih =>
    simp only [scanName,List.cons_append] at h ⊢
    split_ifs at h ⊢
    · exact ih h
    · cases h
      rfl

theorem scanName_split {name text name' rest : Bytes} {c : Byte}
    (h : scanName name text = (name',c,rest)) (hc : c ≠ EOF) : name' ++ c::rest = name ++ text := by
  induction text generalizing name with
  | nil =>
    cases h
    exact absurd rfl hc
  | cons d text ih =>
    simp only [scanName] at h
    split_ifs at h
    · rw [ih h,List.append_assoc,List.singleton_append]
    · cases h
      rfl

namespace Grammar
variable {G : Grammar}

/-- The percent sign and the bytes `w` after it are read as text. -/
def ReadsText (G : Grammar) (w rest : Bytes) : Prop :=
  ∀ n buf, ∃ buf', G.readFunc (n+2) (w ++ rest) buf = (.nil,rest,buf') ∧
    sourceText buf' = sourceText buf ++ T_PCT::w

theorem readsText_punct (hstrict : G.strict = false) {d : Byte} {inp : Bytes} (hsym : isqsymf d = false)
    (hpunct : isPunct d = true) : G.ReadsText [] (d::inp) := by
  intro n buf
  refine ⟨buf ++ lit [T_PCT],?_,by rw [sourceText_append,sourceText_lit]⟩
  have heof : ¬ (d = EOF ∨ d = T_PCT) := by
    rintro (rfl | rfl) <;> exact absurd hpunct (by decide)
  simp [readFunc,hsym,heof,hpunct,hstrict]

theorem readsText_nil : G.ReadsText [] [] := by
  intro n buf
  have hsym : isqsymf EOF = false := by decide
  refine ⟨buf ++ lit [T_PCT],?_,by rw [sourceText_append,sourceText_lit]⟩
  simp [readFunc,hsym]

theorem readsText_other {d : Byte} {inp : Bytes} (hsym : isqsymf d = false) (heof : d ≠ EOF)
    (hpct : d ≠ T_PCT) (hpunct : isPunct d = false) : G.ReadsText [d] inp := by
  intro n buf
  refine ⟨buf ++ lit [T_PCT,d],?_,by rw [sourceText_append,sourceText_lit]⟩
  simp [readFunc,hsym,heof,hpct,hpunct]

theorem readsText_broken {d c : Byte} {text name rest : Bytes} (hsym : isqsymf d = true)
    (hscan : scanName [d] text = (name,c,rest)) (heof : c ≠ EOF) (hlp : c ≠ T_LP)
    (hpct : c ≠ T_PCT) (tail : Bytes) : G.ReadsText (name ++ [c]) (rest ++ tail) := by
  intro n buf
  have hinp : name ++ [c] ++ (rest ++ tail) = d::(text ++ tail) := by
    have hsplit := scanName_split hscan heof
    rw [List.append_assoc,List.singleton_append,← List.cons_append,← List.append_assoc,hsplit]
    rfl
  have hname : scanName [d] (text ++ tail) = (name,c,rest ++ tail) := scanName_append hscan heof
  have hne : (scanName [d] text).1 ≠ [] := scanName_ne_nil (by simp) _
  rw [hscan] at hne
  rw [hinp]
  refine ⟨buf ++ .broken name hne::lit [c],?_,?_⟩
  · simp [readFunc,readName,hsym,hname,heof,hlp,hpct]
  · rw [sourceText_append,sourceText_broken,sourceText_lit]
    rfl

theorem readsText_brokenLast {d : Byte} {text : Bytes} (hsym : isqsymf d = true)
    (htext : ∀ c ∈ text, isqsym c = true) : G.ReadsText (d::text) [] := by
  intro n buf
  have hname : scanName [d] text = (d::text,EOF,[]) := by
    have h := scanName_all htext [d] []
    rwa [List.append_nil] at h
  refine ⟨buf ++ .broken (d::text) (List.cons_ne_nil _ _)::lit [],?_,?_⟩
  · have hlp : EOF ≠ T_LP := by decide
    have hpct : EOF ≠ T_PCT := by decide
    simp [readFunc,readName,hsym,hname,hlp,hpct]
  · rw [sourceText_append,sourceText_broken,sourceText_lit,List.append_nil]

/-- The text ahead is copied: `r` is what is read of it and the rest, `r'` what of the rest. -/
def SameRead (pre : Bytes) (r r' : Code × Bool × Bytes) : Prop :=
  r.1.norm sourceText = .bytes pre (r'.1.norm sourceText) ∧ r.2 = r'.2

theorem SameRead.trans {a b : Bytes} {r r' r'' : Code × Bool × Bytes} (h : SameRead a r r')
    (h' : SameRead b r' r'') : SameRead (a ++ b) r r'' :=
  ⟨by rw [h.1,h'.1,Code.bytes_append],h.2.trans h'.2⟩

theorem readLoop_text {w rest : Bytes} (h : G.ReadsText w rest) (st : ArgSt) (tmp : Bytes) {n : ℕ}
    (hn : 4*(T_PCT::(w ++ rest)).length+1 ≤ n) : ∃ m, 4*rest.length+1 ≤ m ∧
      SameRead (tmp ++ T_PCT::w) (G.readLoop n st tmp (T_PCT::(w ++ rest)))
        (G.readLoop m { st with numsp := 0 } [] rest) := by
  simp only [List.length_cons,List.length_append] at hn
  obtain ⟨k,rfl⟩ : ∃ k, n = k+4 := ⟨n-4,by omega⟩
  obtain ⟨buf',hfunc,hbuf⟩ := h k []
  have hesc : ¬ T_PCT = T_ESC := by decide
  have heof : ¬ T_PCT = EOF := by decide
  refine ⟨k+2,by omega,?_⟩
  rw [readLoop,getC_cons]
  simp only [if_neg heof]
  rw [readTurn,if_neg hesc,if_pos rfl,hfunc]
  refine ⟨?_,rfl⟩
  rw [Code.norm_flush,sourceText_lit,Code.append,Code.norm_flush,hbuf,sourceText_nil,
    List.nil_append,Code.bytes_append]

theorem readLoop_put {st st' : ArgSt} {c : Byte} (heof : c ≠ EOF) (hpct : c ≠ T_PCT)
    (hcopy : argCopy st c = some st') (n : ℕ) (tmp inp : Bytes) :
    G.readLoop (n+2) st tmp (c::inp) = G.readLoop n st' (tmp ++ [c]) inp := by
  unfold argCopy at hcopy
  by_cases hesc : c = T_ESC
  · rw [if_pos hesc] at hcopy
    cases hcopy
  rw [if_neg hesc] at hcopy
  cases hact : argAct st c with
  | put st₁ =>
    rw [hact] at hcopy
    cases hcopy
    simp [readLoop,readTurn,heof,hesc,hpct,hact]
  | skip st₁ =>
    rw [hact] at hcopy
    cases hcopy
  | stop more =>
    rw [hact] at hcopy
    cases hcopy

/-- From one state to the other the text gets into the tree as it is. -/
def CopiesText (G : Grammar) (st : ArgSt) (text tail : Bytes) (st' : ArgSt) : Prop :=
  ∀ n tmp, 4*(text ++ tail).length+1 ≤ n →
    ∃ m pre tmp', 4*tail.length+1 ≤ m ∧ pre ++ tmp' = tmp ++ text ∧
      SameRead pre (G.readLoop n st tmp (text ++ tail)) (G.readLoop m st' tmp' tail)

theorem copiesText_nil (st : ArgSt) (tail : Bytes) : G.CopiesText st [] tail st :=
  fun n tmp hn => ⟨n,[],tmp,hn,(List.append_nil _).symm,rfl,rfl⟩

theorem copiesText_pct {st st' : ArgSt} {w rest tail : Bytes} (hw : G.ReadsText w (rest ++ tail))
    (h : G.CopiesText { st with numsp := 0 } rest tail st') :
    G.CopiesText st (T_PCT::(w ++ rest)) tail st' := by
  intro n tmp hn
  have hassoc : T_PCT::(w ++ rest) ++ tail = T_PCT::(w ++ (rest ++ tail)) := by
    rw [List.cons_append,List.append_assoc]
  rw [hassoc] at hn ⊢
  obtain ⟨k,hk,hread⟩ := readLoop_text hw st tmp hn
  obtain ⟨m,pre,tmp',hm,hpre,hrest⟩ := h k [] hk
  refine ⟨m,(tmp ++ T_PCT::w) ++ pre,tmp',hm,?_,hread.trans hrest⟩
  rw [List.append_assoc,hpre,List.nil_append,List.append_assoc,List.cons_append]

theorem readsText_last {next : Byte} {tail : Bytes} (h : next = T_RP ∧ G.strict = false ∨ next = EOF)
    (hnext : (getC tail).1 = next) (hend : next = EOF → tail = []) : G.ReadsText [] tail := by
  by_cases heof : next = EOF
  · rw [hend heof]
    exact readsText_nil
  · cases tail with
    | nil => exact absurd hnext.symm heof
    | cons d tail =>
      obtain ⟨hrp,hstrict⟩ := h.resolve_right heof
      obtain rfl : d = T_RP := hnext.trans hrp
      exact readsText_punct hstrict (by decide) (by decide)

theorem copied_copiesText {next : Byte} {st st' : ArgSt} {text tail : Bytes}
    (h : Copied G.strict argCopy next st text st') (hnext : (getC tail).1 = next)
    (hend : next = EOF → tail = []) : G.CopiesText st text tail st' := by
  induction h with
  | nil st => exact copiesText_nil st tail
  | @byte st st₁ st' c text heof hpct hcopy h ih =>
    intro n tmp hn
    simp only [List.cons_append,List.length_cons] at hn
    obtain ⟨k,rfl⟩ : ∃ k, n = k+2 := ⟨n-2,by omega⟩
    obtain ⟨m,pre,tmp',hm,hpre,hread⟩ := ih k (tmp ++ [c]) (by omega)
    refine ⟨m,pre,tmp',hm,by rw [hpre,List.append_assoc,List.singleton_append],?_⟩
    rw [List.cons_append,readLoop_put heof hpct hcopy]
    exact hread
  | last st hlast =>
    exact copiesText_pct (w := []) (readsText_last hlast hnext hend) (copiesText_nil _ _)
  | punct hstrict hsym hpunct h ih => exact copiesText_pct (w := []) (readsText_punct hstrict hsym hpunct) ih
  | other hsym heof hpct hpunct h ih =>
    exact copiesText_pct (w := [_]) (readsText_other hsym heof hpct hpunct) ih
  | @broken st st' d c text name rest hsym hscan heof hlp hpct h ih =>
    have hsplit : name ++ [c] ++ rest = d::text := by
      rw [List.append_assoc]
      exact scanName_split hscan heof
    rw [← hsplit]
    exact copiesText_pct (readsText_broken hsym hscan heof hlp hpct tail) ih
  | @brokenLast st d text hlast hsym htext =>
    obtain rfl := hend hlast
    have hread : G.ReadsText (d::text) ([] ++ []) := readsText_brokenLast hsym htext
    rw [← List.append_nil (d::text)]
    exact copiesText_pct hread (copiesText_nil _ _)

theorem readLoop_stop {st : ArgSt} {sep : Byte} (hsep : sep = T_COMMA ∨ sep = T_RP)
    (hact : argAct st sep = .stop (sep == T_COMMA)) (hsp : st.numsp = 0) {n : ℕ} (tmp tail : Bytes)
    (hn : 4*(sep::tail).length+1 ≤ n) :
    G.readLoop n st tmp (sep::tail) = (.flush (lit tmp) .nil,sep == T_COMMA,tail) := by
  simp only [List.length_cons] at hn
  obtain ⟨k,rfl⟩ : ∃ k, n = k+2 := ⟨n-2,by omega⟩
  have hplain : sep ≠ EOF ∧ sep ≠ T_ESC ∧ sep ≠ T_PCT := by
    obtain rfl | rfl := hsep <;> decide
  simp [readLoop,readTurn,hplain,hact,cutSpaces,hsp]

/-- The same for the text outside of calls. -/
def CopiesParse (G : Grammar) (text tail : Bytes) : Prop :=
  ∀ n buf, 4*(text ++ tail).length+1 ≤ n → ∃ m buf', 4*tail.length+1 ≤ m ∧
    sourceText buf' = sourceText buf ++ text ∧
      G.readParse n (text ++ tail) buf = G.readParse m tail buf'

theorem copiesParse_nil (tail : Bytes) : G.CopiesParse [] tail :=
  fun n buf hn => ⟨n,buf,hn,(List.append_nil _).symm,rfl⟩

theorem copiesParse_pct {w rest tail : Bytes} (hw : G.ReadsText w (rest ++ tail))
    (h : G.CopiesParse rest tail) : G.CopiesParse (T_PCT::(w ++ rest)) tail := by
  intro n buf hn
  have hassoc : T_PCT::(w ++ rest) ++ tail = T_PCT::(w ++ (rest ++ tail)) := by
    rw [List.cons_append,List.append_assoc]
  rw [hassoc] at hn ⊢
  simp only [List.length_cons,List.length_append] at hn
  obtain ⟨k,rfl⟩ : ∃ k, n = k+3 := ⟨n-3,by omega⟩
  obtain ⟨buf₁,hfunc,hbuf₁⟩ := hw k buf
  obtain ⟨m,buf',hm,hbuf',hread⟩ := h (k+2) buf₁ (by simp only [List.length_append]; omega)
  have heof : ¬ T_PCT = EOF := by decide
  refine ⟨m,buf',hm,by rw [hbuf',hbuf₁,List.append_assoc,List.cons_append],?_⟩
  rw [readParse,getC_cons]
  simp only [if_neg heof,if_true,hfunc]
  exact hread

theorem copied_copiesParse {next : Byte} {st st' : ArgSt} {text tail : Bytes}
    (h : Copied G.strict parseCopy next st text st') (hnext : (getC tail).1 = next)
    (hend : next = EOF → tail = []) : G.CopiesParse text tail := by
  induction h with
  | nil st => exact copiesParse_nil tail
  | @byte st st₁ st' c text heof hpct hcopy h ih =>
    intro n buf hn
    simp only [List.cons_append,List.length_cons] at hn
    obtain ⟨k,rfl⟩ : ∃ k, n = k+1 := ⟨n-1,by omega⟩
    obtain ⟨m,buf',hm,hbuf',hread⟩ := ih k (buf ++ lit [c]) (by omega)
    refine ⟨m,buf',hm,?_,?_⟩
    · rw [hbuf',sourceText_append,sourceText_lit,List.append_assoc,List.singleton_append]
    · rw [List.cons_append,readParse,getC_cons]
      simp only [if_neg heof]
      rw [if_neg hpct]
      exact hread
  | last st hlast =>
    exact copiesParse_pct (w := []) (readsText_last hlast hnext hend) (copiesParse_nil _)
  | punct hstrict hsym hpunct h ih => exact copiesParse_pct (w := []) (readsText_punct hstrict hsym hpunct) ih
  | other hsym heof hpct hpunct h ih =>
    exact copiesParse_pct (w := [_]) (readsText_other hsym heof hpct hpunct) ih
  | @broken st st' d c text name rest hsym hscan heof hlp hpct h ih =>
    have hsplit : name ++ [c] ++ rest = d::text := by
      rw [List.append_assoc]
      exact scanName_split hscan heof
    rw [← hsplit]
    exact copiesParse_pct (readsText_broken hsym hscan heof hlp hpct tail) ih
  | @brokenLast st d text hlast hsym htext =>
    obtain rfl := hend hlast
    have hread : G.ReadsText (d::text) ([] ++ []) := readsText_brokenLast hsym htext
    rw [← List.append_nil (d::text)]
    exact copiesParse_pct hread (copiesParse_nil _)

/-- An argument that opens with no blank and no quote is read like the rest of one. -/
theorem readArg_opens (G : Grammar) {b : Byte} (inp : Bytes) (hb : opensArg b = true) {n : ℕ} (hn : n ≠ 0) :
    argHead (b::inp) = (false,b,inp) ∧ G.readArg n b inp = G.readLoop n {} [] (b::inp) := by
  simp only [opensArg,Bool.and_eq_true,Bool.not_eq_true',bne_iff_ne,ne_eq] at hb
  obtain ⟨⟨⟨⟨hsp,hsq⟩,hdq⟩,hlc⟩,heof⟩ := hb
  constructor
  · rw [argHead,skipSpace_of_not_isspace hsp]
    exact if_neg hsq
  · obtain ⟨k,rfl⟩ := Nat.exists_eq_succ_of_ne_zero hn
    simp [readArg,readLoop,argOpen,hdq,hlc,heof]

/-- The printed arguments are read as arguments. -/
def RereadsArgs (G : Grammar) (args : CodeArgs) (q : Bool × Bytes) : Prop :=
  ∀ n tail, 4*(args.print ++ T_RP::tail).length+4 ≤ n →
    (G.readArgs n q.1 q.2 (args.print ++ T_RP::tail)).1.norm sourceText = args.norm compText ∧
      (G.readArgs n q.1 q.2 (args.print ++ T_RP::tail)).2 = tail

/-- A printed call is read as a call. -/
theorem readFunc_call {name tail : Bytes} {args : CodeArgs} (hname : IsName name)
    (hargs : args.length ≠ 0 → G.RereadsArgs args (argsStart (G.qmapOf name)))
    {n : ℕ} (buf : List Piece)
    (hn : 4*(name ++ (if args.length = 0 then [T_PCT] else T_LP::args.print ++ [T_RP]) ++
      tail).length+1 ≤ n) :
    ∃ args', args'.norm sourceText = args.norm compText ∧
      G.readFunc n (name ++ (if args.length = 0 then [T_PCT] else T_LP::args.print ++ [T_RP]) ++ tail)
        buf = (.flush buf (.func name args' .nil),tail,[]) := by
  obtain ⟨c,t,rfl,hc,ht⟩ := hname
  have hpct : isqsym T_PCT = false := by decide
  have hlp : isqsym T_LP = false := by decide
  have hne : T_PCT ≠ T_LP := by decide
  simp only [List.cons_append,List.length_cons,List.length_append] at hn
  obtain ⟨k,rfl⟩ : ∃ k, n = k+2 := ⟨n-2,by omega⟩
  by_cases hz : args.length = 0
  · have hscan : scanName [c] (t ++ T_PCT::tail) = (c::t,T_PCT,tail) := by
      rw [scanName_all ht,scanName,hpct]
      rfl
    have hnil : args = .nil := by
      cases args with
      | nil => rfl
      | raw => cases hz
      | code => cases hz
    refine ⟨.nil,by rw [hnil]; rfl,?_⟩
    simp [hz,readFunc,readName,hc,hscan,hne]
  · have hscan (inp : Bytes) : scanName [c] (t ++ T_LP::inp) = (c::t,T_LP,inp) := by
      rw [scanName_all ht,scanName,hlp]
      rfl
    rw [if_neg hz] at hn ⊢
    simp only [List.length_cons,List.length_append] at hn
    obtain ⟨hnorm,hrest⟩ := hargs hz k tail (by simp only [List.length_append,List.length_cons]; omega)
    refine ⟨_,hnorm,?_⟩
    simp [readFunc,readName,hc,hscan,hrest]

end Grammar

theorem Code.first?_eq (code : Code) : code.first? = code.print.head? := by
  match code with
  | .nil => rfl
  | .out text rest => rw [Code.first?,Code.print,rest.first?_eq,List.head?_append]
  | .func name args rest => rfl
  | .junk c rest => rfl

theorem CodeArgs.eq_nil_of_length {args : CodeArgs} (h : args.length = 0) : args = .nil := by
  cases args with
  | nil => rfl
  | raw => cases h
  | code => cases h

theorem CodeArgs.print_cons_sep {rest : CodeArgs} (s tail : Bytes) :
    s ++ (if rest.length = 0 then [] else [T_COMMA]) ++ rest.print ++ T_RP::tail =
      s ++ rest.sep::(if rest.length = 0 then tail else rest.print ++ T_RP::tail) := by
  unfold CodeArgs.sep
  by_cases hz : rest.length = 0
  · rw [CodeArgs.eq_nil_of_length hz]
    simp [CodeArgs.print,CodeArgs.length]
  · simp [hz]

theorem exists_opens {s rest : Bytes} {sep : Byte} (hs : ∀ c ∈ s.head?, opensArg c = true)
    (hsep : opensArg sep = true) : ∃ b inp, s ++ sep::rest = b::inp ∧ opensArg b = true := by
  cases s with
  | nil => exact ⟨sep,rest,rfl,hsep⟩
  | cons c s => exact ⟨c,s ++ sep::rest,rfl,hs c rfl⟩

section
variable {G : Grammar}
open Grammar

mutual

theorem Code.Copies.rereads {code : Code} {sep : Byte} {st : ArgSt}
    {buf : Bytes} (h : code.Copies G.strict argCopy sep st buf) (hmoded : code.Moded G)
    (hsep : sep = T_COMMA ∨ sep = T_RP) {n : ℕ} (tmp tail : Bytes)
    (hn : 4*(buf ++ (code.print ++ sep::tail)).length+1 ≤ n) :
    (G.readLoop n st tmp (buf ++ (code.print ++ sep::tail))).1.norm sourceText =
        .bytes (tmp ++ buf) (code.norm compText) ∧
      (G.readLoop n st tmp (buf ++ (code.print ++ sep::tail))).2 = (sep == T_COMMA,tail) := by
  have hne : sep ≠ EOF := by obtain rfl | rfl := hsep <;> decide
  match code with
  | .nil =>
    obtain ⟨st',hcopied,hstop⟩ := h
    obtain ⟨hact,hsp⟩ := hstop hne
    have hcopies : G.CopiesText st buf (sep::tail) st' :=
      copied_copiesText hcopied rfl fun he => absurd he hne
    obtain ⟨m,pre,tmp',hm,hpre,hread⟩ := hcopies n tmp hn
    rw [readLoop_stop hsep hact hsp tmp' tail hm] at hread
    refine ⟨?_,hread.2⟩
    rw [Code.print,List.nil_append,hread.1,Code.norm_flush,sourceText_lit,← Code.bytes_append,hpre]
    rfl
  | .out text rest =>
    have hassoc : buf ++ (Code.print (.out text rest) ++ sep::tail) =
        buf ++ compText text ++ (rest.print ++ sep::tail) := by
      simp only [Code.print,List.append_assoc]
    rw [hassoc] at hn ⊢
    have hrest : rest.Copies G.strict argCopy sep st (buf ++ compText text) := h
    have hmodedRest : rest.Moded G := hmoded
    have ih := hrest.rereads hmodedRest hsep tmp tail hn
    exact ⟨by rw [ih.1,← List.append_assoc,Code.bytes_append,Code.norm],ih.2⟩
  | .func name args rest =>
    obtain ⟨st',hcopied,hargs,hrest⟩ := h
    obtain ⟨hname,hmodedArgs,hmodedRest⟩ := hmoded
    have hassoc : Code.print (.func name args rest) ++ sep::tail =
        T_PCT::(name ++ (if args.length = 0 then [T_PCT] else T_LP::args.print ++ [T_RP]) ++
          (rest.print ++ sep::tail)) := by
      simp only [Code.print,List.cons_append,List.append_assoc]
    rw [hassoc] at hn ⊢
    obtain ⟨m,pre,tmp',hm,hpre,hread⟩ :=
      copied_copiesText hcopied rfl (fun he => absurd he (by decide)) n tmp hn
    simp only [List.length_cons] at hm
    obtain ⟨k,rfl⟩ : ∃ k, m = k+2 := ⟨m-2,by omega⟩
    obtain ⟨args',hnorm,hfunc⟩ := readFunc_call hname (fun hz => hargs.rereads hmodedArgs hz)
      [] (show 4*(_ ++ (rest.print ++ sep::tail)).length+1 ≤ k by omega)
    have ih := hrest.rereads hmodedRest hsep [] tail (n := k) (by
      simp only [List.length_append,List.nil_append] at hm ⊢
      omega)
    rw [List.nil_append] at ih
    have hesc : ¬ T_PCT = T_ESC := by decide
    have heof : ¬ T_PCT = EOF := by decide
    refine ⟨?_,?_⟩
    · rw [hread.1]
      simp only [readLoop,getC_cons,if_neg heof,readTurn,if_neg hesc,if_true,hfunc,Code.norm_flush,
        Code.norm_append,Code.norm,hnorm,sourceText_lit,sourceText_nil,Code.bytes,Code.append,ih.1,
        List.append_nil]
      rw [← Code.bytes_append,hpre]
    · rw [hread.2]
      simp only [readLoop,getC_cons,if_neg heof,readTurn,if_neg hesc,if_true,hfunc,ih.2]
  | .junk c rest => exact h.elim

theorem CodeArgs.Copies.rereads {args : CodeArgs} {q : Bool × Bytes}
    (h : args.Copies G.strict) (hmoded : args.Moded G q) (hne : args.length ≠ 0) : G.RereadsArgs args q := by
  intro n tail hn
  match args with
  | .nil => exact absurd rfl hne
  | .raw quoted text rest =>
    obtain ⟨hraw,hrest⟩ := h
    obtain ⟨hmode,hmodedRest⟩ := hmoded
    have hprint : CodeArgs.print (.raw quoted text rest) ++ T_RP::tail =
        (if quoted then T_SQ::text else text) ++ rest.sep::
          (if rest.length = 0 then tail else rest.print ++ T_RP::tail) := by
      rw [CodeArgs.print,CodeArgs.print_cons_sep]
    rw [hprint] at hn ⊢
    obtain ⟨hhead,heof,hquoted⟩ := hraw (if rest.length = 0 then tail else rest.print ++ T_RP::tail)
    obtain ⟨k,rfl⟩ : ∃ k, n = k+1 := ⟨n-1,by omega⟩
    simp only [readArgs,hhead,if_pos hmode,hquoted]
    by_cases hz : rest.length = 0
    · have hsep : ¬ ((rest.sep == T_COMMA) = true ∧
          (argHead ((if quoted then T_SQ::text else text) ++
            rest.sep::(if rest.length = 0 then tail else rest.print ++ T_RP::tail))).2.1 ≠ EOF) := by
        rw [CodeArgs.sep,if_pos hz]
        exact fun h => absurd h.1 (by decide)
      have hnil := CodeArgs.eq_nil_of_length hz
      rw [if_neg hsep,if_pos hz]
      exact ⟨by rw [hnil]; rfl,rfl⟩
    · have hcomma : rest.sep = T_COMMA := if_neg hz
      rw [if_pos ⟨by rw [hcomma]; rfl,heof hcomma⟩]
      simp only [if_neg hz,List.length_append,List.length_cons] at hn ⊢
      have ih := hrest.rereads hmodedRest hz k tail (by
        simp only [List.length_append,List.length_cons]
        omega)
      exact ⟨congrArg (CodeArgs.raw quoted text) ih.1,ih.2⟩
  | .code body rest =>
    obtain ⟨hopens,hbody,hrest⟩ := h
    obtain ⟨hmode,hmodedBody,hmodedRest⟩ := hmoded
    have hprint : CodeArgs.print (.code body rest) ++ T_RP::tail =
        body.print ++ rest.sep::(if rest.length = 0 then tail else rest.print ++ T_RP::tail) := by
      rw [CodeArgs.print,CodeArgs.print_cons_sep]
    rw [hprint] at hn ⊢
    have hsep : rest.sep = T_COMMA ∨ rest.sep = T_RP := by
      unfold CodeArgs.sep
      split_ifs
      · exact .inr rfl
      · exact .inl rfl
    have hfirst : ∀ c ∈ body.print.head?, opensArg c = true := by rwa [← body.first?_eq]
    have hsepOpens : opensArg rest.sep = true := by obtain h | h := hsep <;> rw [h] <;> decide
    obtain ⟨b,inp,hinp,hb⟩ := exists_opens hfirst hsepOpens
    obtain ⟨k,rfl⟩ : ∃ k, n = k+1 := ⟨n-1,by omega⟩
    have ih := hbody.rereads hmodedBody hsep (n := k) []
      (if rest.length = 0 then tail else rest.print ++ T_RP::tail) (by
        rw [List.nil_append]
        omega)
    obtain ⟨hhead,harg⟩ := G.readArg_opens inp hb (show k ≠ 0 by omega)
    rw [List.nil_append,hinp,← harg,List.nil_append,Code.bytes] at ih
    rw [hinp] at hn ⊢
    rw [hmode] at hmodedRest ⊢
    simp only [readArgs,hhead,Bool.or_self,Bool.false_eq_true,if_false,ih.2]
    have heof : b ≠ EOF := fun he => by
      rw [he] at hb
      exact absurd hb (by decide)
    by_cases hz : rest.length = 0
    · have hcomma : ¬ ((rest.sep == T_COMMA) = true ∧ b ≠ EOF) := by
        rw [CodeArgs.sep,if_pos hz]
        exact fun h => absurd h.1 (by decide)
      rw [if_neg hcomma,if_pos hz]
      refine ⟨?_,rfl⟩
      rw [CodeArgs.norm,CodeArgs.norm,ih.1,CodeArgs.eq_nil_of_length hz]
      rfl
    · have hcomma : (rest.sep == T_COMMA) = true ∧ b ≠ EOF := by
        rw [CodeArgs.sep,if_neg hz]
        exact ⟨rfl,heof⟩
      rw [if_pos hcomma]
      rw [← hinp] at hn
      simp only [if_neg hz,List.length_append,List.length_cons] at hn ⊢
      have ihr := hrest.rereads hmodedRest hz k tail (by
        simp only [List.length_append,List.length_cons]
        omega)
      exact ⟨by rw [CodeArgs.norm,CodeArgs.norm,ih.1,ihr.1],ihr.2⟩

end

theorem Code.Copies.rereads_parse {code : Code} {st : ArgSt}
    {buf : Bytes} (h : code.Copies G.strict parseCopy EOF st buf) (hmoded : code.Moded G) {n : ℕ}
    (before : List Piece) (hn : 4*(buf ++ code.print).length+1 ≤ n) :
    (G.readParse n (buf ++ code.print) before).norm sourceText =
      .bytes (sourceText before ++ buf) (code.norm compText) := by
  match code with
  | .nil =>
    obtain ⟨st',hcopied,-⟩ := h
    have hcopies : G.CopiesParse buf [] := copied_copiesParse hcopied rfl fun _ => rfl
    obtain ⟨m,buf',hm,hbuf',hread⟩ := hcopies n before hn
    obtain ⟨k,rfl⟩ := Nat.exists_eq_succ_of_ne_zero (show m ≠ 0 by omega)
    rw [Code.print,hread,Nat.succ_eq_add_one,readParse,getC_nil]
    simp only [if_true]
    rw [Code.norm_flush,hbuf']
    rfl
  | .out text rest =>
    have hassoc : buf ++ Code.print (.out text rest) = buf ++ compText text ++ rest.print := by
      simp only [Code.print,List.append_assoc]
    rw [hassoc] at hn ⊢
    have hrest : rest.Copies G.strict parseCopy EOF st (buf ++ compText text) := h
    have hmodedRest : rest.Moded G := hmoded
    have ih := hrest.rereads_parse hmodedRest before hn
    rw [ih,← List.append_assoc,Code.bytes_append,Code.norm]
  | .func name args rest =>
    obtain ⟨st',hcopied,hargs,hrest⟩ := h
    obtain ⟨hname,hmodedArgs,hmodedRest⟩ := hmoded
    have hassoc : Code.print (.func name args rest) =
        T_PCT::(name ++ (if args.length = 0 then [T_PCT] else T_LP::args.print ++ [T_RP]) ++
          rest.print) := by
      simp only [Code.print,List.cons_append]
    rw [hassoc] at hn ⊢
    obtain ⟨m,buf',hm,hbuf',hread⟩ :=
      copied_copiesParse hcopied rfl (fun he => absurd he (by decide)) n before hn
    simp only [List.length_cons] at hm
    obtain ⟨k,rfl⟩ : ∃ k, m = k+1 := ⟨m-1,by omega⟩
    obtain ⟨args',hnorm,hfunc⟩ := readFunc_call hname (fun hz => hargs.rereads hmodedArgs hz)
      buf' (show 4*(_ ++ rest.print).length+1 ≤ k by omega)
    have ih := hrest.rereads_parse hmodedRest [] (n := k) (by
      simp only [List.length_append,List.nil_append] at hm ⊢
      omega)
    rw [List.nil_append] at ih
    have heof : ¬ T_PCT = EOF := by decide
    rw [hread,readParse,getC_cons]
    simp only [if_neg heof,if_true,hfunc,Code.norm_append,Code.norm_flush,Code.norm,hnorm,hbuf',ih,sourceText_nil,
      List.nil_append,Code.bytes,Code.append_bytes,Code.append]
  | .junk c rest => exact h.elim

end

namespace Host
variable {σ ο : Type} (H : Host σ ο)

/-- The output of what `Decompile` makes of the compiled text is the output of the text. -/
def Rereads (s : σ) (inp : Bytes) : Prop :=
  ∀ keys bs, (H.compEnv s keys).compile inp = .ok bs →
    ((H.parse (decompile (bs.length+1) bs)).run s).out = ((H.parse inp).run s).out

variable {H}

theorem decompile_compile {s : σ} {inp : Bytes} (hfit : ((H.grammarAt s).read inp).Fits)
    {keys : Option (ℕ → Byte)} {bs : Bytes} (hbs : (H.compEnv s keys).compile inp = .ok bs) :
    decompile (bs.length+1) bs = ((H.grammarAt s).read inp).print :=
  (CompEnv.compile_encodes hbs).decompile hfit (Nat.lt_succ_self _)

end Host

end Smx
