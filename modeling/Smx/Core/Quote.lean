import Smx.Parse.Direct

/-! `%macro-quote`: a text written so that `ParseArgs` reads it back as one argument. -/
namespace Smx

/-- The bytes that make `SmxQuote` quote. -/
def isSpecial (c : Byte) : Bool :=
  c == T_SQ || c == T_PCT || c == T_DQ || c == T_COMMA || c == T_ESC || c == T_RP || c == T_LP ||
    c == 0 || c == EOF || isspace c

/-- What the inner loop of `SmxQuote` writes for one byte. -/
def quoteByte (c : Byte) : Bytes :=
  if c = T_DQ ∨ c = T_ESC ∨ c = T_LP ∨ c = T_RP then [T_ESC,c]
  else if c = T_PCT then [T_PCT,T_PCT]
  else [c]

/-- `SmxQuote`: from the first special byte on the text is escaped, and all of it quoted. -/
def smxQuote (s : Bytes) : Bytes :=
  if s.any isSpecial then
    T_DQ::(s.takeWhile (!isSpecial ·) ++ (s.dropWhile (!isSpecial ·)).flatMap quoteByte) ++ [T_DQ]
  else s

theorem quoteByte_of_not_special {c : Byte} (h : isSpecial c = false) : quoteByte c = [c] := by
  simp only [isSpecial,Bool.or_eq_false_iff,beq_eq_false_iff_ne] at h
  simp [quoteByte,h]

theorem flatMap_quoteByte_of_not_special {s : Bytes} (h : ∀ c ∈ s, isSpecial c = false) :
    s.flatMap quoteByte = s := by
  induction s with
  | nil => rfl
  | cons c s ih =>
    rw [List.flatMap_cons,quoteByte_of_not_special (h c List.mem_cons_self),
      ih fun d hd => h d (List.mem_cons_of_mem _ hd),List.singleton_append]

/-- Bytes that need no escape are their own escape, so all of the text is escaped alike. -/
theorem smxQuote_of_special {s : Bytes} (h : s.any isSpecial = true) :
    smxQuote s = T_DQ::s.flatMap quoteByte ++ [T_DQ] := by
  have hplain : ∀ c ∈ s.takeWhile (!isSpecial ·), isSpecial c = false := fun c hc => by
    simpa using List.mem_takeWhile_imp hc
  have hsplit : s.flatMap quoteByte =
      s.takeWhile (!isSpecial ·) ++ (s.dropWhile (!isSpecial ·)).flatMap quoteByte := by
    conv_lhs => rw [← List.takeWhile_append_dropWhile (p := (!isSpecial ·)) (l := s)]
    rw [List.flatMap_append,flatMap_quoteByte_of_not_special hplain]
  rw [smxQuote,if_pos h,hsplit]

theorem argAct_dq {st : ArgSt} {c : Byte} (hst : st.quoted = T_DQ) (hc : c ≠ T_DQ) :
    argAct st c = .put st := by
  have h0 : T_DQ ≠ 0 := by decide
  have hlc : T_DQ ≠ T_LC := by decide
  simp [argAct,hst,hc,h0,hlc]

/-- Inside double quotes the escaped text is read back up to its first 0xFF. -/
theorem argLoop_quoted {σ ο : Type} (H : Host σ ο) {n : ℕ} {s : Bytes} (cur inp : Bytes)
    (hs : EOF ∉ s) :
    H.argLoop (n+2*s.length+1) { quoted := T_DQ } cur (s.flatMap quoteByte ++ inp) =
      H.argLoop (n+1) { quoted := T_DQ } (cur ++ s) inp := by
  induction s generalizing cur with
  | nil => simp
  | cons c s ih =>
    have hc : c ≠ EOF := fun he => hs (he ▸ List.mem_cons_self)
    have hrest : EOF ∉ s := fun hm => hs (List.mem_cons_of_mem _ hm)
    have hfuel : n+2*(c::s).length+1 = n+2*s.length+1+2 := by simp only [List.length_cons]; omega
    have hassoc : cur ++ c::s = cur ++ [c] ++ s := by simp
    rw [hfuel,List.flatMap_cons,List.append_assoc,hassoc,← ih (cur ++ [c]) hrest]
    by_cases hq : c = T_DQ ∨ c = T_ESC ∨ c = T_LP ∨ c = T_RP
    · rw [quoteByte,if_pos hq]
      exact H.argLoop_esc hc
    · by_cases hp : c = T_PCT
      · rw [quoteByte,if_neg hq,if_pos hp,hp]
        exact H.argLoop_pct
      · rw [quoteByte,if_neg hq,if_neg hp]
        simp only [not_or] at hq
        exact H.argLoop_put hc hq.2.1 hp (argAct_dq rfl hq.1)

section
variable {σ ο : Type} (H : Host σ ο) {n : ℕ}

theorem argTurn_of_ne_eof {c : Byte} (hc : c ≠ EOF) (st : ArgSt) (cur inp : Bytes) :
    H.argTurn n st cur c inp = H.argLoop (n+1) st cur (c::inp) := by
  simp [Host.argLoop,hc]

/-- A single evaluated argument, when its text is read without evaluating anything. -/
theorem parseArgsQmap_single {c : Byte} {inp rest text left : Bytes}
    (hhead : argHead inp = (false,c,rest)) (harg : H.parseArg n c rest = pure (text,false,left)) :
    H.parseArgsQmap (n+1) false [] inp = pure ([⟨text,.str⟩],left) := by
  simp [Host.parseArgsQmap,hhead,harg]

theorem argHead_of_not_space {c : Byte} (hsp : isspace c = false) (hsq : c ≠ T_SQ) (inp : Bytes) :
    argHead (c::inp) = (false,c,inp) := by
  simp [argHead,skipSpace_of_not_isspace hsp,hsq]

/-- The closing quote and the parenthesis after it. -/
theorem argLoop_close {cur : Bytes} :
    H.argLoop (n+4) { quoted := T_DQ } cur [T_DQ,T_RP] = pure (cur,false,[]) := by
  have hskip : argAct { quoted := T_DQ } T_DQ = .skip {} := by decide
  have hstop : argAct {} T_RP = .stop false := by decide
  rw [H.argLoop_skip (by decide) (by decide) (by decide) hskip,
    H.argLoop_stop (by decide) (by decide) (by decide) hstop]
  simp [cutSpaces]

/-- The first byte of a quoted text is read before the loop tests for EOF. -/
theorem parseArg_quoted (c : Byte) (t inp : Bytes) :
    H.parseArg (n+8) T_DQ ((c::t).flatMap quoteByte ++ inp) =
      H.argLoop (n+6) { quoted := T_DQ } [c] (t.flatMap quoteByte ++ inp) := by
  have hopen : ∀ rest, argOpen T_DQ rest = ({ quoted := T_DQ },getC rest) := fun _ => rfl
  rw [List.flatMap_cons,List.append_assoc]
  by_cases hc : c = EOF
  · have hact : argAct { quoted := T_DQ } EOF = .put { quoted := T_DQ } := by decide
    have hquote : quoteByte EOF = [EOF] := by decide
    have hesc : EOF ≠ T_ESC := by decide
    have hpct : EOF ≠ T_PCT := by decide
    simp [hc,hquote,Host.parseArg,hopen,Host.argTurn,hesc,hpct,hact]
  · have hread := argLoop_quoted H (n := n+5) (s := [c]) [] (t.flatMap quoteByte ++ inp)
      (by simpa using Ne.symm hc)
    simp only [List.flatMap_cons,List.flatMap_nil,List.append_nil,List.nil_append] at hread
    obtain ⟨d,q,hq,hd⟩ : ∃ d q, quoteByte c = d::q ∧ d ≠ EOF := by
      unfold quoteByte
      split_ifs
      · exact ⟨_,_,rfl,by decide⟩
      · exact ⟨_,_,rfl,by decide⟩
      · exact ⟨_,_,rfl,hc⟩
    rw [hq,List.cons_append] at hread ⊢
    rw [← hread,Host.parseArg,hopen]
    exact argTurn_of_ne_eof H hd _ _ _

theorem length_le_flatMap_quoteByte (s : Bytes) : s.length ≤ (s.flatMap quoteByte).length := by
  induction s with
  | nil => exact le_refl _
  | cons c s ih =>
    have hone : 1 ≤ (quoteByte c).length := by
      unfold quoteByte
      split_ifs <;> simp
    rw [List.flatMap_cons,List.length_append,List.length_cons]
    omega

theorem parseArgs_quoted {c : Byte} {t text left : Bytes} (hs : (c::t).any isSpecial = true)
    (hread : ∀ n, H.argLoop (n+2*t.length+6) { quoted := T_DQ } [c]
      (t.flatMap quoteByte ++ [T_DQ,T_RP]) = pure (text,false,left)) :
    H.parseArgs (smxQuote (c::t) ++ [T_RP]) = pure ([⟨text,.str⟩],left) := by
  rw [smxQuote_of_special hs]
  have hsplit : T_DQ::(c::t).flatMap quoteByte ++ [T_DQ] ++ [T_RP] =
      T_DQ::((c::t).flatMap quoteByte ++ [T_DQ,T_RP]) := by simp
  have hlen := length_le_flatMap_quoteByte (c::t)
  obtain ⟨n,hn⟩ : ∃ n, Host.fuelFor (T_DQ::((c::t).flatMap quoteByte ++ [T_DQ,T_RP])) =
      n+2*t.length+8+1 := by
    refine Nat.exists_eq_add_of_le' (m := 2*t.length+9) ?_ |>.imp fun k hk => by omega
    simp only [Host.fuelFor,List.length_cons,List.length_append] at hlen ⊢
    omega
  rw [hsplit,Host.parseArgs,hn]
  refine parseArgsQmap_single H (argHead_of_not_space (by decide) (by decide) _) ?_
  rw [parseArg_quoted]
  exact hread n

theorem parseArgs_smxQuote {c : Byte} {t : Bytes} (hs : (c::t).any isSpecial = true)
    (ht : EOF ∉ t) : H.parseArgs (smxQuote (c::t) ++ [T_RP]) = pure ([⟨c::t,.str⟩],[]) :=
  parseArgs_quoted H hs fun n => by
    rw [show n+2*t.length+6 = n+5+2*t.length+1 by omega,argLoop_quoted H [c] _ ht]
    exact argLoop_close H

/-- A later 0xFF ends the argument. -/
theorem parseArgs_smxQuote_eof {c : Byte} {pre post : Bytes} (hpre : EOF ∉ pre) :
    ∃ left, H.parseArgs (smxQuote (c::(pre ++ EOF::post)) ++ [T_RP]) =
      pure ([⟨c::pre,.str⟩],left) := by
  have hspecial : (c::(pre ++ EOF::post)).any isSpecial = true :=
    List.any_eq_true.mpr ⟨EOF,by simp,by decide⟩
  have hquote : quoteByte EOF = [EOF] := by decide
  refine ⟨post.flatMap quoteByte ++ [T_DQ,T_RP],parseArgs_quoted H hspecial fun n => ?_⟩
  have hlen : n+2*(pre ++ EOF::post).length+6 = n+2*post.length+7+2*pre.length+1 := by
    simp only [List.length_append,List.length_cons]
    omega
  rw [hlen,List.flatMap_append,List.append_assoc,argLoop_quoted H [c] _ hpre,List.flatMap_cons,
    hquote]
  exact H.argLoop_eof rfl

end

/-- What is known of a byte that is not special. -/
structure Plain (c : Byte) : Prop where
  eof : c ≠ EOF
  esc : c ≠ T_ESC
  pct : c ≠ T_PCT
  dq : c ≠ T_DQ
  sq : c ≠ T_SQ
  comma : c ≠ T_COMMA
  lp : c ≠ T_LP
  rp : c ≠ T_RP
  space : isspace c = false

theorem plain_of_not_special {c : Byte} (h : isSpecial c = false) : Plain c := by
  simp only [isSpecial,Bool.or_eq_false_iff,beq_eq_false_iff_ne] at h
  obtain ⟨⟨⟨⟨⟨⟨⟨⟨⟨sq,pct⟩,dq⟩,comma⟩,esc⟩,rp⟩,lp⟩,-⟩,eof⟩,space⟩ := h
  exact ⟨eof,esc,pct,dq,sq,comma,lp,rp,space⟩

theorem argAct_plain {st : ArgSt} {c : Byte} (hq : st.quoted = 0) (hl : st.lpc = 0)
    (hc : Plain c) : argAct st c = .put { st with numsp := 0 } := by
  simp [argAct,hq,hl,hc.comma,hc.lp,hc.rp,hc.space]

section
variable {σ ο : Type} (H : Host σ ο) {n : ℕ}

theorem argLoop_plain {s : Bytes} (hs : s.any isSpecial = false) (cur inp : Bytes) :
    H.argLoop (n+2*s.length) {} cur (s ++ inp) = H.argLoop n {} (cur ++ s) inp := by
  induction s generalizing cur with
  | nil => simp
  | cons c s ih =>
    obtain ⟨hc,hrest⟩ : isSpecial c = false ∧ s.any isSpecial = false := by simpa using hs
    have hplain := plain_of_not_special hc
    have hassoc : cur ++ c::s = cur ++ [c] ++ s := by simp
    rw [List.cons_append,hassoc,← ih hrest,show n+2*(c::s).length = n+2*s.length+2 by
      simp only [List.length_cons]; omega]
    exact H.argLoop_put hplain.eof hplain.esc hplain.pct (argAct_plain rfl rfl hplain)

theorem fuelFor_append_rp (s : Bytes) : Host.fuelFor (s ++ [T_RP]) = 2*s.length+6+2*s.length+2 := by
  simp only [Host.fuelFor,List.length_append,List.length_cons,List.length_nil]
  omega

/-- The first character of an unquoted text or the parenthesis after it. -/
theorem first_of_plain {s : Bytes} (hs : s.any isSpecial = false) :
    ∃ d rest, s ++ [T_RP] = d::rest ∧ d ≠ EOF ∧ d ≠ T_DQ ∧ d ≠ T_SQ ∧ isspace d = false ∧
      (d = T_LC → s.head? = some T_LC) := by
  cases s with
  | nil => exact ⟨T_RP,[],rfl,by decide,by decide,by decide,by decide,by decide⟩
  | cons c s =>
    have hc : isSpecial c = false := (by simpa using hs : isSpecial c = false ∧ _).1
    have hplain := plain_of_not_special hc
    exact ⟨c,s ++ [T_RP],rfl,hplain.eof,hplain.dq,hplain.sq,hplain.space,fun h => by simp [h]⟩

theorem parseArgs_plain {s : Bytes} (hs : s.any isSpecial = false) (hlc : s.head? ≠ some T_LC) :
    H.parseArgs (smxQuote s ++ [T_RP]) = pure ([⟨s,.str⟩],[]) := by
  obtain ⟨d,rest,hd,heof,hdq,hsq,hsp,hbrace⟩ := first_of_plain hs
  have hopen : argOpen d rest = ({},d,rest) := by
    simp [argOpen,hdq,show d ≠ T_LC from fun h => hlc (hbrace h)]
  have hstop : argAct {} T_RP = .stop false := by decide
  rw [smxQuote,if_neg (by simp [hs]),Host.parseArgs,fuelFor_append_rp]
  rw [hd]
  refine parseArgsQmap_single H (argHead_of_not_space hsp hsq _) ?_
  rw [Host.parseArg,hopen,argTurn_of_ne_eof H heof,← hd,
    show 2*s.length+6+2*s.length+1 = 2*s.length+7+2*s.length by omega,argLoop_plain H hs,
    H.argLoop_stop (by decide) (by decide) (by decide) hstop]
  simp [cutSpaces]

/-- Reading between braces or after them, with nothing but ordinary bytes so far. -/
def Braced (st : ArgSt) : Prop := (st.quoted = 0 ∨ st.quoted = T_LC) ∧ st.lpc = 0 ∧ st.numsp = 0

theorem argAct_braced {st : ArgSt} {c : Byte} (hst : Braced st) (hc : Plain c) :
    ∃ st', Braced st' ∧ (argAct st c = .put st' ∨ argAct st c = .skip st') := by
  obtain ⟨hq,hl,hsp⟩ := hst
  have h0 : T_LC ≠ 0 := by decide
  rcases hq with hq | hq
  · exact ⟨{ st with numsp := 0 },⟨.inl hq,hl,rfl⟩,.inl (argAct_plain hq hl hc)⟩
  by_cases hlc : c = T_LC
  · exact ⟨{ st with qcnt := st.qcnt+1 },⟨.inr hq,hl,hsp⟩,.inr (by simp [argAct,hq,h0,hlc])⟩
  by_cases hrc : c = T_RC
  · have h1 : T_RC ≠ T_LC := by decide
    have h2 : T_LC ≠ T_DQ := by decide
    by_cases hcnt : st.qcnt ≤ 1
    · exact ⟨{ st with quoted := 0, qcnt := st.qcnt-1, numsp := 0 },⟨.inl rfl,hl,rfl⟩,
        .inr (by simp [argAct,hq,h0,h1,h2,hrc,hcnt])⟩
    · exact ⟨{ st with qcnt := st.qcnt-1 },⟨.inr hq,hl,hsp⟩,
        .inl (by simp [argAct,hq,h0,h1,h2,hrc,hcnt])⟩
  · exact ⟨st,⟨.inr hq,hl,hsp⟩,.inl (by simp [argAct,hq,h0,hlc,hrc,hc.dq])⟩

/-- Between braces or after them, the text read has lost a byte or goes on to the end. -/
theorem argLoop_brace {t : Bytes} (ht : t.any isSpecial = false) (st : ArgSt) (cur : Bytes)
    (hst : Braced st) :
    ∃ text left, H.argLoop (n+2*t.length+4) st cur (t ++ [T_RP]) = pure (cur ++ text,false,left) ∧
      (text.length ≤ t.length ∨ T_RP ∈ text) := by
  induction t generalizing st cur with
  | nil =>
    have heof : T_RP ≠ EOF := by decide
    have hesc : T_RP ≠ T_ESC := by decide
    have hpct : T_RP ≠ T_PCT := by decide
    obtain ⟨hq,hl,hsp⟩ := hst
    rcases hq with hq | hq
    · have hstop : argAct st T_RP = .stop false := by simp [argAct,hq,hl,T_RP,T_COMMA,T_LP,ch]
      refine ⟨[],[],?_,.inl (le_refl _)⟩
      rw [List.nil_append,H.argLoop_stop heof hesc hpct hstop]
      simp [cutSpaces,hsp]
    · have hput : argAct st T_RP = .put st := by simp [argAct,hq,T_RP,T_LC,T_DQ,T_RC,ch]
      refine ⟨[T_RP],[],?_,.inr (by simp)⟩
      rw [List.nil_append,H.argLoop_put heof hesc hpct hput]
      exact H.argLoop_eof rfl
  | cons c t ih =>
    obtain ⟨hc,hrest⟩ : isSpecial c = false ∧ t.any isSpecial = false := by simpa using ht
    have hplain := plain_of_not_special hc
    have hfuel : n+2*(c::t).length+4 = n+2*t.length+4+2 := by
      simp only [List.length_cons]
      omega
    rw [hfuel,List.cons_append]
    obtain ⟨st',hst',hput | hskip⟩ := argAct_braced hst hplain
    · obtain ⟨text,left,hread,htext⟩ := ih hrest st' (cur ++ [c]) hst'
      rw [H.argLoop_put hplain.eof hplain.esc hplain.pct hput]
      exact ⟨c::text,left,by simpa using hread,
        htext.imp Nat.succ_le_succ (List.mem_cons_of_mem c)⟩
    · obtain ⟨text,left,hread,htext⟩ := ih hrest st' cur hst'
      rw [H.argLoop_skip hplain.eof hplain.esc hplain.pct hskip]
      exact ⟨text,left,hread,htext.imp Nat.le_succ_of_le id⟩

/-- An unquoted text that starts with a brace comes back as another text. -/
theorem parseArgs_brace {t : Bytes} (ht : (T_LC::t).any isSpecial = false) :
    ∃ text left, text ≠ T_LC::t ∧
      H.parseArgs (smxQuote (T_LC::t) ++ [T_RP]) = pure ([⟨text,.str⟩],left) := by
  obtain ⟨hbrace,hrest⟩ : isSpecial T_LC = false ∧ t.any isSpecial = false := by simpa using ht
  obtain ⟨d,rest,hd,heof,-⟩ := first_of_plain hrest
  have hopen : argOpen T_LC (t ++ [T_RP]) = ({ quoted := T_LC, qcnt := 1 },d,rest) := by
    rw [hd]
    rfl
  obtain ⟨text,left,hread,htext⟩ := argLoop_brace H (n := 2*t.length+7) hrest
    { quoted := T_LC, qcnt := 1 } [] ⟨.inr rfl,rfl,rfl⟩
  refine ⟨text,left,?_,?_⟩
  · rintro rfl
    rcases htext with hlen | hmem
    · exact absurd hlen (Nat.not_succ_le_self _)
    · obtain hrp | hrp := List.mem_cons.mp hmem
      · exact absurd hrp (by decide)
      · have hspecial := List.any_eq_false.mp hrest _ hrp
        exact hspecial (by decide)
  · rw [smxQuote,if_neg (by simpa using ht),Host.parseArgs,List.cons_append]
    have hfuel : Host.fuelFor (T_LC::(t ++ [T_RP])) = 2*t.length+7+2*t.length+4+1 := by
      simp only [Host.fuelFor,List.length_append,List.length_cons,List.length_nil]
      omega
    rw [hfuel]
    refine parseArgsQmap_single H (argHead_of_not_space (by decide) (by decide) _) ?_
    rw [Host.parseArg,hopen,argTurn_of_ne_eof H heof,← hd]
    exact hread

end

/-- `ParseArgs` on the quoted text and a closing parenthesis gives this one argument, reads
all of it and does nothing else, whatever the context. -/
def QuoteRoundTrips (s : Bytes) : Prop :=
  ∀ (σ ο : Type) (H : Host σ ο) (w : σ),
    (H.parseArgs (smxQuote s ++ [T_RP])).run w = ⟨.ok ([⟨s,.str⟩],[]),w,[]⟩

theorem not_quoteRoundTrips {s text left : Bytes} (hne : text ≠ s)
    (hread : (emptyHost false).parseArgs (smxQuote s ++ [T_RP]) = pure ([⟨text,.str⟩],left)) :
    ¬ QuoteRoundTrips s := by
  intro h
  have hrun := h Unit Empty (emptyHost false) ()
  rw [hread,EmitM.run_pure] at hrun
  simp only [Outcome.mk.injEq,Except.ok.injEq,Prod.mk.injEq,List.cons.injEq,Arg.mk.injEq] at hrun
  exact hne hrun.1.1.1.1

/-- The round trip works unless there is a 0xFF after the first byte, or the text starts with
a brace and has no byte that makes the quoter quote. -/
theorem quoteRoundTrips_iff (s : Bytes) :
    QuoteRoundTrips s ↔ EOF ∉ s.tail ∧ (s.head? = some T_LC → s.any isSpecial = true) := by
  constructor
  · intro h
    refine ⟨fun hmem => ?_,fun hlc => ?_⟩
    · cases s with
      | nil => simp at hmem
      | cons c t =>
        obtain ⟨pre,post,ht,hpre⟩ := List.eq_append_cons_of_mem hmem
        subst ht
        obtain ⟨left,hread⟩ := parseArgs_smxQuote_eof (emptyHost false) hpre
        exact not_quoteRoundTrips (by simp) hread h
    · by_contra hspecial
      obtain ⟨t,rfl⟩ : ∃ t, s = T_LC::t := List.head?_eq_some_iff.mp hlc
      obtain ⟨text,left,hne,hread⟩ := parseArgs_brace (emptyHost false) (by simpa using hspecial)
      exact not_quoteRoundTrips hne hread h
  · rintro ⟨heof,hlc⟩ σ ο H w
    by_cases hspecial : s.any isSpecial = true
    · cases s with
      | nil => simp at hspecial
      | cons c t => rw [parseArgs_smxQuote H hspecial heof,EmitM.run_pure]
    · rw [parseArgs_plain H (by simpa using hspecial) fun h => hspecial (hlc h),EmitM.run_pure]

theorem quoteRoundTrips_brace : ¬ ∀ s, QuoteRoundTrips s := by
  intro h
  obtain ⟨text,left,hne,hread⟩ := parseArgs_brace (emptyHost false) (t := str "x") (by decide)
  exact not_quoteRoundTrips hne hread (h _)

end Smx
