import Smx.Mail.Recipients
import Smx.Str.Replace

/-! `%smtp-mail`: which line ends of its arguments come into the session. -/
namespace Smx

/-- The loop of `ReplaceStr`: what has been copied, and what is left. There are not more rounds than
bytes. -/
def replaceLoop (f : Bytes) : ℕ → Bytes → Bytes × Bytes
  | 0,s => ([],s)
  | n+1,s =>
    match strstr f s with
    | none => ([],s)
    | some (before,rest) => (before ++ (replaceLoop f n rest).1,(replaceLoop f n rest).2)

/-- `ReplaceStr` with nothing to put into the place. When nothing is left behind the last place, the
old string is returned. -/
def replaceStr (s f : Bytes) : Bytes :=
  if f = [] ∨ s.length < f.length then s
  else
    let r := replaceLoop f s.length s
    if r.2.length < s.length ∧ r.2 ≠ [] then r.1 ++ r.2 else s

theorem replaceLoop_eq (f : Bytes) (n : ℕ) (s : Bytes) : replaceLoop f n s = replaceCopy f [] n s := by
  induction n generalizing s with
  | zero => rfl
  | succ n ih =>
    rw [replaceLoop,replaceCopy]
    cases strstr f s with
    | none => rfl
    | some r => simp only [ih,List.append_nil]

/-- It is `ReplaceStr`. -/
theorem replaceStr_eq_to (s : Bytes) {f : Bytes} (hf : f ≠ []) (n : ℕ) :
    replaceStrTo s f [] n = some (replaceStr s f) := by
  have hlen : f.length ≠ ([] : Bytes).length := fun h => hf (List.eq_nil_of_length_eq_zero h)
  rw [replaceStrTo,replaceStr]
  by_cases hnone : f = [] ∨ s.length < f.length
  · rw [if_pos hnone,if_pos hnone]
  · rw [if_neg hnone,if_neg hnone,if_neg hlen]
    simp only [replaceLoop_eq]

/-- Both replacements for a field. -/
def clean (s : Bytes) : Bytes := replaceStr (replaceStr s [10]) [13]

/-- The recipients of `%smtp-mail`, cut out of a copy. -/
def rcptTokens (s : Bytes) : List Bytes :=
  (((cstr s).splitOnP (· = ch ';')).map (·.dropWhile isspace)).filter (· ≠ [])

/-- `EvalSmtpMail`: the mails that are sent one after the other, to each recipient its own. `smtp` is
still the host as it was given. -/
def evalSmtpMail (args : List Bytes) : List MailOpts :=
  if args.length < 4 then []
  else
    (rcptTokens (args.getD 3 [])).map fun tok =>
      { smtp := args.getD 0 [], rcpt := tok, to_ := tok
        from_ := clean (args.getD 2 [])
        subj := clean (args.getD 4 [])
        body := (T_SQ::args.getD 5 [])::(args.drop 6).takeWhile (· ≠ []) }

/-- These are all the line ends of a text. -/
def LineEnds (n : ℕ) (s : Bytes) : Prop := s.count 13 = n ∧ s.count 10 = n

/-- No byte of a line end. -/
def OneLine (s : Bytes) : Prop := 13 ∉ s ∧ 10 ∉ s

instance (s : Bytes) : Decidable (OneLine s) := inferInstanceAs (Decidable (_ ∧ _))

/-- The last byte is one of a line end. -/
def EndsLine (s : Bytes) : Prop := s.getLast? = some 13 ∨ s.getLast? = some 10

/-- What stands behind the C string. -/
def behind (s : Bytes) : Bytes := s.drop (cstr s).length

/-- The commands, which take their text from the arguments. -/
def Request.Command : Request → Prop
  | .ehlo _ | .helo _ | .mail _ | .rcpt _ | .cut _ _ => True
  | _ => False

/-- The lines of the header that `smtp_data_next` writes. -/
def headerLines (o : MailOpts) : ℕ :=
  (if o.subj = [] then 0 else 1)+(if o.from_ = [] then 0 else 1)+(if o.to_ = [] then 0 else 1)+
    (if o.reply = [] then 0 else 1)+o.other+(if 1 < o.body.length then 2 else 1)+1

/-- In no session is there a line end besides those that the commands and the header lines have
themselves. -/
def NoInjection (args : List Bytes) : Prop :=
  ∀ o ∈ evalSmtpMail args, ∀ o', o.filled = some o' →
    (∀ F replies requests, Session F o' o'.open replies requests →
      ∀ r ∈ requests, r.Command → LineEnds 1 r.text) ∧
    ∀ n, LineEnds ((if o'.subj = [] then n+1 else 1)*headerLines o') (headed o' n).buf

theorem cstr_append_behind (s : Bytes) : cstr s ++ behind s = s := by
  have hstart : cstr s <+: s := List.takeWhile_prefix _
  exact List.prefix_iff_eq_append.mp hstart

theorem behind_eq_nil_iff (s : Bytes) : behind s = [] ↔ 0 ∉ s := by
  constructor
  · intro h h0
    rw [← cstr_append_behind s,h,List.append_nil] at h0
    exact nul_not_mem_cstr s h0
  · intro h
    rw [behind,cstr_of_nul_free h,List.drop_length]

/-- What stands behind the C string begins with the NUL. -/
theorem cstr_behind (s : Bytes) : cstr (behind s) = [] := by
  by_cases h0 : 0 ∈ s
  · obtain ⟨r,hr⟩ := exists_of_nul_mem h0
    have hbehind : behind s = 0::r := by
      have happ := (cstr_append_behind s).trans hr
      exact List.append_cancel_left happ
    rw [hbehind]
    rfl
  · rw [(behind_eq_nil_iff s).mpr h0]
    rfl

theorem cstr_append {u t : Bytes} (hu : 0 ∉ u) (ht : cstr t = []) : cstr (u ++ t) = u := by
  rw [cstr,List.takeWhile_append_of_pos]
  · rw [cstr] at ht
    rw [ht,List.append_nil]
  · intro c hc
    simpa using ne_of_mem_of_not_mem hc hu

theorem behind_append {u t : Bytes} (hu : 0 ∉ u) (ht : cstr t = []) : behind (u ++ t) = t := by
  rw [behind,cstr_append hu ht,List.drop_left]

variable {c : Byte} {s a b : Bytes}

theorem not_singleton_starts {d : Byte} (h : c ≠ d) : ¬[c] <+: d::s :=
  fun hstart => h (List.singleton_prefix_cons_iff.mp hstart)

theorem strstr_none (hc : c ≠ 0) (h : c ∉ cstr s) : strstr [c] s = none := by
  induction s with
  | nil => rfl
  | cons d s ih =>
    rw [strstr]
    by_cases hd : d = 0
    · rw [if_neg (not_singleton_starts (hd ▸ hc)),if_pos hd]
    · have hcstr : cstr (d::s) = d::cstr s := List.takeWhile_cons_of_pos (by simpa using hd)
      rw [hcstr,List.mem_cons,not_or] at h
      rw [if_neg (not_singleton_starts h.1),if_neg hd,ih h.2]
      rfl

theorem strstr_some (ha : c ∉ a) (h0 : 0 ∉ a) : strstr [c] (a ++ c::b) = some (a,b) := by
  induction a with
  | nil => exact if_pos (List.singleton_prefix_cons_iff.mpr rfl)
  | cons d a ih =>
    rw [List.mem_cons,not_or] at ha h0
    rw [List.cons_append,strstr,if_neg (not_singleton_starts ha.1),if_neg (Ne.symm h0.1),ih ha.2 h0.2]
    rfl

theorem filter_ne_of_not_mem (h : c ∉ s) : s.filter (· ≠ c) = s := by
  apply List.filter_eq_self.mpr
  intro d hd
  simpa using ne_of_mem_of_not_mem hd h

/-- What the loop of `ReplaceStr` does with one byte. -/
structure Replaced (c : Byte) (s : Bytes) (r : Bytes × Bytes) : Prop where
  append_eq : r.1 ++ r.2 = (cstr s).filter (· ≠ c) ++ behind s
  kept : c ∉ cstr s → r.2 = s
  moved : c ∈ cstr s → r.2.length < s.length
  at_end : c ∈ cstr s → (r.2 = [] ↔ 0 ∉ s ∧ s.getLast? = some c)

theorem replaced_none (h : c ∉ cstr s) : Replaced c s ([],s) where
  append_eq := by
    rw [filter_ne_of_not_mem h,cstr_append_behind]
    rfl
  kept := fun _ => rfl
  moved := fun h' => absurd h' h
  at_end := fun h' => absurd h' h

theorem replaced_some {r : Bytes × Bytes} (hc : c ≠ 0) (ha : c ∉ a) (h0 : 0 ∉ a)
    (h : Replaced c b r) : Replaced c (a ++ c::b) (a ++ r.1,r.2) := by
  have h0' : 0 ∉ a ++ [c] := by
    rw [List.mem_append,List.mem_singleton]
    exact not_or.mpr ⟨h0,Ne.symm hc⟩
  have hsplit : a ++ c::b = (a ++ [c] ++ cstr b) ++ behind b := by
    rw [List.append_assoc,cstr_append_behind,List.append_assoc]
    rfl
  have hnul : 0 ∉ a ++ [c] ++ cstr b := by
    rw [List.mem_append]
    exact not_or.mpr ⟨h0',nul_not_mem_cstr b⟩
  have hcstr : cstr (a ++ c::b) = a ++ [c] ++ cstr b := by
    rw [hsplit,cstr_append hnul (cstr_behind b)]
  have hbehind : behind (a ++ c::b) = behind b := by
    rw [hsplit,behind_append hnul (cstr_behind b)]
  have hle : r.2.length ≤ b.length := by
    by_cases hmem : c ∈ cstr b
    · exact (h.moved hmem).le
    · rw [h.kept hmem]
  have hmem : c ∈ cstr (a ++ c::b) := by
    rw [hcstr]
    simp
  refine ⟨?_,fun h' => absurd hmem h',fun _ => ?_,fun _ => ?_⟩
  · have hfilter : (a ++ [c]).filter (· ≠ c) = a := by
      rw [List.filter_append,filter_ne_of_not_mem ha]
      simp
    rw [hcstr,hbehind,List.filter_append,hfilter,List.append_assoc,List.append_assoc,h.append_eq]
  · rw [List.length_append,List.length_cons]
    exact Nat.lt_add_left _ (Nat.lt_succ_of_le hle)
  · have hnul_iff : 0 ∉ a ++ c::b ↔ 0 ∉ b := by
      rw [List.mem_append,List.mem_cons]
      exact ⟨fun h hb => h (.inr (.inr hb)),fun h => not_or.mpr ⟨h0,not_or.mpr ⟨Ne.symm hc,h⟩⟩⟩
    rw [hnul_iff,List.getLast?_append_cons]
    by_cases hcb : c ∈ cstr b
    · rw [h.at_end hcb]
      cases b with
      | nil => cases hcb
      | cons d b => rw [List.getLast?_cons_cons]
    · rw [h.kept hcb]
      cases b with
      | nil => exact iff_of_true rfl ⟨List.not_mem_nil,rfl⟩
      | cons d b =>
        refine iff_of_false (List.cons_ne_nil _ _) ?_
        intro hlast
        rw [cstr_of_nul_free hlast.1] at hcb
        rw [List.getLast?_cons_cons] at hlast
        exact hcb (List.mem_of_getLast? hlast.2)

theorem replaced_replaceLoop (hc : c ≠ 0) {n : ℕ} (hn : s.length ≤ n) :
    Replaced c s (replaceLoop [c] n s) := by
  induction n generalizing s with
  | zero =>
    rw [List.length_eq_zero_iff.mp (Nat.le_zero.mp hn)]
    exact replaced_none List.not_mem_nil
  | succ n ih =>
    by_cases hmem : c ∈ cstr s
    · obtain ⟨a,b,hab,ha⟩ := List.eq_append_cons_of_mem hmem
      have hs : s = a ++ c::(b ++ behind s) := by
        rw [← List.cons_append,← List.append_assoc,← hab,cstr_append_behind]
      have h0 : 0 ∉ a := by
        intro h0
        exact nul_not_mem_cstr s (hab ▸ List.mem_append_left _ h0)
      rw [hs,List.length_append,List.length_cons] at hn
      rw [hs,replaceLoop,strstr_some ha h0]
      exact replaced_some hc ha h0 (ih (by omega))
    · rw [replaceLoop,strstr_none hc hmem]
      exact replaced_none hmem

/-- `ReplaceStr` takes a byte out of the C string, but not when it is the last of all. -/
theorem replaceStr_eq (hc : c ≠ 0) (s : Bytes) : replaceStr s [c] =
    if 0 ∉ s ∧ s.getLast? = some c then s else (cstr s).filter (· ≠ c) ++ behind s := by
  have hkeep (h : c ∉ cstr s) : (cstr s).filter (· ≠ c) ++ behind s = s := by
    rw [filter_ne_of_not_mem h,cstr_append_behind]
  rw [replaceStr]
  cases s with
  | nil => rfl
  | cons d s =>
    have hr := replaced_replaceLoop hc (le_refl (d::s).length)
    have hlen : ¬([c] = [] ∨ (d::s).length < [c].length) := by
      rw [List.length_cons,List.length_singleton]
      exact not_or.mpr ⟨List.cons_ne_nil _ _,by omega⟩
    rw [if_neg hlen]
    by_cases hmem : c ∈ cstr (d::s)
    · by_cases hend : 0 ∉ d::s ∧ (d::s).getLast? = some c
      · rw [if_pos hend]
        exact if_neg fun h => h.2 ((hr.at_end hmem).mpr hend)
      · rw [if_neg hend,← hr.append_eq]
        exact if_pos ⟨hr.moved hmem,fun h => hend ((hr.at_end hmem).mp h)⟩
    · have hstay : ¬((replaceLoop [c] (d::s).length (d::s)).2.length < (d::s).length) := by
        rw [hr.kept hmem]
        exact lt_irrefl _
      rw [hkeep hmem,ite_self]
      exact if_neg fun h => hstay h.1

theorem nul_not_mem_filter (p : Byte → Bool) (s : Bytes) : 0 ∉ (cstr s).filter p :=
  fun h => nul_not_mem_cstr s (List.mem_of_mem_filter h)

/-- The bytes of a line end are taken out of the C string. -/
theorem clean_eq (h : 0 ∈ s ∨ ¬EndsLine s) :
    clean s = ((cstr s).filter (· ≠ 10)).filter (· ≠ 13) ++ behind s := by
  have hfirst : replaceStr s [10] = (cstr s).filter (· ≠ 10) ++ behind s := by
    rw [replaceStr_eq (by decide),if_neg]
    intro hend
    exact h.elim hend.1 fun hline => hline (.inr hend.2)
  have hu := nul_not_mem_filter (· ≠ 10) s
  rw [clean,hfirst,replaceStr_eq (by decide),if_neg,cstr_append hu (cstr_behind s),
    behind_append hu (cstr_behind s)]
  rintro ⟨h0,hlast⟩
  rw [List.mem_append,not_or] at h0
  have hbehind : behind s = [] := by
    by_contra hne
    rw [behind_eq_nil_iff,not_not] at hne
    obtain ⟨r,hr⟩ := exists_of_nul_mem hne
    have htail : behind s = 0::r := List.append_cancel_left ((cstr_append_behind s).trans hr)
    rw [htail] at h0
    exact h0.2 List.mem_cons_self
  have hnul := (behind_eq_nil_iff s).mp hbehind
  rw [hbehind,List.append_nil,cstr_of_nul_free hnul] at hlast
  have hline := h.resolve_left hnul
  cases hs : s.getLast? with
  | none =>
    rw [List.getLast?_eq_none_iff.mp hs] at hlast
    cases hlast
  | some d =>
    have hd : d ≠ 10 := by
      rintro rfl
      exact hline (.inr hs)
    obtain ⟨t,rfl⟩ := List.getLast?_eq_some_iff.mp hs
    rw [List.filter_append,List.filter_cons_of_pos (by simpa using hd),List.filter_nil,
      List.getLast?_append_of_ne_nil _ (List.cons_ne_nil _ _)] at hlast
    apply hline
    rw [EndsLine,hs]
    exact .inl hlast

/-- The last byte of a text stays. -/
theorem clean_of_endsLine (h0 : 0 ∉ s) (h : EndsLine s) : 0 ∉ clean s ∧ ¬OneLine (clean s) := by
  have hbehind := (behind_eq_nil_iff s).mpr h0
  have hcstr := cstr_of_nul_free h0
  obtain hlast | hlast := h
  · have hfirst : replaceStr s [10] = s.filter (· ≠ 10) := by
      rw [replaceStr_eq (by decide),if_neg,hcstr,hbehind,List.append_nil]
      rw [hlast]
      exact fun h => absurd h.2 (by decide)
    have h0' : 0 ∉ s.filter (· ≠ 10) := fun h => h0 (List.mem_of_mem_filter h)
    obtain ⟨t,rfl⟩ := List.getLast?_eq_some_iff.mp hlast
    have hlast' : ((t ++ [13]).filter (· ≠ 10)).getLast? = some 13 := by
      rw [List.filter_append]
      exact List.getLast?_append_of_ne_nil _ (List.cons_ne_nil _ _)
    rw [clean,hfirst,replaceStr_eq (by decide),if_pos ⟨h0',hlast'⟩]
    exact ⟨h0',fun hone => hone.1 (List.mem_of_getLast? hlast')⟩
  · have hsame : replaceStr s [10] = s := by
      rw [replaceStr_eq (by decide),if_pos ⟨h0,hlast⟩]
    have hsecond : clean s = s.filter (· ≠ 13) := by
      rw [clean,hsame,replaceStr_eq (by decide),if_neg,hcstr,hbehind,List.append_nil]
      rw [hlast]
      exact fun h => absurd h.2 (by decide)
    rw [hsecond]
    refine ⟨fun h => h0 (List.mem_of_mem_filter h),fun hone => hone.2 ?_⟩
    exact List.mem_filter.mpr ⟨List.mem_of_getLast? hlast,rfl⟩

/-- A cleaned text is one line, unless it ends with a line end. -/
theorem oneLine_cstr_clean_iff (s : Bytes) : OneLine (cstr (clean s)) ↔ 0 ∈ s ∨ ¬EndsLine s := by
  constructor
  · intro h
    by_contra hnot
    rw [not_or,not_not] at hnot
    obtain ⟨h0,hone⟩ := clean_of_endsLine hnot.1 hnot.2
    rw [cstr_of_nul_free h0] at h
    exact hone h
  · intro h
    have hu : 0 ∉ ((cstr s).filter (· ≠ 10)).filter (· ≠ 13) :=
      fun h0 => nul_not_mem_filter (· ≠ 10) s (List.mem_of_mem_filter h0)
    rw [clean_eq h,cstr_append hu (cstr_behind s)]
    exact ⟨by simp,by simp⟩

theorem oneLine_append (a b : Bytes) : OneLine (a ++ b) ↔ OneLine a ∧ OneLine b := by
  simp only [OneLine,List.mem_append,not_or]
  exact and_and_and_comm

theorem not_endsLine_of_oneLine (h : OneLine s) : ¬EndsLine s := by
  rintro (hlast | hlast)
  · exact h.1 (List.mem_of_getLast? hlast)
  · exact h.2 (List.mem_of_getLast? hlast)

/-- As a whole it is one line if the bytes behind the NUL are, too. -/
theorem oneLine_clean_iff (s : Bytes) : OneLine (clean s) ↔ ¬EndsLine s ∧ OneLine (behind s) := by
  by_cases h0 : 0 ∈ s
  · have hbehind : OneLine (behind s) → ¬EndsLine s := by
      intro hone hends
      apply not_endsLine_of_oneLine hone
      have hne : behind s ≠ [] := fun hnil => (behind_eq_nil_iff s).mp hnil h0
      rw [← cstr_append_behind s] at hends
      rwa [EndsLine,List.getLast?_append_of_ne_nil _ hne] at hends
    rw [clean_eq (.inl h0),oneLine_append,and_iff_right_of_imp hbehind]
    exact and_iff_right ⟨by simp,by simp⟩
  · have hbehind := (behind_eq_nil_iff s).mpr h0
    by_cases hends : EndsLine s
    · exact iff_of_false (clean_of_endsLine h0 hends).2 fun h => h.1 hends
    · rw [clean_eq (.inr hends),hbehind,oneLine_append]
      exact iff_of_true ⟨⟨by simp,by simp⟩,by simp,by simp⟩ ⟨hends,by simp,by simp⟩

/-- A command has one line end, if there is none in its argument. -/
theorem lineEnds_command {before name after : Bytes} (hbefore : OneLine before) (hafter : OneLine after) :
    LineEnds 1 (before ++ name ++ (after ++ CRLF)) ↔ OneLine name := by
  have h13 : CRLF.count 13 = 1 := rfl
  have h10 : CRLF.count 10 = 1 := rfl
  rw [LineEnds,OneLine,← List.count_eq_zero,← List.count_eq_zero]
  simp only [List.count_append,h13,h10,List.count_eq_zero.mpr hbefore.1,List.count_eq_zero.mpr hbefore.2,
    List.count_eq_zero.mpr hafter.1,List.count_eq_zero.mpr hafter.2]
  omega

theorem lineEnds_ehlo (name : Bytes) : LineEnds 1 (Request.ehlo name).text ↔ OneLine name :=
  lineEnds_command (show OneLine (str "EHLO ") by decide) (show OneLine [] by decide)

theorem lineEnds_helo (name : Bytes) : LineEnds 1 (Request.helo name).text ↔ OneLine name :=
  lineEnds_command (show OneLine (str "HELO ") by decide) (show OneLine [] by decide)

theorem lineEnds_mail (name : Bytes) : LineEnds 1 (Request.mail name).text ↔ OneLine name := by
  rw [Request.text,List.append_assoc _ (str ">")]
  exact lineEnds_command (by decide) (by decide)

theorem lineEnds_rcpt (name : Bytes) : LineEnds 1 (Request.rcpt name).text ↔ OneLine name := by
  rw [Request.text,List.append_assoc _ (str ">")]
  exact lineEnds_command (by decide) (by decide)

/-- A command of one line. -/
def Request.Proper (r : Request) : Prop := r.Command → LineEnds 1 r.text

theorem proper_format {last request : Request} (h : LineEnds 1 request.text) :
    (last.format request).Proper := by
  intro _
  rwa [text_format]

variable {F : MailFiles} {o : MailOpts} {st st' : MailState} {replies : ℕ → Option ℤ}
  {requests : List Request}

/-- A recipient has been cut out of the list, and so has no line end. -/
def MailState.Tokened (st : MailState) : Prop :=
  st.proto = .qsRcpt → ∀ r, st.cur_buf = some r → OneLine r

theorem oneLine_token {r rest : Bytes} (h : strtok s = some (r,rest)) : OneLine r := by
  obtain ⟨-,hr,-⟩ := strtok_eq_some h
  exact ⟨fun hmem => absurd (hr 13 hmem) (by decide),fun hmem => absurd (hr 10 hmem) (by decide)⟩

/-- The recipient of the next RCPT is a token. -/
theorem tokened_control (h : control F o st = some st') : st'.Tokened := by
  intro hproto' r hr
  cases hproto : st.proto with
  | qsMail =>
    simp only [control,hproto] at h
    obtain ⟨st₁,hst₁,rfl⟩ := Option.map_eq_some_iff.mp h
    obtain ⟨rcpt,-,rfl⟩ := Option.map_eq_some_iff.mp hst₁
    have hcur : (match strtok rcpt with
        | none => { st with rcpt := rcpt, cur_buf := none, tokens := [] }
        | some (r,rest) =>
          { st with rcpt := rcpt.takeWhile rcptDelim ++ r, cur_buf := some r, tokens := rest } :
          MailState).cur_buf = some r := by
      split_ifs at hr
      · exact hr
      · exact hr
    cases htok : strtok rcpt with
    | none =>
      rw [htok] at hcur
      cases hcur
    | some x =>
      rw [htok] at hcur
      rw [← Option.some.inj hcur]
      exact oneLine_token htok
  | qsRcpt =>
    rw [control_rcpt hproto] at h
    have hcur : st.cleared.rcptNext.cur_buf = some r := by
      rw [← Option.some.inj h] at hr
      split_ifs at hr
      · exact hr
      · exact hr
    rw [MailState.rcptNext] at hcur
    cases htok : strtok st.cleared.tokens with
    | none =>
      rw [htok] at hcur
      cases hcur
    | some x =>
      rw [htok] at hcur
      rw [← Option.some.inj hcur]
      exact oneLine_token htok
  | qsEhlo | qsHelo | qsData =>
    simp only [control,hproto] at h
    rw [← Option.some.inj h] at hproto'
    split_ifs at hproto'
  | qsOpen | qsEOF | qsQuit | qsNone =>
    simp only [control,hproto] at h
    rw [← Option.some.inj h] at hproto'
    simp [hproto] at hproto'
  | qsBlock =>
    simp only [control,hproto] at h
    obtain ⟨st₁,hst₁,rfl⟩ := Option.map_eq_some_iff.mp h
    have hst : st₁.proto = .qsBlock := by
      split_ifs at hst₁
      · rw [← Option.some.inj hst₁]
      · obtain ⟨x,-,rfl⟩ := Option.map_eq_some_iff.mp hst₁
        rfl
    split_ifs at hproto'
    exact absurd (hst.symm.trans hproto') (by decide)

/-- What is formatted is a command of one line, if the name of the host and the sender are. -/
theorem proper_formatRequest (hhelo : OneLine (cstr o.helo)) (hfrom : OneLine o.from_)
    (hst : st.Tokened) (hrequest : st.request.Proper) : (formatRequest o st).Proper := by
  cases hproto : st.proto with
  | qsEhlo =>
    simp only [formatRequest,hproto]
    exact proper_format ((lineEnds_ehlo _).mpr hhelo)
  | qsHelo =>
    simp only [formatRequest,hproto]
    exact proper_format ((lineEnds_helo _).mpr hhelo)
  | qsMail =>
    simp only [formatRequest,hproto]
    exact fun _ => (lineEnds_mail _).mpr hfrom
  | qsRcpt =>
    cases hcur : st.cur_buf with
    | none =>
      simp only [formatRequest,hproto,hcur]
      exact hrequest
    | some r =>
      simp only [formatRequest,hproto,hcur]
      exact proper_format ((lineEnds_rcpt r).mpr (hst hproto r hcur))
  | qsData | qsBlock | qsEOF | qsQuit =>
    simp only [formatRequest,hproto]
    exact False.elim
  | qsNone | qsOpen =>
    simp only [formatRequest,hproto]
    exact hrequest

theorem rcptFirst_request (h : rcptFirst F st = some st') : st'.request = st.request := by
  obtain ⟨rcpt,-,rfl⟩ := Option.map_eq_some_iff.mp h
  cases strtok rcpt <;> rfl

theorem rcptNext_request (st : MailState) : st.rcptNext.request = st.request := by
  rw [MailState.rcptNext]
  cases strtok st.tokens <;> rfl

/-- The first half leaves the old request. -/
theorem control_request (h : control F o st = some st') : st'.request = st.request := by
  cases hproto : st.proto with
  | qsMail =>
    simp only [control,hproto] at h
    obtain ⟨st₁,hst₁,rfl⟩ := Option.map_eq_some_iff.mp h
    rw [← rcptFirst_request hst₁]
    split_ifs <;> rfl
  | qsRcpt =>
    rw [control_rcpt hproto] at h
    have hcleared : st.cleared.request = st.request := by rw [cleared_eq]
    rw [← Option.some.inj h,← hcleared,← rcptNext_request st.cleared]
    split_ifs <;> rfl
  | qsBlock =>
    simp only [control,hproto] at h
    obtain ⟨st₁,hst₁,rfl⟩ := Option.map_eq_some_iff.mp h
    have hst : st₁.request = st.request := by
      split_ifs at hst₁
      · rw [← Option.some.inj hst₁]
      · obtain ⟨x,-,rfl⟩ := Option.map_eq_some_iff.mp hst₁
        rfl
    rw [← hst]
    split_ifs <;> rfl
  | qsHelo | qsData =>
    simp only [control,hproto] at h
    rw [← Option.some.inj h]
    split_ifs <;> rfl
  | qsOpen | qsEhlo | qsEOF | qsQuit | qsNone =>
    simp only [control,hproto] at h
    rw [← Option.some.inj h]

theorem proper_smtpNext (hhelo : OneLine (cstr o.helo)) (hfrom : OneLine o.from_)
    (h : smtpNext F o st = some st') (hrequest : st.request.Proper) : st'.request.Proper := by
  obtain ⟨st₁,hst₁,rfl⟩ := Option.map_eq_some_iff.mp h
  apply proper_formatRequest hhelo hfrom (tokened_control hst₁)
  rw [control_request hst₁]
  exact hrequest

/-- One round sends at most the request that has been formatted, and goes on with it. -/
theorem turn_request {sent : List Request} {next : Option (MailState × (ℕ → Option ℤ))}
    (h : turn F o st replies = (sent,next)) :
    (∀ r ∈ sent, ∃ st', smtpNext F o st = some st' ∧ st'.request = r) ∧
      ∀ x, next = some x → ∃ st', smtpNext F o st = some st' ∧ st'.request = x.1.request := by
  rw [turn] at h
  cases hnext : smtpNext F o st with
  | none =>
    rw [hnext] at h
    cases h
    exact ⟨List.forall_mem_nil _,fun x hx => by cases hx⟩
  | some st₁ =>
    rw [hnext] at h
    dsimp only at h
    have hone : ∀ r ∈ [st₁.request], ∃ st', some st₁ = some st' ∧ st'.request = r := by
      intro r hr
      exact ⟨st₁,rfl,(List.mem_singleton.mp hr).symm⟩
    split_ifs at h
    · cases h
      exact ⟨List.forall_mem_nil _,fun x hx => by cases hx⟩
    · cases h
      refine ⟨hone,fun x hx => ⟨st₁,rfl,?_⟩⟩
      rw [← Option.some.inj hx]
    · cases hreply : replies 0 with
      | none =>
        rw [hreply] at h
        cases h
        exact ⟨hone,fun x hx => by cases hx⟩
      | some code =>
        rw [hreply] at h
        cases h
        exact ⟨hone,fun x hx => by cases hx⟩
    · cases hreply : replies 0 with
      | none =>
        rw [hreply] at h
        cases h
        exact ⟨hone,fun x hx => by cases hx⟩
      | some code =>
        rw [hreply] at h
        cases h
        refine ⟨hone,fun x hx => ⟨st₁,rfl,?_⟩⟩
        rw [← Option.some.inj hx]

/-- Every command of a session is one line, if the name of the host and the sender are. -/
theorem Session.proper (hhelo : OneLine (cstr o.helo)) (hfrom : OneLine o.from_)
    (h : Session F o st replies requests) (hrequest : st.request.Proper) :
    ∀ r ∈ requests, r.Proper := by
  induction h with
  | last h =>
    intro r hr
    obtain ⟨st',hst',rfl⟩ := (turn_request h).1 r hr
    exact proper_smtpNext hhelo hfrom hst' hrequest
  | more h _ ih =>
    intro r hr
    obtain hr | hr := List.mem_append.mp hr
    · obtain ⟨st',hst',rfl⟩ := (turn_request h).1 r hr
      exact proper_smtpNext hhelo hfrom hst' hrequest
    · obtain ⟨st',hst',heq⟩ := (turn_request h).2 _ rfl
      exact ih (heq ▸ proper_smtpNext hhelo hfrom hst' hrequest) r hr

/-- The bytes of line ends within the fields of a header. -/
def fieldEnds (c : Byte) (o : MailOpts) : ℕ :=
  (cstr o.subj).count c+(cstr o.from_).count c+(cstr o.to_).count c+(cstr o.reply).count c+
    o.other*(cstr o.reply).count c

theorem count_headLine {name value : Bytes} (hname : name.count c = 0) (hcrlf : CRLF.count c = 1) :
    (headLine name value).count c = (if value = [] then 0 else 1)+(cstr value).count c := by
  rw [headLine]
  split_ifs with hvalue
  · rw [hvalue]
    rfl
  · rw [List.count_append,List.count_append,hname,hcrlf]
    omega

theorem count_replicate_flatten (n : ℕ) (s : Bytes) :
    (List.replicate n s).flatten.count c = n*s.count c := by
  induction n with
  | zero => rw [Nat.zero_mul]; rfl
  | succ n ih =>
    rw [List.replicate_succ,List.flatten_cons,List.count_append,ih,Nat.succ_mul]
    exact Nat.add_comm _ _

/-- What a header adds to the bytes of line ends: its lines, and those within the fields. -/
theorem count_dataFirst (hc : c = 13 ∨ c = 10) (data : DataState) : (dataFirst o data).buf.count c =
    (if o.subj = [] then data.buf.count c else 0)+(headerLines o+fieldEnds c o) := by
  have hcrlf : CRLF.count c = 1 := by rcases hc with rfl | rfl <;> rfl
  have hnames : (str "Subject: ").count c = 0 ∧ (str "From: ").count c = 0 ∧
      (str "To: ").count c = 0 ∧ (str "Reply-To: ").count c = 0 := by
    rcases hc with rfl | rfl <;> decide
  have hsubj : (if o.subj = [] then data.buf else headLine (str "Subject: ") o.subj).count c =
      (if o.subj = [] then data.buf.count c else 0)+
        ((if o.subj = [] then 0 else 1)+(cstr o.subj).count c) := by
    split_ifs with hnil
    · rw [hnil]
      rfl
    · rw [count_headLine hnames.1 hcrlf,if_neg hnil]
      omega
  have hother : (List.replicate o.other (str "Reply-To: " ++ cstr o.reply ++ CRLF)).flatten.count c =
      o.other+o.other*(cstr o.reply).count c := by
    rw [count_replicate_flatten,List.count_append,List.count_append,hnames.2.2.2,hcrlf,Nat.zero_add,
      Nat.mul_add,Nat.mul_one]
    exact Nat.add_comm _ _
  have hmulti : (str "MIME-Version: 1.0" ++ CRLF ++ str "Content-Type: multipart/mixed; boundary=\"" ++
      Q_BOUND ++ str "\"" ++ CRLF).count c = 2 := by
    rcases hc with rfl | rfl <;> decide
  have hhtml : (str "Content-Type: text/html; charset=us-ascii" ++ CRLF).count c = 1 := by
    rcases hc with rfl | rfl <;> decide
  have hplain : (str "Content-Type: text/plain; charset=us-ascii" ++ CRLF).count c = 1 := by
    rcases hc with rfl | rfl <;> decide
  have hkind : (if decide (1 < o.body.length) = true then
        str "MIME-Version: 1.0" ++ CRLF ++ str "Content-Type: multipart/mixed; boundary=\"" ++
          Q_BOUND ++ str "\"" ++ CRLF
      else if SameName ((cstr (o.body.getD data.bodyn [])).take 6) (str "'<html") then
        str "Content-Type: text/html; charset=us-ascii" ++ CRLF
      else str "Content-Type: text/plain; charset=us-ascii" ++ CRLF).count c =
      if 1 < o.body.length then 2 else 1 := by
    simp only [decide_eq_true_eq]
    split_ifs
    · exact hmulti
    · exact hhtml
    · exact hplain
  rw [dataFirst]
  dsimp only
  rw [List.count_append,List.count_append,List.count_append,List.count_append,List.count_append,
    List.count_append,hsubj,count_headLine hnames.2.1 hcrlf,count_headLine hnames.2.2.1 hcrlf,
    count_headLine hnames.2.2.2 hcrlf,hother,hkind,hcrlf,headerLines,fieldEnds]
  omega

theorem count_headed (hc : c = 13 ∨ c = 10) (n : ℕ) : (headed o n).buf.count c =
    (if o.subj = [] then n+1 else 1)*(headerLines o+fieldEnds c o) := by
  induction n with
  | zero =>
    rw [headed,count_dataFirst hc]
    split_ifs
    · rw [Nat.one_mul]
      exact Nat.zero_add _
    · rw [Nat.one_mul,Nat.zero_add]
  | succ n ih =>
    rw [headed,count_dataFirst hc,ih]
    split_ifs
    · rw [Nat.succ_mul (n+1)]
    · rw [Nat.one_mul,Nat.zero_add]

theorem fieldEnds_eq_zero_iff (hother : o.other = 0) (hreply : o.reply = []) :
    fieldEnds 13 o = 0 ∧ fieldEnds 10 o = 0 ↔
      OneLine (cstr o.subj) ∧ OneLine (cstr o.from_) ∧ OneLine (cstr o.to_) := by
  have hnil (c : Byte) : (cstr []).count c = 0 := rfl
  simp only [fieldEnds,hother,hreply,hnil,OneLine,← List.count_eq_zero]
  omega

/-- The header of a mail has its own line ends only, if there are none in its fields. -/
theorem lineEnds_headed_iff (hother : o.other = 0) (hreply : o.reply = []) :
    (∀ n, LineEnds ((if o.subj = [] then n+1 else 1)*headerLines o) (headed o n).buf) ↔
      OneLine (cstr o.subj) ∧ OneLine (cstr o.from_) ∧ OneLine (cstr o.to_) := by
  rw [← fieldEnds_eq_zero_iff hother hreply]
  constructor
  · intro h
    have hzero := h 0
    rw [LineEnds,count_headed (.inl rfl),count_headed (.inr rfl)] at hzero
    simp only [Nat.zero_add,ite_self,Nat.one_mul] at hzero
    omega
  · intro h n
    rw [LineEnds,count_headed (.inl rfl),count_headed (.inr rfl),h.1,h.2]
    exact ⟨rfl,rfl⟩

/-- The first two commands have been sent, and then the server is gone. -/
theorem exists_session_ehlo_mail (F : MailFiles) (o : MailOpts) : ∃ greeting : Request,
    greeting.text = (Request.ehlo (cstr o.helo)).text ∧ greeting.Command ∧
      Session F o o.open (fun n => if n = 0 then some 250 else none) [greeting,.mail o.from_] := by
  have hopen : smtpNext F o o.open = some (o.open.withEhlo o) := rfl
  have hmail : smtpNext F o { o.open.withEhlo o with code := 250 } =
      some ({ o.open.withEhlo o with code := 250 }.withFirstMail o) := rfl
  refine ⟨(o.open.withEhlo o).request,text_format _ _,?_,?_⟩
  · rw [MailState.withEhlo,Request.format]
    split_ifs <;> trivial
  · apply session_answered hopen (Nat.zero_le _) ⟨(by rintro ⟨⟩),(by rintro ⟨⟩),(by rintro ⟨⟩)⟩
    apply answered_of_some rfl
    exact session_answered hmail (Nat.zero_le _) ⟨(by rintro ⟨⟩),(by rintro ⟨⟩),(by rintro ⟨⟩)⟩ (answered_of_none rfl)

/-- In the sessions of one mail there is no line end too many, just if its fields have none. -/
theorem noInjection_filled_iff (hother : o.other = 0) (hreply : o.reply = []) :
    ((∀ F replies requests, Session F o o.open replies requests →
        ∀ r ∈ requests, r.Command → LineEnds 1 r.text) ∧
      ∀ n, LineEnds ((if o.subj = [] then n+1 else 1)*headerLines o) (headed o n).buf) ↔
    OneLine (cstr o.helo) ∧ OneLine o.from_ ∧ OneLine (cstr o.subj) ∧ OneLine (cstr o.from_) ∧
      OneLine (cstr o.to_) := by
  rw [lineEnds_headed_iff hother hreply]
  constructor
  · intro h
    obtain ⟨greeting,htext,hcommand,hsession⟩ := exists_session_ehlo_mail ⟨fun _ => none,[]⟩ o
    have hall := h.1 _ _ _ hsession
    have hehlo := hall greeting List.mem_cons_self hcommand
    have hmail := hall (.mail o.from_) (List.mem_cons_of_mem _ List.mem_cons_self) trivial
    rw [htext] at hehlo
    exact ⟨(lineEnds_ehlo _).mp hehlo,(lineEnds_mail _).mp hmail,h.2⟩
  · intro h
    refine ⟨?_,h.2.2⟩
    intro F replies requests hsession r hr
    exact hsession.proper h.1 h.2.1 False.elim r hr

theorem mem_rcptTokens_ne_nil {tok : Bytes} (h : tok ∈ rcptTokens s) : tok ≠ [] := by
  simpa using (List.mem_filter.mp h).2

theorem oneLine_cstr_of_oneLine (h : OneLine s) : OneLine (cstr s) := by
  rw [← cstr_append_behind s,oneLine_append] at h
  exact h.1

/-- The mail for one recipient, as it is sent. -/
def mailFor (args : List Bytes) (tok : Bytes) : MailOpts :=
  { smtp := args.getD 0 [], helo := args.getD 0 [], rcpt := tok, to_ := tok
    from_ := clean (args.getD 2 [])
    subj := clean (args.getD 4 [])
    body := (T_SQ::args.getD 5 [])::(args.drop 6).takeWhile (· ≠ []) }

theorem noInjection_iff_mailFor {args : List Bytes} (hargs : 4 ≤ args.length)
    (hhost : args.getD 0 [] ≠ []) : NoInjection args ↔ ∀ tok ∈ rcptTokens (args.getD 3 []),
      OneLine (cstr (args.getD 0 [])) ∧ OneLine (clean (args.getD 2 [])) ∧
        OneLine (cstr (clean (args.getD 4 []))) ∧ OneLine (cstr (clean (args.getD 2 []))) ∧
        OneLine (cstr tok) := by
  have hone (tok : Bytes) := noInjection_filled_iff (o := mailFor args tok) rfl rfl
  rw [NoInjection,evalSmtpMail,if_neg (not_lt.mpr hargs),List.forall_mem_map]
  refine forall₂_congr fun tok htok => ?_
  refine Iff.trans ?_ (hone tok)
  have hne := mem_rcptTokens_ne_nil htok
  have hfilled : ({ mailFor args tok with helo := [] } : MailOpts).filled = some (mailFor args tok) := by
    rw [List.getD_eq_getElem?_getD] at hhost
    simp [MailOpts.filled,mailFor,hne,hhost]
  constructor
  · intro h
    exact h _ hfilled
  · intro h o' ho'
    cases hfilled.symm.trans ho'
    exact h

/-- For all arguments: no line end comes out of the host, the sender, the recipients or the subject,
just if there is nothing to send, or else none is in the host, none in a recipient, the sender does not
end with one and has none behind a NUL, and the subject does not end with one or has a NUL. -/
theorem noInjection_iff (args : List Bytes) : NoInjection args ↔
    (4 ≤ args.length → args.getD 0 [] ≠ [] → rcptTokens (args.getD 3 []) ≠ [] →
      OneLine (cstr (args.getD 0 [])) ∧
      (∀ tok ∈ rcptTokens (args.getD 3 []), OneLine (cstr tok)) ∧
      (¬EndsLine (args.getD 2 []) ∧ OneLine (behind (args.getD 2 []))) ∧
      (0 ∈ args.getD 4 [] ∨ ¬EndsLine (args.getD 4 []))) := by
  rw [← oneLine_clean_iff,← oneLine_cstr_clean_iff]
  by_cases hargs : 4 ≤ args.length
  · by_cases hhost : args.getD 0 [] = []
    · refine iff_of_true ?_ fun _ h => absurd hhost h
      intro o ho o' hfilled
      rw [evalSmtpMail,if_neg (not_lt.mpr hargs)] at ho
      obtain ⟨tok,-,rfl⟩ := List.mem_map.mp ho
      rw [MailOpts.filled,if_pos (.inl hhost)] at hfilled
      cases hfilled
    · rw [noInjection_iff_mailFor hargs hhost]
      constructor
      · intro h _ _ htokens
        obtain ⟨tok,htok⟩ := List.exists_mem_of_ne_nil _ htokens
        obtain ⟨hhelo,hfrom,hsubj,-,-⟩ := h tok htok
        exact ⟨hhelo,fun tok htok => (h tok htok).2.2.2.2,hfrom,hsubj⟩
      · intro h tok htok
        obtain ⟨hhelo,hto,hfrom,hsubj⟩ := h hargs hhost (List.ne_nil_of_mem htok)
        exact ⟨hhelo,hfrom,hsubj,oneLine_cstr_of_oneLine hfrom,hto tok htok⟩
  · refine iff_of_true ?_ fun h => absurd h hargs
    rw [NoInjection,evalSmtpMail,if_pos (not_le.mp hargs)]
    exact nofun

/-- A subject that ends with a line end keeps all its line feeds: a header line more. -/
theorem subject_injects : ¬NoInjection
    [str "h",[],str "me",str "you",str "a" ++ [10] ++ str "Bcc: x" ++ [10]] := by
  intro h
  have hmail := ((noInjection_iff_mailFor (by decide) (by decide)).mp h) (str "you")
    (by decide)
  exact absurd hmail.2.2.1 (by decide)

end Smx
