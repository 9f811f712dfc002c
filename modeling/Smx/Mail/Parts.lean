import Smx.Mail.Data

/-! Messages of several parts: which lists of bodies are sent as they should be. -/
namespace Smx

/-- A body that is the text itself, and no file. -/
def Quoted (b : Bytes) : Prop := b.head? = some T_SQ

instance (b : Bytes) : Decidable (Quoted b) := inferInstanceAs (Decidable (_ = _))

/-- A body that can be sent: a quoted text, or the name of a file that can be read. -/
def Sendable (F : MailFiles) (b : Bytes) : Prop :=
  Quoted b ∨ cstr b ≠ [] ∧ (F.fopen (cstr b)).isSome

/-- The content of a file, as it stands in a part. -/
def encoded (enc : Bool) (content : Bytes) : Bytes := if enc then mime64 content else content

/-- The part of a body: a delimiter with the header of the part, and the content. -/
def part (F : MailFiles) (b : Bytes) : Bytes :=
  if Quoted b then textHead ++ b.tail
  else
    match multiHead (cstr b),F.fopen (cstr b) with
    | some (h,enc),some content => h ++ encoded enc content
    | _,_ => []

/-- Every way to send the bodies: the header announces the boundary, the parts follow one after the
other, and a closing delimiter. -/
def PartsRight (o : MailOpts) : Prop :=
  (∃ fields, (dataFirst o {}).buf = fields ++ str "MIME-Version: 1.0" ++ CRLF ++
    str "Content-Type: multipart/mixed; boundary=\"" ++ Q_BOUND ++ str "\"" ++ CRLF ++ CRLF) ∧
  ∀ F, (∀ b ∈ o.body, Sendable F b) →
    ∃ bs, Yields F o (dataFirst o {}) bs ∧ bs.flatten = o.body.flatMap (part F) ++ multiDelim true

/-- Files, and all with a dot in their names. -/
def FilesOnly (bodies : List Bytes) : Prop := ∀ b ∈ bodies, ¬Quoted b ∧ ch '.' ∈ cstr b

/-- First texts without a NUL, then at least one file, and after it no text. -/
def TextsThenFiles : List Bytes → Prop
  | [] => False
  | b::bodies => if Quoted b then 0 ∉ b ∧ TextsThenFiles bodies else FilesOnly (b::bodies)

theorem multiHead_eq_none_iff (file : Bytes) : multiHead file = none ↔ ch '.' ∉ file := by
  rw [multiHead,Option.map_eq_none_iff,strrchr]
  split_ifs with h
  · exact iff_of_false nofun (fun hn => hn h)
  · exact iff_of_true rfl h

theorem textHead_cons : ∃ rest, textHead = 13::rest := ⟨_,rfl⟩

theorem multiHead_cons {file : Bytes} {h : Bytes × Bool} (hh : multiHead file = some h) :
    ∃ rest, h.1 = 13::rest := by
  obtain ⟨ext,-,rfl⟩ := Option.map_eq_some_iff.mp hh
  split_ifs
  · exact textHead_cons
  · exact ⟨_,rfl⟩

theorem cstr_of_quoted {b : Bytes} (h : Quoted b) : cstr b = T_SQ::cstr b.tail := by
  obtain ⟨r,rfl⟩ : ∃ r, b = T_SQ::r := by
    cases b with
    | nil => cases h
    | cons c r => exact ⟨r,by rw [Option.some.inj h]⟩
  rfl

theorem cstr_of_not_quoted {b : Bytes} (h : ¬Quoted b) (hne : cstr b ≠ []) :
    ∃ c r, cstr b = c::r ∧ c ≠ T_SQ := by
  obtain ⟨c,r,hcr⟩ := List.exists_cons_of_ne_nil hne
  refine ⟨c,r,hcr,?_⟩
  rintro rfl
  apply h
  cases b with
  | nil => cases hcr
  | cons d b =>
    rw [cstr,List.takeWhile_cons] at hcr
    split_ifs at hcr
    exact congrArg some (List.cons.inj hcr).1

variable {F : MailFiles} {o : MailOpts} {st : DataState}

theorem encoded_nil (enc : Bool) : encoded enc [] = [] := by
  cases enc
  · rfl
  · exact mime64_nil

theorem encoded_ne_nil (enc : Bool) {content : Bytes} (h : content ≠ []) :
    encoded enc content ≠ [] := by
  cases enc with
  | false => exact h
  | true =>
    rw [encoded,if_pos rfl]
    by_cases hlen : 48 < content.length
    · rw [mime64_long hlen]
      exact List.append_ne_nil_of_left_ne_nil (List.append_ne_nil_of_right_ne_nil _ (by decide)) _
    · rw [mime64_short h (not_lt.mp hlen)]
      exact List.append_ne_nil_of_right_ne_nil _ (by decide)

/-- Chunk by chunk a file is encoded as it is in one go. -/
theorem encoded_chunk (enc : Bool) (content : Bytes) :
    encoded enc (content.take Q_CHUNK) ++ encoded enc (content.drop Q_CHUNK) = encoded enc content := by
  cases enc with
  | false => exact List.take_append_drop _ _
  | true =>
    rw [encoded,encoded,encoded,if_pos rfl,if_pos rfl,if_pos rfl]
    by_cases hlen : Q_CHUNK ≤ content.length
    · have hdvd : 48 ∣ (content.take Q_CHUNK).length := by
        rw [List.length_take_of_le hlen]
        decide
      rw [← mime64_append hdvd,List.take_append_drop]
    · have hle : content.length ≤ Q_CHUNK := (not_le.mp hlen).le
      rw [List.take_of_length_le hle,List.drop_eq_nil_of_le hle,mime64_nil,List.append_nil]

/-- The bodies from the one that is looked at on. -/
structure At (o : MailOpts) (st : DataState) (bodies : List Bytes) : Prop where
  multi : st.multi = true
  drop_eq : o.body.drop st.bodyn = bodies
  bodyc : st.bodyc = cstr (bodies.headD [])

theorem At.next {b : Bytes} {bodies : List Bytes} (h : At o st (b::bodies)) :
    At o (st.next o) bodies := by
  have hdrop : o.body.drop (st.bodyn+1) = bodies := by
    rw [← List.drop_drop,h.drop_eq]
    rfl
  refine ⟨h.multi,hdrop,?_⟩
  rw [DataState.next,← hdrop,List.headD_eq_head?_getD,List.head?_drop,List.getD_eq_getElem?_getD]

/-- A file has been opened, and the header of its part is in the buffer. -/
def DataState.opened (st : DataState) (file : Bytes) (h : Bytes × Bool) : DataState :=
  { st with fbody := some file, enc := h.2, buf := h.1 }

/-- A chunk of the file is in the buffer. -/
def DataState.chunked (st : DataState) (content : Bytes) : DataState :=
  { st with fbody := some (content.drop Q_CHUNK), buf := encoded st.enc (content.take Q_CHUNK) }

/-- A text is in the buffer. -/
def DataState.texted (st : DataState) (buf : Bytes) : DataState := { st with enc := false, buf := buf }

theorem opened_enc (file : Bytes) (h : Bytes × Bool) : (st.opened file h).enc = h.2 := rfl

theorem chunked_enc (content : Bytes) : (st.chunked content).enc = st.enc := rfl

theorem At.opened {bodies : List Bytes} (h : At o st bodies) (file : Bytes) (head : Bytes × Bool) :
    At o (st.opened file head) bodies :=
  ⟨h.multi,h.drop_eq,h.bodyc⟩

theorem At.chunked {bodies : List Bytes} (h : At o st bodies) (content : Bytes) :
    At o (st.chunked content) bodies :=
  ⟨h.multi,h.drop_eq,h.bodyc⟩

theorem At.texted {bodies : List Bytes} (h : At o st bodies) (buf : Bytes) :
    At o (st.texted buf) bodies :=
  ⟨h.multi,h.drop_eq,h.bodyc⟩

/-- After the last body nothing is sent any more. -/
theorem yields_of_end (h : st.bodyc = []) : Yields F o st [] :=
  .stop (show dataNext F o st = some (none,st) by rw [dataNext,h])

theorem dataNext_text {b : Bytes} {bodies : List Bytes} (h : At o st (b::bodies)) (hq : Quoted b) :
    dataNext F o st = some (some (textHead ++ cstr b.tail),
      (st.next o).texted (textHead ++ cstr b.tail)) := by
  have hc : st.bodyc = T_SQ::cstr b.tail := h.bodyc.trans (cstr_of_quoted hq)
  have hmulti : (st.next o).multi = true := h.multi
  have hne : textHead ++ cstr b.tail ≠ [] := by
    obtain ⟨rest,hrest⟩ := textHead_cons
    rw [hrest]
    exact List.cons_ne_nil _ _
  rw [dataNext,hc]
  simp only [if_true,hmulti]
  rw [give_of_ne_nil hne,DataState.texted,← hmulti]

/-- A file is opened, and the header of its part is sent. -/
theorem dataNext_open {b : Bytes} {bodies : List Bytes} (h : At o st (b::bodies)) (hq : ¬Quoted b)
    (hne : cstr b ≠ []) (hclosed : st.fbody = none) : dataNext F o st =
      (F.fopen (cstr b)).bind fun file => (multiHead (cstr b)).map fun h =>
        (some h.1,st.opened file h) := by
  obtain ⟨c,r,hcr,hc⟩ := cstr_of_not_quoted hq hne
  have hbodyc : st.bodyc = c::r := h.bodyc.trans hcr
  rw [dataNext,hbodyc]
  simp only [if_neg hc,hclosed,h.multi,Bool.true_eq_false,false_and,if_false,if_true]
  rw [hcr]
  refine Option.bind_congr fun file _ => ?_
  cases hh : multiHead (c::r) with
  | none => rfl
  | some head =>
    obtain ⟨rest,hrest⟩ := multiHead_cons hh
    rw [Option.map_some,Option.map_some,give_of_ne_nil (by rw [hrest]; exact List.cons_ne_nil _ _),
      DataState.opened,h.multi,hbodyc]

/-- At the end of a file the next one is opened, or the message is closed. -/
theorem dataNext_eof {b : Bytes} {bodies : List Bytes} (h : At o st (b::bodies)) (hq : ¬Quoted b)
    (hne : cstr b ≠ []) (heof : st.fbody = some []) : dataNext F o st =
      if (st.next o).bodyc = [] then
        some (some (multiDelim true),{ st.next o with buf := multiDelim true })
      else
        (F.fopen (st.next o).bodyc).bind fun file => (multiHead (st.next o).bodyc).map fun h =>
          (some h.1,(st.next o).opened file h) := by
  obtain ⟨c,r,hcr,hc⟩ := cstr_of_not_quoted hq hne
  have hbodyc : st.bodyc = c::r := h.bodyc.trans hcr
  have hsame : ({ st with fbody := some [] } : DataState) = st := by rw [← heof]
  rw [dataNext,hbodyc]
  simp only [if_neg hc,heof]
  rw [dataRead,if_pos rfl,hsame]
  simp only [h.multi,if_true]
  refine if_congr Iff.rfl rfl (Option.bind_congr fun file _ => ?_)
  cases hh : multiHead (st.next o).bodyc with
  | none => rfl
  | some head =>
    obtain ⟨rest,hrest⟩ := multiHead_cons hh
    rw [Option.map_some,Option.map_some,give_of_ne_nil (by rw [hrest]; exact List.cons_ne_nil _ _),
      DataState.opened]

/-- From an open file a chunk is read and sent. -/
theorem dataNext_read {b : Bytes} {bodies : List Bytes} {content : Bytes}
    (h : At o st (b::bodies)) (hq : ¬Quoted b) (hne : cstr b ≠ [])
    (hfile : st.fbody = some content) (hcontent : content ≠ []) : dataNext F o st =
      some (some (encoded st.enc (content.take Q_CHUNK)),
        st.chunked content) := by
  obtain ⟨c,r,hcr,hc⟩ := cstr_of_not_quoted hq hne
  have hbodyc : st.bodyc = c::r := h.bodyc.trans hcr
  have hne' : encoded st.enc (content.take Q_CHUNK) ≠ [] := by
    apply encoded_ne_nil
    rw [ne_eq,List.take_eq_nil_iff]
    exact not_or.mpr ⟨by decide,hcontent⟩
  rw [dataNext,hbodyc]
  simp only [if_neg hc,hfile]
  rw [dataRead,if_neg hcontent]
  exact congrArg some (give_of_ne_nil hne')

/-- The rest of a file is sent, and then what follows it. -/
theorem exists_yields_read {b : Bytes} {bodies : List Bytes} {out content : Bytes}
    (hq : ¬Quoted b) (hne : cstr b ≠ [])
    (hend : ∀ st, At o st (b::bodies) → st.fbody = some [] → ∃ bs, Yields F o st bs ∧ bs.flatten = out)
    (h : At o st (b::bodies)) (hfile : st.fbody = some content) :
    ∃ bs, Yields F o st bs ∧ bs.flatten = encoded st.enc content ++ out := by
  induction hn : content.length using Nat.strong_induction_on generalizing content st with
  | _ n ih =>
    subst hn
    by_cases hcontent : content = []
    · rw [hcontent,encoded_nil]
      exact hend st h (hcontent ▸ hfile)
    · have hlt : (content.drop Q_CHUNK).length < content.length := by
        have hpos := List.length_pos_iff.mpr hcontent
        rw [List.length_drop,Q_CHUNK]
        omega
      obtain ⟨bs,hbs,hflat⟩ := ih _ hlt (h.chunked content) rfl rfl
      refine ⟨_,.more (dataNext_read h hq hne hfile hcontent) hbs,?_⟩
      rw [List.flatten_cons,hflat,chunked_enc,← List.append_assoc,encoded_chunk]

theorem part_of_quoted {b : Bytes} (hq : Quoted b) : part F b = textHead ++ b.tail := if_pos hq

theorem part_of_file {b content : Bytes} {h : Bytes × Bool} (hq : ¬Quoted b)
    (hh : multiHead (cstr b) = some h) (hf : F.fopen (cstr b) = some content) :
    part F b = h.1 ++ encoded h.2 content := by
  rw [part,if_neg hq,hh,hf]

theorem FilesOnly.head {b : Bytes} {bodies : List Bytes} (h : FilesOnly (b::bodies)) :
    ¬Quoted b ∧ cstr b ≠ [] ∧ ∃ head, multiHead (cstr b) = some head := by
  obtain ⟨hq,hdot⟩ := h b List.mem_cons_self
  refine ⟨hq,List.ne_nil_of_mem hdot,Option.ne_none_iff_exists'.mp ?_⟩
  intro hnone
  exact (multiHead_eq_none_iff _).mp hnone hdot

/-- What follows a file: the parts of the other files, and the closing delimiter. -/
theorem exists_yields_files {bodies : List Bytes} {b : Bytes} (hfiles : FilesOnly (b::bodies))
    (hsend : ∀ b ∈ bodies, Sendable F b) (h : At o st (b::bodies)) (heof : st.fbody = some []) :
    ∃ bs, Yields F o st bs ∧ bs.flatten = bodies.flatMap (part F) ++ multiDelim true := by
  induction bodies generalizing b st with
  | nil =>
    obtain ⟨hq,hne,-⟩ := hfiles.head
    have hnil : (st.next o).bodyc = [] := h.next.bodyc
    have hlast := dataNext_eof (F := F) h hq hne heof
    rw [if_pos hnil] at hlast
    exact ⟨[multiDelim true],.more hlast (yields_of_end hnil),rfl⟩
  | cons b' bodies ih =>
    obtain ⟨hq,hne,-⟩ := hfiles.head
    have hfiles' : FilesOnly (b'::bodies) := List.forall_mem_of_forall_mem_cons hfiles
    obtain ⟨hq',hne',head,hhead⟩ := hfiles'.head
    obtain ⟨content,hcontent⟩ : ∃ content, F.fopen (cstr b') = some content :=
      Option.isSome_iff_exists.mp ((hsend b' List.mem_cons_self).resolve_left hq').2
    have hopen := dataNext_eof (F := F) h hq hne heof
    have hbodyc : (st.next o).bodyc = cstr b' := h.next.bodyc
    rw [hbodyc,if_neg hne',hcontent,hhead] at hopen
    obtain ⟨bs,hbs,hflat⟩ := exists_yields_read hq' hne'
      (fun st' h' heof' => ih hfiles' (List.forall_mem_of_forall_mem_cons hsend) h' heof')
      (h.next.opened content head) rfl
    refine ⟨_,.more hopen hbs,?_⟩
    rw [List.flatten_cons,hflat,opened_enc,List.flatMap_cons,part_of_file hq' hhead hcontent]
    simp only [List.append_assoc]

/-- Texts are sent one by one; the first file is opened and sent with all that follows it. -/
theorem exists_yields_texts {bodies : List Bytes} (hb : TextsThenFiles bodies)
    (hsend : ∀ b ∈ bodies, Sendable F b) (h : At o st bodies) (hclosed : st.fbody = none) :
    ∃ bs, Yields F o st bs ∧ bs.flatten = bodies.flatMap (part F) ++ multiDelim true := by
  induction bodies generalizing st with
  | nil => exact hb.elim
  | cons b bodies ih =>
    rw [TextsThenFiles] at hb
    split_ifs at hb with hq
    · obtain ⟨bs,hbs,hflat⟩ := ih hb.2 (List.forall_mem_of_forall_mem_cons hsend)
        (h.next.texted (textHead ++ cstr b.tail)) hclosed
      have hplain : cstr b.tail = b.tail := cstr_of_nul_free (fun h0 => hb.1 (List.mem_of_mem_tail h0))
      refine ⟨_,.more (dataNext_text h hq) hbs,?_⟩
      rw [List.flatten_cons,hflat,List.flatMap_cons,part_of_quoted hq,hplain]
      simp only [List.append_assoc]
    · obtain ⟨-,hne,head,hhead⟩ := hb.head
      obtain ⟨content,hcontent⟩ : ∃ content, F.fopen (cstr b) = some content :=
        Option.isSome_iff_exists.mp ((hsend b List.mem_cons_self).resolve_left hq).2
      have hopen := dataNext_open (F := F) h hq hne hclosed
      rw [hcontent,hhead] at hopen
      obtain ⟨bs,hbs,hflat⟩ := exists_yields_read hq hne
        (fun st' h' heof' =>
          exists_yields_files hb (List.forall_mem_of_forall_mem_cons hsend) h' heof')
        (h.opened content head) rfl
      refine ⟨_,.more hopen hbs,?_⟩
      rw [List.flatten_cons,hflat,opened_enc,List.flatMap_cons,part_of_file hq hhead hcontent]
      simp only [List.append_assoc]

/-- Every file can be read, and is empty; but no name begins with an apostrophe. -/
def emptyFiles : MailFiles where
  fopen name := if name = [] ∨ Quoted name then none else some []
  stdin := []

/-- A body of a mail: a quoted text, or a name. -/
def MailBody (b : Bytes) : Prop := Quoted b ∨ cstr b ≠ []

theorem quoted_cstr {b : Bytes} (hq : Quoted b) : Quoted (cstr b) := by
  rw [cstr_of_quoted hq]
  rfl

theorem fopen_emptyFiles {b : Bytes} (hq : ¬Quoted b) (hne : cstr b ≠ []) :
    emptyFiles.fopen (cstr b) = some [] := by
  obtain ⟨c,r,hcr,hc⟩ := cstr_of_not_quoted hq hne
  refine if_neg (not_or.mpr ⟨hne,?_⟩)
  intro h
  rw [hcr] at h
  exact hc (Option.some.inj h)

theorem sendable_emptyFiles {b : Bytes} (hb : MailBody b) : Sendable emptyFiles b := by
  by_cases hq : Quoted b
  · exact .inl hq
  · have hne := hb.resolve_left hq
    exact .inr ⟨hne,by rw [fopen_emptyFiles hq hne]; rfl⟩

theorem Yields.ne_none {bs : List Bytes} (h : Yields F o st bs) : dataNext F o st ≠ none := by
  cases h with
  | stop h => rw [h]; exact nofun
  | more h _ => rw [h]; exact nofun

/-- A block that is given is the first, and the rest comes from the state after it. -/
theorem Yields.tail {st' : DataState} {b : Bytes} {bs : List Bytes} (h : Yields F o st bs)
    (hstep : dataNext F o st = some (some b,st')) : ∃ bs', bs = b::bs' ∧ Yields F o st' bs' := by
  cases h with
  | stop h => cases h.symm.trans hstep
  | more h hrest =>
    cases h.symm.trans hstep
    exact ⟨_,rfl,hrest⟩

theorem Yields.eq_nil {bs : List Bytes} (h : Yields F o st bs) (hstep : dataNext F o st = some (none,st)) :
    bs = [] := by
  cases h with
  | stop _ => rfl
  | more h _ => cases h.symm.trans hstep

/-- Behind a file that has been sent there are files only. -/
theorem Yields.filesOnly {bodies : List Bytes} {b : Bytes} {bs : List Bytes}
    (h : Yields emptyFiles o st bs) (hat : At o st (b::bodies)) (hq : ¬Quoted b) (hne : cstr b ≠ [])
    (hbodies : ∀ b ∈ bodies, MailBody b) (heof : st.fbody = some []) : FilesOnly bodies := by
  induction bodies generalizing b st bs with
  | nil => exact nofun
  | cons b' bodies ih =>
    have hstep := dataNext_eof (F := emptyFiles) hat hq hne heof
    have hbodyc : (st.next o).bodyc = cstr b' := hat.next.bodyc
    rw [hbodyc] at hstep
    have hnone := h.ne_none
    by_cases hq' : Quoted b'
    · have hfail : emptyFiles.fopen (cstr b') = none := if_pos (.inr (quoted_cstr hq'))
      have hne' : cstr b' ≠ [] := by
        rw [cstr_of_quoted hq']
        exact List.cons_ne_nil _ _
      rw [if_neg hne',hfail] at hstep
      exact absurd hstep hnone
    · have hne' := (hbodies b' List.mem_cons_self).resolve_left hq'
      rw [if_neg hne',fopen_emptyFiles hq' hne'] at hstep
      cases hhead : multiHead (cstr b') with
      | none =>
        rw [hhead] at hstep
        exact absurd hstep hnone
      | some head =>
        rw [hhead] at hstep
        obtain ⟨bs',-,h'⟩ := h.tail hstep
        refine List.forall_mem_cons.mpr ⟨⟨hq',?_⟩,?_⟩
        · by_contra hdot
          cases hhead.symm.trans ((multiHead_eq_none_iff _).mpr hdot)
        · exact ih h' (hat.next.opened [] head) hq' hne' (List.forall_mem_of_forall_mem_cons hbodies) rfl

/-- What is sent from a body on begins with a line end. -/
theorem Yields.head_ne_nul {bodies : List Bytes} {bs : List Bytes} (h : Yields F o st bs)
    (hat : At o st bodies) (hbodies : ∀ b ∈ bodies, MailBody b) (hclosed : st.fbody = none) :
    bs.flatten.head? ≠ some 0 := by
  cases bodies with
  | nil =>
    have hbodyc : st.bodyc = [] := hat.bodyc
    rw [h.eq_nil (by rw [dataNext,hbodyc])]
    exact nofun
  | cons b bodies =>
    by_cases hq : Quoted b
    · obtain ⟨bs',rfl,-⟩ := h.tail (dataNext_text hat hq)
      obtain ⟨rest,hrest⟩ := textHead_cons
      rw [List.flatten_cons,hrest]
      exact nofun
    · have hstep := dataNext_open (F := F) hat hq ((hbodies b List.mem_cons_self).resolve_left hq) hclosed
      cases hfile : F.fopen (cstr b) with
      | none => exact absurd (hstep.trans (by rw [hfile]; rfl)) h.ne_none
      | some file =>
        cases hhead : multiHead (cstr b) with
        | none => exact absurd (hstep.trans (by rw [hfile,hhead]; rfl)) h.ne_none
        | some head =>
          obtain ⟨bs',rfl,-⟩ := h.tail (hstep.trans (by rw [hfile,hhead]; rfl))
          obtain ⟨rest,hrest⟩ := multiHead_cons hhead
          rw [List.flatten_cons,hrest]
          exact nofun

/-- A text is as long as it is sent only without a NUL. -/
theorem cstr_append_inj {s t u : Bytes} (h : cstr s ++ t = s ++ u) (ht : t.head? ≠ some 0) :
    0 ∉ s ∧ t = u := by
  by_cases h0 : 0 ∈ s
  · obtain ⟨r,hr⟩ := exists_of_nul_mem h0
    have htail : t = 0::r ++ u := by
      have hleft : cstr s ++ t = cstr s ++ (0::r ++ u) := by rw [h,← List.append_assoc,← hr]
      exact List.append_cancel_left hleft
    rw [htail] at ht
    exact absurd rfl ht
  · rw [cstr_of_nul_free h0] at h
    exact ⟨h0,List.append_cancel_left h⟩

theorem Yields.textsThenFiles {bodies : List Bytes} {bs : List Bytes} (h : Yields emptyFiles o st bs)
    (hat : At o st bodies) (hbodies : ∀ b ∈ bodies, MailBody b) (hclosed : st.fbody = none)
    (hflat : bs.flatten = bodies.flatMap (part emptyFiles) ++ multiDelim true) :
    TextsThenFiles bodies := by
  induction bodies generalizing st bs with
  | nil =>
    have hbodyc : st.bodyc = [] := hat.bodyc
    rw [h.eq_nil (by rw [dataNext,hbodyc])] at hflat
    cases hflat
  | cons b bodies ih =>
    have hbodies' := List.forall_mem_of_forall_mem_cons hbodies
    rw [TextsThenFiles]
    by_cases hq : Quoted b
    · obtain ⟨bs',rfl,h'⟩ := h.tail (dataNext_text hat hq)
      rw [List.flatten_cons,List.flatMap_cons,part_of_quoted hq,List.append_assoc,List.append_assoc,
        List.append_assoc] at hflat
      obtain ⟨h0,hrest⟩ := cstr_append_inj (List.append_cancel_left hflat)
        (h'.head_ne_nul (hat.next.texted _) hbodies' hclosed)
      rw [if_pos hq]
      refine ⟨?_,ih h' (hat.next.texted _) hbodies' hclosed hrest⟩
      intro hmem
      cases b with
      | nil => cases hmem
      | cons c r =>
        rw [Option.some.inj hq] at hmem
        exact h0 ((List.mem_cons.mp hmem).resolve_left (by decide))
    · have hne := (hbodies b List.mem_cons_self).resolve_left hq
      have hstep := dataNext_open (F := emptyFiles) hat hq hne hclosed
      rw [fopen_emptyFiles hq hne] at hstep
      rw [if_neg hq]
      cases hhead : multiHead (cstr b) with
      | none =>
        rw [hhead] at hstep
        exact absurd hstep h.ne_none
      | some head =>
        rw [hhead] at hstep
        obtain ⟨bs',-,h'⟩ := h.tail hstep
        refine List.forall_mem_cons.mpr ⟨⟨hq,?_⟩,?_⟩
        · by_contra hdot
          cases hhead.symm.trans ((multiHead_eq_none_iff _).mpr hdot)
        · exact h'.filesOnly (hat.opened [] head) hq hne hbodies' rfl

theorem dataFirst_buf_of_multi (hlen : 1 < o.body.length) :
    ∃ fields, (dataFirst o {}).buf = fields ++ str "MIME-Version: 1.0" ++ CRLF ++
      str "Content-Type: multipart/mixed; boundary=\"" ++ Q_BOUND ++ str "\"" ++ CRLF ++ CRLF := by
  rw [dataFirst]
  simp only [hlen,decide_true,if_true]
  simp only [← List.append_assoc]
  exact ⟨_,rfl⟩

theorem at_dataFirst (hlen : 1 < o.body.length) : At o (dataFirst o {}) o.body := by
  have hbodyc : (dataFirst o {}).bodyc = cstr (o.body.getD 0 []) := rfl
  refine ⟨decide_eq_true hlen,rfl,hbodyc.trans ?_⟩
  cases o.body <;> rfl

/-- For every two or more bodies: each is sent as a part of its own, with a closing delimiter, just if
texts without a NUL come first, then at least one file, and all the others are files with a dot in
their names. -/
theorem partsRight_iff (o : MailOpts) (hlen : 1 < o.body.length) (hbody : ∀ b ∈ o.body, MailBody b) :
    PartsRight o ↔ TextsThenFiles o.body := by
  constructor
  · intro h
    obtain ⟨bs,hbs,hflat⟩ := h.2 emptyFiles fun b hb => sendable_emptyFiles (hbody b hb)
    exact hbs.textsThenFiles (at_dataFirst hlen) hbody rfl hflat
  · intro h
    refine ⟨dataFirst_buf_of_multi hlen,?_⟩
    intro F hsend
    exact exists_yields_texts h hsend (at_dataFirst hlen) rfl

/-- A text and a picture are sent as they should be. -/
theorem partsRight_iff_text_and_file :
    PartsRight { smtp := str "h", rcpt := str "r", body := [str "'hello",str "a.png"] } := by
  have hfile : ¬Quoted (str "a.png") ∧ ch '.' ∈ cstr (str "a.png") := by decide
  apply (partsRight_iff _ (by decide) ?_).mpr
  · exact ⟨by decide,List.forall_mem_singleton.mpr hfile⟩
  · exact List.forall_mem_cons.mpr
      ⟨.inl rfl,List.forall_mem_singleton.mpr (.inr (List.ne_nil_of_mem hfile.2))⟩

/-- After two texts there is no closing delimiter. -/
theorem closing_never_sent :
    ∃ o : MailOpts, o.body = [str "'a",str "'b"] ∧ ¬PartsRight o ∧
      ∀ F, Yields F o (dataFirst o {}) [textHead ++ str "a",textHead ++ str "b"] := by
  have hyields : ∀ F, Yields F { smtp := [], rcpt := [], body := [str "'a",str "'b"] }
      (dataFirst { smtp := [], rcpt := [], body := [str "'a",str "'b"] } {})
      [textHead ++ str "a",textHead ++ str "b"] := fun F => .more rfl (.more rfl (.stop rfl))
  refine ⟨_,rfl,?_,hyields⟩
  intro h
  obtain ⟨bs,hbs,hflat⟩ := h.2 emptyFiles (List.forall_mem_cons.mpr
    ⟨.inl rfl,List.forall_mem_singleton.mpr (.inl rfl)⟩)
  obtain ⟨bs',rfl,hbs'⟩ := hbs.tail rfl
  obtain ⟨bs'',rfl,hbs''⟩ := hbs'.tail rfl
  rw [hbs''.eq_nil rfl] at hflat
  exact absurd hflat (by decide +kernel)

end Smx
