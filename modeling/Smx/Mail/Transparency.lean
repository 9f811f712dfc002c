import Smx.Mail.Lines
import Smx.Mail.Parts
import Smx.Mail.Recipients

/-! What a receiver of a message gets: nothing is done about lines that begin with a full stop. -/
namespace Smx

/-- What is read of a file that has been left open, when a file comes next. -/
def leaked (file : Option Bytes) : List Bytes → Bytes
  | [] => []
  | b::_ => if cstr b = [] ∨ Quoted b then [] else file.getD []

mutual

/-- From a body on no line begins with a full stop, as far as it is sent. A file may still be open
from before a text. -/
def SafeText (F : MailFiles) (file : Option Bytes) : List Bytes → Prop
  | [] => True
  | b::bodies =>
    if cstr b = [] then True
    else if Quoted b then LineSafe (cstr b.tail ++ leaked file bodies) ∧ SafeText F file bodies
    else
      match file with
      | some _ => SafeFiles F bodies
      | none =>
        match F.fopen (cstr b),multiHead (cstr b) with
        | some content,some h => NoDot h.1 ∧ (h.2 = false → LineSafe content) ∧ SafeFiles F bodies
        | _,_ => True

/-- The same at the end of a file; what comes next is opened as one. -/
def SafeFiles (F : MailFiles) : List Bytes → Prop
  | [] => True
  | b::bodies =>
    if cstr b = [] then True
    else
      match F.fopen (cstr b),multiHead (cstr b) with
      | some content,some h =>
        NoDot h.1 ∧
          if Quoted b then
            LineSafe (cstr b.tail ++ leaked (some content) bodies) ∧ SafeText F (some content) bodies
          else (h.2 = false → LineSafe content) ∧ SafeFiles F bodies
      | _,_ => True

end

/-- The blocks that are returned, to the end or to a call that throws. -/
def Produces (F : MailFiles) (o : MailOpts) (st : DataState) (bs : List Bytes) : Prop :=
  Yields F o st bs ∨ Breaks F o st bs

/-- Nothing, or something that begins with a line end. -/
def BeginsCR (s : Bytes) : Prop := s = [] ∨ ∃ r, s = 13::r

variable {F : MailFiles} {o : MailOpts} {st st' : DataState} {b : Bytes} {bs bodies : List Bytes}
  {a s content : Bytes}

theorem Produces.tail (h : Produces F o st bs) (hstep : dataNext F o st = some (some b,st')) :
    ∃ bs', bs = b::bs' ∧ Produces F o st' bs' := by
  obtain h | h := h
  · obtain ⟨bs',hbs,h'⟩ := h.tail hstep
    exact ⟨bs',hbs,.inl h'⟩
  · cases h with
    | thrown h => cases h.symm.trans hstep
    | more h hrest =>
      cases h.symm.trans hstep
      exact ⟨_,rfl,.inr hrest⟩

theorem Produces.eq_nil_of_none (h : Produces F o st bs) (hstep : dataNext F o st = none) : bs = [] := by
  obtain h | h := h
  · exact absurd hstep h.ne_none
  · cases h with
    | thrown _ => rfl
    | more h _ => cases hstep.symm.trans h

theorem Produces.eq_nil_of_end (h : Produces F o st bs) (hend : st.bodyc = []) : bs = [] := by
  have hstep : dataNext F o st = some (none,st) := by rw [dataNext,hend]
  obtain h | h := h
  · exact h.eq_nil hstep
  · cases h with
    | thrown _ => rfl
    | more h _ => cases hstep.symm.trans h

/-- Two states that go on in the same way. -/
theorem Produces.congr (h : Produces F o st bs) (heq : dataNext F o st = dataNext F o st') :
    Produces F o st' bs := by
  obtain h | h := h
  · cases h with
    | stop h => exact .inl (.stop (heq.symm.trans h))
    | more h hrest => exact .inl (.more (heq.symm.trans h) hrest)
  · cases h with
    | thrown h => exact .inr (.thrown (heq.symm.trans h))
    | more h hrest => exact .inr (.more (heq.symm.trans h) hrest)

theorem noDot_append (hs : BeginsCR s) : NoDot (a ++ s) ↔ NoDot a ∧ NoDot s := by
  obtain rfl | ⟨r,rfl⟩ := hs
  · rw [List.append_nil]
    exact (and_iff_left noDot_nil).symm
  · exact noDot_append_cons

theorem lineSafe_append (hs : BeginsCR s) : LineSafe (a ++ s) ↔ LineSafe a ∧ NoDot s := by
  rw [LineSafe,← List.append_assoc]
  exact noDot_append hs

/-- The header of a part ends with an empty line. -/
theorem noDot_textHead_append : NoDot (textHead ++ s) ↔ LineSafe s := by
  obtain ⟨u,hu,hsafe⟩ : ∃ u, textHead = u ++ CRLF ∧ NoDot u := by
    refine ⟨_,rfl,?_⟩
    unfold NoDot
    decide +kernel
  rw [hu,List.append_assoc]
  exact noDot_append_cons.trans (and_iff_right hsafe)

theorem noDot_head_append {file : Bytes} {h : Bytes × Bool} (hh : multiHead file = some h) :
    NoDot (h.1 ++ s) ↔ NoDot h.1 ∧ LineSafe s := by
  obtain ⟨u,hu⟩ : ∃ u, h.1 = u ++ CRLF := by
    obtain ⟨ext,-,rfl⟩ := Option.map_eq_some_iff.mp hh
    split_ifs
    · exact ⟨_,rfl⟩
    · exact ⟨_,rfl⟩
  have hend : NoDot (u ++ CRLF) ↔ NoDot u := by
    refine noDot_append_cons.trans (and_iff_left ?_)
    unfold NoDot
    decide
  rw [hu,List.append_assoc,hend]
  exact noDot_append_cons

theorem lineSafe_encoded (enc : Bool) (content : Bytes) :
    LineSafe (encoded enc content) ↔ (enc = false → LineSafe content) := by
  cases enc with
  | false => exact (imp_iff_right rfl).symm
  | true => exact iff_of_true (lineSafe_mime64 content) nofun

/-- The open file is sent, and then what comes at its end. -/
theorem Produces.read (h : Produces F o st bs) (hat : At o st (b::bodies)) (hq : ¬Quoted b)
    (hne : cstr b ≠ []) (hfile : st.fbody = some content) : ∃ st' bs', At o st' (b::bodies) ∧
      st'.fbody = some [] ∧ Produces F o st' bs' ∧
        bs.flatten = encoded st.enc content ++ bs'.flatten := by
  induction hn : content.length using Nat.strong_induction_on generalizing content st bs with
  | _ n ih =>
    subst hn
    by_cases hcontent : content = []
    · refine ⟨st,bs,hat,hcontent ▸ hfile,h,?_⟩
      rw [hcontent,encoded_nil]
      rfl
    · obtain ⟨bs₁,rfl,h₁⟩ := h.tail (dataNext_read hat hq hne hfile hcontent)
      have hlt : (content.drop Q_CHUNK).length < content.length := by
        have hpos := List.length_pos_iff.mpr hcontent
        rw [List.length_drop,Q_CHUNK]
        omega
      obtain ⟨st',bs',hat',heof,h',hflat⟩ := ih _ hlt h₁ (hat.chunked content) rfl rfl
      refine ⟨st',bs',hat',heof,h',?_⟩
      rw [List.flatten_cons,hflat,chunked_enc,← List.append_assoc,encoded_chunk]

/-- What is sent from a body on: the rest of a file that is still open, and parts that are safe. -/
def TextSent (F : MailFiles) (o : MailOpts) (bodies : List Bytes) : Prop :=
  ∀ st bs, At o st bodies → (st.fbody.isSome → st.enc = false) → Produces F o st bs →
    ∃ s, bs.flatten = leaked st.fbody bodies ++ s ∧ BeginsCR s ∧
      (NoDot s ↔ SafeText F st.fbody bodies)

/-- What is sent from the end of a file on. -/
def FilesSent (F : MailFiles) (o : MailOpts) (bodies : List Bytes) : Prop :=
  ∀ st b bs, At o st (b::bodies) → ¬Quoted b → cstr b ≠ [] → st.fbody = some [] →
    Produces F o st bs → BeginsCR bs.flatten ∧ (NoDot bs.flatten ↔ SafeFiles F bodies)

theorem beginsCR_nil : BeginsCR [] := .inl rfl

theorem beginsCR_textHead : BeginsCR (textHead ++ s) := by
  obtain ⟨r,hr⟩ := textHead_cons
  rw [hr]
  exact .inr ⟨_,rfl⟩

theorem beginsCR_head {file : Bytes} {h : Bytes × Bool} (hh : multiHead file = some h) :
    BeginsCR (h.1 ++ s) := by
  obtain ⟨r,hr⟩ := multiHead_cons hh
  rw [hr]
  exact .inr ⟨_,rfl⟩

/-- A text is sent, and what follows it. -/
theorem TextSent.text (ih : TextSent F o bodies) (hat : At o st (b::bodies)) (hq : Quoted b)
    (h : Produces F o st bs) : BeginsCR bs.flatten ∧ (NoDot bs.flatten ↔
      LineSafe (cstr b.tail ++ leaked st.fbody bodies) ∧ SafeText F st.fbody bodies) := by
  obtain ⟨bs',rfl,h'⟩ := h.tail (dataNext_text hat hq)
  obtain ⟨s,hflat,hs,hsafe⟩ := ih _ bs' (hat.next.texted _) (fun _ => rfl) h'
  have hfile : ((st.next o).texted (textHead ++ cstr b.tail)).fbody = st.fbody := rfl
  rw [hfile] at hflat hsafe
  rw [List.flatten_cons,hflat,List.append_assoc]
  refine ⟨beginsCR_textHead,?_⟩
  rw [noDot_textHead_append,← List.append_assoc,lineSafe_append hs,hsafe]

/-- A file is sent, and what follows it. -/
theorem FilesSent.file {head : Bytes × Bool} (ih : FilesSent F o bodies) (hat : At o st (b::bodies))
    (hq : ¬Quoted b) (hne : cstr b ≠ []) (hhead : multiHead (cstr b) = some head)
    (h : Produces F o (st.opened content head) bs) :
    BeginsCR (head.1 ++ bs.flatten) ∧ (NoDot (head.1 ++ bs.flatten) ↔
      NoDot head.1 ∧ (head.2 = false → LineSafe content) ∧ SafeFiles F bodies) := by
  obtain ⟨st',bs',hat',heof,h',hflat⟩ := h.read (hat.opened content head) hq hne rfl
  obtain ⟨hs,hsafe⟩ := ih st' b bs' hat' hq hne heof h'
  refine ⟨beginsCR_head hhead,?_⟩
  rw [noDot_head_append hhead,hflat,lineSafe_append hs,lineSafe_encoded,opened_enc,hsafe]

theorem safeText_cons (F : MailFiles) (file : Option Bytes) (b : Bytes) (bodies : List Bytes) :
    SafeText F file (b::bodies) =
      if cstr b = [] then True
      else if Quoted b then LineSafe (cstr b.tail ++ leaked file bodies) ∧ SafeText F file bodies
      else
        match file with
        | some _ => SafeFiles F bodies
        | none =>
          match F.fopen (cstr b),multiHead (cstr b) with
          | some content,some h => NoDot h.1 ∧ (h.2 = false → LineSafe content) ∧ SafeFiles F bodies
          | _,_ => True := by
  rw [SafeText.eq_def]

theorem textSent_cons (htext : TextSent F o bodies) (hfiles : FilesSent F o bodies) :
    TextSent F o (b::bodies) := by
  intro st bs hat henc h
  by_cases hne : cstr b = []
  · have hend : st.bodyc = [] := hat.bodyc.trans hne
    rw [h.eq_nil_of_end hend,leaked,if_pos (.inl hne),safeText_cons,if_pos hne]
    exact ⟨[],rfl,beginsCR_nil,iff_of_true noDot_nil trivial⟩
  · by_cases hq : Quoted b
    · rw [leaked,if_pos (.inr hq),safeText_cons,if_neg hne,if_pos hq]
      exact ⟨bs.flatten,rfl,htext.text hat hq h⟩
    · rw [leaked,if_neg (not_or.mpr ⟨hne,hq⟩),safeText_cons,if_neg hne,if_neg hq]
      cases hfile : st.fbody with
      | some content =>
        obtain ⟨st',bs',hat',heof,h',hflat⟩ := h.read hat hq hne hfile
        rw [henc (by rw [hfile]; rfl)] at hflat
        exact ⟨bs'.flatten,hflat,hfiles st' b bs' hat' hq hne heof h'⟩
      | none =>
        have hstep := dataNext_open (F := F) hat hq hne hfile
        cases hcontent : F.fopen (cstr b) with
        | none =>
          rw [hcontent] at hstep
          rw [h.eq_nil_of_none hstep]
          exact ⟨[],rfl,beginsCR_nil,iff_of_true noDot_nil trivial⟩
        | some content =>
          cases hhead : multiHead (cstr b) with
          | none =>
            rw [hcontent,hhead] at hstep
            rw [h.eq_nil_of_none hstep]
            exact ⟨[],rfl,beginsCR_nil,iff_of_true noDot_nil trivial⟩
          | some head =>
            rw [hcontent,hhead] at hstep
            obtain ⟨bs',rfl,h'⟩ := h.tail hstep
            exact ⟨head.1 ++ bs'.flatten,rfl,hfiles.file hat hq hne hhead h'⟩

theorem filesSent_cons (htext : TextSent F o bodies) (hfiles : FilesSent F o bodies) :
    FilesSent F o (b::bodies) := by
  intro st b' bs hat hq' hne' heof h
  have hstep := dataNext_eof (F := F) hat hq' hne' heof
  have hbodyc : (st.next o).bodyc = cstr b := hat.next.bodyc
  rw [hbodyc] at hstep
  rw [SafeFiles]
  by_cases hne : cstr b = []
  · rw [if_pos hne] at hstep
    obtain ⟨bs',rfl,h'⟩ := h.tail hstep
    have hend : ({ st.next o with buf := multiDelim true } : DataState).bodyc = [] := hbodyc.trans hne
    rw [h'.eq_nil_of_end hend,if_pos hne]
    refine ⟨.inr ⟨_,rfl⟩,iff_of_true ?_ trivial⟩
    unfold NoDot
    decide +kernel
  · rw [if_neg hne] at hstep ⊢
    cases hcontent : F.fopen (cstr b) with
    | none =>
      rw [hcontent] at hstep
      rw [h.eq_nil_of_none hstep]
      exact ⟨beginsCR_nil,iff_of_true noDot_nil trivial⟩
    | some content =>
      cases hhead : multiHead (cstr b) with
      | none =>
        rw [hcontent,hhead] at hstep
        rw [h.eq_nil_of_none hstep]
        exact ⟨beginsCR_nil,iff_of_true noDot_nil trivial⟩
      | some head =>
        rw [hcontent,hhead] at hstep
        obtain ⟨bs',rfl,h'⟩ := h.tail hstep
        rw [List.flatten_cons]
        by_cases hq : Quoted b
        · obtain ⟨hs,hsafe⟩ := htext.text (hat.next.opened content head) hq h'
          simp only [if_pos hq]
          rw [noDot_append hs,hsafe]
          exact ⟨beginsCR_head hhead,Iff.rfl⟩
        · simp only [if_neg hq]
          exact hfiles.file hat.next hq hne hhead h'

theorem noDot_multiDelim : NoDot (multiDelim true) := by
  unfold NoDot
  decide +kernel

theorem textSent_and_filesSent (F : MailFiles) (o : MailOpts) (bodies : List Bytes) :
    TextSent F o bodies ∧ FilesSent F o bodies := by
  induction bodies with
  | nil =>
    constructor
    · intro st bs hat _ h
      rw [h.eq_nil_of_end hat.bodyc]
      exact ⟨[],rfl,beginsCR_nil,iff_of_true noDot_nil trivial⟩
    · intro st b bs hat hq hne heof h
      have hstep := dataNext_eof (F := F) hat hq hne heof
      have hbodyc : (st.next o).bodyc = [] := hat.next.bodyc
      rw [if_pos hbodyc] at hstep
      obtain ⟨bs',rfl,h'⟩ := h.tail hstep
      rw [h'.eq_nil_of_end hbodyc]
      exact ⟨.inr ⟨_,rfl⟩,iff_of_true noDot_multiDelim trivial⟩
  | cons b bodies ih => exact ⟨textSent_cons ih.1 ih.2,filesSent_cons ih.1 ih.2⟩

/-- No line of the bodies begins with a full stop, as far as they are sent as they are. -/
def SafeBodies (F : MailFiles) (o : MailOpts) : Prop :=
  if 1 < o.body.length then SafeText F none o.body
  else
    let b := o.body.getD 0 []
    if cstr b = [] then True
    else if Quoted b then LineSafe (cstr b.tail)
    else
      match (if cstr b = str "-" then some F.stdin else F.fopen (cstr b)) with
      | some content => LineSafe content
      | none => True

/-- The state before the only body. -/
structure AtOnly (o : MailOpts) (st : DataState) (b : Bytes) : Prop where
  single : o.body.length ≤ 1
  multi : st.multi = false
  enc : st.enc = false
  bodyn : st.bodyn = 0
  bodyc : st.bodyc = cstr b

theorem AtOnly.next (h : AtOnly o st b) : (st.next o).bodyc = [] := by
  have hnone : o.body[1]? = none := List.getElem?_eq_none h.single
  rw [DataState.next,h.bodyn,List.getD_eq_getElem?_getD,hnone]
  rfl

theorem Produces.eq_nil_of_stop (h : Produces F o st bs) (hstep : dataNext F o st = some (none,st')) :
    bs = [] := by
  obtain h | h := h
  · cases h with
    | stop _ => rfl
    | more h _ => cases h.symm.trans hstep
  · cases h with
    | thrown h => cases h.symm.trans hstep
    | more h _ => cases h.symm.trans hstep

/-- The only body is a text. -/
theorem Produces.only_text (h : Produces F o st bs) (hat : AtOnly o st b) (hq : Quoted b) :
    bs.flatten = cstr b.tail := by
  have hc : st.bodyc = T_SQ::cstr b.tail := hat.bodyc.trans (cstr_of_quoted hq)
  have hmulti : (st.next o).multi = false := hat.multi
  have hstep : dataNext F o st = some ((st.next o).give (cstr b.tail)) := by
    rw [dataNext,hc]
    simp only [if_true,hmulti,Bool.false_eq_true,if_false]
  cases htail : cstr b.tail with
  | nil =>
    rw [htail] at hstep
    rw [h.eq_nil_of_stop hstep]
    rfl
  | cons c r =>
    rw [htail,give_of_ne_nil (List.cons_ne_nil c r)] at hstep
    obtain ⟨bs',rfl,h'⟩ := h.tail hstep
    have hend : ({ st.next o with buf := c::r } : DataState).bodyc = [] := hat.next
    rw [h'.eq_nil_of_end hend]
    exact List.append_nil _

/-- The only body is a file that is open. -/
theorem Produces.only_read (h : Produces F o st bs) (hat : AtOnly o st b) (hq : ¬Quoted b)
    (hne : cstr b ≠ []) (hfile : st.fbody = some content) : bs.flatten = content := by
  obtain ⟨c,r,hcr,hc⟩ := cstr_of_not_quoted hq hne
  induction hn : content.length using Nat.strong_induction_on generalizing content st bs with
  | _ n ih =>
    subst hn
    have hstep : dataNext F o st = dataRead F o st content := by
      rw [dataNext,hat.bodyc.trans hcr]
      simp only [if_neg hc,hfile]
    by_cases hcontent : content = []
    · rw [dataRead,if_pos hcontent] at hstep
      dsimp only at hstep
      rw [if_neg (by rw [hat.multi]; decide)] at hstep
      rw [h.eq_nil_of_stop hstep,hcontent]
      rfl
    · have htake : content.take Q_CHUNK ≠ [] := by
        rw [ne_eq,List.take_eq_nil_iff]
        exact not_or.mpr ⟨by decide,hcontent⟩
      have hlt : (content.drop Q_CHUNK).length < content.length := by
        have hpos := List.length_pos_iff.mpr hcontent
        rw [List.length_drop,Q_CHUNK]
        omega
      rw [dataRead,if_neg hcontent] at hstep
      dsimp only at hstep
      rw [if_neg (by rw [hat.enc]; decide),give_of_ne_nil htake] at hstep
      obtain ⟨bs',rfl,h'⟩ := h.tail hstep
      rw [List.flatten_cons,ih _ hlt h' ⟨hat.single,hat.multi,hat.enc,hat.bodyn,hat.bodyc⟩ rfl rfl,
        List.take_append_drop]

theorem lineSafe_only (h : Produces F o st bs) (hat : AtOnly o st (o.body.getD 0 []))
    (hclosed : st.fbody = none) : LineSafe bs.flatten ↔ SafeBodies F o := by
  rw [SafeBodies,if_neg (not_lt.mpr hat.single)]
  dsimp only
  by_cases hne : cstr (o.body.getD 0 []) = []
  · rw [if_pos hne,h.eq_nil_of_end (hat.bodyc.trans hne)]
    exact iff_of_true lineSafe_nil trivial
  · rw [if_neg hne]
    by_cases hq : Quoted (o.body.getD 0 [])
    · rw [if_pos hq,h.only_text hat hq]
    · rw [if_neg hq]
      obtain ⟨c,r,hcr,hc⟩ := cstr_of_not_quoted hq hne
      have hbodyc : st.bodyc = c::r := hat.bodyc.trans hcr
      have hstep : dataNext F o st = (if cstr (o.body.getD 0 []) = str "-" then some F.stdin
          else F.fopen (cstr (o.body.getD 0 []))).bind fun file =>
            dataNext F o { st with fbody := some file } := by
        rw [dataNext,hbodyc,hcr]
        simp only [if_neg hc,hclosed,hat.multi,true_and,Bool.false_eq_true,if_false]
        refine Option.bind_congr fun file _ => ?_
        rw [dataNext]
        simp only [if_neg hc]
      cases hfile : (if cstr (o.body.getD 0 []) = str "-" then some F.stdin
          else F.fopen (cstr (o.body.getD 0 []))) with
      | none =>
        rw [hfile] at hstep
        rw [h.eq_nil_of_none hstep]
        exact iff_of_true lineSafe_nil trivial
      | some content =>
        rw [hfile] at hstep
        have h' : Produces F o { st with fbody := some content } bs := h.congr hstep
        rw [h'.only_read ⟨hat.single,hat.multi,hat.enc,hat.bodyn,hat.bodyc⟩ hq hne rfl]

/-- The fields of the header have no line that begins with a full stop. -/
def HeaderSafe (o : MailOpts) : Prop :=
  NoDot (cstr o.subj) ∧ NoDot (cstr o.from_) ∧ NoDot (cstr o.to_) ∧ NoDot (cstr o.reply)

/-- A line of a header with a name. -/
theorem lineSafe_line {name value : Bytes} (hcr : 13 ∉ name) (hne : name ≠ [])
    (hdot : name.head? ≠ some DOT) :
    LineSafe (name ++ value ++ CRLF ++ s) ↔ NoDot value ∧ LineSafe s := by
  have hhead : (name ++ value ++ CRLF ++ s).head? ≠ some DOT := by
    rw [List.append_assoc,List.append_assoc,List.head?_append_of_ne_nil _ hne]
    exact hdot
  rw [lineSafe_iff,and_iff_right hhead,List.append_assoc]
  refine noDot_append_cons.trans ?_
  rw [noDot_append_of_no_cr hcr]
  rfl

theorem lineSafe_headLine {name value : Bytes} (hcr : 13 ∉ name) (hne : name ≠ [])
    (hdot : name.head? ≠ some DOT) :
    LineSafe (headLine name value ++ s) ↔ NoDot (cstr value) ∧ LineSafe s := by
  rw [headLine]
  split_ifs with hvalue
  · rw [hvalue]
    exact (and_iff_right noDot_nil).symm
  · exact lineSafe_line hcr hne hdot

theorem lineSafe_replicate {name value : Bytes} (hcr : 13 ∉ name) (hne : name ≠ [])
    (hdot : name.head? ≠ some DOT) (hvalue : NoDot value) (n : ℕ) :
    LineSafe ((List.replicate n (name ++ value ++ CRLF)).flatten ++ s) ↔ LineSafe s := by
  induction n with
  | zero => rfl
  | succ n ih =>
    rw [List.replicate_succ,List.flatten_cons,List.append_assoc,lineSafe_line hcr hne hdot,ih]
    exact and_iff_right hvalue

theorem lineSafe_literal {line : Bytes} (hcr : 13 ∉ line) (hdot : line.head? ≠ some DOT) :
    LineSafe (line ++ (CRLF ++ s)) ↔ LineSafe s := by
  have hhead : (line ++ (CRLF ++ s)).head? ≠ some DOT := by
    cases line with
    | nil => exact fun h => absurd (Option.some.inj h) (by decide)
    | cons c line => exact hdot
  rw [lineSafe_iff,and_iff_right hhead,noDot_append_of_no_cr hcr]
  rfl

/-- The last lines of the header. -/
theorem lineSafe_kind (multi html : Prop) [Decidable multi] [Decidable html] :
    LineSafe ((if multi then str "MIME-Version: 1.0" ++ CRLF ++
        str "Content-Type: multipart/mixed; boundary=\"" ++ Q_BOUND ++ str "\"" ++ CRLF
      else if html then str "Content-Type: text/html; charset=us-ascii" ++ CRLF
      else str "Content-Type: text/plain; charset=us-ascii" ++ CRLF) ++ (CRLF ++ s)) ↔ LineSafe s := by
  have hempty : LineSafe (CRLF ++ s) ↔ LineSafe s := lineSafe_literal List.not_mem_nil nofun
  split_ifs
  · have hmime : 13 ∉ str "MIME-Version: 1.0" ∧ (str "MIME-Version: 1.0").head? ≠ some DOT := by
      decide
    have hmixed : 13 ∉ str "Content-Type: multipart/mixed; boundary=\"" ++ Q_BOUND ++ str "\"" ∧
        (str "Content-Type: multipart/mixed; boundary=\"" ++ Q_BOUND ++ str "\"").head? ≠ some DOT := by
      decide
    have hsplit : str "MIME-Version: 1.0" ++ CRLF ++ str "Content-Type: multipart/mixed; boundary=\"" ++
        Q_BOUND ++ str "\"" ++ CRLF ++ (CRLF ++ s) = str "MIME-Version: 1.0" ++ (CRLF ++
          ((str "Content-Type: multipart/mixed; boundary=\"" ++ Q_BOUND ++ str "\"") ++
            (CRLF ++ (CRLF ++ s)))) := by
      simp only [List.append_assoc]
    rw [hsplit,lineSafe_literal hmime.1 hmime.2,lineSafe_literal hmixed.1 hmixed.2,hempty]
  · rw [List.append_assoc]
    exact (lineSafe_literal (by decide) (by decide)).trans hempty
  · rw [List.append_assoc]
    exact (lineSafe_literal (by decide) (by decide)).trans hempty

/-- The header without its first line. -/
theorem exists_dataFirst_buf (o : MailOpts) (data : DataState) : ∃ rest,
    (dataFirst o data).buf = (if o.subj = [] then data.buf else headLine (str "Subject: ") o.subj) ++ rest ∧
    ∀ s, LineSafe (rest ++ s) ↔
      (NoDot (cstr o.from_) ∧ NoDot (cstr o.to_) ∧ NoDot (cstr o.reply)) ∧ LineSafe s := by
  have happ (a b c d e f g : Bytes) :
      a ++ b ++ c ++ d ++ e ++ f ++ g = a ++ (b ++ (c ++ (d ++ (e ++ (f ++ g))))) := by
    simp only [List.append_assoc]
  have happs (b c d e f g s : Bytes) :
      b ++ (c ++ (d ++ (e ++ (f ++ g)))) ++ s = b ++ (c ++ (d ++ (e ++ (f ++ (g ++ s))))) := by
    simp only [List.append_assoc]
  refine ⟨_,happ _ _ _ _ _ _ _,fun s => ?_⟩
  rw [happs,lineSafe_headLine (by decide) (by decide) (by decide),
    lineSafe_headLine (by decide) (by decide) (by decide),
    lineSafe_headLine (by decide) (by decide) (by decide),and_assoc,and_assoc]
  refine and_congr_right fun _ => and_congr_right fun _ => and_congr_right fun hreply => ?_
  rw [lineSafe_replicate (by decide) (by decide) (by decide) hreply,lineSafe_kind]

/-- A header, or several when DATA has been refused before, is safe if its fields are. -/
theorem lineSafe_headed (o : MailOpts) (n : ℕ) (s : Bytes) :
    LineSafe ((headed o n).buf ++ s) ↔ HeaderSafe o ∧ LineSafe s := by
  by_cases hsubj : o.subj = []
  · have hsafe : HeaderSafe o ↔ NoDot (cstr o.from_) ∧ NoDot (cstr o.to_) ∧ NoDot (cstr o.reply) := by
      rw [HeaderSafe,hsubj]
      exact and_iff_right noDot_nil
    induction n generalizing s with
    | zero =>
      obtain ⟨rest,hbuf,hrest⟩ := exists_dataFirst_buf o {}
      rw [if_pos hsubj] at hbuf
      rw [headed,hbuf,hsafe]
      exact hrest s
    | succ n ih =>
      obtain ⟨rest,hbuf,hrest⟩ := exists_dataFirst_buf o (headed o n)
      rw [if_pos hsubj] at hbuf
      rw [headed,hbuf,List.append_assoc]
      refine (ih (rest ++ s)).trans ?_
      rw [hrest,← hsafe]
      exact and_iff_right_of_imp And.left
  · have hstep (data : DataState) :
        LineSafe ((dataFirst o data).buf ++ s) ↔ HeaderSafe o ∧ LineSafe s := by
      obtain ⟨rest,hbuf,hrest⟩ := exists_dataFirst_buf o data
      rw [if_neg hsubj] at hbuf
      rw [hbuf,List.append_assoc,
        lineSafe_headLine (by decide) (by decide) (by decide),hrest,HeaderSafe]
      exact and_assoc.symm
    cases n with
    | zero => exact hstep {}
    | succ n => exact hstep (headed o n)

theorem headed_fields (o : MailOpts) (n : ℕ) : (headed o n).bodyn = 0 ∧
    (headed o n).bodyc = cstr (o.body.getD 0 []) ∧ (headed o n).multi = decide (1 < o.body.length) ∧
      (headed o n).fbody = none ∧ (headed o n).enc = false := by
  induction n with
  | zero => exact ⟨rfl,rfl,rfl,rfl,rfl⟩
  | succ n ih => exact ⟨rfl,rfl,rfl,ih.2.2.2.1,ih.2.2.2.2⟩

/-- Behind the header. -/
theorem lineSafe_blocks {n : ℕ} (h : Produces F o (headed o n) bs) :
    LineSafe bs.flatten ↔ SafeBodies F o := by
  obtain ⟨hbodyn,hbodyc,hmulti,hclosed,henc⟩ := headed_fields o n
  by_cases hlen : 1 < o.body.length
  · have hat : At o (headed o n) o.body := by
      refine ⟨hmulti.trans (decide_eq_true hlen),by rw [hbodyn]; rfl,hbodyc.trans ?_⟩
      cases o.body <;> rfl
    obtain ⟨s,hflat,hs,hsafe⟩ := (textSent_and_filesSent F o o.body).1 _ _ hat (fun _ => henc) h
    have hleaked : leaked (headed o n).fbody o.body = [] := by
      rw [hclosed]
      cases o.body with
      | nil => rfl
      | cons b bodies => exact ite_self []
    rw [hleaked,List.nil_append] at hflat
    have hsafe' : LineSafe s ↔ NoDot s := (lineSafe_append (a := []) hs).trans (and_iff_right lineSafe_nil)
    rw [hflat,hsafe',hsafe,hclosed,SafeBodies,if_pos hlen]
  · apply lineSafe_only h ⟨not_lt.mp hlen,hmulti.trans (decide_eq_false hlen),henc,hbodyn,hbodyc⟩ hclosed

/-- The answer to DATA has come, and it is no error. -/
structure AtDataReply (o : MailOpts) (st : MailState) : Prop where
  proto : st.proto = .qsData
  code : iserror st.code = false
  errs : st.errs ≤ Q_ERRTHRESH
  data : st.data = {} ∨ ∃ n, st.data = headed o n

/-- What is sent until QUIT. -/
def stream (requests : List Request) : Bytes :=
  requests.flatMap fun
    | .quit => []
    | request => request.text

/-- What is sent of the message. -/
def message (requests : List Request) : Bytes :=
  requests.flatMap fun
    | .block b => b
    | _ => []

/-- `CRLF . CRLF` is found only at the end, where it is sent as such and then is found, and the
receiver who undoes dot-stuffing gets the message. -/
def Transparent (requests : List Request) : Prop :=
  (∀ pre post, stream requests = pre ++ EndMark ++ post → post = [] ∧ .eof ∈ requests) ∧
    (.eof ∈ requests → ∃ pre, stream requests = pre ++ EndMark) ∧
      unstuff true (message requests) = message requests

/-- Whenever DATA has been accepted. -/
def DataTransparent (F : MailFiles) (o : MailOpts) : Prop :=
  ∀ st replies requests, AtDataReply o st → Session F o st replies requests → Transparent requests

/-- What a session sends from the answer to DATA on. -/
theorem exists_session_blocks {st : MailState} (h : AtDataReply o st) (replies : ℕ → Option ℤ) :
    ∃ n bs ends, Session F o st replies (.block (headed o n).buf::bs.map .block ++ ends) ∧
      Produces F o (headed o n) bs ∧ (ends = [] ∨ ends = [.eof] ∨ ends = [.eof,.quit,.quit]) := by
  obtain ⟨n,hn⟩ : ∃ n, dataFirst o st.data = headed o n := by
    obtain hdata | ⟨n,hdata⟩ := h.data
    · exact ⟨0,by rw [hdata]; rfl⟩
    · exact ⟨n+1,by rw [hdata]; rfl⟩
  have hnext := smtpNext_header (F := F) (o := o) h.proto h.code
  have hcode : iserror (st.withHeader o).code = false := h.code
  have hdata : (st.withHeader o).data = headed o n := hn
  have hplaced : (st.withHeader o).data.Placed o := placed_dataFirst
  obtain ⟨bs,hbs | hbs⟩ := yields_or_breaks (F := F) hplaced
  · obtain ⟨ends,hends,hlast⟩ := exists_session_yields hbs rfl hcode h.errs replies
    refine ⟨n,bs,.eof::ends,?_,.inl (hdata ▸ hbs),?_⟩
    · rw [← hn]
      exact session_silent hnext h.errs (.inl rfl) hends
    · obtain rfl | rfl := hlast
      · exact .inr (.inl rfl)
      · exact .inr (.inr rfl)
  · refine ⟨n,bs,[],?_,.inr (hdata ▸ hbs),.inl rfl⟩
    rw [← hn,List.append_nil]
    exact session_silent hnext h.errs (.inl rfl) (session_breaks hbs rfl hcode h.errs)

theorem message_append (r r' : List Request) : message (r ++ r') = message r ++ message r' :=
  List.flatMap_append

theorem stream_append (r r' : List Request) : stream (r ++ r') = stream r ++ stream r' :=
  List.flatMap_append

theorem message_blocks (bs : List Bytes) : message (bs.map .block) = bs.flatten := by
  rw [message,List.flatMap_map]
  exact List.flatMap_id'

theorem stream_blocks (bs : List Bytes) : stream (bs.map .block) = bs.flatten := by
  rw [stream,List.flatMap_map]
  exact List.flatMap_id'

/-- Only the lines of the message decide. -/
theorem transparent_iff {bs : List Bytes} {ends : List Request}
    (hends : ends = [] ∨ ends = [.eof] ∨ ends = [.eof,.quit,.quit]) :
    Transparent (bs.map .block ++ ends) ↔ LineSafe bs.flatten := by
  have hmessage : message (bs.map .block ++ ends) = bs.flatten := by
    rw [message_append,message_blocks]
    obtain rfl | rfl | rfl := hends
    all_goals exact List.append_nil _
  have hmark : .eof ∈ bs.map .block ++ ends → ∃ pre, stream (bs.map .block ++ ends) = pre ++ EndMark := by
    intro hmem
    refine ⟨bs.flatten,?_⟩
    rw [stream_append,stream_blocks]
    obtain rfl | rfl | rfl := hends
    · simp at hmem
    all_goals rfl
  rw [Transparent,hmessage,unstuff_eq_iff,imp_iff_right rfl,← lineSafe_iff,and_iff_right hmark]
  refine and_iff_right_of_imp fun hsafe pre post heq => ?_
  have hdot := (lineSafe_iff.mp hsafe).2
  rw [stream_append,stream_blocks] at heq
  obtain rfl | hmark := hends
  · -- Without an end mark there is none.
    have hnil : stream [] = [] := rfl
    rw [hnil,List.append_nil] at heq
    refine absurd ⟨pre,CRLF ++ post,?_⟩ hdot
    rw [heq,EndMark]
    simp only [List.append_assoc]
    rfl
  · have hstream : stream ends = EndMark := by
      obtain rfl | rfl := hmark <;> rfl
    rw [hstream] at heq
    refine ⟨eq_nil_of_endMark hdot heq,List.mem_append_right _ ?_⟩
    obtain rfl | rfl := hmark <;> exact List.mem_cons_self

theorem transparent_blocks_iff {n : ℕ} {bs : List Bytes} {ends : List Request}
    (hbs : Produces F o (headed o n) bs) (hends : ends = [] ∨ ends = [.eof] ∨ ends = [.eof,.quit,.quit]) :
    Transparent (.block (headed o n).buf::bs.map .block ++ ends) ↔ HeaderSafe o ∧ SafeBodies F o := by
  have hmap : .block (headed o n).buf::bs.map .block = ((headed o n).buf::bs).map Request.block := rfl
  rw [hmap,transparent_iff hends,List.flatten_cons,lineSafe_headed,lineSafe_blocks hbs]

theorem DataTransparent.safe (h : DataTransparent F o) : HeaderSafe o ∧ SafeBodies F o := by
  have hst : AtDataReply o { rcpt := [], proto := .qsData } := ⟨rfl,rfl,Nat.zero_le _,.inl rfl⟩
  obtain ⟨n,bs,ends,hsession,hbs,hends⟩ := exists_session_blocks (F := F) hst fun _ => none
  exact (transparent_blocks_iff hbs hends).mp (h _ _ _ hst hsession)

/-- For all bodies and all contents of files: the receiver gets the message, and nothing in it ends it
early, just if no line begins with a full stop in the fields of the header, in the heads of the parts
and in what is sent as it is. -/
theorem dataTransparent_iff (F : MailFiles) (o : MailOpts) :
    DataTransparent F o ↔ HeaderSafe o ∧ SafeBodies F o := by
  constructor
  · intro h
    exact h.safe
  · intro h st replies requests hst hrequests
    obtain ⟨n,bs,ends,hsession,hbs,hends⟩ := exists_session_blocks (F := F) hst replies
    rw [hrequests.unique hsession]
    exact (transparent_blocks_iff hbs hends).mpr h

/-- A text that ends the message and goes on with a command of its own. -/
theorem command_smuggled : ∃ o : MailOpts,
    o.body = [str "'." ++ CRLF ++ str "MAIL FROM:<x>" ++ CRLF] ∧ ∀ F, ¬DataTransparent F o := by
  refine ⟨{ smtp := [], rcpt := [], body := _ },rfl,fun F h => ?_⟩
  have hdot : ¬LineSafe (str "." ++ CRLF ++ str "MAIL FROM:<x>" ++ CRLF) := by
    unfold LineSafe NoDot
    decide
  exact hdot h.safe.2

/-- The states that a session comes to. -/
inductive Reaches (F : MailFiles) (o : MailOpts) : MailState → Prop
  | start : Reaches F o o.open
  | turn {st st' : MailState} {replies replies' : ℕ → Option ℤ} {sent : List Request}
      (h : Reaches F o st) (hturn : turn F o st replies = (sent,some (st',replies'))) : Reaches F o st'

/-- Nothing has been read of the message before DATA, and then only headers have been written. -/
structure DataKept (o : MailOpts) (st : MailState) : Prop where
  before : st.proto = .qsOpen ∨ st.proto = .qsEhlo ∨ st.proto = .qsHelo ∨ st.proto = .qsMail ∨
    st.proto = .qsRcpt → st.data = {}
  data : st.proto = .qsData → st.data = {} ∨ ∃ n, st.data = headed o n

theorem rcptFirst_data {st st' : MailState} (h : rcptFirst F st = some st') : st'.data = st.data := by
  obtain ⟨rcpt,-,rfl⟩ := Option.map_eq_some_iff.mp h
  cases strtok rcpt <;> rfl

theorem rcptNext_data (st : MailState) : st.rcptNext.data = st.data := by
  rw [MailState.rcptNext]
  cases strtok st.tokens <;> rfl

theorem dataKept_of_data {st : MailState} (hdata : st.data = {}) : DataKept o st :=
  ⟨fun _ => hdata,fun _ => .inl hdata⟩

theorem dataKept_of_proto {st : MailState} (hproto : st.proto = .qsBlock ∨ st.proto = .qsEOF ∨
    st.proto = .qsQuit ∨ st.proto = .qsNone) : DataKept o st := by
  constructor
  · intro hbefore
    obtain h | h | h | h := hproto <;> simp [h] at hbefore
  · intro hdata
    obtain h | h | h | h := hproto <;> simp [h] at hdata

/-- One step keeps this. -/
theorem dataKept_control {st st' : MailState} (h : DataKept o st) (hst : control F o st = some st') :
    DataKept o st' := by
  cases hproto : st.proto with
  | qsOpen | qsEhlo =>
    have hdata := h.before (by rw [hproto]; decide)
    simp only [control,hproto] at hst
    rw [← Option.some.inj hst]
    exact dataKept_of_data hdata
  | qsHelo =>
    have hdata := h.before (by rw [hproto]; decide)
    simp only [control,hproto] at hst
    rw [← Option.some.inj hst]
    split_ifs <;> exact dataKept_of_data hdata
  | qsMail =>
    have hdata := h.before (by rw [hproto]; decide)
    simp only [control,hproto] at hst
    obtain ⟨st₁,hst₁,rfl⟩ := Option.map_eq_some_iff.mp hst
    rw [← rcptFirst_data hst₁] at hdata
    split_ifs <;> exact dataKept_of_data hdata
  | qsRcpt =>
    have hdata := h.before (by rw [hproto]; decide)
    have hcleared : st.cleared.data = st.data := by rw [cleared_eq]
    rw [control_rcpt hproto] at hst
    rw [← hcleared,← rcptNext_data] at hdata
    rw [← Option.some.inj hst]
    split_ifs <;> exact dataKept_of_data hdata
  | qsData =>
    obtain ⟨n,hn⟩ : ∃ n, dataFirst o st.data = headed o n := by
      obtain hdata | ⟨n,hdata⟩ := h.data hproto
      · exact ⟨0,by rw [hdata]; rfl⟩
      · exact ⟨n+1,by rw [hdata]; rfl⟩
    simp only [control,hproto] at hst
    rw [← Option.some.inj hst]
    split_ifs
    · constructor
      · intro hbefore
        simp at hbefore
      · intro _
        exact .inr ⟨n,hn⟩
    · exact dataKept_of_proto (.inl rfl)
  | qsBlock =>
    simp only [control,hproto] at hst
    obtain ⟨st₁,hst₁,rfl⟩ := Option.map_eq_some_iff.mp hst
    have hblock : st₁.proto = .qsBlock := by
      split_ifs at hst₁
      · rw [← Option.some.inj hst₁]
      · obtain ⟨x,-,rfl⟩ := Option.map_eq_some_iff.mp hst₁
        rfl
    split_ifs
    · exact dataKept_of_proto (.inr (.inl rfl))
    · exact dataKept_of_proto (.inl hblock)
  | qsEOF =>
    simp only [control,hproto] at hst
    rw [← Option.some.inj hst]
    exact dataKept_of_proto (.inr (.inr (.inl rfl)))
  | qsQuit =>
    simp only [control,hproto] at hst
    rw [← Option.some.inj hst]
    exact dataKept_of_proto (.inr (.inr (.inr rfl)))
  | qsNone =>
    simp only [control,hproto] at hst
    rw [← Option.some.inj hst]
    exact h

/-- What is left of a state when a round is over and the loop goes on. -/
theorem turn_next {st st' : MailState} {replies replies' : ℕ → Option ℤ} {sent : List Request}
    (h : turn F o st replies = (sent,some (st',replies'))) : ∃ st₁ code, smtpNext F o st = some st₁ ∧
      st₁.errs ≤ Q_ERRTHRESH ∧ st' = { st₁ with code := code } := by
  rw [turn] at h
  cases hnext : smtpNext F o st with
  | none =>
    rw [hnext] at h
    cases h
  | some st₁ =>
    rw [hnext] at h
    dsimp only at h
    split_ifs at h with herrs hsilent hlast
    · cases h
    · exact ⟨st₁,st₁.code,rfl,not_lt.mp herrs,(Prod.mk.inj (Option.some.inj (Prod.mk.inj h).2)).1.symm⟩
    · cases hreply : replies 0 with
      | none | some code =>
        rw [hreply] at h
        cases h
    · cases hreply : replies 0 with
      | none =>
        rw [hreply] at h
        cases h
      | some code =>
        rw [hreply] at h
        exact ⟨st₁,code,rfl,not_lt.mp herrs,(Prod.mk.inj (Option.some.inj (Prod.mk.inj h).2)).1.symm⟩

/-- Every session that comes to the answer to DATA is one of those above. -/
theorem Reaches.atDataReply {st : MailState} (h : Reaches F o st) (hproto : st.proto = .qsData)
    (hcode : iserror st.code = false) : AtDataReply o st := by
  have hkept : DataKept o st ∧ st.errs ≤ Q_ERRTHRESH := by
    clear hproto hcode
    induction h with
    | start => exact ⟨dataKept_of_data rfl,Nat.zero_le _⟩
    | turn _ hturn ih =>
      obtain ⟨st₁,code,hnext,herrs,rfl⟩ := turn_next hturn
      obtain ⟨st₂,hst₂,rfl⟩ := Option.map_eq_some_iff.mp hnext
      have hkept := dataKept_control ih.1 hst₂
      exact ⟨⟨hkept.before,hkept.data⟩,herrs⟩
  exact ⟨hproto,hcode,hkept.2,hkept.1.data hproto⟩

end Smx
