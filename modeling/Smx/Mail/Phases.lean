import Smx.Mail.Blocks
import Smx.Mail.Smtp

/-! What a session sends from each of its states on. -/
namespace Smx

variable {F : MailFiles} {o : MailOpts} {st st' : MailState} {replies : ℕ → Option ℤ}
  {requests : List Request} {code : ℤ}

/-- What is sent when the answer to the last request has come. -/
def Answered (F : MailFiles) (o : MailOpts) (st : MailState) (replies : ℕ → Option ℤ)
    (requests : List Request) : Prop :=
  match replies 0 with
  | none => requests = []
  | some code => Session F o { st with code := code } (later replies) requests

theorem answered_of_none (hreply : replies 0 = none) : Answered F o st replies [] := by
  rw [Answered,hreply]

theorem answered_of_some (hreply : replies 0 = some code)
    (h : Session F o { st with code := code } (later replies) requests) :
    Answered F o st replies requests := by
  rw [Answered,hreply]
  exact h

/-- A request is sent, and its answer waited for. -/
theorem session_answered (h : smtpNext F o st = some st') (herrs : st'.errs ≤ Q_ERRTHRESH)
    (hproto : st'.proto ≠ .qsBlock ∧ st'.proto ≠ .qsQuit ∧ st'.proto ≠ .qsNone)
    (hrest : Answered F o st' replies requests) :
    Session F o st replies (st'.request::requests) := by
  have hsilent : ¬(st'.proto = .qsBlock ∨ st'.proto = .qsQuit) := not_or.mpr ⟨hproto.1,hproto.2.1⟩
  rw [Answered] at hrest
  cases hreply : replies 0 with
  | none =>
    rw [hreply] at hrest
    rw [hrest]
    apply Session.last
    simp only [turn,h,if_neg (not_lt.mpr herrs),if_neg hsilent,hreply]
  | some code =>
    rw [hreply] at hrest
    have hturn : turn F o st replies =
        ([st'.request],some ({ st' with code := code },later replies)) := by
      simp only [turn,h,if_neg (not_lt.mpr herrs),if_neg hsilent,hreply,if_neg hproto.2.2]
    exact .more hturn hrest

/-- A request is sent, and no answer is waited for. -/
theorem session_silent (h : smtpNext F o st = some st') (herrs : st'.errs ≤ Q_ERRTHRESH)
    (hproto : st'.proto = .qsBlock ∨ st'.proto = .qsQuit)
    (hrest : Session F o st' replies requests) :
    Session F o st replies (st'.request::requests) := by
  have hturn : turn F o st replies = ([st'.request],some (st',replies)) := by
    simp only [turn,h,if_neg (not_lt.mpr herrs),if_pos hproto]
  exact .more hturn hrest

/-- After too many errors the session is given up. -/
theorem session_refused (h : smtpNext F o st = some st') (herrs : Q_ERRTHRESH < st'.errs) :
    Session F o st replies [] := by
  apply Session.last
  simp only [turn,h,if_pos herrs]

theorem session_thrown (h : smtpNext F o st = none) : Session F o st replies [] := by
  apply Session.last
  simp only [turn,h]

/-- QUIT is sent a second time, since nothing is formatted in the last state. -/
theorem session_quit (hproto : st.proto = .qsQuit) (herrs : st.errs ≤ Q_ERRTHRESH) :
    Session F o st replies [st.request] := by
  have h : smtpNext F o st = some { st with proto := .qsNone } := by
    rw [smtpNext,control,hproto]
    rfl
  apply Session.last
  cases hreply : replies 0 with
  | none => simp [turn,h,not_lt.mpr herrs,hreply]
  | some code => simp [turn,h,not_lt.mpr herrs,hreply]

/-- After the end of the message: both QUITs, if the server answers. -/
theorem exists_answered_eof (hproto : st.proto = .qsEOF) (herrs : st.errs ≤ Q_ERRTHRESH)
    (replies : ℕ → Option ℤ) :
    ∃ requests, Answered F o st replies requests ∧ (requests = [] ∨ requests = [.quit,.quit]) := by
  cases hreply : replies 0 with
  | none => exact ⟨[],answered_of_none hreply,.inl rfl⟩
  | some code =>
    refine ⟨[.quit,.quit],answered_of_some hreply ?_,.inr rfl⟩
    have h : smtpNext F o { st with code := code } =
        some { st with code := code, proto := .qsQuit, request := .quit } := by
      simp only [smtpNext,control,hproto]
      rfl
    exact session_silent h herrs (.inr rfl) (session_quit rfl herrs)

/-- A block is what is sent. -/
def MailState.withBlock (st : MailState) (data : DataState) (b : Bytes) : MailState :=
  { st with data := data, cur_buf := some b, request := .block b }

/-- The end of the message is what is sent. -/
def MailState.withEOF (st : MailState) (data : DataState) : MailState :=
  { st with data := data, cur_buf := none, proto := .qsEOF, request := .eof }

theorem smtpNext_block {data : DataState} {b : Bytes} (hproto : st.proto = .qsBlock)
    (hcode : iserror st.code = false) (h : dataNext F o st.data = some (some b,data)) :
    smtpNext F o st = some (st.withBlock data b) := by
  simp only [smtpNext,control,hproto,hcode,h]
  simp [formatRequest,MailState.withBlock,hproto]

theorem smtpNext_eof {data : DataState} (hproto : st.proto = .qsBlock)
    (hcode : iserror st.code = false) (h : dataNext F o st.data = some (none,data)) :
    smtpNext F o st = some (st.withEOF data) := by
  simp only [smtpNext,control,hproto,hcode,h]
  rfl

/-- The message is closed when there are no more blocks. -/
theorem exists_session_yields {bs : List Bytes} (hbs : Yields F o st.data bs)
    (hproto : st.proto = .qsBlock) (hcode : iserror st.code = false) (herrs : st.errs ≤ Q_ERRTHRESH)
    (replies : ℕ → Option ℤ) : ∃ ends, Session F o st replies (bs.map .block ++ .eof::ends) ∧
      (ends = [] ∨ ends = [.quit,.quit]) := by
  generalize hdata : st.data = data at hbs
  induction hbs generalizing st with
  | @stop data data' h =>
    have herrs' : (st.withEOF data').errs ≤ Q_ERRTHRESH := herrs
    obtain ⟨ends,hends,hlast⟩ := exists_answered_eof rfl herrs' replies
    refine ⟨ends,?_,hlast⟩
    exact session_answered (smtpNext_eof hproto hcode (hdata ▸ h)) herrs' ⟨nofun,nofun,nofun⟩ hends
  | @more data data' b bs h hrest ih =>
    have hproto' : (st.withBlock data' b).proto = .qsBlock := hproto
    obtain ⟨ends,hends,hlast⟩ := ih hproto' hcode herrs rfl
    exact ⟨ends,session_silent (smtpNext_block hproto hcode (hdata ▸ h)) herrs (.inl hproto) hends,hlast⟩

/-- Where a block throws, the session ends. -/
theorem session_breaks {bs : List Bytes} (hbs : Breaks F o st.data bs)
    (hproto : st.proto = .qsBlock) (hcode : iserror st.code = false) (herrs : st.errs ≤ Q_ERRTHRESH) :
    Session F o st replies (bs.map .block) := by
  generalize hdata : st.data = data at hbs
  induction hbs generalizing st with
  | @thrown data h =>
    apply session_thrown
    simp only [smtpNext,control,hproto,hcode,hdata,h]
    rfl
  | @more data data' b bs h hrest ih =>
    have hproto' : (st.withBlock data' b).proto = .qsBlock := hproto
    have hbs' := ih hproto' hcode herrs rfl
    exact session_silent (smtpNext_block hproto hcode (hdata ▸ h)) herrs (.inl hproto) hbs'

/-- The header is what is sent. -/
def MailState.withHeader (o : MailOpts) (st : MailState) : MailState :=
  { st with
    data := dataFirst o st.data, cur_buf := some (dataFirst o st.data).buf, proto := .qsBlock,
    request := .block (dataFirst o st.data).buf }

/-- DATA is sent once more. -/
def MailState.withData (o : MailOpts) (st : MailState) : MailState :=
  { st with
    data := dataFirst o st.data, cur_buf := some (dataFirst o st.data).buf, proto := .qsData,
    errs := st.errs+1, request := .data }

theorem dataFirst_buf_ne_nil (data : DataState) : (dataFirst o data).buf ≠ [] :=
  List.append_ne_nil_of_right_ne_nil _ (by decide)

theorem smtpNext_header (hproto : st.proto = .qsData) (hcode : iserror st.code = false) :
    smtpNext F o st = some (st.withHeader o) := by
  simp [smtpNext,control,hproto,hcode,give_of_ne_nil (dataFirst_buf_ne_nil st.data),formatRequest,
    MailState.withHeader]

theorem smtpNext_data (hproto : st.proto = .qsData) (hcode : iserror st.code = true) :
    smtpNext F o st = some (st.withData o) := by
  simp [smtpNext,control,hproto,hcode,give_of_ne_nil (dataFirst_buf_ne_nil st.data),formatRequest,
    MailState.withData]

/-- What is sent behind the recipients. -/
def Request.Message : Request → Prop
  | .data | .block _ | .eof | .quit => True
  | _ => False

theorem message_of_mem_blocks {bs : List Bytes} {r : Request} (hr : r ∈ bs.map Request.block) :
    r.Message := by
  obtain ⟨b,-,rfl⟩ := List.mem_map.mp hr
  trivial

/-- The server takes the message, and it is sent as far as it can be read. -/
theorem exists_session_header (hproto : st.proto = .qsData) (hcode : iserror st.code = false)
    (herrs : st.errs ≤ Q_ERRTHRESH) (replies : ℕ → Option ℤ) :
    ∃ requests, Session F o st replies requests ∧ ∀ r ∈ requests, r.Message := by
  have hnext := smtpNext_header (F := F) (o := o) hproto hcode
  have hplaced : (st.withHeader o).data.Placed o := placed_dataFirst
  have hcode' : iserror (st.withHeader o).code = false := hcode
  obtain ⟨bs,hbs | hbs⟩ := yields_or_breaks (F := F) hplaced
  · obtain ⟨ends,hends,hlast⟩ := exists_session_yields hbs rfl hcode' herrs replies
    refine ⟨_,session_silent hnext herrs (.inl rfl) hends,?_⟩
    simp only [List.forall_mem_cons,List.forall_mem_append]
    refine ⟨trivial,fun r => message_of_mem_blocks,trivial,?_⟩
    rcases hlast with rfl | rfl
    · exact nofun
    · simp only [List.forall_mem_cons]
      exact ⟨trivial,trivial,nofun⟩
  · refine ⟨_,session_silent hnext herrs (.inl rfl) (session_breaks hbs rfl hcode' herrs),?_⟩
    rw [List.forall_mem_cons]
    exact ⟨trivial,fun r => message_of_mem_blocks⟩

/-- After DATA only the message is sent, and the session ends. -/
theorem exists_answered_data (hproto : st.proto = .qsData) (herrs : st.errs ≤ Q_ERRTHRESH)
    (replies : ℕ → Option ℤ) :
    ∃ requests, Answered F o st replies requests ∧ ∀ r ∈ requests, r.Message := by
  induction hn : Q_ERRTHRESH-st.errs using Nat.strong_induction_on generalizing st replies with
  | _ n ih =>
    cases hreply : replies 0 with
    | none => exact ⟨[],answered_of_none hreply,nofun⟩
    | some code =>
      cases hcode : iserror code with
      | false =>
        have hproto' : { st with code := code }.proto = .qsData := hproto
        obtain ⟨requests,hsession,hmessage⟩ := exists_session_header hproto' hcode herrs (later replies)
        exact ⟨requests,answered_of_some hreply hsession,hmessage⟩
      | true =>
        have hnext : smtpNext F o { st with code := code } = some ({ st with code := code }.withData o) :=
          smtpNext_data hproto hcode
        by_cases herrs' : st.errs = Q_ERRTHRESH
        · exact ⟨[],answered_of_some hreply (session_refused hnext (Nat.lt_succ_of_le herrs'.ge)),nofun⟩
        · have hle : st.errs+1 ≤ Q_ERRTHRESH := Nat.lt_of_le_of_ne herrs herrs'
          have hlt : Q_ERRTHRESH-(st.errs+1) < n := by omega
          have hproto' : ({ st with code := code }.withData o).proto = .qsData := rfl
          obtain ⟨requests,hrest,hmessage⟩ := ih _ hlt hproto' hle (later replies) rfl
          refine ⟨_,answered_of_some hreply (session_answered hnext hle ⟨nofun,nofun,nofun⟩ hrest),?_⟩
          rw [List.forall_mem_cons]
          exact ⟨trivial,hmessage⟩

end Smx
