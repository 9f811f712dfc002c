import Smx.Mail.Phases

/-! Which recipients are offered to the server before the message. -/
namespace Smx

/-- The recipients of a list. -/
def recipients (s : Bytes) : List Bytes := (s.splitOnP rcptDelim).filter (· ≠ [])

/-- The recipients that have been offered since the last MAIL. -/
def Request.offer (offered : List Bytes) : Request → List Bytes
  | .mail _ => []
  | .rcpt r => offered ++ [r]
  | _ => offered

/-- Whenever DATA is sent, all have been offered since the last MAIL, each once and in order. -/
def AllOffered (all : List Bytes) : List Bytes → List Request → Prop
  | _,[] => True
  | offered,.data::requests => offered = all ∧ AllOffered all offered requests
  | offered,r::requests => AllOffered all (r.offer offered) requests

/-- Each RCPT has room in the buffer; it is as long as the one before and 1024 bytes more. -/
def Fits : ℕ → List Bytes → Prop
  | _,[] => True
  | last,r::rs => (Request.rcpt r).text.length < last+1024 ∧ Fits (Request.rcpt r).text.length rs

/-- So many replies refuse, the next one accepts, and then these come. -/
inductive Attempts : (ℕ → Option ℤ) → ℕ → (ℕ → Option ℤ) → Prop
  | accepted {replies : ℕ → Option ℤ} {code : ℤ} (h : replies 0 = some code)
      (hcode : iserror code = false) : Attempts replies 0 (later replies)
  | refused {replies rest : ℕ → Option ℤ} {n : ℕ} {code : ℤ} (h : replies 0 = some code)
      (hcode : iserror code = true) (hrest : Attempts (later replies) n rest) : Attempts replies (n+1) rest

theorem recipients_nil : recipients [] = [] := by
  rw [recipients,List.splitOnP_nil]
  rfl

theorem recipients_dropWhile (s : Bytes) : recipients (s.dropWhile rcptDelim) = recipients s := by
  induction s with
  | nil => rfl
  | cons c s ih =>
    cases hc : rcptDelim c with
    | true =>
      rw [List.dropWhile_cons_of_pos hc,ih,recipients,recipients,List.splitOnP_cons_eq_if_modifyHead,
        if_pos hc]
      rfl
    | false => rw [List.dropWhile_cons_of_neg (ne_true_of_eq_false hc)]

theorem recipients_token {r : Bytes} (hne : r ≠ []) (hr : ∀ c ∈ r, rcptDelim c = false) :
    recipients r = [r] := by
  rw [recipients,List.splitOnP_eq_singleton hr]
  exact List.filter_eq_self.mpr (List.forall_mem_singleton.mpr (by simpa using hne))

theorem recipients_token_cons {r rest : Bytes} {c : Byte} (hne : r ≠ [])
    (hr : ∀ c ∈ r, rcptDelim c = false) (hc : rcptDelim c = true) :
    recipients (r ++ c::rest) = r::recipients rest := by
  rw [recipients,List.splitOnP_append_cons_of_forall_mem hr _ hc,List.filter_cons_of_pos (by simpa using hne)]
  rfl

theorem strtok_eq_none {s : Bytes} (h : strtok s = none) : recipients s = [] := by
  rw [strtok] at h
  cases hs : s.dropWhile rcptDelim with
  | nil => rw [← recipients_dropWhile,hs,recipients_nil]
  | cons c s =>
    rw [hs] at h
    cases h

/-- A token, and what stands before and behind it. -/
theorem strtok_eq_some {s r rest : Bytes} (h : strtok s = some (r,rest)) :
    r ≠ [] ∧ (∀ c ∈ r, rcptDelim c = false) ∧ recipients s = r::recipients rest := by
  rw [strtok] at h
  cases hs : s.dropWhile rcptDelim with
  | nil =>
    rw [hs] at h
    cases h
  | cons c t =>
    rw [hs] at h
    obtain ⟨hr,hrest⟩ := Prod.mk.inj (Option.some.inj h)
    have hc : rcptDelim c = false := by
      have hhead := List.head?_dropWhile_not rcptDelim s
      rw [hs] at hhead
      simpa using hhead
    have hne : r ≠ [] := by
      rw [← hr,List.takeWhile_cons_of_pos (by simpa using hc)]
      exact List.cons_ne_nil _ _
    have htoken : ∀ c ∈ r, rcptDelim c = false := by
      intro c hmem
      rw [← hr] at hmem
      simpa using List.mem_takeWhile_imp hmem
    refine ⟨hne,htoken,?_⟩
    have happ : r ++ (c::t).dropWhile (!rcptDelim ·) = c::t := by
      rw [← hr]
      exact List.takeWhile_append_dropWhile
    rw [← recipients_dropWhile,hs,← happ]
    cases htail : (c::t).dropWhile (!rcptDelim ·) with
    | nil =>
      rw [htail] at hrest
      rw [List.append_nil,recipients_token hne htoken,← hrest,List.drop_nil,recipients_nil]
    | cons d u =>
      have hd : rcptDelim d = true := by
        have hhead := List.head?_dropWhile_not (!rcptDelim ·) (c::t)
        rw [htail] at hhead
        simpa using hhead
      rw [htail] at hrest
      rw [recipients_token_cons hne htoken hd,← hrest]
      rfl

theorem strtok_of_recipients_nil {s : Bytes} (h : recipients s = []) : strtok s = none := by
  cases htok : strtok s with
  | none => rfl
  | some x => cases (strtok_eq_some htok).2.2.symm.trans h

theorem strtok_of_recipients_cons {s r : Bytes} {rs : List Bytes} (h : recipients s = r::rs) :
    ∃ rest, strtok s = some (r,rest) ∧ recipients rest = rs := by
  cases htok : strtok s with
  | none => cases (strtok_eq_none htok).symm.trans h
  | some x =>
    obtain ⟨hr,hrest⟩ := List.cons.inj ((strtok_eq_some htok).2.2.symm.trans h)
    exact ⟨x.2,by rw [← hr],hrest⟩

/-- Once the end of the first token has been written into the buffer, it shows no other one. -/
theorem recipients_cut {s r rest : Bytes} (h : strtok s = some (r,rest)) :
    recipients (s.takeWhile rcptDelim ++ r) = [r] := by
  obtain ⟨hne,hr,-⟩ := strtok_eq_some h
  have hdrop : (s.takeWhile rcptDelim ++ r).dropWhile rcptDelim = r := by
    rw [List.dropWhile_append_of_pos (fun c hc => List.mem_takeWhile_imp hc)]
    cases r with
    | nil => rfl
    | cons c r => exact List.dropWhile_cons_of_neg (ne_true_of_eq_false (hr c List.mem_cons_self))
  rw [← recipients_dropWhile,hdrop,recipients_token hne hr]

theorem head?_cut {s r rest : Bytes} (h : strtok s = some (r,rest)) :
    (s.takeWhile rcptDelim ++ r).head? = s.head? := by
  obtain ⟨hne,-,-⟩ := strtok_eq_some h
  cases hs : s.takeWhile rcptDelim with
  | nil =>
    have hdrop : s.dropWhile rcptDelim = s := by
      have happ := List.takeWhile_append_dropWhile (p := rcptDelim) (l := s)
      rwa [hs] at happ
    rw [strtok,hdrop] at h
    cases s with
    | nil => cases h
    | cons c s =>
      obtain ⟨hr,-⟩ := Prod.mk.inj (Option.some.inj h)
      rw [List.nil_append,← hr]
      have hc : rcptDelim c = false := by
        by_contra hc
        rw [List.takeWhile_cons_of_pos (Bool.eq_true_of_not_eq_false hc)] at hs
        cases hs
      rw [List.takeWhile_cons_of_pos (by simpa using hc)]
      rfl
  | cons c t =>
    have happ := List.takeWhile_append_dropWhile (p := rcptDelim) (l := s)
    rw [hs] at happ
    rw [← happ]
    rfl

variable {F : MailFiles} {o : MailOpts} {st : MailState} {replies : ℕ → Option ℤ}
  {requests : List Request} {all offered rs : List Bytes} {code : ℤ} {last : ℕ}

/-- The RCPT requests for some recipients. -/
def rcptRequests (last : Request) : List Bytes → List Request
  | [] => []
  | r::rs => last.format (.rcpt r)::rcptRequests (last.format (.rcpt r)) rs

/-- The recipients whose RCPT is sent as a whole. -/
def whole (last : ℕ) : List Bytes → List Bytes
  | [] => []
  | r::rs =>
    let rest := whole (Request.rcpt r).text.length rs
    if (Request.rcpt r).text.length < last+1024 then r::rest else rest

theorem whole_sublist (last : ℕ) (rs : List Bytes) : (whole last rs).Sublist rs := by
  induction rs generalizing last with
  | nil => exact List.Sublist.refl _
  | cons r rs ih =>
    rw [whole]
    split_ifs
    · exact (ih _).cons_cons r
    · exact (ih _).cons r

theorem whole_eq_iff (last : ℕ) (rs : List Bytes) : whole last rs = rs ↔ Fits last rs := by
  induction rs generalizing last with
  | nil => exact iff_of_true rfl trivial
  | cons r rs ih =>
    rw [whole,Fits]
    split_ifs with hroom
    · rw [List.cons_inj_right,ih]
      exact (and_iff_right hroom).symm
    · refine iff_of_false ?_ (fun h => hroom h.1)
      intro heq
      have hlen := (whole_sublist (Request.rcpt r).text.length rs).length_le
      rw [heq,List.length_cons] at hlen
      omega

theorem allOffered_rcptRequests (last : Request) (rs : List Bytes) :
    AllOffered all offered (rcptRequests last rs ++ requests) ↔
      AllOffered all (offered ++ whole last.text.length rs) requests := by
  induction rs generalizing last offered with
  | nil => rw [whole,List.append_nil]; rfl
  | cons r rs ih =>
    rw [rcptRequests,whole,List.cons_append]
    split_ifs with hroom
    · have hwhole : last.format (.rcpt r) = .rcpt r := if_pos hroom
      rw [hwhole,AllOffered,ih,Request.offer,List.append_assoc]
      · rfl
      · exact nofun
    · have hcut : last.format (.rcpt r) = .cut (Request.rcpt r).text (last.text.length+1023) :=
        if_neg hroom
      rw [hcut,AllOffered,ih,Request.offer]
      · rfl
      · exact nofun
      all_goals exact nofun

theorem allOffered_message {message : List Request} (h : ∀ r ∈ message, r.Message) :
    AllOffered all all message := by
  induction message with
  | nil => trivial
  | cons r message ih =>
    have hrest := ih (List.forall_mem_of_forall_mem_cons h)
    have hr := h r List.mem_cons_self
    cases r with
    | data => exact ⟨rfl,hrest⟩
    | block | eof | quit => exact hrest
    | empty | ehlo | helo | mail | rcpt | cut => cases hr

theorem allOffered_of_no_data (h : Request.data ∉ requests) : AllOffered all offered requests := by
  induction requests generalizing offered with
  | nil => trivial
  | cons r requests ih =>
    rw [List.mem_cons,not_or] at h
    cases r with
    | data => exact absurd rfl h.1
    | block | eof | quit | empty | ehlo | helo | mail | rcpt | cut => exact ih h.2

theorem data_ne_format (last : Request) (r : Bytes) : Request.data ≠ last.format (.rcpt r) := by
  rw [Request.format]
  split_ifs <;> rintro ⟨⟩

/-- A recipient that was taken sets the errors back. -/
def MailState.cleared (st : MailState) : MailState :=
  if iserror st.code then st else { st with errs := 0 }

theorem cleared_errs_le (st : MailState) : st.cleared.errs ≤ st.errs := by
  rw [MailState.cleared]
  split_ifs
  · exact le_rfl
  · exact Nat.zero_le _

/-- What is left of the state when the next recipient is looked for. -/
theorem cleared_eq (st : MailState) : st.cleared = { st with errs := st.cleared.errs } := by
  rw [MailState.cleared]
  split_ifs <;> rfl

/-- RCPT is sent. -/
def MailState.withRcpt (st : MailState) (r rest : Bytes) : MailState :=
  { st with proto := .qsRcpt, cur_buf := some r, tokens := rest, request := st.request.format (.rcpt r) }

/-- DATA is sent, behind the last recipient. -/
def MailState.withFirstData (st : MailState) : MailState :=
  { st with cur_buf := none, tokens := [], proto := .qsData, request := .data }

theorem control_rcpt (hproto : st.proto = .qsRcpt) : control F o st =
    some (if st.cleared.rcptNext.cur_buf = none then { st.cleared.rcptNext with proto := .qsData }
      else st.cleared.rcptNext) := by
  cases st
  cases hproto
  rfl

theorem smtpNext_rcpt {r rest : Bytes} (hproto : st.proto = .qsRcpt)
    (h : strtok st.tokens = some (r,rest)) :
    smtpNext F o st = some (st.cleared.withRcpt r rest) := by
  have htok : st.cleared.rcptNext = { st.cleared with cur_buf := some r, tokens := rest } := by
    rw [cleared_eq,MailState.rcptNext,h]
  have hproto' : st.cleared.proto = .qsRcpt := by
    rw [cleared_eq]
    exact hproto
  rw [smtpNext,control_rcpt hproto,htok,if_neg (by rintro ⟨⟩)]
  simp [formatRequest,hproto',MailState.withRcpt]

theorem smtpNext_firstData (hproto : st.proto = .qsRcpt) (h : strtok st.tokens = none) :
    smtpNext F o st = some st.cleared.withFirstData := by
  have htok : st.cleared.rcptNext = { st.cleared with cur_buf := none, tokens := [] } := by
    rw [cleared_eq,MailState.rcptNext,h]
  rw [smtpNext,control_rcpt hproto,htok,if_pos rfl]
  rfl

/-- The other recipients are offered, and then the message is sent, as long as the server replies. -/
theorem exists_answered_rcpt (hproto : st.proto = .qsRcpt) (herrs : st.errs ≤ Q_ERRTHRESH)
    (hrs : recipients st.tokens = rs) (replies : ℕ → Option ℤ) :
    ∃ requests, Answered F o st replies requests ∧
      ((∃ i ≤ rs.length, replies i = none) ∧ Request.data ∉ requests ∨
        (∀ i ≤ rs.length, replies i ≠ none) ∧ ∃ message,
          requests = rcptRequests st.request rs ++ .data::message ∧ ∀ r ∈ message, r.Message) := by
  induction rs generalizing st replies with
  | nil =>
    cases hreply : replies 0 with
    | none =>
      exact ⟨[],answered_of_none hreply,.inl ⟨⟨0,le_rfl,hreply⟩,List.not_mem_nil⟩⟩
    | some code =>
      have hproto' : { st with code := code }.proto = .qsRcpt := hproto
      have hle := (cleared_errs_le { st with code := code }).trans herrs
      have hdata : ({ st with code := code }.cleared.withFirstData).proto = .qsData := rfl
      obtain ⟨message,hmessage,hall⟩ := exists_answered_data (F := F) (o := o) hdata hle (later replies)
      have hnext := smtpNext_firstData (F := F) (o := o) hproto' (strtok_of_recipients_nil hrs)
      refine ⟨.data::message,answered_of_some hreply ?_,.inr ⟨?_,message,rfl,hall⟩⟩
      · exact session_answered hnext hle ⟨nofun,nofun,nofun⟩ hmessage
      · intro i hi
        rw [Nat.le_zero.mp hi,hreply]
        exact nofun
  | cons r rs ih =>
    cases hreply : replies 0 with
    | none =>
      exact ⟨[],answered_of_none hreply,.inl ⟨⟨0,Nat.zero_le _,hreply⟩,List.not_mem_nil⟩⟩
    | some code =>
      obtain ⟨rest,htok,hrest⟩ := strtok_of_recipients_cons hrs
      have hproto' : { st with code := code }.proto = .qsRcpt := hproto
      have hle := (cleared_errs_le { st with code := code }).trans herrs
      have hnext := smtpNext_rcpt (F := F) (o := o) hproto' htok
      have hrcpt : ({ st with code := code }.cleared.withRcpt r rest).proto = .qsRcpt := rfl
      have hrequest : ({ st with code := code }.cleared.withRcpt r rest).request =
          st.request.format (.rcpt r) := by
        rw [cleared_eq]
        rfl
      obtain ⟨requests,hrequests,hreplies⟩ := ih hrcpt hle hrest (later replies)
      rw [hrequest] at hreplies
      refine ⟨st.request.format (.rcpt r)::requests,answered_of_some hreply ?_,?_⟩
      · rw [← hrequest]
        exact session_answered hnext hle ⟨nofun,nofun,nofun⟩ hrequests
      · obtain ⟨⟨i,hi,hnone⟩,hdata⟩ | ⟨hsome,message,hmessage,hall⟩ := hreplies
        · left
          refine ⟨⟨i+1,Nat.succ_le_succ hi,hnone⟩,?_⟩
          rw [List.mem_cons,not_or]
          exact ⟨data_ne_format _ _,hdata⟩
        · right
          refine ⟨?_,message,?_,hall⟩
          · intro i hi
            cases i with
            | zero => rw [hreply]; exact nofun
            | succ i => exact hsome i (Nat.le_of_succ_le_succ hi)
          · rw [hmessage]
            rfl

/-- The recipients that are left after so many refused MAILs. -/
def remaining (m : ℕ) (rs : List Bytes) : List Bytes := if m = 0 then rs else rs.take 1

/-- Whenever MAIL is accepted in time, and the server replies until DATA, all recipients are left, and
there is room for each. -/
def MailRight (all : List Bytes) (last errs : ℕ) (rs : List Bytes) (replies : ℕ → Option ℤ) : Prop :=
  ∀ m rest, Attempts replies m rest → errs+m ≤ Q_ERRTHRESH →
    (∀ i < max 1 (remaining m rs).length, rest i ≠ none) → remaining m rs = all ∧ Fits last all

theorem remaining_succ (m : ℕ) (rs : List Bytes) : remaining (m+1) rs = remaining m (rs.take 1) := by
  rw [remaining,if_neg (Nat.succ_ne_zero m),remaining]
  split_ifs
  · rfl
  · rw [List.take_take,min_self]

theorem mailRight_none (h : replies 0 = none) (errs : ℕ) : MailRight all last errs rs replies := by
  intro m rest htried
  cases htried with
  | accepted h' | refused h' => cases h.symm.trans h'

theorem mailRight_late {errs : ℕ} (herrs : Q_ERRTHRESH < errs) : MailRight all last errs rs replies :=
  fun _ _ _ hle => absurd (Nat.le_of_add_right_le hle) (not_le.mpr herrs)

theorem mailRight_accepted (h : replies 0 = some code) (hcode : iserror code = false) {errs : ℕ}
    (herrs : errs ≤ Q_ERRTHRESH) : MailRight all last errs rs replies ↔
      ((∀ i < max 1 rs.length, later replies i ≠ none) → rs = all ∧ Fits last all) := by
  constructor
  · intro hright hall
    exact hright 0 _ (.accepted h hcode) herrs hall
  · intro hright m rest htried _ hall
    cases htried with
    | accepted _ _ => exact hright hall
    | refused h' hcode' _ =>
      cases h.symm.trans h'
      cases hcode.symm.trans hcode'

theorem mailRight_refused (h : replies 0 = some code) (hcode : iserror code = true) (errs : ℕ) :
    MailRight all last errs rs replies ↔ MailRight all last (errs+1) (rs.take 1) (later replies) := by
  constructor
  · intro hright m rest htried hle hall
    rw [← remaining_succ] at hall ⊢
    exact hright (m+1) rest (.refused h hcode htried) (by omega) hall
  · intro hright m rest htried hle hall
    cases htried with
    | accepted h' hcode' =>
      cases h.symm.trans h'
      cases hcode.symm.trans hcode'
    | @refused _ _ n _ _ _ hrest =>
      rw [remaining_succ] at hall ⊢
      exact hright n rest hrest (by omega) hall

theorem whole_eq_all_iff (last : ℕ) (hlen : rs.length ≤ all.length) :
    whole last rs = all ↔ rs = all ∧ Fits last all := by
  constructor
  · intro h
    have heq : whole last rs = rs := by
      apply (whole_sublist last rs).eq_of_length_le
      rw [h]
      exact hlen
    exact ⟨heq.symm.trans h,(h.symm.trans heq) ▸ (whole_eq_iff last rs).mp heq⟩
  · rintro ⟨rfl,hfits⟩
    exact (whole_eq_iff _ _).mpr hfits

/-- The first token has been taken from the list. -/
def MailState.tokened (st : MailState) : MailState :=
  match strtok st.rcpt with
  | none => { st with cur_buf := none, tokens := [] }
  | some (r,rest) =>
    { st with rcpt := st.rcpt.takeWhile rcptDelim ++ r, cur_buf := some r, tokens := rest }

theorem rcptFirst_eq (h : st.rcpt.head? ≠ some (ch '@')) : rcptFirst F st = some st.tokened := by
  cases hrcpt : strtok st.rcpt with
  | none => simp [rcptFirst,MailState.tokened,h,hrcpt]
  | some r => simp [rcptFirst,MailState.tokened,h,hrcpt]

theorem recipients_tokened (st : MailState) :
    recipients st.tokened.rcpt = (recipients st.rcpt).take 1 := by
  rw [MailState.tokened]
  cases htok : strtok st.rcpt with
  | none =>
    rw [strtok_eq_none htok,List.take_nil]
  | some x =>
    rw [(strtok_eq_some htok).2.2]
    exact recipients_cut htok

theorem head?_tokened (st : MailState) : st.tokened.rcpt.head? = st.rcpt.head? := by
  rw [MailState.tokened]
  cases htok : strtok st.rcpt with
  | none => rfl
  | some x => exact head?_cut htok

theorem tokened_eq (st : MailState) : st.tokened =
    { st with rcpt := st.tokened.rcpt, cur_buf := st.tokened.cur_buf, tokens := st.tokened.tokens } := by
  rw [MailState.tokened]
  cases strtok st.rcpt <;> rfl

/-- MAIL is sent once more. -/
def MailState.withMail (o : MailOpts) (st : MailState) : MailState :=
  { st.tokened with errs := st.errs+1, request := .mail o.from_ }

/-- The first RCPT is sent; without a recipient it is MAIL again. -/
def MailState.withFirstRcpt (o : MailOpts) (st : MailState) : MailState :=
  { st.tokened with
    proto := .qsRcpt, request := formatRequest o { st.tokened with proto := .qsRcpt } }

theorem smtpNext_mail (hproto : st.proto = .qsMail) (hcode : iserror st.code = true)
    (hlist : st.rcpt.head? ≠ some (ch '@')) : smtpNext F o st = some (st.withMail o) := by
  have hcode' : iserror st.tokened.code = true := by
    rw [tokened_eq]
    exact hcode
  have hproto' : st.tokened.proto = .qsMail := by
    rw [tokened_eq]
    exact hproto
  have herrs : st.tokened.errs = st.errs := by rw [tokened_eq]
  simp [smtpNext,control,hproto,rcptFirst_eq hlist,hcode',formatRequest,hproto',MailState.withMail,herrs]

theorem smtpNext_firstRcpt (hproto : st.proto = .qsMail) (hcode : iserror st.code = false)
    (hlist : st.rcpt.head? ≠ some (ch '@')) : smtpNext F o st = some (st.withFirstRcpt o) := by
  have hcode' : iserror st.tokened.code = false := by
    rw [tokened_eq]
    exact hcode
  simp [smtpNext,control,hproto,rcptFirst_eq hlist,hcode',MailState.withFirstRcpt]

theorem allOffered_data {message : List Request} (h : ∀ r ∈ message, r.Message) :
    AllOffered all offered (.data::message) ↔ offered = all := by
  rw [AllOffered]
  constructor
  · exact And.left
  · rintro rfl
    exact ⟨rfl,allOffered_message h⟩

/-- MAIL has been accepted. -/
theorem exists_session_mail (hproto : st.proto = .qsMail) (hcode : iserror st.code = false)
    (hrequest : st.request = .mail o.from_) (herrs : st.errs ≤ Q_ERRTHRESH)
    (hlist : st.rcpt.head? ≠ some (ch '@')) (hrs : recipients st.rcpt = rs)
    (hlen : rs.length ≤ all.length) (replies : ℕ → Option ℤ) :
    ∃ requests, Session F o st replies requests ∧ (AllOffered all [] requests ↔
      ((∀ i < max 1 rs.length, replies i ≠ none) →
        rs = all ∧ Fits (Request.mail o.from_).text.length all)) := by
  have hnext := smtpNext_firstRcpt (F := F) (o := o) hproto hcode hlist
  have hsent : (st.withFirstRcpt o).proto = .qsRcpt := rfl
  have herrs' : (st.withFirstRcpt o).errs ≤ Q_ERRTHRESH := by
    rw [MailState.withFirstRcpt,tokened_eq]
    exact herrs
  have hall_iff := whole_eq_all_iff (Request.mail o.from_).text.length hlen
  cases rs with
  | nil =>
    have htok : st.tokened = { st with cur_buf := none, tokens := [] } := by
      rw [MailState.tokened,strtok_of_recipients_nil hrs]
    have hagain : (st.withFirstRcpt o).request = .mail o.from_ := by
      rw [MailState.withFirstRcpt,htok]
      exact hrequest
    have htokens : recipients (st.withFirstRcpt o).tokens = [] := by
      rw [MailState.withFirstRcpt,htok]
      exact recipients_nil
    obtain ⟨requests,hrequests,hreplies⟩ := exists_answered_rcpt hsent herrs' htokens replies
    refine ⟨.mail o.from_::requests,?_,?_⟩
    · rw [← hagain]
      exact session_answered hnext herrs' ⟨nofun,nofun,nofun⟩ hrequests
    · have hreset : AllOffered all [] (.mail o.from_::requests) ↔ AllOffered all [] requests := Iff.rfl
      rw [hreset]
      obtain ⟨⟨i,hi,hnone⟩,hdata⟩ | ⟨hsome,message,rfl,hall⟩ := hreplies
      · exact iff_of_true (allOffered_of_no_data hdata)
          (fun h => absurd hnone (h i (Nat.lt_succ_of_le hi)))
      · rw [rcptRequests,List.nil_append,allOffered_data hall,← hall_iff]
        exact (imp_iff_right fun i hi => hsome i (Nat.le_of_lt_succ hi)).symm
  | cons r rs =>
    obtain ⟨rest,hstrtok,hrest⟩ := strtok_of_recipients_cons hrs
    have htok : st.tokened =
        { st with rcpt := st.rcpt.takeWhile rcptDelim ++ r, cur_buf := some r, tokens := rest } := by
      rw [MailState.tokened,hstrtok]
    have hfirst : (st.withFirstRcpt o).request = (Request.mail o.from_).format (.rcpt r) := by
      rw [MailState.withFirstRcpt,htok,← hrequest]
      rfl
    have htokens : recipients (st.withFirstRcpt o).tokens = rs := by
      rw [MailState.withFirstRcpt,htok]
      exact hrest
    obtain ⟨requests,hrequests,hreplies⟩ := exists_answered_rcpt hsent herrs' htokens replies
    rw [hfirst] at hreplies
    refine ⟨(Request.mail o.from_).format (.rcpt r)::requests,?_,?_⟩
    · rw [← hfirst]
      exact session_answered hnext herrs' ⟨nofun,nofun,nofun⟩ hrequests
    · have hmax : max 1 (r::rs).length = rs.length+1 := by
        rw [List.length_cons]
        omega
      rw [hmax]
      obtain ⟨⟨i,hi,hnone⟩,hdata⟩ | ⟨hsome,message,rfl,hall⟩ := hreplies
      · refine iff_of_true (allOffered_of_no_data ?_) (fun h => absurd hnone (h i (Nat.lt_succ_of_le hi)))
        rw [List.mem_cons,not_or]
        exact ⟨data_ne_format _ _,hdata⟩
      · have happ : AllOffered all [] (rcptRequests (.mail o.from_) (r::rs) ++ .data::message) ↔ _ :=
          allOffered_rcptRequests (.mail o.from_) (r::rs)
        rw [rcptRequests,List.cons_append,List.nil_append,allOffered_data hall,hall_iff] at happ
        exact happ.trans (imp_iff_right fun i hi => hsome i (Nat.le_of_lt_succ hi)).symm

/-- MAIL has been sent. -/
theorem exists_answered_mail (hproto : st.proto = .qsMail) (hrequest : st.request = .mail o.from_)
    (herrs : st.errs ≤ Q_ERRTHRESH) (hlist : st.rcpt.head? ≠ some (ch '@'))
    (hlen : (recipients st.rcpt).length ≤ all.length) (replies : ℕ → Option ℤ) :
    ∃ requests, Answered F o st replies requests ∧ (AllOffered all [] requests ↔
      MailRight all (Request.mail o.from_).text.length st.errs (recipients st.rcpt) replies) := by
  induction hn : Q_ERRTHRESH-st.errs using Nat.strong_induction_on generalizing st replies with
  | _ n ih =>
    cases hreply : replies 0 with
    | none => exact ⟨[],answered_of_none hreply,iff_of_true trivial (mailRight_none hreply _)⟩
    | some code =>
      have hproto' : { st with code := code }.proto = .qsMail := hproto
      have hlist' : { st with code := code }.rcpt.head? ≠ some (ch '@') := hlist
      cases hcode : iserror code with
      | false =>
        obtain ⟨requests,hsession,hright⟩ :=
          exists_session_mail (F := F) hproto' hcode hrequest herrs hlist' rfl hlen (later replies)
        exact ⟨requests,answered_of_some hreply hsession,
          hright.trans (mailRight_accepted hreply hcode herrs).symm⟩
      | true =>
        have hnext := smtpNext_mail (F := F) (o := o) hproto' hcode hlist'
        rw [mailRight_refused hreply hcode]
        by_cases herrs' : st.errs = Q_ERRTHRESH
        · have hlt : Q_ERRTHRESH < st.errs+1 := Nat.lt_succ_of_le herrs'.ge
          exact ⟨[],answered_of_some hreply (session_refused hnext hlt),
            iff_of_true trivial (mailRight_late hlt)⟩
        · have hle : st.errs+1 ≤ Q_ERRTHRESH := Nat.lt_of_le_of_ne herrs herrs'
          have hlt : Q_ERRTHRESH-(st.errs+1) < n := by omega
          have hrcpt := recipients_tokened { st with code := code }
          have hhead := (head?_tokened { st with code := code }).trans_ne hlist
          have hsent : ({ st with code := code }.withMail o).proto = .qsMail := by
            rw [MailState.withMail,tokened_eq]
            exact hproto
          have hlen' : (recipients ({ st with code := code }.withMail o).rcpt).length ≤ all.length := by
            refine (congrArg List.length hrcpt).trans_le (le_trans ?_ hlen)
            exact (List.take_sublist _ _).length_le
          obtain ⟨requests,hrequests,hright⟩ := ih _ hlt hsent rfl hle hhead hlen' (later replies) rfl
          refine ⟨_,answered_of_some hreply (session_answered hnext hle ?_ hrequests),?_⟩
          · rw [hsent]
            exact ⟨nofun,nofun,nofun⟩
          · rw [← hrcpt]
            exact hright

/-- MAIL is sent, after the greeting. -/
def MailState.withFirstMail (o : MailOpts) (st : MailState) : MailState :=
  { st with proto := .qsMail, request := .mail o.from_ }

/-- EHLO is sent. -/
def MailState.withEhlo (o : MailOpts) (st : MailState) : MailState :=
  { st with proto := .qsEhlo, errs := 0, request := st.request.format (.ehlo (cstr o.helo)) }

/-- HELO is sent, after so many errors. -/
def MailState.withHelo (o : MailOpts) (st : MailState) (errs : ℕ) : MailState :=
  { st with proto := .qsHelo, errs := errs, request := st.request.format (.helo (cstr o.helo)) }

theorem allOffered_greeting {last request : Request} (h : ∀ l, request.offer l = l)
    (hdata : request ≠ .data) : AllOffered all offered (last.format request::requests) ↔
      AllOffered all offered requests := by
  rw [Request.format]
  split_ifs
  · rw [AllOffered,h]
    exact hdata
  · rfl

theorem allOffered_ehlo : AllOffered all offered ((st.withEhlo o).request::requests) ↔
    AllOffered all offered requests :=
  allOffered_greeting (fun _ => rfl) nofun

theorem allOffered_helo {errs : ℕ} : AllOffered all offered ((st.withHelo o errs).request::requests) ↔
    AllOffered all offered requests :=
  allOffered_greeting (fun _ => rfl) nofun

/-- HELO has been sent. -/
theorem exists_answered_helo (hproto : st.proto = .qsHelo) (herrs : st.errs ≤ Q_ERRTHRESH)
    (hlist : st.rcpt.head? ≠ some (ch '@')) (replies : ℕ → Option ℤ) :
    ∃ requests, Answered F o st replies requests ∧
      (AllOffered (recipients st.rcpt) [] requests ↔ ∀ k rest, Attempts replies k rest →
        MailRight (recipients st.rcpt) (Request.mail o.from_).text.length (st.errs+k)
          (recipients st.rcpt) rest) := by
  induction hn : Q_ERRTHRESH-st.errs using Nat.strong_induction_on generalizing st replies with
  | _ n ih =>
    cases hreply : replies 0 with
    | none =>
      refine ⟨[],answered_of_none hreply,iff_of_true trivial ?_⟩
      intro k rest htried
      cases htried with
      | accepted h | refused h => cases hreply.symm.trans h
    | some code =>
      cases hcode : iserror code with
      | false =>
        have hnext : smtpNext F o { st with code := code } =
            some ({ st with code := code }.withFirstMail o) := by
          simp [smtpNext,control,hproto,hcode,formatRequest,MailState.withFirstMail]
        have hproto' : ({ st with code := code }.withFirstMail o).proto = .qsMail := rfl
        obtain ⟨requests,hrequests,hright⟩ :=
          exists_answered_mail (F := F) hproto' rfl herrs hlist le_rfl (later replies)
        refine ⟨_,answered_of_some hreply (session_answered hnext herrs ⟨(by rintro ⟨⟩),(by rintro ⟨⟩),(by rintro ⟨⟩)⟩ hrequests),?_⟩
        refine hright.trans ⟨?_,fun h => h 0 _ (.accepted hreply hcode)⟩
        intro h k rest htried
        cases htried with
        | accepted _ _ => exact h
        | refused h' hcode' _ =>
          cases hreply.symm.trans h'
          cases hcode.symm.trans hcode'
      | true =>
        have hnext : smtpNext F o { st with code := code } =
            some ({ st with code := code }.withHelo o (st.errs+1)) := by
          simp [smtpNext,control,hproto,hcode,formatRequest,MailState.withHelo]
        by_cases herrs' : st.errs = Q_ERRTHRESH
        · have hlt : Q_ERRTHRESH < st.errs+1 := Nat.lt_succ_of_le herrs'.ge
          refine ⟨[],answered_of_some hreply (session_refused hnext hlt),iff_of_true trivial ?_⟩
          intro k rest htried
          cases htried with
          | accepted h' hcode' =>
            cases hreply.symm.trans h'
            cases hcode.symm.trans hcode'
          | refused _ _ _ => exact mailRight_late (by omega)
        · have hle : st.errs+1 ≤ Q_ERRTHRESH := Nat.lt_of_le_of_ne herrs herrs'
          have hlt : Q_ERRTHRESH-(st.errs+1) < n := by omega
          have hproto' : ({ st with code := code }.withHelo o (st.errs+1)).proto = .qsHelo := rfl
          obtain ⟨requests,hrequests,hright⟩ := ih _ hlt hproto' hle hlist (later replies) rfl
          refine ⟨_,answered_of_some hreply (session_answered hnext hle ⟨(by rintro ⟨⟩),(by rintro ⟨⟩),(by rintro ⟨⟩)⟩ hrequests),?_⟩
          refine allOffered_helo.trans (hright.trans ⟨?_,?_⟩)
          · intro h k rest htried
            cases htried with
            | accepted h' hcode' =>
              cases hreply.symm.trans h'
              cases hcode.symm.trans hcode'
            | @refused _ _ k _ _ _ hrest =>
              rw [show st.errs+(k+1) = st.errs+1+k by omega]
              exact h k rest hrest
          · intro h k rest htried
            have hmail := h (k+1) rest (.refused hreply hcode htried)
            rw [show st.errs+(k+1) = st.errs+1+k by omega] at hmail
            exact hmail

/-- EHLO is sent first. -/
theorem exists_session_open (o : MailOpts) (hlist : (cstr o.rcpt).head? ≠ some (ch '@'))
    (replies : ℕ → Option ℤ) : ∃ requests, Session F o o.open replies requests ∧
      (AllOffered (recipients (cstr o.rcpt)) [] requests ↔ ∀ k rest, Attempts replies k rest →
        MailRight (recipients (cstr o.rcpt)) (Request.mail o.from_).text.length (k-1)
          (recipients (cstr o.rcpt)) rest) := by
  have hopen : smtpNext F o o.open = some (o.open.withEhlo o) := rfl
  have hsent {requests : List Request} (h : Answered F o (o.open.withEhlo o) replies requests) :
      Session F o o.open replies ((o.open.withEhlo o).request::requests) :=
    session_answered hopen (Nat.zero_le _) ⟨(by rintro ⟨⟩),(by rintro ⟨⟩),(by rintro ⟨⟩)⟩ h
  cases hreply : replies 0 with
  | none =>
    refine ⟨_,hsent (answered_of_none hreply),allOffered_ehlo.trans (iff_of_true trivial ?_)⟩
    intro k rest htried
    cases htried with
    | accepted h | refused h => cases hreply.symm.trans h
  | some code =>
    cases hcode : iserror code with
    | false =>
      have hnext : smtpNext F o { o.open.withEhlo o with code := code } =
          some ({ o.open.withEhlo o with code := code }.withFirstMail o) := by
        simp [smtpNext,control,MailState.withEhlo,hcode,formatRequest,MailState.withFirstMail]
      have hproto' : ({ o.open.withEhlo o with code := code }.withFirstMail o).proto = .qsMail := rfl
      obtain ⟨requests,hrequests,hright⟩ :=
        exists_answered_mail (F := F) hproto' rfl (Nat.zero_le _) hlist le_rfl (later replies)
      refine ⟨_,hsent (answered_of_some hreply (session_answered hnext (Nat.zero_le _)
        ⟨(by rintro ⟨⟩),(by rintro ⟨⟩),(by rintro ⟨⟩)⟩ hrequests)),?_⟩
      refine allOffered_ehlo.trans (hright.trans ⟨?_,fun h => h 0 _ (.accepted hreply hcode)⟩)
      intro h k rest htried
      cases htried with
      | accepted _ _ => exact h
      | refused h' hcode' _ =>
        cases hreply.symm.trans h'
        cases hcode.symm.trans hcode'
    | true =>
      have hnext : smtpNext F o { o.open.withEhlo o with code := code } =
          some ({ o.open.withEhlo o with code := code }.withHelo o 0) := by
        simp [smtpNext,control,MailState.withEhlo,hcode,formatRequest,MailState.withHelo,MailOpts.open]
      have hproto' : ({ o.open.withEhlo o with code := code }.withHelo o 0).proto = .qsHelo := rfl
      obtain ⟨requests,hrequests,hright⟩ :=
        exists_answered_helo (F := F) (o := o) hproto' (Nat.zero_le _) hlist (later replies)
      refine ⟨_,hsent (answered_of_some hreply (session_answered hnext (Nat.zero_le _)
        ⟨(by rintro ⟨⟩),(by rintro ⟨⟩),(by rintro ⟨⟩)⟩ hrequests)),?_⟩
      refine allOffered_ehlo.trans (allOffered_helo.trans (hright.trans ⟨?_,?_⟩))
      · intro h k rest htried
        cases htried with
        | accepted h' hcode' =>
          cases hreply.symm.trans h'
          cases hcode.symm.trans hcode'
        | @refused _ _ k _ _ _ hrest =>
          have hmail : MailRight (recipients (cstr o.rcpt)) _ (0+k) _ rest := h k rest hrest
          rw [Nat.zero_add] at hmail
          exact hmail
      · intro h k rest htried
        have hmail := h (k+1) rest (.refused hreply hcode htried)
        have herrs : MailRight (recipients (cstr o.rcpt)) (Request.mail o.from_).text.length (0+k)
            (recipients (cstr o.rcpt)) rest := by
          rw [Nat.zero_add]
          exact hmail
        exact herrs

theorem remaining_eq_iff (m : ℕ) (rs : List Bytes) : remaining m rs = rs ↔ m = 0 ∨ rs.length ≤ 1 := by
  rw [remaining]
  split_ifs with hm
  · exact iff_of_true rfl (.inl hm)
  · rw [List.take_eq_self_iff]
    exact (or_iff_right hm).symm

/-- The session comes to an end, and all recipients of the list are offered before DATA is sent. -/
def RecipientsOffered (F : MailFiles) (o : MailOpts) (replies : ℕ → Option ℤ) : Prop :=
  (∃ requests, Session F o o.open replies requests) ∧
    ∀ requests, Session F o o.open replies requests → AllOffered (recipients (cstr o.rcpt)) [] requests

/-- For every list and all replies: each recipient is offered before the message, just if, whenever
MAIL is accepted in time and the server then replies until DATA, it has not refused MAIL before or
there is only one recipient, and each RCPT has room in the buffer. -/
theorem recipientsOffered_iff (F : MailFiles) (o : MailOpts) (replies : ℕ → Option ℤ)
    (hlist : (cstr o.rcpt).head? ≠ some (ch '@')) : RecipientsOffered F o replies ↔
      ∀ k rest m rest', Attempts replies k rest → Attempts rest m rest' → k-1+m ≤ Q_ERRTHRESH →
        (∀ i < max 1 (remaining m (recipients (cstr o.rcpt))).length, rest' i ≠ none) →
          (m = 0 ∨ (recipients (cstr o.rcpt)).length ≤ 1) ∧
            Fits (Request.mail o.from_).text.length (recipients (cstr o.rcpt)) := by
  obtain ⟨requests,hsession,hright⟩ := exists_session_open (F := F) o hlist replies
  have hoffered : RecipientsOffered F o replies ↔ AllOffered (recipients (cstr o.rcpt)) [] requests := by
    constructor
    · intro h
      exact h.2 requests hsession
    · intro h
      refine ⟨⟨requests,hsession⟩,?_⟩
      intro requests' hsession'
      rwa [hsession'.unique hsession]
  rw [hoffered,hright]
  simp only [MailRight,remaining_eq_iff]
  constructor
  · intro h k rest m rest' hk hm
    exact h k rest hk m rest' hm
  · intro h k rest hk m rest' hm
    exact h k rest m rest' hk hm

/-- A server that takes everything is offered both recipients. -/
theorem recipientsOffered_iff_both :
    RecipientsOffered ⟨fun _ => none,[]⟩ { smtp := str "h", rcpt := str "a;b" } fun _ => some 250 := by
  apply (recipientsOffered_iff _ _ _ (by decide)).mpr
  intro k rest m rest' hk hm _ _
  have hzero {n : ℕ} {left : ℕ → Option ℤ} (h : Attempts (fun _ => some 250) n left) :
      n = 0 ∧ left = fun _ => some 250 := by
    cases h with
    | accepted _ _ => exact ⟨rfl,rfl⟩
    | refused h hcode _ =>
      cases h
      exact absurd hcode (by decide)
  rw [(hzero hk).2] at hm
  have hrs : recipients (cstr (str "a;b")) = [str "a",str "b"] := by decide
  refine ⟨.inl (hzero hm).1,?_⟩
  rw [hrs]
  exact ⟨by decide,by decide,trivial⟩

/-- When MAIL is refused once, the second recipient is not offered. -/
theorem second_recipient_lost : ∃ o : MailOpts, o.rcpt = str "a;b" ∧
    ∀ F, ¬RecipientsOffered F o fun n => some (if n = 1 then 451 else 250) := by
  refine ⟨{ smtp := str "h", rcpt := str "a;b" },rfl,?_⟩
  intro F h
  obtain ⟨requests,hsession,hright⟩ := exists_session_open (F := F)
    { smtp := str "h", rcpt := str "a;b" } (by decide)
    fun n => some (if n = 1 then 451 else 250)
  have hmail := hright.mp (h.2 requests hsession) 0 _ (.accepted rfl rfl) 1 _
    (.refused rfl rfl (.accepted rfl rfl)) (by decide) (fun _ _ => nofun)
  have hrs : recipients (cstr (str "a;b")) = [str "a",str "b"] := by decide
  rw [hrs] at hmail
  exact absurd hmail.1 (by decide)

end Smx
