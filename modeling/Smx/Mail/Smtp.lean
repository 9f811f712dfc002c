import Smx.Mail.Data

/-! `smtp_next` and the loop of `qsmtp`: the session with a mail server. -/
namespace Smx

def Q_ERRTHRESH : ℕ := 8

/-- The states of a session. -/
inductive Proto
  | qsNone | qsOpen | qsHelo | qsEhlo | qsMail | qsRcpt | qsData | qsBlock | qsEOF | qsQuit
  deriving DecidableEq

/-- What is sent. Of a command that is longer than the buffer only so many bytes have been written;
what else is sent stood in the memory before. -/
inductive Request
  | empty
  | ehlo (name : Bytes)
  | helo (name : Bytes)
  | mail (name : Bytes)
  | rcpt (name : Bytes)
  | data
  | block (buf : Bytes)
  | eof
  | quit
  | cut (text : Bytes) (written : ℕ)

/-- The text of a request. -/
def Request.text : Request → Bytes
  | .empty => []
  | .ehlo name => str "EHLO " ++ name ++ CRLF
  | .helo name => str "HELO " ++ name ++ CRLF
  | .mail name => str "MAIL FROM:<" ++ name ++ str ">" ++ CRLF
  | .rcpt name => str "RCPT TO:<" ++ name ++ str ">" ++ CRLF
  | .data => str "DATA" ++ CRLF
  | .block buf => buf
  | .eof => CRLF ++ str "." ++ CRLF
  | .quit => str "QUIT" ++ CRLF
  | .cut text _ => text

/-- `CStr::Format`: the buffer is 1024 bytes longer than what stood in it before, and the length is
then that of the whole text. -/
def Request.format (last : Request) (request : Request) : Request :=
  if request.text.length < last.text.length+1024 then request
  else .cut request.text (last.text.length+1023)

theorem text_format (last request : Request) : (last.format request).text = request.text := by
  rw [Request.format]
  split_ifs <;> rfl

/-- `qMailState`. `rcpt` is what `opts->rcpt` shows, `tokens` what `strtok` has not read yet. -/
structure MailState where
  proto : Proto := .qsOpen
  code : ℤ := 0
  errs : ℕ := 0
  cur_buf : Option Bytes := none
  rcpt : Bytes
  tokens : Bytes := []
  data : DataState := {}
  request : Request := .empty

def iserror (c : ℤ) : Bool := 400 ≤ c

/-- The bytes `;`, LF and CR, at which recipients end. -/
def rcptDelim (c : Byte) : Bool := c == ch ';' || c == 10 || c == 13

/-- `strtok`: the first token and what stands behind its end; none at the end of the string. -/
def strtok (s : Bytes) : Option (Bytes × Bytes) :=
  match s.dropWhile rcptDelim with
  | [] => none
  | c::s => some ((c::s).takeWhile (!rcptDelim ·),((c::s).dropWhile (!rcptDelim ·)).drop 1)

/-- `smtp_rcpt_next` from the second call on. -/
def MailState.rcptNext (st : MailState) : MailState :=
  match strtok st.tokens with
  | none => { st with cur_buf := none, tokens := [] }
  | some (r,rest) => { st with cur_buf := some r, tokens := rest }

/-- `smtp_rcpt_next(state, 1)`. The recipients may be in a file; its text is put over its name. The
end of the first token is written into the buffer. -/
def rcptFirst (F : MailFiles) (st : MailState) : Option MailState :=
  (if st.rcpt.head? = some (ch '@') then
      (F.fopen st.rcpt.tail).map fun list => cstr (list ++ st.rcpt.drop list.length)
    else some st.rcpt).map fun rcpt =>
      match strtok rcpt with
      | none => { st with rcpt := rcpt, cur_buf := none, tokens := [] }
      | some (r,rest) =>
        { st with rcpt := rcpt.takeWhile rcptDelim ++ r, cur_buf := some r, tokens := rest }

/-- The first half of `smtp_next`; none where it throws. -/
def control (F : MailFiles) (o : MailOpts) (st : MailState) : Option MailState :=
  match st.proto with
  | .qsOpen => some { st with errs := 0, proto := .qsEhlo }
  | .qsEhlo => some { st with proto := if iserror st.code then .qsHelo else .qsMail }
  | .qsHelo =>
    some (if iserror st.code then { st with errs := st.errs+1 } else { st with proto := .qsMail })
  | .qsMail =>
    (rcptFirst F st).map fun st =>
      if iserror st.code then { st with errs := st.errs+1 } else { st with proto := .qsRcpt }
  | .qsRcpt =>
    let st := (if iserror st.code then st else { st with errs := 0 }).rcptNext
    some (if st.cur_buf = none then { st with proto := .qsData } else st)
  | .qsData =>
    let st := if iserror st.code then { st with errs := st.errs+1 } else { st with proto := .qsBlock }
    let data := dataFirst o st.data
    some { st with data := data, cur_buf := (data.give data.buf).1 }
  | .qsBlock =>
    (if iserror st.code then some { st with errs := st.errs+1 }
      else (dataNext F o st.data).map fun r => { st with cur_buf := r.1, data := r.2 }).map fun st =>
        if st.cur_buf = none then { st with proto := .qsEOF } else st
  | .qsEOF => some { st with proto := .qsQuit }
  | .qsQuit => some { st with proto := .qsNone }
  | .qsNone => some st

/-- The second half of `smtp_next`. Without a recipient the old request stays. -/
def formatRequest (o : MailOpts) (st : MailState) : Request :=
  match st.proto with
  | .qsEhlo => st.request.format (.ehlo (cstr o.helo))
  | .qsHelo => st.request.format (.helo (cstr o.helo))
  | .qsMail => .mail o.from_
  | .qsRcpt =>
    match st.cur_buf with
    | some r => st.request.format (.rcpt r)
    | none => st.request
  | .qsData => .data
  | .qsBlock => .block (st.cur_buf.getD [])
  | .qsEOF => .eof
  | .qsQuit => .quit
  | .qsNone | .qsOpen => st.request

/-- `smtp_next`. -/
def smtpNext (F : MailFiles) (o : MailOpts) (st : MailState) : Option MailState :=
  (control F o st).map fun st => { st with request := formatRequest o st }

/-- The replies after the first one. -/
def later (replies : ℕ → Option ℤ) : ℕ → Option ℤ := fun n => replies (n+1)

/-- One round of the loop of `qsmtp`: what is sent, and how it goes on if it does. A reply is a code;
where none can be read, the session is given up. -/
def turn (F : MailFiles) (o : MailOpts) (st : MailState) (replies : ℕ → Option ℤ) :
    List Request × Option (MailState × (ℕ → Option ℤ)) :=
  match smtpNext F o st with
  | none => ([],none)
  | some st =>
    if Q_ERRTHRESH < st.errs then ([],none)
    else if st.proto = .qsBlock ∨ st.proto = .qsQuit then ([st.request],some (st,replies))
    else
      match replies 0 with
      | none => ([st.request],none)
      | some code =>
        ([st.request],if st.proto = .qsNone then none
          else some ({ st with code := code },later replies))

/-- The loop ends, and this is what has been sent. -/
inductive Session (F : MailFiles) (o : MailOpts) : MailState → (ℕ → Option ℤ) → List Request → Prop
  | last {st : MailState} {replies : ℕ → Option ℤ} {sent : List Request}
      (h : turn F o st replies = (sent,none)) : Session F o st replies sent
  | more {st st' : MailState} {replies replies' : ℕ → Option ℤ} {sent requests : List Request}
      (h : turn F o st replies = (sent,some (st',replies')))
      (hrest : Session F o st' replies' requests) : Session F o st replies (sent ++ requests)

/-- What `qsmtp` fills in before it begins; none where it refuses to. -/
def MailOpts.filled (o : MailOpts) : Option MailOpts :=
  if o.smtp = [] ∨ o.rcpt = [] then none
  else some { o with
    to_ := if o.to_ = [] ∧ ch ';' ∉ cstr o.rcpt then o.rcpt else o.to_
    helo := if o.helo = [] then o.smtp else o.helo }

/-- The state before the first request. -/
def MailOpts.open (o : MailOpts) : MailState := { rcpt := cstr o.rcpt }

variable {F : MailFiles} {o : MailOpts} {st : MailState} {replies : ℕ → Option ℤ}

/-- The replies decide what is sent. -/
theorem Session.unique {requests requests' : List Request} (h : Session F o st replies requests)
    (h' : Session F o st replies requests') : requests = requests' := by
  induction h generalizing requests' with
  | last h =>
    cases h' with
    | last h' => exact congrArg Prod.fst (h.symm.trans h')
    | more h' _ => cases h.symm.trans h'
  | more h _ ih =>
    cases h' with
    | last h' => cases h.symm.trans h'
    | more h' hrest' =>
      cases h.symm.trans h'
      rw [ih hrest']

end Smx
