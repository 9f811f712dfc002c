import Smx.Mail.Base64

/-! `smtp_data_next`: the blocks of a message, one call after the other. -/
namespace Smx

def Q_CHUNK : ℕ := 6144
def Q_BOUND : Bytes := str "---//=+_QMail_0L0_01Q/BD3C=7D.B+C3A5E540---"

/-- The files that can be read, and the standard input. -/
structure MailFiles where
  fopen : Bytes → Option Bytes
  stdin : Bytes

/-- `qMailOpts`. A `CStr` that is NULL is the empty one; of the other headers only their number
is looked at. -/
structure MailOpts where
  smtp : Bytes
  helo : Bytes := []
  rcpt : Bytes
  to_ : Bytes := []
  from_ : Bytes := []
  reply : Bytes := []
  subj : Bytes := []
  other : ℕ := 0
  body : List Bytes := []

/-- What `qMailState` keeps between two blocks. -/
structure DataState where
  buf : Bytes := []
  bodyn : ℕ := 0
  bodyc : Bytes := []
  fbody : Option Bytes := none
  multi : Bool := false
  enc : Bool := false

/-- `strrchr`: the text from the last such byte on. -/
def strrchr (s : Bytes) (c : Byte) : Option Bytes :=
  if c ∈ s then some (c::(s.reverse.takeWhile (· ≠ c)).reverse) else none

/-- `multi_delim`. -/
def multiDelim (last : Bool) : Bytes :=
  CRLF ++ str "--" ++ Q_BOUND ++ (if last then str "--" else []) ++ CRLF

def textHead : Bytes :=
  multiDelim false ++ str "Content-Type: text/plain; charset=us-ascii" ++ CRLF ++
    str "Content-Transfer-Encoding: 7 bit" ++ CRLF ++ CRLF

/-- `multi_head`, with the value that it leaves in `enc`. A name without a dot is none: `ext+1` is
then no string. -/
def multiHead (file : Bytes) : Option (Bytes × Bool) :=
  (strrchr file (ch '.')).map fun ext =>
    if SameName (ext.take 4) (str ".txt") then (textHead,false)
    else
      (multiDelim false ++ str "Content-Type: application/x-ext-" ++ ext.drop 1 ++ str "; name=\"" ++
        (match strrchr (fslash file) (ch '/') with
          | some ext => ext.drop 1
          | none => fslash file) ++
        str "\"" ++ CRLF ++ str "Content-Transfer-Encoding: base64" ++ CRLF ++ CRLF,true)

/-- A line of the header, unless its field is NULL. -/
def headLine (name value : Bytes) : Bytes := if value = [] then [] else name ++ cstr value ++ CRLF

/-- The first call of `smtp_data_next`: the header. Without a subject it goes on in the old buffer. -/
def dataFirst (o : MailOpts) (st : DataState) : DataState :=
  let buf := if o.subj = [] then st.buf else headLine (str "Subject: ") o.subj
  let buf := buf ++ headLine (str "From: ") o.from_ ++ headLine (str "To: ") o.to_ ++
    headLine (str "Reply-To: ") o.reply ++
    (List.replicate o.other (str "Reply-To: " ++ cstr o.reply ++ CRLF)).flatten
  let multi : Bool := 1 < o.body.length
  let kind :=
    if multi then str "MIME-Version: 1.0" ++ CRLF ++
      str "Content-Type: multipart/mixed; boundary=\"" ++ Q_BOUND ++ str "\"" ++ CRLF
    else if SameName ((cstr (o.body.getD st.bodyn [])).take 6) (str "'<html") then
      str "Content-Type: text/html; charset=us-ascii" ++ CRLF
    else str "Content-Type: text/plain; charset=us-ascii" ++ CRLF
  { st with buf := buf ++ kind ++ CRLF, multi := multi, bodyn := 0, bodyc := cstr (o.body.getD 0 []) }

/-- The state after the header, when DATA has been refused so often before. -/
def headed (o : MailOpts) : ℕ → DataState
  | 0 => dataFirst o {}
  | n+1 => dataFirst o (headed o n)

/-- The next body. -/
def DataState.next (o : MailOpts) (st : DataState) : DataState :=
  { st with bodyn := st.bodyn+1, bodyc := cstr (o.body.getD (st.bodyn+1) []) }

/-- What is returned when a block has been put into the buffer; an empty one is NULL. -/
def DataState.give (st : DataState) (buf : Bytes) : Option Bytes × DataState :=
  (if buf = [] then none else some buf,{ st with buf := buf })

theorem give_of_ne_nil {st : DataState} {buf : Bytes} (h : buf ≠ []) :
    st.give buf = (some buf,{ st with buf := buf }) := by
  rw [DataState.give,if_neg h]

/-- A file that is open is read on. -/
def dataRead (F : MailFiles) (o : MailOpts) (st : DataState) (rest : Bytes) :
    Option (Option Bytes × DataState) :=
  if rest = [] then
    let st := { st with fbody := some [] }
    if st.multi then
      let st := st.next o
      if st.bodyc = [] then some (st.give (multiDelim true))
      else
        (F.fopen st.bodyc).bind fun file =>
          (multiHead st.bodyc).map fun h => { st with fbody := some file, enc := h.2 }.give h.1
    else some (st.give [])
  else
    let st := { st with fbody := some (rest.drop Q_CHUNK) }
    some (st.give (if st.enc then mime64 (rest.take Q_CHUNK) else rest.take Q_CHUNK))

/-- The later calls of `smtp_data_next`; none where it throws, or stops for good. -/
def dataNext (F : MailFiles) (o : MailOpts) (st : DataState) : Option (Option Bytes × DataState) :=
  match st.bodyc with
  | [] => some (none,st)
  | c::r =>
    if c = T_SQ then
      let st := st.next o
      if st.multi then some ({ st with enc := false }.give (textHead ++ r)) else some (st.give r)
    else
      match st.fbody with
      | some rest => dataRead F o st rest
      | none =>
        (if st.multi = false ∧ c::r = str "-" then some F.stdin else F.fopen (c::r)).bind fun file =>
          let st := { st with fbody := some file }
          if st.multi then (multiHead (c::r)).map fun h => { st with enc := h.2 }.give h.1
          else dataRead F o st file

/-- The calls after the first one, up to the one that returns NULL, return these blocks. -/
inductive Yields (F : MailFiles) (o : MailOpts) : DataState → List Bytes → Prop
  | stop {st st' : DataState} (h : dataNext F o st = some (none,st')) : Yields F o st []
  | more {st st' : DataState} {b : Bytes} {bs : List Bytes} (h : dataNext F o st = some (some b,st'))
      (hrest : Yields F o st' bs) : Yields F o st (b::bs)

end Smx
