import Smx.Base.Number
import Smx.Lib.CutText

/-! `ParseHTTPURI`: an address that is cut into its parts in place. -/
namespace Smx

open Memory

/-- What the call leaves: the string, and the pointers into it. -/
structure UriPtrs where
  buf : ℕ → Byte
  proto : ℕ
  host : ℕ
  /-- Without a pointer it is `EMPTY`. -/
  path : Option ℕ
  uid : Option ℕ
  pwd : Option ℕ
  port : ℤ

/-- The protocols of the address; `ssl` is a build with `HAVE_OPENSSL`. -/
def isProto (ssl : Bool) (proto : Bytes) : Bool := SameName proto (str "http") || ssl && SameName proto (str "https")

/-- The port, or the one of the protocol. -/
def portOf (proto : Bytes) (port : ℤ) : ℤ :=
  if port ≤ 0 then if SameName proto (str "https") then 443 else 80 else port

section
variable (size : ℕ)

/-- `strlwr` -/
def strlwr : ℕ → ℕ → (ℕ → Byte) → Option (ℕ → Byte)
  | 0,_,_ => none
  | fuel+1,p,buf => do
    let c ← fetch size buf p
    if c = 0 then some buf
    else
      let buf ← store size buf p (tolower c)
      strlwr fuel (p+1) buf

/-- The user and the password in front of a host, where the host begins, and the string. -/
def uriUser (buf : ℕ → Byte) (host : ℕ) : Option (Option ℕ × Option ℕ × ℕ × (ℕ → Byte)) := do
  let (behind,buf) ← cut 0 size buf host (ch '@')
  match behind with
  | none => some (none,none,host,buf)
  | some p =>
    let (pwd,buf) ← cut 0 size buf host (ch ':')
    some (some host,pwd,p,buf)

/-- The number behind a host, and the string. -/
def uriPort (buf : ℕ → Byte) (host : ℕ) : Option (ℤ × (ℕ → Byte)) := do
  let (behind,buf) ← cut 0 size buf host (ch ':')
  match behind with
  | none => some (0,buf)
  | some p =>
    let port ← text size buf (· == 0) size p
    some (atoi port,buf)

/-- What stands behind the two slashes. -/
def uriAuth (buf : ℕ → Byte) (proto : Bytes) (host : ℕ) : Option UriPtrs := do
  let (path,buf) ← cut 0 size buf host (ch '/')
  let (uid,pwd,host,buf) ← uriUser size buf host
  let (port,buf) ← uriPort size buf host
  some ⟨buf,0,host,path,uid,pwd,portOf proto port⟩

/-- What stands behind the colon, with its two slashes. -/
def uriRest (buf : ℕ → Byte) (proto : Bytes) (p : ℕ) : Option (Option UriPtrs) := do
  let c ← fetch size buf p
  if c = ch '/' then
    let c ← fetch size buf (p+1)
    if c = ch '/' then (uriAuth size buf proto (p+2)).map some
    else some none
  else some none

/-- `ParseHTTPURI` on a string at 0: `none` where it leaves the string, and no pointers where it returns false. -/
def parseHTTPURI (ssl : Bool) (buf : ℕ → Byte) : Option (Option UriPtrs) := do
  let (behind,buf) ← cut 0 size buf 0 (ch ':')
  match behind with
  | none => some none
  | some p =>
    let buf ← strlwr size size 0 buf
    let proto ← text size buf (· == 0) size 0
    if isProto ssl proto then uriRest size buf proto p else some none

/-- The texts that the pointers show. -/
structure UriTexts where
  proto : Bytes
  host : Bytes
  path : Bytes
  uid : Option Bytes
  pwd : Option Bytes
  port : ℤ
  deriving DecidableEq

/-- A C string, unless the pointer is null. -/
def textOf (buf : ℕ → Byte) : Option ℕ → Option (Option Bytes)
  | none => some none
  | some p => (text size buf (· == 0) size p).map some

def UriPtrs.texts (u : UriPtrs) : Option UriTexts := do
  let proto ← text size u.buf (· == 0) size u.proto
  let host ← text size u.buf (· == 0) size u.host
  let path ← textOf size u.buf u.path
  let uid ← textOf size u.buf u.uid
  let pwd ← textOf size u.buf u.pwd
  some ⟨proto,host,path.getD [],uid,pwd,u.port⟩

/-- What the caller reads when the call has returned. -/
def uriShown : Option UriPtrs → Option (Option UriTexts)
  | none => some none
  | some u => (u.texts size).map some

end

/-- `ParseHTTPURI` on a C string, with the texts of the parts. -/
def uriOf (ssl : Bool) (url : Bytes) : Option (Option UriTexts) :=
  (parseHTTPURI (url.length+1) ssl fun i => (url ++ [0]).getD i 0).bind (uriShown (url.length+1))

example : uriOf false (str "Http://me:a:b@host:8080/x@y:1/") =
    some (some ⟨str "http",str "host",str "x@y:1/",some (str "me"),some (str "a:b"),8080⟩) := by decide +kernel

/-! ### The same on the text -/

/-- The user and the password, and the text behind them. -/
def userTexts (auth : Bytes) : (Option Bytes × Option Bytes) × Bytes :=
  match cutText (ch '@') auth with
  | (host,none) => ((none,none),host)
  | (user,some host) => ((some (cutText (ch ':') user).1,(cutText (ch ':') user).2),host)

/-- The parts of what stands behind the two slashes. -/
def authTexts (proto auth : Bytes) : UriTexts :=
  let (auth,path) := cutText (ch '/') auth
  let (user,host) := userTexts auth
  let (host,port) := cutText (ch ':') host
  ⟨proto,host,path.getD [],user.1,user.2,portOf proto ((port.map atoi).getD 0)⟩

/-- The parts behind the colon, if there are two slashes. -/
def restTexts (proto : Bytes) : Bytes → Option UriTexts
  | c::d::auth => if c = ch '/' ∧ d = ch '/' then some (authTexts proto auth) else none
  | _ => none

/-- The parts of an address, if it is one. -/
def uriTexts (ssl : Bool) (url : Bytes) : Option UriTexts :=
  match cutText (ch ':') url with
  | (_,none) => none
  | (proto,some rest) => if isProto ssl (proto.map tolower) then restTexts (proto.map tolower) rest else none

section
variable {size p : ℕ} {buf : ℕ → Byte} {t proto : Bytes} {ssl : Bool}

theorem tolower_ne_zero {c : Byte} (h : c ≠ 0) : tolower c ≠ 0 := by
  grind [tolower]

theorem strlwr_eq {fuel : ℕ} (h : TextAt 0 size buf p t) (hfuel : t.length < fuel) :
    ∃ buf', strlwr size fuel p buf = some buf' ∧ TextAt 0 size buf' p (t.map tolower) ∧
      ∀ q, q < p ∨ p+t.length ≤ q → buf' q = buf q := by
  induction t generalizing p buf fuel with
  | nil =>
    obtain ⟨fuel,rfl⟩ := Nat.exists_eq_add_one.mpr hfuel
    have hsize : p < size := h.inside
    refine ⟨buf,?_,h,fun _ _ => rfl⟩
    simp [strlwr,fetch_of_lt hsize,h.cells.1]
  | cons c t ih =>
    obtain ⟨fuel,rfl⟩ := Nat.exists_eq_add_one.mpr (Nat.zero_lt_of_lt hfuel)
    have hsize := h.inside
    rw [List.length_cons] at hsize hfuel
    have hlt : p < size := by omega
    obtain ⟨hc,ht⟩ := not_or.mp (mt List.mem_cons.mpr h.plain)
    have hrest : TextAt 0 size (Function.update buf p (tolower c)) (p+1) t := by
      refine ⟨?_,ht,by omega⟩
      exact Cells.update h.cells.2 (Or.inl (Nat.lt_succ_self p))
    obtain ⟨buf',hrun,htext,hold⟩ := ih hrest (Nat.lt_of_succ_lt_succ hfuel)
    refine ⟨buf',?_,⟨⟨?_,htext.cells⟩,?_,?_⟩,?_⟩
    · simp [strlwr,fetch_of_lt hlt,store_of_lt hlt,h.cells.1,Ne.symm hc,hrun]
    · rw [hold p (Or.inl (Nat.lt_succ_self p)),Function.update_self]
    · rw [List.map_cons,List.mem_cons,not_or]
      exact ⟨(tolower_ne_zero (Ne.symm hc)).symm,htext.plain⟩
    · rw [List.map_cons,List.length_cons,List.length_map]
      omega
    · intro q hq
      rw [List.length_cons] at hq
      rw [hold q (by omega),Function.update_of_ne (by omega)]

/-- A pointer to a text that ends in front of `b`. -/
inductive PtrIn (size : ℕ) (buf : ℕ → Byte) (b : ℕ) : Option ℕ → Option Bytes → Prop
  | null : PtrIn size buf b none none
  | text {p : ℕ} {t : Bytes} : TextAt 0 size buf p t → p+t.length < b → PtrIn size buf b (some p) (some t)

theorem PtrIn.congr {b : ℕ} {buf' : ℕ → Byte} {ptr : Option ℕ} {text : Option Bytes} (h : PtrIn size buf b ptr text)
    (hsame : ∀ q < b, buf' q = buf q) : PtrIn size buf' b ptr text := by
  cases h with
  | null => exact .null
  | text h hb => exact .text (h.congr fun q _ hq => hsame q (by omega)) hb

/-- What `uriUser` leaves. -/
structure UserDone (size : ℕ) (buf buf' : ℕ → Byte) (p : ℕ) (auth : Bytes) (uid pwd : Option ℕ) (host : ℕ) : Prop where
  host_text : TextAt 0 size buf' host (userTexts auth).2
  host_start : p ≤ host
  host_end : host+(userTexts auth).2.length = p+auth.length
  uid : PtrIn size buf' host uid (userTexts auth).1.1
  pwd : PtrIn size buf' host pwd (userTexts auth).1.2
  old : ∀ q, q < p ∨ p+auth.length ≤ q → buf' q = buf q

theorem uriUser_eq (h : TextAt 0 size buf p t) :
    ∃ uid pwd host buf', uriUser size buf p = some (uid,pwd,host,buf') ∧ UserDone size buf buf' p t uid pwd host := by
  obtain ⟨buf₁,hcut,hfront,hback,hold⟩ := cut_eq h (show ch '@' ≠ 0 by decide)
  by_cases hat : ch '@' ∈ t
  · obtain ⟨user,host,rfl,huser⟩ := List.eq_append_cons_of_mem hat
    have hlen : (user ++ ch '@'::host).length = user.length+(host.length+1) := by
      rw [List.length_append,List.length_cons]
    have htexts : userTexts (user ++ ch '@'::host) =
        ((some (cutText (ch ':') user).1,(cutText (ch ':') user).2),host) := by
      rw [userTexts,cutText_append huser]
    rw [cutText_append huser] at hcut hfront hback
    replace hfront : TextAt 0 size buf₁ p user := hfront
    obtain ⟨buf₂,hcut₂,hfront₂,hback₂,hold₂⟩ := cut_eq hfront (show ch ':' ≠ 0 by decide)
    have hle := cutText_length_le (ch ':') user
    refine ⟨some p,(cutText (ch ':') user).2.map fun _ => p+(cutText (ch ':') user).1.length+1,p+user.length+1,buf₂,?_,⟨?_,by omega,?_,?_,?_,?_⟩⟩
    · simp only [uriUser,hcut,hcut₂,Option.bind_eq_bind,Option.bind_some,Option.map_some]
    · simp only [htexts]
      apply (hback host rfl).congr
      intro q hq _
      exact hold₂ q (Or.inr (le_of_lt hq))
    · simp only [htexts,hlen]
      omega
    · rw [htexts]
      exact .text hfront₂ (by omega)
    · rw [htexts]
      cases hpwd : (cutText (ch ':') user).2 with
      | none => exact .null
      | some pwd =>
        have hlast := cutText_length hpwd
        refine .text (hback₂ pwd hpwd) ?_
        show p+(cutText (ch ':') user).1.length+1+pwd.length < p+user.length+1
        omega
    · intro q hq
      rw [hlen] at hq
      rw [hold₂ q (by omega),hold q (by omega)]
  · have htexts : userTexts t = ((none,none),t) := by
      rw [userTexts,cutText_of_notMem hat]
    rw [cutText_of_notMem hat] at hcut hfront
    refine ⟨none,none,p,buf₁,?_,⟨?_,le_rfl,?_,?_,?_,hold⟩⟩
    · simp only [uriUser,hcut,Option.bind_eq_bind,Option.bind_some,Option.map_none]
    · rw [htexts]
      exact hfront
    · rw [htexts]
    · rw [htexts]
      exact .null
    · rw [htexts]
      exact .null

theorem uriPort_eq (h : TextAt 0 size buf p t) :
    ∃ buf', uriPort size buf p = some (((cutText (ch ':') t).2.map atoi).getD 0,buf') ∧
      TextAt 0 size buf' p (cutText (ch ':') t).1 ∧ ∀ q, q < p ∨ p+t.length ≤ q → buf' q = buf q := by
  obtain ⟨buf',hcut,hfront,hback,hold⟩ := cut_eq h (show ch ':' ≠ 0 by decide)
  refine ⟨buf',?_,hfront,hold⟩
  cases hport : (cutText (ch ':') t).2 with
  | none =>
    rw [hport] at hcut
    simp only [uriPort,hcut,Option.bind_eq_bind,Option.bind_some,Option.map_none,Option.getD_none]
  | some port =>
    have htext := (hback port hport).text_eq
    rw [hport] at hcut
    simp only [uriPort,hcut,htext,Option.bind_eq_bind,Option.bind_some,Option.map_some,Option.getD_some]

theorem PtrIn.textOf_eq {b : ℕ} {ptr : Option ℕ} {text : Option Bytes} (h : PtrIn size buf b ptr text) :
    textOf size buf ptr = some text := by
  cases h with
  | null => rfl
  | text h => rw [textOf,h.text_eq,Option.map_some]

/-- The pointers show the parts. -/
theorem uriAuth_eq {auth : Bytes} (hproto : TextAt 0 size buf 0 proto) (h : TextAt 0 size buf p auth)
    (hp : proto.length < p) :
    ((uriAuth size buf proto p).bind (UriPtrs.texts size)) = some (authTexts proto auth) := by
  obtain ⟨buf₁,hcut,hfront,hback,hold⟩ := cut_eq h (show ch '/' ≠ 0 by decide)
  obtain ⟨uid,pwd,host,buf₂,huser,hdone⟩ := uriUser_eq hfront
  obtain ⟨buf₃,hport,hhost,hold₃⟩ := uriPort_eq hdone.host_text
  have hle := cutText_length_le (ch '/') auth
  have hend := hdone.host_end
  have hstart := hdone.host_start
  have hproto' : TextAt 0 size buf₃ 0 proto := by
    apply hproto.congr
    intro q _ hq
    rw [hold₃ q (by omega),hdone.old q (by omega),hold q (by omega)]
  have hbefore : ∀ q < host, buf₃ q = buf₂ q := fun q hq => hold₃ q (Or.inl hq)
  have hpath : textOf size buf₃ ((cutText (ch '/') auth).2.map fun _ => p+(cutText (ch '/') auth).1.length+1) =
      some (cutText (ch '/') auth).2 := by
    cases hbehind : (cutText (ch '/') auth).2 with
    | none => rfl
    | some path =>
      have hpath : TextAt 0 size buf₃ (p+(cutText (ch '/') auth).1.length+1) path := by
        apply (hback path hbehind).congr
        intro q hq _
        rw [hold₃ q (by omega),hdone.old q (by omega)]
      rw [Option.map_some,textOf,hpath.text_eq,Option.map_some]
  simp only [uriAuth,hcut,huser,hport,Option.bind_eq_bind,Option.bind_some,UriPtrs.texts,hproto'.text_eq,
    hhost.text_eq,hpath,(hdone.uid.congr hbefore).textOf_eq,(hdone.pwd.congr hbefore).textOf_eq,authTexts]

theorem uriRest_eq {rest : Bytes} (hproto : TextAt 0 size buf 0 proto) (h : TextAt 0 size buf p rest)
    (hp : proto.length < p) : (uriRest size buf proto p).bind (uriShown size) = some (restTexts proto rest) := by
  have hne : ¬(0 = ch '/') := by decide
  have hin := h.inside
  have hlt : p < size := by omega
  cases rest with
  | nil =>
    have hc : buf p = 0 := h.cells.1
    simp [uriRest,fetch_of_lt hlt,hc,hne,restTexts,uriShown]
  | cons c rest =>
    have hc : buf p = c := h.cells.1
    rw [List.length_cons] at hin
    have hlt' : p+1 < size := by omega
    cases rest with
    | nil =>
      have hd : buf (p+1) = 0 := h.cells.2.1
      by_cases hslash : c = ch '/' <;>
        simp [uriRest,fetch_of_lt hlt,fetch_of_lt hlt',hc,hd,hslash,hne,restTexts,uriShown]
    | cons d auth =>
      have hd : buf (p+1) = d := h.cells.2.1
      rw [List.length_cons] at hin
      by_cases hslash : c = ch '/' ∧ d = ch '/'
      · obtain ⟨rfl,rfl⟩ := hslash
        have hauth : TextAt 0 size buf (p+2) auth := by
          refine ⟨h.cells.2.2,fun h0 => h.plain ?_,by omega⟩
          exact List.mem_cons_of_mem _ (List.mem_cons_of_mem _ h0)
        have hrun := uriAuth_eq hproto hauth (by omega)
        obtain ⟨u,hu,hshow⟩ := Option.bind_eq_some_iff.mp hrun
        simp [uriRest,fetch_of_lt hlt,fetch_of_lt hlt',hc,hd,hu,restTexts,uriShown,hshow]
      · by_cases hfirst : c = ch '/'
        · have hsecond : d ≠ ch '/' := fun hd => hslash ⟨hfirst,hd⟩
          simp [uriRest,fetch_of_lt hlt,fetch_of_lt hlt',hc,hd,hfirst,hsecond,restTexts,uriShown]
        · simp [uriRest,fetch_of_lt hlt,hc,hfirst,restTexts,uriShown]

/-- `ParseHTTPURI` on the string at 0 does what its text says. -/
theorem parseHTTPURI_eq {url : Bytes} (h : TextAt 0 size buf 0 url) :
    (parseHTTPURI size ssl buf).bind (uriShown size) = some (uriTexts ssl url) := by
  obtain ⟨buf₁,hcut,hfront,hback,-⟩ := cut_eq h (show ch ':' ≠ 0 by decide)
  have hsize := h.inside
  have hle := cutText_length_le (ch ':') url
  rw [uriTexts]
  rcases hparts : cutText (ch ':') url with ⟨proto,rest⟩
  rw [hparts] at hcut hfront hback hle
  cases rest with
  | none =>
    rw [parseHTTPURI,hcut]
    rfl
  | some rest =>
    have hlen : proto.length < size := hle.trans_lt (by omega)
    obtain ⟨buf₂,hlwr,hproto,hold⟩ := strlwr_eq hfront hlen
    have hbehind : TextAt 0 size buf₂ (0+proto.length+1) rest := by
      apply (hback rest rfl).congr
      intro q hq _
      exact hold q (Or.inr (Nat.le_of_succ_le hq))
    have hlen : (proto.map tolower).length < 0+proto.length+1 := by
      rw [List.length_map]
      omega
    have hrest := uriRest_eq hproto hbehind hlen
    simp only [parseHTTPURI,hcut,hlwr,hproto.text_eq,Option.bind_eq_bind,Option.bind_some,Option.map_some]
    by_cases hname : isProto ssl (proto.map tolower) = true
    · rw [if_pos hname,if_pos hname,hrest]
    · rw [if_neg hname,if_neg hname]
      rfl

theorem uriOf_eq {url : Bytes} (h : 0 ∉ url) : uriOf ssl url = some (uriTexts ssl url) := by
  have hcells := cells_getD (url ++ [0]) [] 0
  exact parseHTTPURI_eq ⟨hcells,h,by omega⟩

end

/-! ### Addresses written from their parts -/

inductive Scheme
  | http
  | https
  deriving DecidableEq

def Scheme.name : Scheme → Bytes
  | .http => str "http"
  | .https => str "https"

def Scheme.port : Scheme → ℤ
  | .http => 80
  | .https => 443

/-- The parts of an address, none with a character that ends it. -/
structure Uri where
  scheme : Scheme
  /-- The user, and the password if there is one. -/
  user : Option (Bytes × Option Bytes)
  host : Bytes
  /-- The digits of the port. -/
  port : Option Bytes
  /-- With the slash that it begins with. -/
  path : Option Bytes
  user_plain : ∀ u ∈ user, 0 ∉ u.1 ∧ ch ':' ∉ u.1 ∧ ch '@' ∉ u.1 ∧ ch '/' ∉ u.1
  password_plain : ∀ u ∈ user, ∀ w ∈ u.2, 0 ∉ w ∧ ch '@' ∉ w ∧ ch '/' ∉ w
  host_plain : 0 ∉ host ∧ ch ':' ∉ host ∧ ch '@' ∉ host ∧ ch '/' ∉ host
  host_ne_nil : host ≠ []
  port_digits : ∀ d ∈ port, (∀ c ∈ d, isdigit c = true) ∧ 0 < digitsValue 0 d
  path_plain : ∀ p ∈ path, 0 ∉ p ∧ p.head? = some (ch '/')

namespace Uri

def userText (u : Uri) : Bytes :=
  match u.user with
  | none => []
  | some (name,none) => name ++ [ch '@']
  | some (name,some password) => name ++ ch ':'::password ++ [ch '@']

def portText (u : Uri) : Bytes :=
  match u.port with
  | none => []
  | some digits => ch ':'::digits

/-- `proto://[user[:password]@]host[:port][path]` -/
def text (u : Uri) : Bytes :=
  u.scheme.name ++ str "://" ++ (u.userText ++ (u.host ++ u.portText) ++ u.path.getD [])

/-- The parts as they were written. -/
def parts (u : Uri) : UriTexts :=
  ⟨u.scheme.name,u.host,u.path.getD [],u.user.map Prod.fst,u.user.bind Prod.snd,
    u.port.elim u.scheme.port fun d => digitsValue 0 d⟩

/-- The parts, with the path as the request has it behind a slash of its own. -/
def requestParts (u : Uri) : UriTexts := { u.parts with path := (u.path.getD []).tail }

/-- The port is an `int`. -/
def IntPort (u : Uri) : Prop := ∀ d ∈ u.port, digitsValue 0 d < 2^31

end Uri

section
variable {u : Uri} {ssl : Bool}

theorem digit_ne {c : Byte} (h : isdigit c = true) : c ≠ 0 ∧ c ≠ ch '@' ∧ c ≠ ch '/' ∧ c ≠ ch ':' := by
  refine ⟨?_,?_,?_,?_⟩ <;> rintro rfl <;> exact absurd h (by decide)

theorem atoi_port {d : Bytes} (h : ∀ c ∈ d, isdigit c = true) (hlt : digitsValue 0 d < 2^31) :
    atoi d = digitsValue 0 d := by
  rw [atoi,(strtol_digits h (by omega)).1]
  exact int32_of_mem (by omega)

/-- A text that nothing, or the separator and more, stands behind. -/
theorem cutText_getD {c : Byte} {a : Bytes} {behind : Option Bytes} (ha : c ∉ a)
    (h : ∀ b ∈ behind, b.head? = some c) : cutText c (a ++ behind.getD []) = (a,behind.map List.tail) := by
  cases behind with
  | none => simp [cutText_of_notMem ha]
  | some b =>
    obtain ⟨rest,rfl⟩ := List.head?_eq_some_iff.mp (h b rfl)
    exact cutText_append ha

theorem Uri.notMem_portText {c : Byte} (hc : c = 0 ∨ c = ch '@' ∨ c = ch '/') : c ∉ u.portText := by
  rw [portText]
  cases hport : u.port with
  | none => simp
  | some digits =>
    intro hmem
    obtain rfl | hmem := List.mem_cons.mp hmem
    · exact absurd hc (by decide)
    · have hdigit := digit_ne ((u.port_digits digits hport).1 c hmem)
      rcases hc with rfl | rfl | rfl
      · exact hdigit.1 rfl
      · exact hdigit.2.1 rfl
      · exact hdigit.2.2.1 rfl

theorem Uri.notMem_userText {c : Byte} (hc : c = 0 ∨ c = ch '/') : c ∉ u.userText := by
  have hcolon : c ≠ ch ':' ∧ c ≠ ch '@' := by
    rcases hc with rfl | rfl <;> decide
  rw [userText]
  cases huser : u.user with
  | none => simp
  | some user =>
    obtain ⟨name,password⟩ := user
    have hname := u.user_plain _ huser
    have hplain : c ∉ name := by
      rcases hc with rfl | rfl
      · exact hname.1
      · exact hname.2.2.2
    cases password with
    | none => simp [hplain,hcolon.2]
    | some password =>
      have hpassword := u.password_plain _ huser password rfl
      have hplain' : c ∉ password := by
        rcases hc with rfl | rfl
        · exact hpassword.1
        · exact hpassword.2.2
      simp [hplain,hplain',hcolon.1,hcolon.2]

theorem userTexts_text (u : Uri) : userTexts (u.userText ++ (u.host ++ u.portText)) =
    ((u.user.map Prod.fst,u.user.bind Prod.snd),u.host ++ u.portText) := by
  have hat : ch '@' ∉ u.host ++ u.portText :=
    fun h => (List.mem_append.mp h).elim u.host_plain.2.2.1 (u.notMem_portText (by simp))
  rw [userTexts,Uri.userText]
  cases huser : u.user with
  | none => rw [List.nil_append,cutText_of_notMem hat]; rfl
  | some user =>
    obtain ⟨name,password⟩ := user
    have hname := u.user_plain _ huser
    cases password with
    | none =>
      have hcut : cutText (ch '@') (name ++ [ch '@'] ++ (u.host ++ u.portText)) =
          (name,some (u.host ++ u.portText)) := by
        rw [List.append_assoc]
        exact cutText_append hname.2.2.1
      simp only [hcut,cutText_of_notMem hname.2.1]
      rfl
    | some password =>
      have hpassword := u.password_plain _ huser password rfl
      have hboth : ch '@' ∉ name ++ ch ':'::password := by
        simp [hname.2.2.1,hpassword.2.1,show ¬(ch '@' = ch ':') by decide]
      have hcut : cutText (ch '@') (name ++ ch ':'::password ++ [ch '@'] ++ (u.host ++ u.portText)) =
          (name ++ ch ':'::password,some (u.host ++ u.portText)) := by
        rw [List.append_assoc]
        exact cutText_append hboth
      simp only [hcut,cutText_append hname.2.1]
      rfl

theorem portOf_text (hint : u.IntPort) :
    portOf u.scheme.name (((u.port.map atoi)).getD 0) = u.port.elim u.scheme.port fun d => digitsValue 0 d := by
  cases hport : u.port with
  | none => cases hscheme : u.scheme <;> decide
  | some digits =>
    obtain ⟨hdigits,hpos⟩ := u.port_digits digits hport
    have hnot : ¬(digitsValue 0 digits : ℤ) ≤ 0 := by omega
    rw [Option.map_some,Option.getD_some,atoi_port hdigits (hint digits hport),portOf,if_neg hnot]
    rfl

theorem cutText_port (u : Uri) : cutText (ch ':') (u.host ++ u.portText) = (u.host,u.port) := by
  rw [Uri.portText]
  cases u.port with
  | none => rw [List.append_nil,cutText_of_notMem u.host_plain.2.1]
  | some digits => exact cutText_append u.host_plain.2.1

theorem authTexts_text (hint : u.IntPort) :
    authTexts u.scheme.name (u.userText ++ (u.host ++ u.portText) ++ u.path.getD []) = u.requestParts := by
  have hslash : ch '/' ∉ u.userText ++ (u.host ++ u.portText) := by
    simp only [List.mem_append,not_or]
    exact ⟨u.notMem_userText (Or.inr rfl),u.host_plain.2.2.2,u.notMem_portText (by simp)⟩
  have hpath := cutText_getD hslash fun p hp => (u.path_plain p hp).2
  have htail : (u.path.map List.tail).getD [] = (u.path.getD []).tail := by
    cases u.path <;> rfl
  simp only [authTexts,hpath,userTexts_text,cutText_port,portOf_text hint,htail]
  rfl

theorem uriTexts_text (hssl : u.scheme = .https → ssl = true) (hint : u.IntPort) :
    uriTexts ssl u.text = some u.requestParts := by
  have hname : ch ':' ∉ u.scheme.name ∧ u.scheme.name.map tolower = u.scheme.name ∧
      isProto ssl u.scheme.name = true := by
    cases hscheme : u.scheme with
    | http => exact ⟨by decide,by decide,by cases ssl <;> decide⟩
    | https => exact ⟨by decide,by decide,by rw [hssl hscheme]; decide⟩
  have hcut : cutText (ch ':') u.text = (u.scheme.name,some (ch '/'::ch '/'::
      (u.userText ++ (u.host ++ u.portText) ++ u.path.getD []))) := by
    rw [Uri.text,List.append_assoc]
    exact cutText_append hname.1
  rw [uriTexts,hcut]
  simp only [hname.2.1,if_pos hname.2.2,restTexts,and_self,if_true,authTexts_text hint]

theorem Uri.nul_notMem_text (u : Uri) : 0 ∉ u.text := by
  have hname : 0 ∉ u.scheme.name ++ str "://" := by
    cases u.scheme <;> decide
  have hpath : 0 ∉ u.path.getD [] := by
    cases hpath : u.path with
    | none => simp
    | some path => exact (u.path_plain path hpath).1
  simp only [text,List.mem_append,not_or] at hname ⊢
  exact ⟨hname,⟨u.notMem_userText (Or.inl rfl),u.host_plain.1,u.notMem_portText (Or.inl rfl)⟩,hpath⟩

theorem tolower_tolower (c : Byte) : tolower (tolower c) = tolower c := by
  grind [tolower]

theorem sameName_lower (a b : Bytes) : SameName (a.map tolower) b ↔ SameName a b := by
  have hmap : (a.map tolower).map tolower = a.map tolower := by
    rw [List.map_map]
    exact List.map_congr_left fun c _ => tolower_tolower c
  rw [SameName,SameName,hmap]

/-- The protocol of a text is one of those that the build knows, in any letter case. -/
def HasProto (ssl : Bool) (url : Bytes) : Prop :=
  ∃ proto rest, url = proto ++ ch ':'::rest ∧ ch ':' ∉ proto ∧ isProto ssl proto = true

theorem uriTexts_of_not_hasProto {url : Bytes} (h : ¬HasProto ssl url) : uriTexts ssl url = none := by
  by_cases hcolon : ch ':' ∈ url
  · obtain ⟨proto,rest,rfl,hproto⟩ := List.eq_append_cons_of_mem hcolon
    have hlower : isProto ssl (proto.map tolower) = isProto ssl proto := by
      simp only [isProto,sameName_lower]
    have hnot : ¬isProto ssl proto = true := fun hp => h ⟨proto,rest,rfl,hproto,hp⟩
    rw [uriTexts,cutText_append hproto]
    simp only [hlower,if_neg hnot]
  · rw [uriTexts,cutText_of_notMem hcolon]

/-- `ParseHTTPURI` finds the parts of an address, refuses texts with another protocol, and stays inside its string. -/
theorem uriOf_right (ssl : Bool) :
    (∀ u : Uri, (u.scheme = .https → ssl = true) → u.IntPort → uriOf ssl u.text = some (some u.requestParts)) ∧
      (∀ url, 0 ∉ url → ¬HasProto ssl url → uriOf ssl url = some none) ∧
      ∀ url, 0 ∉ url → uriOf ssl url ≠ none := by
  refine ⟨fun u hssl hint => ?_,fun url hnul h => ?_,fun url hnul => ?_⟩
  · rw [uriOf_eq u.nul_notMem_text,uriTexts_text hssl hint]
  · rw [uriOf_eq hnul,uriTexts_of_not_hasProto h]
  · rw [uriOf_eq hnul]
    exact Option.some_ne_none _

/-- `http://h/x` -/
def plainUri : Uri where
  scheme := .http
  user := none
  host := str "h"
  port := none
  path := some (str "/x")
  user_plain := by simp
  password_plain := by simp
  host_plain := by decide
  host_ne_nil := by decide
  port_digits := by simp
  path_plain := by
    rintro p ⟨⟩
    exact ⟨by decide,rfl⟩

theorem uriOf_right_plain : uriOf false plainUri.text = some (some plainUri.requestParts) ∧
    uriOf false (str "ftp://h/x") = some none ∧ uriOf false [] ≠ none := by
  have hscheme : plainUri.scheme ≠ .https := by decide
  have hproto : ¬HasProto false (str "ftp://h/x") := by
    rintro ⟨proto,rest,h,hcolon,hproto⟩
    have hcut := congrArg (fun url => (cutText (ch ':') url).1) h
    simp only [cutText_append hcolon] at hcut
    rw [← hcut] at hproto
    exact absurd hproto (by decide)
  exact ⟨(uriOf_right false).1 plainUri (fun h => absurd h hscheme) (by rintro d ⟨⟩),
    (uriOf_right false).2.1 _ (by decide) hproto,(uriOf_right false).2.2 [] (by decide)⟩

/-- The slash of the path is not part of what is yielded. -/
theorem not_uriOf_parts : ¬∀ u : Uri, uriOf true u.text = some (some u.parts) := by
  intro h
  have hscheme : plainUri.scheme ≠ .https := by decide
  have hparts := h plainUri
  rw [uriOf_eq plainUri.nul_notMem_text,uriTexts_text (fun h => absurd h hscheme) (by rintro d ⟨⟩)] at hparts
  have hpath := congrArg UriTexts.path (Option.some.inj (Option.some.inj hparts))
  exact absurd hpath (by decide)

end

end Smx
