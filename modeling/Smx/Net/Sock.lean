import Mathlib.Algebra.Order.Ring.Int
import Mathlib.Data.List.TakeDrop
import Smx.Base.Bytes
import Smx.Lib.Run

/-! The buffered reads of `Sock`: `ReadLine`, `Read` and `Ignore` share a buffer, a cursor and a count. -/
namespace Smx

/-- How a wait on the socket and the `recv` behind it end. Without bytes the other side has closed. -/
inductive Recv
  | data (bytes : Bytes)
  | error
  | timeout

/-- The bytes that are still on their way. -/
def pending : List Recv → Bytes
  | [] => []
  | .data bytes::net => bytes ++ pending net
  | _::net => pending net

def SOCKET_ERROR : ℤ := -1
def ERR_TIMEOUT : ℤ := -2
def IGNORE_ALL : ℤ := -1

/-- A number as an `int`. -/
def asInt (n : ℤ) : ℤ := n.bmod (2^32)

/-- `_Read`: what it returns, and the bytes it stores. The length is an `int`, and for `recv` a negative one is
huge. -/
def recv (len : ℤ) : List Recv → ℤ × Bytes × List Recv
  | [] => (ERR_TIMEOUT,[],[])
  | .timeout::net => (ERR_TIMEOUT,[],net)
  | .error::net => (SOCKET_ERROR,[],net)
  | .data bytes::net =>
    if 0 ≤ asInt len ∧ asInt len < bytes.length then
      (asInt len,bytes.take (asInt len).toNat,.data (bytes.drop (asInt len).toNat)::net)
    else (bytes.length,bytes,net)

/-- The reading side of a socket. -/
structure Sock where
  /-- `m_buf_size` -/
  size : ℕ
  /-- What `m_buf` points to, as far as it is allocated. -/
  mem : Bytes
  /-- `m_eol_p`, counted from `m_buf` -/
  eol : ℕ
  /-- `m_buf_bytes` -/
  bytes : ℤ
  net : List Recv
  /-- Something outside of the buffer has been written. -/
  wild : Bool

namespace Sock

/-- `sock_buf_bytes_left` -/
def left (s : Sock) : ℤ := s.bytes-s.eol

def buffered (s : Sock) : Bytes := (s.mem.drop s.eol).take s.left.toNat

def store (s : Sock) (pos : ℕ) (bytes : Bytes) : Sock :=
  { s with
    mem := s.mem.take pos ++ bytes ++ s.mem.drop (pos+bytes.length)
    wild := s.wild || s.mem.length < pos+bytes.length }

/-- `*(p - 1)`; `front` is the byte in front of the buffer. -/
def before (front : Byte) (mem : Bytes) (p : ℕ) : Byte := if p = 0 then front else mem.getD (p-1) 0

/-- The end of `ReadLine`, with the line feed at `p`: the state, the number returned, and the bytes that the call
has used up. -/
def endLine (front : Byte) (s : Sock) (p : ℕ) : Sock × ℤ × Bytes :=
  let line := (s.mem.take p).drop s.eol
  let mem := s.mem.set p 0
  if before front mem p = ch '\r' then
    ({ s with mem := mem.set (p-1) 0, eol := p+1, wild := s.wild || p = 0 },(p : ℤ)-1-s.eol,
      -- with a return in front of the line the length is negative, and the callers report an error
      if p = s.eol then [] else line ++ [ch '\n'])
  else ({ s with mem, eol := p+1 },(p : ℤ)-s.eol,line ++ [ch '\n'])

/-- The place of the first line feed. -/
def memchr (bytes : Bytes) : ℕ := (bytes.takeWhile (· != ch '\n')).length

def readLine (front : Byte) (s : Sock) : Sock × ℤ × Bytes :=
  if ch '\n' ∈ s.buffered then s.endLine front (s.eol+memchr s.buffered)
  else
    let rem := s.left.toNat
    let r := recv ((s.size : ℤ)-rem) s.net
    let s : Sock := { (s.store 0 s.buffered).store rem r.2.1 with eol := rem, bytes := r.1, net := r.2.2 }
    if r.1 ≤ 0 then (s,r.1,[])
    else if ch '\n' ∈ r.2.1 then
      endLine front { s with bytes := r.1+rem, eol := 0 } (rem+memchr r.2.1)
    -- `line[m_buf_size] = 0`, where `line` is the address of the caller's pointer
    else ({ s with eol := s.size, wild := true },s.size,s.mem.take s.size)

def read (len : ℤ) (s : Sock) : Sock × ℤ × Bytes :=
  if 0 < s.left then
    let n := min len s.left
    ({ s.store 0 (s.buffered.take n.toNat) with eol := (s.eol+n).toNat, wild := s.wild || n < 0 },n,
      s.buffered.take n.toNat)
  else
    let r := recv len s.net
    ({ s.store 0 r.2.1 with net := r.2.2 },r.1,r.2.1)

/-- The loops of `Ignore`: over everything, or over `len` bytes. Each round takes one unit of fuel. -/
def ignoreLoop (all : Bool) : ℕ → ℤ → Sock → ℤ → Bytes → Sock × ℤ × Bytes
  | 0,_,s,count,used => (s,count,used)
  | n+1,len,s,count,used =>
    if ¬all ∧ len ≤ 0 then (s,count,used)
    else
      let r := recv (if all then s.size else len) s.net
      let s : Sock := { s.store 0 r.2.1 with net := r.2.2 }
      if r.1 ≤ 0 then (s,count,used)
      else ignoreLoop all n (len-r.1) s (count+r.1) (used ++ r.2.1)

/-- What `Ignore` still has to receive. -/
def toIgnore (len : ℤ) (s : Sock) : ℤ := if 0 < s.left then if s.left < len then len-s.left else 0 else len

/-- `Ignore`. Every round takes a byte from the network, so its bytes are fuel enough. -/
def ignore (len : ℤ) (s : Sock) : Sock × ℤ × Bytes :=
  let used := if len = IGNORE_ALL then s.buffered else s.buffered.take len.toNat
  let r := s.ignoreLoop (s.toIgnore len = IGNORE_ALL) ((pending s.net).length+1) (s.toIgnore len) 0 used
  ({ r.1 with bytes := 0 },r.2)

/-- A new socket; the buffer has no contents yet. -/
def new (size : ℕ) (mem : Bytes) (net : List Recv) : Sock := ⟨size,mem,0,0,net,false⟩

end Sock

inductive SockCall
  | readLine
  | read (len : ℤ)
  | ignore (len : ℤ)

/-- A socket, and all that the calls have delivered or skipped. -/
structure Reading where
  sock : Sock
  used : Bytes

namespace Reading

def call (front : Byte) (s : Sock) : SockCall → Sock × ℤ × Bytes
  | .readLine => s.readLine front
  | .read len => s.read len
  | .ignore len => s.ignore len

def step (front : Byte) (t : Reading) (c : SockCall) : Option Reading :=
  let r := call front t.sock c
  some ⟨r.1,t.used ++ r.2.2⟩

/-- What was delivered or skipped, then what is buffered, then what is on its way is the stream, and nothing outside
of the buffer has been written. -/
def Delivers (stream : Bytes) (t : Reading) : Prop :=
  t.sock.wild = false ∧ t.used ++ (t.sock.buffered ++ pending t.sock.net) = stream

end Reading

namespace Sock

/-- The pieces in which the loops of `Ignore` get the bytes. -/
def pieces (all : Bool) (size : ℕ) : ℕ → ℤ → List Recv → List Bytes
  | 0,_,_ => []
  | n+1,len,net =>
    if ¬all ∧ len ≤ 0 then []
    else
      let r := recv (if all then size else len) net
      if r.1 ≤ 0 then [] else r.2.1::pieces all size n (len-r.1) r.2.2

/-- `ReadLine` goes right: with a line feed buffered, when no return stands in front of an empty line; else when
the bytes that come in contain one and fit, or when nothing comes in and nothing is buffered. -/
def LineOk (front : Byte) (s : Sock) : Prop :=
  if ch '\n' ∈ s.buffered then s.buffered.head? = some (ch '\n') → before front s.mem s.eol ≠ ch '\r'
  else
    let r := recv ((s.size : ℤ)-s.buffered.length) s.net
    if r.1 ≤ 0 then s.buffered = []
    else ch '\n' ∈ r.2.1 ∧ s.buffered.length+r.2.1.length ≤ s.mem.length ∧
      (s.buffered = [] → r.2.1.head? = some (ch '\n') → front ≠ ch '\r')

/-- `Read` goes right: buffered bytes are not asked for with a negative length, and received bytes fit. -/
def ReadOk (len : ℤ) (s : Sock) : Prop :=
  if s.buffered = [] then (recv len s.net).2.1.length ≤ s.mem.length else 0 ≤ len

/-- `Ignore` goes right: it skips all that is buffered, and every piece fits. -/
def IgnoreOk (len : ℤ) (s : Sock) : Prop :=
  (s.buffered ≠ [] → len = IGNORE_ALL ∨ s.buffered.length ≤ len) ∧
    ∀ piece ∈ pieces (s.toIgnore len = IGNORE_ALL) s.size ((pending s.net).length+1) (s.toIgnore len) s.net,
      piece.length ≤ s.mem.length

end Sock

/-- The calls that go right. -/
def Reading.CallOk (front : Byte) (t : Reading) : SockCall → Prop
  | .readLine => t.sock.LineOk front
  | .read len => t.sock.ReadOk len
  | .ignore len => t.sock.IgnoreOk len

theorem recv_pending (len : ℤ) (net : List Recv) :
    (recv len net).2.1 ++ pending (recv len net).2.2 = pending net := by
  cases net with
  | nil => rfl
  | cons r net =>
    cases r with
    | data bytes =>
      rw [recv]
      split
      · simp only [pending,← List.append_assoc,List.take_append_drop]
      · rfl
    | error => rfl
    | timeout => rfl

theorem recv_length (len : ℤ) (net : List Recv) : (recv len net).2.1.length = (recv len net).1.toNat := by
  cases net with
  | nil => rfl
  | cons r net =>
    cases r with
    | data bytes =>
      rw [recv]
      split
      next h =>
        change (bytes.take (asInt len).toNat).length = (asInt len).toNat
        rw [List.length_take]
        omega
      next => rfl
    | error => rfl
    | timeout => rfl

/-- Nothing is stored when nothing is received. -/
theorem recv_nil {len : ℤ} {net : List Recv} (h : (recv len net).1 ≤ 0) : (recv len net).2.1 = [] := by
  have hlength := recv_length len net
  exact List.length_eq_zero_iff.mp (by omega)

namespace Sock
variable {s : Sock}

@[simp] theorem store_net (s : Sock) (pos : ℕ) (bytes : Bytes) : (s.store pos bytes).net = s.net := rfl
@[simp] theorem store_size (s : Sock) (pos : ℕ) (bytes : Bytes) : (s.store pos bytes).size = s.size := rfl

theorem store_length {pos : ℕ} {bytes : Bytes} (h : pos+bytes.length ≤ s.mem.length) :
    (s.store pos bytes).mem.length = s.mem.length := by
  simp only [store,List.length_append,List.length_take,List.length_drop]
  omega

theorem store_wild {pos : ℕ} {bytes : Bytes} (h : pos+bytes.length ≤ s.mem.length) :
    (s.store pos bytes).wild = s.wild := by
  simp [store,Nat.not_lt.mpr h]

theorem wild_of_long {pos : ℕ} {bytes : Bytes} (h : s.mem.length < pos+bytes.length) :
    (s.store pos bytes).wild = true := by
  simp [store,h]

theorem wild_store (pos : ℕ) (bytes : Bytes) (h : s.wild = true) : (s.store pos bytes).wild = true := by
  simp [store,h]

/-- The kept bytes and the received ones stand at the front of the buffer. -/
theorem store_store (s : Sock) (kept bytes : Bytes) :
    ((s.store 0 kept).store kept.length bytes).mem = kept ++ (bytes ++ s.mem.drop (kept.length+bytes.length)) := by
  simp only [store,List.take_zero,List.nil_append,Nat.zero_add,List.append_assoc]
  rw [List.take_left,List.drop_length_add_append,List.drop_drop]

/-- How the buffered bytes stand in the memory. -/
theorem mem_eq (hleft : 0 < s.left) (hbytes : s.bytes ≤ s.mem.length) :
    ∃ before tl, s.mem = before ++ (s.buffered ++ tl) ∧ before.length = s.eol ∧
      s.bytes = s.eol+s.buffered.length := by
  have heol : (s.eol : ℤ) < s.bytes := by
    rw [left] at hleft
    omega
  refine ⟨s.mem.take s.eol,(s.mem.drop s.eol).drop s.left.toNat,?_,?_,?_⟩
  · rw [buffered,List.take_append_drop,List.take_append_drop]
  · rw [List.length_take]
    omega
  · rw [buffered,List.length_take,List.length_drop,left]
    omega

theorem buffered_length (hbytes : s.bytes ≤ s.mem.length) : s.buffered.length = s.left.toNat := by
  rw [buffered,List.length_take,List.length_drop,left]
  omega

theorem buffered_eq_nil (h : s.left ≤ 0) : s.buffered = [] := by
  rw [buffered,Int.toNat_of_nonpos h,List.take_zero]

/-- A line with its line feed is used up, or, behind a return, the line feed of an empty line is lost. -/
theorem endLine_spec (front : Byte) {line rest : Bytes} (hleft : 0 < s.left) (hbytes : s.bytes ≤ s.mem.length)
    (hbuf : s.buffered = line ++ ch '\n'::rest) (hwild : s.wild = false) :
    let r := s.endLine front (s.eol+line.length)
    r.1.buffered = rest ∧ r.1.net = s.net ∧ r.1.bytes = s.bytes ∧ r.1.mem.length = s.mem.length ∧
      (if line = [] ∧ before front s.mem s.eol = ch '\r' then r.2.2 = []
        else r.1.wild = false ∧ r.2.2 = line ++ [ch '\n']) := by
  obtain ⟨hd,tl,hmem,heol,hcount⟩ := mem_eq hleft hbytes
  rw [hbuf] at hmem hcount
  have hlen := congrArg List.length hmem
  simp only [List.length_append,List.length_cons] at hlen hcount
  have hdrop : s.mem.drop (s.eol+line.length+1) = rest ++ tl := by
    rw [hmem,← heol,Nat.add_assoc,List.drop_length_add_append,List.append_assoc,List.drop_length_add_append]
    rfl
  have hline : (s.mem.take (s.eol+line.length)).drop s.eol = line := by
    rw [hmem,← heol,List.take_length_add_append,List.drop_left,List.append_assoc,List.take_left]
  have hcut (mem : Bytes) (h : mem.drop (s.eol+line.length+1) = rest ++ tl) (wild : Bool) :
      ({ s with mem, eol := s.eol+line.length+1, wild } : Sock).buffered = rest := by
    have hleft : s.bytes-((s.eol+line.length+1 : ℕ) : ℤ) = rest.length := by omega
    rw [buffered,left]
    change (mem.drop _).take (s.bytes-((s.eol+line.length+1 : ℕ) : ℤ)).toNat = rest
    rw [h,hleft,Int.toNat_natCast,List.take_left]
  have hempty (h : line = []) :
      before front (s.mem.set (s.eol+line.length) 0) (s.eol+line.length) = before front s.mem s.eol := by
    rw [h,List.length_nil,Nat.add_zero,before,before]
    split
    · rfl
    · rw [List.getD_eq_getElem?_getD,List.getD_eq_getElem?_getD,List.getElem?_set_ne (by omega)]
  have hset : (s.mem.set (s.eol+line.length) 0).drop (s.eol+line.length+1) = rest ++ tl := by
    rw [List.drop_set_of_lt (by omega),hdrop]
  simp only [endLine,hline]
  split
  next hreturn =>
    refine ⟨hcut _ ?_ _,rfl,rfl,by simp,?_⟩
    · rw [List.drop_set_of_lt (by omega),hset]
    · by_cases hnil : line = []
      · rw [if_pos ⟨hnil,hempty hnil ▸ hreturn⟩,if_pos]
        rw [hnil,List.length_nil,Nat.add_zero]
      · have hpos := List.length_pos_iff.mpr hnil
        rw [if_neg fun h => hnil h.1,if_neg (by omega)]
        simp only [hwild,Bool.false_or,decide_eq_false_iff_not]
        exact ⟨by omega,trivial⟩
  next hreturn =>
    refine ⟨hcut _ hset _,rfl,rfl,by simp,?_⟩
    rw [if_neg fun h : line = [] ∧ before front s.mem s.eol = ch '\r' => hreturn ((hempty h.1).trans h.2)]
    exact ⟨hwild,rfl⟩

theorem endLine_wild (front : Byte) (p : ℕ) (h : s.wild = true) : (s.endLine front p).1.wild = true := by
  rw [endLine]
  split
  · exact Bool.or_eq_true_iff.mpr (.inl h)
  · exact h

/-- The call uses up the stream in its order, and writes nowhere else. -/
def Passes (s : Sock) (r : Sock × ℤ × Bytes) : Prop :=
  r.1.wild = false ∧ r.2.2 ++ (r.1.buffered ++ pending r.1.net) = s.buffered ++ pending s.net

theorem not_passes_of_wild {r : Sock × ℤ × Bytes} (h : r.1.wild = true) : ¬s.Passes r :=
  fun hpass => Bool.false_ne_true (hpass.1.symm.trans h)

/-- A text with a line feed is a line and the rest. -/
theorem exists_line {bytes : Bytes} (h : ch '\n' ∈ bytes) :
    ∃ line rest, bytes = line ++ ch '\n'::rest ∧ memchr bytes = line.length ∧
      (line = [] ↔ bytes.head? = some (ch '\n')) := by
  induction bytes with
  | nil => cases h
  | cons c bytes ih =>
    by_cases hc : c = ch '\n'
    · refine ⟨[],bytes,by rw [hc]; rfl,?_,by simp [hc]⟩
      rw [memchr,List.takeWhile_cons_of_neg (by simp [hc])]
    · obtain ⟨line,rest,hbytes,hpos,-⟩ := ih (List.mem_of_ne_of_mem (Ne.symm hc) h)
      refine ⟨c::line,rest,by rw [hbytes]; rfl,?_,by simp [hc]⟩
      rw [memchr] at hpos
      rw [memchr,List.takeWhile_cons_of_pos (by simp [hc]),List.length_cons,hpos,List.length_cons]

/-- The end of a line passes, unless an empty line is ended behind a return. -/
theorem endLine_passes (front : Byte) {t : Sock} {line rest : Bytes} (hleft : 0 < s.left)
    (hbytes : s.bytes ≤ s.mem.length) (hbuf : s.buffered = line ++ ch '\n'::rest) (hwild : s.wild = false)
    (hstream : t.buffered ++ pending t.net = s.buffered ++ pending s.net) :
    (t.Passes (s.endLine front (s.eol+line.length)) ↔ (line = [] → before front s.mem s.eol ≠ ch '\r')) ∧
      (s.endLine front (s.eol+line.length)).1.bytes ≤ (s.endLine front (s.eol+line.length)).1.mem.length := by
  obtain ⟨hrest,hnet,hcount,hlength,hused⟩ := endLine_spec front hleft hbytes hbuf hwild
  refine ⟨?_,by rw [hcount,hlength]; exact hbytes⟩
  rw [Passes,hstream,hbuf,hrest,hnet]
  by_cases h : line = [] ∧ before front s.mem s.eol = ch '\r'
  · rw [if_pos h] at hused
    rw [hused,h.1]
    refine ⟨fun ⟨_,heq⟩ => ?_,fun hne => absurd h.2 (hne rfl)⟩
    have hlen := congrArg List.length heq
    simp only [List.nil_append,List.length_append,List.length_cons] at hlen
    omega
  · rw [if_neg h] at hused
    rw [hused.2]
    exact ⟨fun _ hnil hreturn => h ⟨hnil,hreturn⟩,fun _ => ⟨hused.1,by simp⟩⟩

/-- What comes in is put behind what is buffered, and the line ends in it. -/
theorem receivedLine_passes (front : Byte) {n : ℤ} {bytes : Bytes} {net : List Recv} (hwild : s.wild = false)
    (hn : 0 < n) (hlength : bytes.length = n.toNat) (hpending : bytes ++ pending net = pending s.net)
    (hfit : s.buffered.length+bytes.length ≤ s.mem.length) (hmore : ch '\n' ∈ bytes) :
    let t : Sock := { (s.store 0 s.buffered).store s.buffered.length bytes with
      eol := 0, bytes := n+s.buffered.length, net }
    (s.Passes (t.endLine front (s.buffered.length+memchr bytes)) ↔
        (s.buffered = [] → bytes.head? = some (ch '\n') → front ≠ ch '\r')) ∧
      (t.endLine front (s.buffered.length+memchr bytes)).1.bytes ≤
        (t.endLine front (s.buffered.length+memchr bytes)).1.mem.length := by
  intro t
  obtain ⟨line,rest,hbuf,hpos,hhead⟩ := exists_line hmore
  have hkept : 0+s.buffered.length ≤ s.mem.length := by omega
  have hmem := store_length hkept
  have hcount : (n+s.buffered.length-(0 : ℕ) : ℤ).toNat = (s.buffered ++ bytes).length := by
    rw [List.length_append]
    omega
  have htbuf : t.buffered = s.buffered ++ bytes := by
    change (List.drop 0 ((s.store 0 s.buffered).store s.buffered.length bytes).mem).take
      (n+s.buffered.length-(0 : ℕ) : ℤ).toNat = _
    rw [hcount,List.drop_zero,store_store,← List.append_assoc,List.take_left]
  have htwild : t.wild = false :=
    (store_wild (by rw [hmem]; exact hfit)).trans ((store_wild hkept).trans hwild)
  have hlen : t.mem.length = s.mem.length := (store_length (by rw [hmem]; exact hfit)).trans hmem
  have hleft : 0 < t.left := by
    change 0 < n+s.buffered.length-(0 : ℕ)
    omega
  have htle : t.bytes ≤ t.mem.length := by
    rw [hlen]
    change n+s.buffered.length ≤ (s.mem.length : ℤ)
    omega
  have hline : t.buffered = (s.buffered ++ line) ++ ch '\n'::rest := by
    rw [htbuf,hbuf,List.append_assoc]
  have hstream : s.buffered ++ pending s.net = t.buffered ++ pending t.net := by
    rw [htbuf,← hpending,List.append_assoc]
  have hp : s.buffered.length+memchr bytes = t.eol+(s.buffered ++ line).length := by
    rw [hpos,List.length_append]
    exact (Nat.zero_add _).symm
  obtain ⟨hpass,hle⟩ := endLine_passes front hleft htle hline htwild hstream
  rw [hp,← hhead]
  refine ⟨hpass.trans ⟨fun h hnil hfirst => h (List.append_eq_nil_iff.mpr ⟨hnil,hfirst⟩),fun h hnil => ?_⟩,hle⟩
  obtain ⟨hbuffered,hfirst⟩ := List.append_eq_nil_iff.mp hnil
  exact h hbuffered hfirst

theorem readLine_passes (front : Byte) (hbytes : s.bytes ≤ s.mem.length) (hwild : s.wild = false) :
    (s.Passes (s.readLine front) ↔ s.LineOk front) ∧
      (s.LineOk front → (s.readLine front).1.bytes ≤ (s.readLine front).1.mem.length) := by
  have hrem := buffered_length hbytes
  rw [LineOk,readLine]
  by_cases hline : ch '\n' ∈ s.buffered
  · simp only [if_pos hline]
    have hleft : 0 < s.left := by
      by_contra hleft
      rw [buffered_eq_nil (Int.not_lt.mp hleft)] at hline
      cases hline
    obtain ⟨line,rest,hbuf,hpos,hhead⟩ := exists_line hline
    rw [hpos,← hhead]
    obtain ⟨hpass,hle⟩ := endLine_passes front (t := s) hleft hbytes hbuf hwild rfl
    exact ⟨hpass,fun _ => hle⟩
  · simp only [if_neg hline,← hrem]
    have hpending := recv_pending ((s.size : ℤ)-s.buffered.length) s.net
    have hlength := recv_length ((s.size : ℤ)-s.buffered.length) s.net
    have hnil := @recv_nil ((s.size : ℤ)-s.buffered.length) s.net
    generalize recv ((s.size : ℤ)-s.buffered.length) s.net = r at *
    obtain ⟨n,bytes,net⟩ := r
    simp only at hpending hlength hnil ⊢
    have hkept : s.buffered.length ≤ s.mem.length := by
      rw [buffered,List.length_take,List.length_drop]
      omega
    have hmem : (s.store 0 s.buffered).mem.length = s.mem.length := store_length (by omega)
    have hclean : (s.store 0 s.buffered).wild = s.wild := store_wild (by omega)
    by_cases hn : n ≤ 0
    · rw [if_pos hn,if_pos hn,hnil hn]
      rw [hnil hn,List.nil_append] at hpending
      refine ⟨?_,fun _ => Int.le_trans hn (Int.natCast_nonneg _)⟩
      have hempty : ({ (s.store 0 s.buffered).store s.buffered.length [] with
          eol := s.buffered.length, bytes := n, net } : Sock).buffered = [] := by
        refine buffered_eq_nil ?_
        change n-(s.buffered.length : ℤ) ≤ 0
        omega
      rw [Passes,hempty,store_wild (by rw [hmem,List.length_nil]; exact hkept),hclean,hwild,hpending]
      simp only [true_and,List.nil_append,List.self_eq_append_left]
    · rw [if_neg hn,if_neg hn]
      by_cases hfit : s.buffered.length+bytes.length ≤ s.mem.length
      · by_cases hmore : ch '\n' ∈ bytes
        · rw [if_pos hmore]
          obtain ⟨hpass,hle⟩ := receivedLine_passes front hwild (Int.not_le.mp hn) hlength hpending hfit hmore
          exact ⟨hpass.trans ⟨fun h => ⟨hmore,hfit,h⟩,fun h => h.2.2⟩,fun _ => hle⟩
        · rw [if_neg hmore]
          exact ⟨⟨fun h => absurd h (not_passes_of_wild rfl),fun h => absurd h.1 hmore⟩,fun h => absurd h.1 hmore⟩
      · have hwild' : ((s.store 0 s.buffered).store s.buffered.length bytes).wild = true :=
          wild_of_long (by rw [hmem]; omega)
        refine ⟨⟨fun h => ?_,fun h => absurd h.2.1 hfit⟩,fun h => absurd h.2.1 hfit⟩
        refine absurd h (not_passes_of_wild ?_)
        split
        · exact endLine_wild front _ hwild'
        · rfl

/-- The first bytes of the buffer are copied to its front, and the cursor moves behind them. -/
theorem buffered_of_read {n : ℕ} (hn : n ≤ s.buffered.length) (wild : Bool) :
    ({ s.store 0 (s.buffered.take n) with eol := s.eol+n, wild } : Sock).buffered = s.buffered.drop n := by
  have hlength : (s.buffered.take n).length = n := by
    rw [List.length_take]
    omega
  have hdrop : (s.store 0 (s.buffered.take n)).mem.drop (s.eol+n) = (s.mem.drop s.eol).drop n := by
    rw [Nat.add_comm,store]
    change (List.take 0 _ ++ _ ++ _).drop (n+s.eol) = _
    rw [List.take_zero,List.nil_append,hlength,Nat.zero_add]
    rw [List.drop_append,List.drop_eq_nil_of_le (by omega),List.nil_append,hlength,Nat.add_sub_cancel_left,
      List.drop_drop,List.drop_drop,Nat.add_comm]
  have hleft : (s.bytes-((s.eol+n : ℕ) : ℤ)).toNat = s.left.toNat-n := by
    rw [left]
    omega
  rw [buffered,left]
  change (List.drop (s.eol+n) _).take (s.bytes-((s.eol+n : ℕ) : ℤ)).toNat = _
  rw [hdrop,hleft,buffered,List.drop_take]

theorem read_passes (len : ℤ) (hbytes : s.bytes ≤ s.mem.length) (hwild : s.wild = false) :
    (s.Passes (s.read len) ↔ s.ReadOk len) ∧
      (s.ReadOk len → (s.read len).1.bytes ≤ (s.read len).1.mem.length) := by
  have hlength := buffered_length hbytes
  rw [ReadOk,read]
  by_cases hleft : 0 < s.left
  · have hne : s.buffered ≠ [] := List.ne_nil_of_length_pos (by omega)
    rw [if_pos hleft,if_neg hne]
    by_cases hlen : 0 ≤ len
    · obtain ⟨n,hn⟩ := Int.eq_ofNat_of_zero_le (show 0 ≤ min len s.left by omega)
      have hle : n ≤ s.buffered.length := by omega
      have hbuf := buffered_of_read hle false
      have hmem : (s.store 0 (s.buffered.take n)).mem.length = s.mem.length := store_length (by
        rw [buffered,List.length_take,List.length_take,List.length_drop]
        omega)
      have hstate : (s.wild || decide ((n : ℤ) < 0)) = false := by
        rw [hwild,Bool.false_or,decide_eq_false_iff_not]
        omega
      have hnext : (s.eol+(n : ℤ)).toNat = s.eol+n := by omega
      simp only [hn,Int.toNat_natCast,hnext,hstate]
      refine ⟨iff_of_true ⟨rfl,?_⟩ hlen,fun _ => ?_⟩
      · simp only [hbuf]
        rw [← List.append_assoc,List.take_append_drop]
        rfl
      · simp only [hmem]
        exact hbytes
    · refine ⟨iff_of_false (not_passes_of_wild ?_) hlen,fun h => absurd h hlen⟩
      rw [Bool.or_eq_true_iff,decide_eq_true_iff]
      exact .inr (by omega)
  · have hnil := buffered_eq_nil (Int.not_lt.mp hleft)
    rw [if_neg hleft,if_pos hnil]
    have hpending := recv_pending len s.net
    generalize recv len s.net = r at hpending ⊢
    obtain ⟨n,bytes,net⟩ := r
    simp only at hpending ⊢
    by_cases hfit : bytes.length ≤ s.mem.length
    · have hmem : (s.store 0 bytes).mem.length = s.mem.length := store_length (by omega)
      have hclean : (s.store 0 bytes).wild = s.wild := store_wild (by omega)
      have hempty : ({ s.store 0 bytes with net } : Sock).buffered = [] := buffered_eq_nil (Int.not_lt.mp hleft)
      refine ⟨iff_of_true ⟨hclean.trans hwild,?_⟩ hfit,fun _ => ?_⟩
      · simp only [hempty,hnil,List.nil_append]
        exact hpending
      · simp only [hmem]
        exact hbytes
    · refine ⟨iff_of_false (not_passes_of_wild (wild_of_long ?_)) hfit,fun h => absurd h hfit⟩
      omega

/-- With more fuel than bytes on their way the loop ends for a reason of its own. -/
theorem ignoreLoop_fuel (all : Bool) {n : ℕ} (h : (pending s.net).length < n) (len count : ℤ) (used : Bytes) :
    s.ignoreLoop all (n+1) len count used = s.ignoreLoop all n len count used := by
  induction n generalizing s len count used with
  | zero => cases h
  | succ n ih =>
    rw [ignoreLoop,ignoreLoop]
    have hpending := recv_pending (if all then s.size else len) s.net
    have hlength := recv_length (if all then s.size else len) s.net
    generalize recv (if all then s.size else len) s.net = r at hpending hlength ⊢
    split
    · rfl
    · simp only
      split
      · rfl
      next hpos =>
        refine ih ?_ _ _ _
        have hlen := congrArg List.length hpending
        rw [List.length_append] at hlen
        change (pending r.2.2).length < n
        omega

theorem ignoreLoop_wild (all : Bool) (n : ℕ) (len count : ℤ) (used : Bytes) (h : s.wild = true) :
    (s.ignoreLoop all n len count used).1.wild = true := by
  induction n generalizing s len count used with
  | zero => exact h
  | succ n ih =>
    rw [ignoreLoop]
    generalize recv (if all then s.size else len) s.net = r
    split
    · exact h
    · simp only
      split
      · exact wild_store 0 _ h
      · exact ih _ _ _ (wild_store 0 _ h)

/-- The loop skips what it receives. -/
theorem ignoreLoop_used (all : Bool) (n : ℕ) (len count : ℤ) (used : Bytes) :
    (s.ignoreLoop all n len count used).2.2 ++ pending (s.ignoreLoop all n len count used).1.net =
      used ++ pending s.net := by
  induction n generalizing s len count used with
  | zero => rfl
  | succ n ih =>
    rw [ignoreLoop]
    have hpending := recv_pending (if all then s.size else len) s.net
    have hnil := @recv_nil (if all then s.size else len) s.net
    generalize recv (if all then s.size else len) s.net = r at hpending hnil ⊢
    split
    · rfl
    · simp only
      split
      next hgot =>
        rw [hnil hgot] at hpending
        exact congrArg (used ++ ·) hpending
      next => rw [ih,← hpending,List.append_assoc]

/-- The loop stays in the buffer when the pieces do. -/
theorem ignoreLoop_wild_iff (all : Bool) (n : ℕ) (len count : ℤ) (used : Bytes) (hwild : s.wild = false) :
    (s.ignoreLoop all n len count used).1.wild = false ↔
      ∀ piece ∈ pieces all s.size n len s.net, piece.length ≤ s.mem.length := by
  induction n generalizing s len count used with
  | zero => exact iff_of_true hwild (List.forall_mem_nil _)
  | succ n ih =>
    rw [ignoreLoop,pieces]
    have hnil := @recv_nil (if all then s.size else len) s.net
    generalize recv (if all then s.size else len) s.net = r at hnil ⊢
    obtain ⟨got,bytes,net⟩ := r
    by_cases hdone : ¬all ∧ len ≤ 0
    · rw [if_pos hdone,if_pos hdone]
      exact iff_of_true hwild (List.forall_mem_nil _)
    · rw [if_neg hdone,if_neg hdone]
      simp only at hnil ⊢
      by_cases hgot : got ≤ 0
      · rw [if_pos hgot,if_pos hgot,hnil hgot]
        have hclean : (s.store 0 []).wild = false := (store_wild (Nat.zero_le _)).trans hwild
        exact iff_of_true hclean (List.forall_mem_nil _)
      · rw [if_neg hgot,if_neg hgot,List.forall_mem_cons]
        by_cases hfit : bytes.length ≤ s.mem.length
        · have hle : 0+bytes.length ≤ s.mem.length := by omega
          refine (ih (s := { s.store 0 bytes with net }) (len-got) (count+got) (used ++ bytes)
            ((store_wild hle).trans hwild)).trans ?_
          change (∀ piece ∈ pieces all s.size n (len-got) net, piece.length ≤ (s.store 0 bytes).mem.length) ↔ _
          rw [store_length hle]
          exact (and_iff_right hfit).symm
        · have hout : ({ s.store 0 bytes with net } : Sock).wild = true := wild_of_long (by omega)
          refine iff_of_false (fun h => ?_) fun h => hfit h.1
          exact Bool.false_ne_true (h.symm.trans (ignoreLoop_wild all n _ _ _ hout))

theorem ignore_passes (len : ℤ) (hbytes : s.bytes ≤ s.mem.length) (hwild : s.wild = false) :
    (s.Passes (s.ignore len) ↔ s.IgnoreOk len) ∧ (s.ignore len).1.bytes ≤ (s.ignore len).1.mem.length := by
  have hlength := buffered_length hbytes
  refine ⟨?_,Int.natCast_nonneg _⟩
  have hempty : (s.ignore len).1.buffered = [] := by
    refine buffered_eq_nil ?_
    change 0-((s.ignore len).1.eol : ℤ) ≤ 0
    omega
  have hused : (s.ignore len).2.2 ++ pending (s.ignore len).1.net =
      (if len = IGNORE_ALL then s.buffered else s.buffered.take len.toNat) ++ pending s.net :=
    ignoreLoop_used _ _ _ _ _
  rw [Passes,IgnoreOk,hempty,List.nil_append,and_comm]
  refine and_congr ?_ (ignoreLoop_wild_iff _ _ _ _ _ hwild)
  rw [hused,List.append_left_inj]
  by_cases hall : len = IGNORE_ALL
  · rw [if_pos hall]
    exact iff_of_true rfl fun _ => .inl hall
  · rw [if_neg hall,List.take_eq_self_iff]
    refine ⟨fun h hne => .inr ?_,fun h => ?_⟩
    · have hpos := List.length_pos_iff.mpr hne
      omega
    · by_cases hnil : s.buffered = []
      · rw [hnil]
        exact Nat.zero_le _
      · have hle := (h hnil).resolve_left hall
        omega

end Sock

namespace Reading

/-- What every call keeps that goes right. -/
structure Kept (stream : Bytes) (t : Reading) : Prop where
  delivers : t.Delivers stream
  bytes_le : t.sock.bytes ≤ t.sock.mem.length

/-- A call goes on with the stream exactly when it passes. -/
theorem delivers_step {stream : Bytes} {t : Reading} (h : t.Delivers stream) (r : Sock × ℤ × Bytes) :
    Delivers stream ⟨r.1,t.used ++ r.2.2⟩ ↔ t.sock.Passes r := by
  refine and_congr_right fun _ => ?_
  rw [← h.2]
  simp only [List.append_assoc,List.append_cancel_left_eq]

theorem call_passes (front : Byte) {t : Reading} (hbytes : t.sock.bytes ≤ t.sock.mem.length)
    (hwild : t.sock.wild = false) (c : SockCall) :
    (t.sock.Passes (call front t.sock c) ↔ t.CallOk front c) ∧
      (t.CallOk front c → (call front t.sock c).1.bytes ≤ (call front t.sock c).1.mem.length) := by
  cases c with
  | readLine => exact Sock.readLine_passes front hbytes hwild
  | read len => exact Sock.read_passes len hbytes hwild
  | ignore len => exact ⟨(Sock.ignore_passes len hbytes hwild).1,fun _ => (Sock.ignore_passes len hbytes hwild).2⟩

end Reading

end Smx
