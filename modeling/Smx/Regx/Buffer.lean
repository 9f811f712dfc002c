import Smx.Base.Number
import Smx.Regx.Emit
import Smx.Regx.Walk
import Smx.Lib.Run

/-! The memory of the code, over calls of `Compile`: where it is written to, and where the pointers lead. -/
namespace Smx.Regx

/-- What `realloc` answers. -/
inductive Answer
  | null
  | stays
  | moves
  deriving DecidableEq

/-- A pointer into a block of memory. -/
structure Ptr where
  block : ℕ
  off : ℕ
  deriving DecidableEq

def Ptr.add (n : ℕ) (p : Ptr) : Ptr := { p with off := p.off+n }

structure Mem where
  /-- `m_code`: the number of its block -/
  code : Option ℕ
  size : ℕ
  /-- `m_code_ptr` -/
  ptr : Option Ptr
  /-- the pointers that `ParseNode` has given -/
  held : List (Option Ptr)
  /-- what has been written, up to `m_code_ptr` -/
  text : Bytes
  /-- how often `realloc` was called -/
  calls : ℕ
  /-- something was written outside of the block, or with a pointer to one that is gone -/
  outside : Bool

namespace Mem

/-- The offset of a pointer with room for `n` bytes in the block. -/
def reach (m : Mem) (p : Option Ptr) (n : ℕ) : Option ℕ :=
  match p with
  | none => none
  | some p => if m.code = some p.block ∧ p.off+n ≤ m.size then some p.off else none

def write (m : Mem) (bs : Bytes) : Mem :=
  let m' := { m with ptr := m.ptr.map (Ptr.add bs.length) }
  match m.reach m.ptr bs.length with
  | some off => { m' with text := m.text.take off ++ bs }
  | none => { m' with outside := true }

/-- The next pointers of nodes are set, by means of two pointers that are held. -/
def patch (m : Mem) (f : Bytes → ℕ → ℕ → Bytes) (p q : ℕ) : Mem :=
  match m.reach (m.held.getD p none) 3,m.reach (m.held.getD q none) 3 with
  | some p,some q => { m with text := f m.text p q }
  | _,_ => { m with outside := true }

def access (m : Mem) : Access → Mem
  | .chars bs => m.write bs
  | .node op => { m.write (Regx.node op) with held := m.held ++ [m.ptr] }
  | .insert op p =>
    let m' := { m with ptr := m.ptr.map (Ptr.add 3) }
    match m.reach m.ptr 3,m.reach (m.held.getD p none) 3 with
    | some _,some p => { m' with text := parseInsert m.text op p }
    | _,_ => { m' with outside := true }
  | .tail p q => m.patch parseTail p q
  | .opTail p q => m.patch parseOpTail p q
  | .hook p q => m.patch (fun code p q => closeBranches q code.length p code) p q
  | .grow _ => m

/-- `ParseGrowBuf` -/
def grow (answer : ℕ → Answer) (m : Mem) (n : ℤ) : Bool × Mem :=
  if m.ptr.map (·.block) ≠ m.code then (true,{ m with outside := true })
  else if ((m.ptr.map (·.off)).getD 0 : ℕ)+n ≤ (m.size : ℤ) then (true,m)
  else
    let m' := { m with size := m.size+codeGrow,calls := m.calls+1 }
    match answer m.calls,m.code with
    | .null,_ => (false,{ m' with code := none })
    | .stays,some _ => (true,m')
    | _,_ => (true,{ m' with code := some m.calls })

/-- The accesses up to a `ParseGrowBuf` that fails. -/
def exec (answer : ℕ → Answer) : List Access → Mem → Bool × Mem
  | [],m => (true,m)
  | .grow n::as,m =>
    match m.grow answer n with
    | (true,m) => exec answer as m
    | (false,m) => (false,m)
  | a::as,m => exec answer as (m.access a)

end Mem

/-- The node of the longest string in a chain, the last of them where several are longest. -/
def longestAt (code : Bytes) : ℕ → ℕ → Option ℕ → Option ℕ
  | 0,_,best => best
  | fuel+1,scan,best =>
    let len := (best.map fun p => (operand code p).length).getD 0
    let best := if opAt code scan = .EXACTLY ∧ len ≤ (operand code scan).length then some scan else best
    match parseNext code scan with
    | none => best
    | some scan => longestAt code fuel scan best

/-- An object: its memory, and what `Compile` finds out for `Match`. -/
structure CodeObject where
  mem : Mem
  start : Byte
  anchor : Bool
  must : Option Ptr
  must_len : ℕ

namespace CodeObject

/-- The constructor. -/
def new : CodeObject := ⟨⟨none,0,none,[],[],0,false⟩,0,false,none,0⟩

/-- A call of `Compile`, on an object that is sensitive to case or not. -/
structure Call where
  exp : Option Bytes
  sensitive : Bool

/-- What a pattern does to the memory, and what the parser gives. -/
def accesses (sensitive : Bool) (exp : Bytes) : Accesses.Parsed := do
  Accesses.access (.chars [MAGIC])
  Accesses.parse sensitive (5*exp.length+5) false ⟨exp,1,0⟩

/-- The simple optimizations. -/
def optimize (o : CodeObject) (spStart : Bool) : CodeObject :=
  let code := o.mem.text
  let o := { o with start := 0,anchor := false,must := none,must_len := 0 }
  if (parseNext code 1).map (opAt code) = some .END then
    let longest := if spStart then longestAt code code.length 4 none else none
    { o with
      start := if opAt code 4 = .EXACTLY then (operand code 4).headD 0 else 0
      anchor := opAt code 4 = .BOL
      must := longest.bind fun p => o.mem.code.map fun block => ⟨block,p+3⟩
      must_len := (longest.map fun p => (operand code p).length).getD 0 }
  else o

/-- The guess of the size in advance: an `int`. -/
def guess (exp : Bytes) : ℤ := int32 (exp.length*3+8)

/-- `Compile` -/
def compile (answer : ℕ → Answer) (o : CodeObject) (call : Call) : Bool × CodeObject :=
  match call.exp with
  | none => (false,o)
  | some exp =>
    let exp := cstr exp
    match if o.mem.code = none then o.mem.grow answer (guess exp) else (true,o.mem) with
    | (false,m) => (false,{ o with mem := m })
    | (true,m) =>
      let m := { m with ptr := m.code.map (⟨·,0⟩),held := [],text := [] }
      let ⟨as,result⟩ := accesses call.sensitive exp
      match m.exec answer as,result with
      | (true,m),.ok (_,flags,_) => (true,optimize { o with mem := m } flags.spStart)
      | (_,m),_ => (false,{ o with mem := m })

def step (answer : ℕ → Answer) (o : CodeObject) (call : Call) : Option CodeObject := some (compile answer o call).2

/-- Nothing was written outside of the memory, each pointer that was used led into it, and so does `m_must`. -/
structure InBuffer (o : CodeObject) : Prop where
  inside : o.mem.outside = false
  must : ∀ p, o.must = some p → o.mem.code = some p.block ∧ p.off < o.mem.size

end CodeObject

/-- How many bytes of code an access adds. -/
def Access.bytes : Access → ℕ
  | .chars bs => bs.length
  | .node _ => 3
  | .insert _ _ => 3
  | _ => 0

/-- How many bytes it asks for. -/
def Access.wants : Access → ℕ
  | .grow n => n
  | a => a.bytes

/-- The room that accesses take behind `n` bytes of code: for what they add, and for the reserves. -/
def room : ℕ → List Access → ℕ
  | n,[] => n
  | n,a::as => max (n+a.wants) (room (n+a.bytes) as)

/-- The room that a pattern takes. -/
def roomOf (sensitive : Bool) (exp : Bytes) : ℕ := room 0 (CodeObject.accesses sensitive exp).log

/-! ### Memory that is large enough -/

/-- The code in memory without a bound, and where the nodes were made. -/
structure Sheet where
  code : Bytes
  offs : List ℕ

namespace Sheet

def off (t : Sheet) (p : ℕ) : ℕ := t.offs.getD p 0

def access (t : Sheet) : Access → Sheet
  | .chars bs => { t with code := t.code ++ bs }
  | .node op => ⟨t.code ++ Regx.node op,t.offs ++ [t.code.length]⟩
  | .insert op p => { t with code := parseInsert t.code op (t.off p) }
  | .tail p q => { t with code := parseTail t.code (t.off p) (t.off q) }
  | .opTail p q => { t with code := parseOpTail t.code (t.off p) (t.off q) }
  | .hook p q => { t with code := closeBranches (t.off q) t.code.length (t.off p) t.code }
  | .grow _ => t

/-- There is room for an access. -/
def Fits (t : Sheet) (a : Access) : Prop := t.code.length+a.wants ≤ codeGrow

/-- The nodes lie in the code. -/
def Ok (t : Sheet) : Prop := ∀ off ∈ t.offs, off+3 ≤ t.code.length

end Sheet

variable {t : Sheet} {m : Mem} {a : Access} {as : List Access} {block p n : ℕ}

theorem length_closeBranches (val fuel br : ℕ) (code : Bytes) :
    (closeBranches val fuel br code).length = code.length := by
  induction fuel generalizing br code with
  | zero => rfl
  | succ fuel ih =>
    simp only [closeBranches]
    split
    · exact length_parseOpTail _ _ _
    · rw [ih,length_parseOpTail]

theorem Sheet.length_access (t : Sheet) (a : Access) : (t.access a).code.length = t.code.length+a.bytes := by
  cases a with
  | chars bs => exact List.length_append
  | node op => exact length_node _ _
  | insert op p =>
    simp only [Sheet.access,parseInsert,List.length_append,List.length_take,List.length_drop,Access.bytes]
    have hnode : (Regx.node op).length = 3 := rfl
    omega
  | tail p q => exact length_parseTail _ _ _
  | opTail p q => exact length_parseOpTail _ _ _
  | hook p q => exact length_closeBranches _ _ _ _
  | grow k => rfl

theorem le_room (n : ℕ) (as : List Access) : n ≤ room n as := by
  induction as generalizing n with
  | nil => exact le_rfl
  | cons a as ih => exact ((Nat.le_add_right _ _).trans (ih _)).trans (le_max_right _ _)

/-- Accesses fit when there is the room that they take. -/
theorem along_fits (h : room t.code.length as ≤ codeGrow) : Logging.Along Sheet.access Sheet.Fits t as := by
  induction as generalizing t with
  | nil => trivial
  | cons a as ih =>
    rw [room] at h
    refine ⟨(le_max_left _ _).trans h,ih ?_⟩
    rw [Sheet.length_access]
    exact (le_max_right _ _).trans h

theorem length_run (as : List Access) (t : Sheet) :
    (as.foldl Sheet.access t).code.length ≤ room t.code.length as := by
  induction as generalizing t with
  | nil => exact le_rfl
  | cons a as ih =>
    rw [List.foldl_cons,room]
    refine (ih _).trans ?_
    rw [Sheet.length_access]
    exact le_max_right _ _

theorem Sheet.Ok.access (h : t.Ok) (a : Access) : (t.access a).Ok := by
  have hlen := t.length_access a
  have hold (hoffs : (t.access a).offs = t.offs) : (t.access a).Ok := by
    intro off hoff
    rw [hoffs] at hoff
    have hroom := h off hoff
    omega
  cases a with
  | node op =>
    intro off hoff
    obtain hoff | hoff := List.mem_append.mp hoff
    · have hroom := h off hoff
      omega
    · rw [List.mem_singleton.mp hoff,hlen]
      exact le_rfl
  | _ => exact hold rfl

/-- The memory has one block, with the code in it. -/
structure Mem.Shows (m : Mem) (block : ℕ) (t : Sheet) : Prop where
  code : m.code = some block
  size : m.size = codeGrow
  ptr : m.ptr = some ⟨block,t.code.length⟩
  held : m.held = t.offs.map fun off => some ⟨block,off⟩
  text : m.text = t.code
  inside : m.outside = false

namespace Mem.Shows

theorem reach_ptr (h : m.Shows block t) (hn : t.code.length+n ≤ codeGrow) : m.reach m.ptr n = some t.code.length := by
  rw [h.ptr,Mem.reach]
  exact if_pos ⟨h.code,h.size ▸ hn⟩

theorem reach_held (h : m.Shows block t) (ht : t.Ok) (hlen : t.code.length ≤ codeGrow) (hp : p < t.offs.length) :
    m.reach (m.held.getD p none) 3 = some (t.off p) := by
  have hheld : m.held.getD p none = some ⟨block,t.off p⟩ := by
    rw [h.held,Sheet.off,List.getD_eq_getElem _ _ (by rwa [List.length_map]),List.getElem_map,
      List.getD_eq_getElem _ _ hp]
  have hroom : t.off p+3 ≤ t.code.length := by
    apply ht
    rw [Sheet.off,List.getD_eq_getElem _ _ hp]
    exact List.getElem_mem hp
  rw [hheld,Mem.reach]
  exact if_pos ⟨h.code,h.size ▸ hroom.trans hlen⟩

theorem write (h : m.Shows block t) {bs : Bytes} (hn : t.code.length+bs.length ≤ codeGrow) :
    m.write bs = { m with ptr := some ⟨block,t.code.length+bs.length⟩,text := t.code ++ bs } := by
  rw [Mem.write,h.reach_ptr hn]
  simp only [h.ptr,h.text,List.take_length]
  rfl

theorem patch (h : m.Shows block t) (ht : t.Ok) (hlen : t.code.length ≤ codeGrow) {q : ℕ} (hp : p < t.offs.length)
    (hq : q < t.offs.length) {f : Bytes → ℕ → ℕ → Bytes}
    (hf : (f t.code (t.off p) (t.off q)).length = t.code.length) :
    (m.patch f p q).Shows block { t with code := f t.code (t.off p) (t.off q) } := by
  rw [Mem.patch,h.reach_held ht hlen hp,h.reach_held ht hlen hq]
  refine ⟨h.code,h.size,?_,h.held,?_,h.inside⟩
  · exact h.ptr.trans (by rw [hf])
  · change f m.text _ _ = _
    rw [h.text]

theorem access (h : m.Shows block t) (ht : t.Ok) (ha : a.Named t.offs.length) (hfits : t.Fits a) :
    (m.access a).Shows block (t.access a) := by
  have hlen : t.code.length ≤ codeGrow := (Nat.le_add_right _ _).trans hfits
  cases a with
  | chars bs =>
    rw [Mem.access,h.write hfits]
    exact ⟨h.code,h.size,by rw [Sheet.length_access]; rfl,h.held,rfl,h.inside⟩
  | node op =>
    have hwrite := h.write (show t.code.length+(Regx.node op).length ≤ codeGrow from hfits)
    rw [Mem.access,hwrite]
    refine ⟨h.code,h.size,by rw [Sheet.length_access]; rfl,?_,rfl,h.inside⟩
    change m.held ++ [m.ptr] = (t.offs ++ [t.code.length]).map _
    rw [h.held,h.ptr,List.map_append]
    rfl
  | insert op p =>
    rw [Mem.access]
    simp only [h.reach_ptr (n := 3) hfits,h.reach_held ht hlen ha]
    refine ⟨h.code,h.size,?_,h.held,?_,h.inside⟩
    · rw [Sheet.length_access]
      exact congrArg (Option.map (Ptr.add 3)) h.ptr
    · change parseInsert m.text op _ = parseInsert t.code op _
      rw [h.text]
  | tail p q => exact h.patch ht hlen ha.1 ha.2 (length_parseTail _ _ _)
  | opTail p q => exact h.patch ht hlen ha.1 ha.2 (length_parseOpTail _ _ _)
  | hook p q =>
    exact h.patch (f := fun code p q => closeBranches q code.length p code) ht hlen ha.1 ha.2
      (length_closeBranches _ _ _ _)
  | grow k => exact h

/-- With room for all of the accesses the memory does not move, and the code is what it is without a bound. -/
theorem exec (answer : ℕ → Answer) (h : m.Shows block t) (ht : t.Ok)
    (hnamed : Logging.Along addNodes (fun n a => a.Named n) t.offs.length as)
    (hfits : Logging.Along Sheet.access Sheet.Fits t as) :
    ∃ m', m.exec answer as = (true,m') ∧ m'.Shows block (as.foldl Sheet.access t) := by
  induction as generalizing m t with
  | nil => exact ⟨m,rfl,h⟩
  | cons a as ih =>
    have hnodes : (t.access a).offs.length = addNodes t.offs.length a := by
      cases a with
      | node op => exact List.length_append
      | _ => rfl
    obtain ⟨ha,hnamed⟩ := hnamed
    rw [← hnodes] at hnamed
    obtain ⟨m',hexec,hshows⟩ := ih (h.access ht ha hfits.1) (ht.access a) hnamed hfits.2
    refine ⟨m',?_,hshows⟩
    cases a with
    | grow k =>
      have hstay : m.grow answer k = (true,m) := by
        have hblock : ¬m.ptr.map (·.block) ≠ m.code := by
          rw [h.ptr,h.code]
          exact not_not.mpr rfl
        have hroom : ((m.ptr.map (·.off)).getD 0 : ℕ)+(k : ℤ) ≤ (m.size : ℤ) := by
          rw [h.ptr,h.size]
          exact_mod_cast hfits.1
        rw [Mem.grow,if_neg hblock,if_pos hroom]
      rw [Mem.exec,hstay]
      exact hexec
    | _ => exact hexec

end Mem.Shows

end Smx.Regx
