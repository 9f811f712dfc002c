import Smx.Lib.Run
import Smx.Str.Sharing

/-! `qStrBuf`: a string that is written at its end and read from a position that goes along it. -/
namespace Smx.StrBuf

/-- Bytes that a reader can tell from the end. -/
abbrev Text := { d : Bytes // EOF ∉ d }

inductive Op
  | putS (d : Text)
  | putC (c : { c : Byte // c ≠ EOF })
  | getC
  | ungetC (c : Byte)
  | getS
  /-- `GetS(b, n)` -/
  | getSN (n : ℕ)
  | clear

/-- What a call returns. -/
inductive Out
  | nothing
  | char (c : Byte)
  | bytes (b : Bytes)
  | flag (b : Bool)
  deriving DecidableEq

/-- A `qStrBuf`, whose string no one shares. -/
structure Stream where
  store : Store Unit
  myP : ℕ

namespace Stream

def data (s : Stream) : Bytes := s.store.value ()

/-- What `GetC` returns from here on. -/
def unread (s : Stream) : Bytes := s.data.drop s.myP

variable (blank : ℕ → ℕ → Byte)

/-- `qStrBuf()` -/
def fresh : Stream := ⟨((Store.start : Store Unit).assignChars blank () (some [])).getD Store.start,0⟩

/-- A call; none when memory is accessed that is not there. -/
def step (s : Stream) : Op → Option (Out × Stream)
  | .putS d => (s.store.append blank () d.val).map fun t => (.nothing,{ s with store := t })
  | .putC c => (s.store.appendChar blank () c.val).map fun t => (.nothing,{ s with store := t })
  | .getC =>
    if s.myP < s.store.length () then some (.char (s.data.getD s.myP 0),{ s with myP := s.myP+1 })
    else some (.char EOF,s)
  | .ungetC c =>
    if 0 < s.myP then some (.flag true,⟨s.store.write () (poke (s.myP-1) c),s.myP-1⟩) else some (.flag false,s)
  | .getS =>
    -- the text behind the position is read as a C string
    let tmp := if s.myP < s.store.length () then cstr s.unread else []
    (s.store.grow blank () 0).map fun t => (.bytes tmp,{ s with store := t })
  | .getSN n =>
    if s.myP < s.store.length () then
      some (.bytes (s.unread.take n),{ s with myP := s.myP+min n (s.store.length ()-s.myP) })
    else some (.bytes [],s)
  | .clear => (s.store.grow blank () 0).map fun t => (.nothing,{ s with store := t })

end Stream

/-- The bytes that have not been read, and those that have been, the last one first. -/
structure Queue where
  unread : Bytes
  read : Bytes

/-- What the calls are to do. Only the byte just read can be put back. -/
def Queue.step (q : Queue) : Op → Option (Out × Queue)
  | .putS d => some (.nothing,{ q with unread := q.unread ++ d.val })
  | .putC c => some (.nothing,{ q with unread := q.unread ++ [c.val] })
  | .getC =>
    match q.unread with
    | [] => some (.char EOF,q)
    | c::unread => some (.char c,⟨unread,c::q.read⟩)
  | .ungetC c =>
    match q.read with
    | [] => none
    | b::read => if b = c then some (.flag true,⟨c::q.unread,read⟩) else none
  | .getS => some (.bytes q.unread,⟨[],[]⟩)
  | .getSN n => some (.bytes (q.unread.take n),⟨q.unread.drop n,(q.unread.take n).reverse ++ q.read⟩)
  | .clear => some (.nothing,⟨[],[]⟩)

/-- The stream and the queue, and what the last call returned of each. -/
structure Both where
  stream : Stream
  queue : Queue
  out : Out
  queueOut : Out

namespace Both

def fresh (blank : ℕ → ℕ → Byte) : Both := ⟨.fresh blank,⟨[],[]⟩,.nothing,.nothing⟩

def step (blank : ℕ → ℕ → Byte) (b : Both) (op : Op) : Option Both := do
  let (queueOut,queue) ← b.queue.step op
  let (out,stream) ← b.stream.step blank op
  some ⟨stream,queue,out,queueOut⟩

/-- The last call returned what it is to return, and the readers have left what they are to have left. The end is
reported only when there is nothing left. -/
structure IsQueue (b : Both) : Prop where
  out_eq : b.out = b.queueOut
  unread_eq : b.stream.unread = b.queue.unread
  at_end : b.out = .char EOF → b.queue.unread = []

/-- Whatever may be called next works. -/
def Usable (blank : ℕ → ℕ → Byte) (b : Both) : Prop :=
  ∀ op, (b.queue.step op).isSome → (b.step blank op).isSome

/-- Something is put behind the position only, and `GetS()` finds no NUL. -/
def Careful (b : Both) : Op → Prop
  | .putS d => d.val = [] ∨ b.stream.myP ≤ b.stream.data.length
  | .putC _ => b.stream.myP ≤ b.stream.data.length
  | .getS => 0 ∉ b.stream.unread
  | _ => True

/-- What careful calls keep. -/
structure Kept (b : Both) : Prop where
  sound : b.stream.store.Sound
  queue : b.IsQueue
  read_eq : b.stream.data.take b.stream.myP = b.queue.read.reverse
  position : b.stream.data = [] ∨ b.stream.myP ≤ b.stream.data.length
  unread_plain : EOF ∉ b.queue.unread
  read_plain : EOF ∉ b.queue.read

end Both

namespace Stream
variable {blank : ℕ → ℕ → Byte} {s : Stream}

theorem length_eq (s : Stream) : s.store.length () = s.data.length := Store.length_value.symm

theorem putS_spec (hs : s.store.Sound) (d : Text) :
    ∃ t, s.step blank (.putS d) = some (.nothing,{ s with store := t }) ∧ t.Sound ∧ t.value () = s.data ++ d.val := by
  obtain ⟨t,ht,hfilled⟩ := Store.append_spec blank hs () d.val
  exact ⟨t,congrArg (Option.map _) ht,hfilled.sound,hfilled.value⟩

theorem putC_spec (hs : s.store.Sound) (c : { c : Byte // c ≠ EOF }) :
    ∃ t, s.step blank (.putC c) = some (.nothing,{ s with store := t }) ∧ t.Sound ∧ t.value () = s.data ++ [c.val] := by
  obtain ⟨t,ht,hfilled⟩ := Store.appendChar_spec blank hs () c.val
  exact ⟨t,congrArg (Option.map _) ht,hfilled.sound,hfilled.value⟩

theorem grow_zero_spec (blank : ℕ → ℕ → Byte) (hs : s.store.Sound) :
    ∃ t, s.store.grow blank () 0 = some t ∧ t.Sound ∧ t.value () = [] := by
  obtain ⟨t,v,ht,hfilled,hlen,-⟩ := Store.grow_spec blank hs () 0
  obtain rfl := List.length_eq_zero_iff.mp hlen
  exact ⟨t,ht,hfilled.sound,hfilled.value⟩

theorem fresh_spec (blank : ℕ → ℕ → Byte) : (fresh blank).store.Sound ∧ (fresh blank).data = [] := by
  obtain ⟨t,ht,hfilled⟩ := Store.assignChars_spec blank Store.start_sound () (some [])
  rw [fresh,ht]
  exact ⟨hfilled.sound,hfilled.value⟩

/-- A byte that is put back where it was changes nothing. -/
theorem write_poke {p : ℕ} {c : Byte} (hp : s.data[p]? = some c) : s.store.write () (poke p c) = s.store := by
  cases hi : s.store.handle () with
  | none => exact Store.write_of_null hi _
  | some a =>
    rw [data,Store.value_of_handle hi] at hp
    have hlt := (List.getElem?_eq_some_iff.mp hp).1
    rw [length_bytesOf] at hlt
    have hc : (s.store.info a).buf p = c := by simpa [bytesOf,hlt] using hp
    have hpoke : poke p c (s.store.info a).buf = (s.store.info a).buf := by
      rw [← hc]
      exact Function.update_eq_self ..
    rw [Store.write,hi]
    simp only [hpoke,Store.setInfo,Function.update_eq_self]

end Stream

namespace Both
variable {blank : ℕ → ℕ → Byte} {b : Both} {t : Store Unit} {d : Bytes}

theorem Kept.fresh (blank : ℕ → ℕ → Byte) : (Both.fresh blank).Kept := by
  obtain ⟨hsound,hdata⟩ := Stream.fresh_spec blank
  refine ⟨hsound,⟨rfl,?_,nofun⟩,?_,Or.inl hdata,by simp [Both.fresh],by simp [Both.fresh]⟩
  · exact (congrArg (List.drop _) hdata).trans List.drop_nil
  · exact (congrArg (List.take _) hdata).trans List.take_nil

/-- Bytes are put behind those that are there. -/
theorem Kept.put (h : b.Kept) (ht : t.Sound) (hdata : t.value () = b.stream.data ++ d) (hd : EOF ∉ d)
    (hpos : d = [] ∨ b.stream.myP ≤ b.stream.data.length) :
    Kept ⟨⟨t,b.stream.myP⟩,⟨b.queue.unread ++ d,b.queue.read⟩,.nothing,.nothing⟩ := by
  have hplain : EOF ∉ b.queue.unread ++ d := by
    rw [List.mem_append,not_or]
    exact ⟨h.unread_plain,hd⟩
  have hlen : (t.value ()).length = b.stream.data.length+d.length := by rw [hdata,List.length_append]
  rcases hpos with rfl | hpos
  · rw [List.append_nil] at hdata ⊢
    refine ⟨ht,⟨rfl,?_,nofun⟩,?_,?_,h.unread_plain,h.read_plain⟩
    · exact (congrArg (List.drop _) hdata).trans h.queue.unread_eq
    · exact (congrArg (List.take _) hdata).trans h.read_eq
    · change t.value () = [] ∨ _ ≤ (t.value ()).length
      rw [hdata]
      exact h.position
  · refine ⟨ht,⟨rfl,?_,nofun⟩,?_,Or.inr (hpos.trans (hlen ▸ Nat.le_add_right _ _)),hplain,h.read_plain⟩
    · calc (t.value ()).drop b.stream.myP
          = b.stream.data.drop b.stream.myP ++ d := by rw [hdata,List.drop_append_of_le_length hpos]
        _ = b.queue.unread ++ d := congrArg (· ++ d) h.queue.unread_eq
    · calc (t.value ()).take b.stream.myP
          = b.stream.data.take b.stream.myP := by rw [hdata,List.take_append_of_le_length hpos]
        _ = b.queue.read.reverse := h.read_eq

/-- The string is emptied, and the position stays where it is. -/
theorem kept_cleared (ht : t.Sound) (hdata : t.value () = []) (p : ℕ) (o : Out) : Kept ⟨⟨t,p⟩,⟨[],[]⟩,o,o⟩ := by
  refine ⟨ht,⟨rfl,?_,fun _ => rfl⟩,?_,Or.inl hdata,List.not_mem_nil,List.not_mem_nil⟩
  · exact (congrArg (List.drop _) hdata).trans List.drop_nil
  · exact (congrArg (List.take _) hdata).trans List.take_nil

/-- The next `n` bytes are read. -/
theorem Kept.advance (h : b.Kept) {n : ℕ} (hn : b.stream.myP+n ≤ b.stream.data.length) {o : Out} (ho : o ≠ .char EOF) :
    Kept ⟨⟨b.stream.store,b.stream.myP+n⟩,⟨b.queue.unread.drop n,(b.queue.unread.take n).reverse ++ b.queue.read⟩,
      o,o⟩ := by
  have hunread : b.stream.data.drop b.stream.myP = b.queue.unread := h.queue.unread_eq
  refine ⟨h.sound,⟨rfl,?_,fun he => absurd he ho⟩,?_,Or.inr hn,?_,?_⟩
  · change b.stream.data.drop (b.stream.myP+n) = b.queue.unread.drop n
    rw [← hunread,List.drop_drop]
  · change b.stream.data.take (b.stream.myP+n) = ((b.queue.unread.take n).reverse ++ b.queue.read).reverse
    rw [List.take_add,hunread,h.read_eq,List.reverse_append,List.reverse_reverse]
  · exact fun hmem => h.unread_plain (List.mem_of_mem_drop hmem)
  · simp only [List.mem_append,List.mem_reverse,not_or]
    exact ⟨fun hmem => h.unread_plain (List.mem_of_mem_take hmem),h.read_plain⟩

theorem step_eq {op : Op} {o o' : Out} {q : Queue} {s : Stream} (hq : b.queue.step op = some (o',q))
    (hs : b.stream.step blank op = some (o,s)) : b.step blank op = some ⟨s,q,o,o'⟩ := by
  rw [step,hq]
  simp only [Option.bind_eq_bind,Option.bind_some,hs]

/-- A byte is left to be read when the position is inside the string. -/
theorem Kept.lt_iff (h : b.Kept) : b.stream.myP < b.stream.store.length () ↔ b.queue.unread ≠ [] := by
  rw [← h.queue.unread_eq,Stream.unread,Ne,List.drop_eq_nil_iff,Stream.length_eq,not_le]

/-- `GetC` takes the next byte, and reports the end when there is none. -/
theorem Kept.getC (blank : ℕ → ℕ → Byte) (h : b.Kept) : ∃ t, b.step blank .getC = some t ∧ t.Kept := by
  cases hu : b.queue.unread with
  | nil =>
    have hp := mt h.lt_iff.mp (not_not.mpr hu)
    have hq : b.queue.step .getC = some (.char EOF,b.queue) := by
      rw [Queue.step,hu]
    refine ⟨_,step_eq hq (if_neg hp),h.sound,⟨rfl,h.queue.unread_eq,fun _ => hu⟩,h.read_eq,h.position,h.unread_plain,
      h.read_plain⟩
  | cons c u =>
    have hp := h.lt_iff.mpr (hu ▸ List.cons_ne_nil c u)
    have hq : b.queue.step .getC = some (.char c,⟨u,c::b.queue.read⟩) := by
      rw [Queue.step,hu]
    have hc : b.stream.data.getD b.stream.myP 0 = c := by
      have hdrop : b.stream.data.drop b.stream.myP = c::u := h.queue.unread_eq.trans hu
      have hget : b.stream.data[b.stream.myP]? = some c := by
        rw [← List.head?_drop,hdrop]
        rfl
      rw [List.getD_eq_getElem?_getD,hget]
      rfl
    refine ⟨_,step_eq hq (if_pos hp),?_⟩
    have hplain : Out.char c ≠ .char EOF := by
      rintro ⟨⟩
      exact h.unread_plain (hu ▸ List.mem_cons_self)
    have hadv := h.advance (n := 1) (Stream.length_eq b.stream ▸ hp) hplain
    rw [hu] at hadv
    rw [hc]
    exact hadv

/-- The byte just read is put back. -/
theorem Kept.ungetC (h : b.Kept) {c : Byte} {u : Both} (hstep : b.step blank (.ungetC c) = some u) : u.Kept := by
  cases hr : b.queue.read with
  | nil => simp [step,Queue.step,hr] at hstep
  | cons d r =>
    by_cases hd : d = c
    · subst hd
      have hq : b.queue.step (.ungetC d) = some (.flag true,⟨d::b.queue.unread,r⟩) := by
        simp [Queue.step,hr]
      have htake : b.stream.data.take b.stream.myP = r.reverse ++ [d] := by
        rw [h.read_eq,hr,List.reverse_cons]
      have hne : b.stream.data ≠ [] := fun hnil => by simp [hnil] at htake
      have hle := h.position.resolve_left hne
      have hmyP : b.stream.myP = r.length+1 := by
        have hlen := congrArg List.length htake
        simpa [min_eq_left hle] using hlen
      have hfront : b.stream.data.take r.length = r.reverse := by
        have hcut := congrArg (List.take r.length) htake
        rw [List.take_take,hmyP,min_eq_left (Nat.le_succ _),← List.length_reverse,List.take_left] at hcut
        rwa [List.length_reverse] at hcut
      have hget : b.stream.data[r.length]? = some d := by
        have hlast := congrArg (·[r.length]?) htake
        simpa [hmyP,List.getElem?_take] using hlast
      have hdrop : b.stream.data.drop r.length = d::b.queue.unread := by
        rw [← h.queue.unread_eq,Stream.unread,hmyP]
        exact List.drop_eq_getElem?_toList_append.trans (by rw [hget]; rfl)
      have hs : b.stream.step blank (.ungetC d) = some (.flag true,⟨b.stream.store,r.length⟩) := by
        rw [Stream.step,if_pos (by omega),hmyP,Nat.add_sub_cancel,Stream.write_poke hget]
      obtain rfl := Option.some.inj ((step_eq hq hs).symm.trans hstep)
      have hplain := h.read_plain
      rw [hr] at hplain
      obtain ⟨hd,hrest⟩ := List.ne_and_not_mem_of_not_mem_cons hplain
      refine ⟨h.sound,⟨rfl,hdrop,nofun⟩,hfront,Or.inr ?_,?_,hrest⟩
      · change r.length ≤ b.stream.data.length
        omega
      · exact List.not_mem_cons_of_ne_of_not_mem hd h.unread_plain
    · simp [step,Queue.step,hr,hd] at hstep

theorem Kept.getSN (blank : ℕ → ℕ → Byte) (h : b.Kept) (n : ℕ) : ∃ t, b.step blank (.getSN n) = some t ∧ t.Kept := by
  by_cases hp : b.stream.myP < b.stream.store.length ()
  · refine ⟨_,step_eq rfl (if_pos hp),?_⟩
    have hle : b.stream.myP+min n (b.stream.store.length ()-b.stream.myP) ≤ b.stream.data.length := by
      rw [Stream.length_eq] at hp ⊢
      omega
    have hlen : b.queue.unread.length = b.stream.store.length ()-b.stream.myP := by
      rw [← h.queue.unread_eq,Stream.unread,List.length_drop,Stream.length_eq]
    have hadv := h.advance hle (o := .bytes (b.queue.unread.take n)) nofun
    have htake : b.queue.unread.take (min n (b.stream.store.length ()-b.stream.myP)) = b.queue.unread.take n := by
      rw [← hlen]
      exact List.take_eq_take_min.symm
    have hdrop : b.queue.unread.drop (min n (b.stream.store.length ()-b.stream.myP)) = b.queue.unread.drop n := by
      rcases le_total n b.queue.unread.length with hle | hle
      · rw [← hlen,min_eq_left hle]
      · rw [← hlen,min_eq_right hle,List.drop_length,List.drop_of_length_le hle]
    rw [htake,hdrop] at hadv
    rw [h.queue.unread_eq]
    exact hadv
  · have hu : b.queue.unread = [] := not_not.mp (mt h.lt_iff.mpr hp)
    refine ⟨_,step_eq rfl (if_neg hp),?_⟩
    simp only [hu,List.take_nil,List.drop_nil,List.reverse_nil,List.nil_append]
    have hqueue := h.queue.unread_eq
    rw [hu] at hqueue
    exact ⟨h.sound,⟨rfl,hqueue,fun _ => rfl⟩,h.read_eq,h.position,List.not_mem_nil,h.read_plain⟩

theorem step_putS (blank : ℕ → ℕ → Byte) (hs : b.stream.store.Sound) (d : Text) : ∃ t : Store Unit,
    b.step blank (.putS d) =
      some ⟨⟨t,b.stream.myP⟩,⟨b.queue.unread ++ d.val,b.queue.read⟩,.nothing,.nothing⟩ ∧
    t.Sound ∧ t.value () = b.stream.data ++ d.val := by
  obtain ⟨t,ht,hrest⟩ := Stream.putS_spec hs d
  exact ⟨t,step_eq rfl ht,hrest⟩

theorem step_putC (blank : ℕ → ℕ → Byte) (hs : b.stream.store.Sound) (c : { c : Byte // c ≠ EOF }) : ∃ t : Store Unit,
    b.step blank (.putC c) =
      some ⟨⟨t,b.stream.myP⟩,⟨b.queue.unread ++ [c.val],b.queue.read⟩,.nothing,.nothing⟩ ∧
    t.Sound ∧ t.value () = b.stream.data ++ [c.val] := by
  obtain ⟨t,ht,hrest⟩ := Stream.putC_spec hs c
  exact ⟨t,step_eq rfl ht,hrest⟩

/-- `GetS()` returns the text up to a NUL. -/
theorem step_getS (blank : ℕ → ℕ → Byte) (hs : b.stream.store.Sound) : ∃ t : Store Unit,
    b.step blank .getS = some ⟨⟨t,b.stream.myP⟩,⟨[],[]⟩,.bytes (cstr b.stream.unread),.bytes b.queue.unread⟩ ∧
    t.Sound ∧ t.value () = [] := by
  obtain ⟨t,ht,hrest⟩ := Stream.grow_zero_spec blank hs
  refine ⟨t,step_eq rfl ?_,hrest⟩
  rw [Stream.step,ht,Option.map_some]
  by_cases hp : b.stream.myP < b.stream.store.length ()
  · rw [if_pos hp]
  · have hnil : b.stream.unread = [] := by
      rw [Stream.length_eq,not_lt] at hp
      exact List.drop_of_length_le hp
    rw [if_neg hp,hnil]
    rfl

theorem step_clear (blank : ℕ → ℕ → Byte) (hs : b.stream.store.Sound) : ∃ t : Store Unit,
    b.step blank .clear = some ⟨⟨t,b.stream.myP⟩,⟨[],[]⟩,.nothing,.nothing⟩ ∧ t.Sound ∧ t.value () = [] := by
  obtain ⟨t,ht,hrest⟩ := Stream.grow_zero_spec blank hs
  exact ⟨t,step_eq rfl (by rw [Stream.step,ht,Option.map_some]),hrest⟩

theorem Kept.usable (h : b.Kept) : Usable blank b := by
  intro op hop
  cases op with
  | putS d =>
    obtain ⟨t,ht,-⟩ := step_putS blank h.sound d
    exact ht ▸ rfl
  | putC c =>
    obtain ⟨t,ht,-⟩ := step_putC blank h.sound c
    exact ht ▸ rfl
  | getC =>
    obtain ⟨t,ht,-⟩ := h.getC blank
    exact ht ▸ rfl
  | ungetC c =>
    obtain ⟨⟨o,q⟩,hq⟩ := Option.isSome_iff_exists.mp hop
    by_cases hp : 0 < b.stream.myP
    · exact (step_eq hq (if_pos hp)).symm ▸ rfl
    · exact (step_eq hq (if_neg hp)).symm ▸ rfl
  | getS =>
    obtain ⟨t,ht,-⟩ := step_getS blank h.sound
    exact ht ▸ rfl
  | getSN n =>
    obtain ⟨t,ht,-⟩ := h.getSN blank n
    exact ht ▸ rfl
  | clear =>
    obtain ⟨t,ht,-⟩ := step_clear blank h.sound
    exact ht ▸ rfl

/-- A careful call keeps the position and the string together. -/
theorem Kept.step (h : b.Kept) {op : Op} (hok : b.Careful op) {u : Both} (hstep : b.step blank op = some u) :
    u.Kept := by
  cases op with
  | putS d =>
    obtain ⟨t,ht,hsound,hdata⟩ := step_putS blank h.sound d
    obtain rfl := Option.some.inj (ht.symm.trans hstep)
    exact h.put hsound hdata d.property hok
  | putC c =>
    obtain ⟨t,ht,hsound,hdata⟩ := step_putC blank h.sound c
    obtain rfl := Option.some.inj (ht.symm.trans hstep)
    exact h.put hsound hdata (by simpa using c.property.symm) (Or.inr hok)
  | getC =>
    obtain ⟨t,ht,hkept⟩ := h.getC blank
    exact Option.some.inj (ht.symm.trans hstep) ▸ hkept
  | ungetC c => exact h.ungetC hstep
  | getS =>
    obtain ⟨t,ht,hsound,hdata⟩ := step_getS blank h.sound
    rw [cstr_of_nul_free hok,h.queue.unread_eq] at ht
    obtain rfl := Option.some.inj (ht.symm.trans hstep)
    exact kept_cleared hsound hdata _ _
  | getSN n =>
    obtain ⟨t,ht,hkept⟩ := h.getSN blank n
    exact Option.some.inj (ht.symm.trans hstep) ▸ hkept
  | clear =>
    obtain ⟨t,ht,hsound,hdata⟩ := step_clear blank h.sound
    obtain rfl := Option.some.inj (ht.symm.trans hstep)
    exact kept_cleared hsound hdata _ _

/-- What is put in front of the position is lost to the readers. -/
theorem not_isQueue_put (hd : d ≠ []) (hp : b.stream.data.length < b.stream.myP)
    (hdata : t.value () = b.stream.data ++ d) :
    ¬IsQueue ⟨⟨t,b.stream.myP⟩,⟨b.queue.unread ++ d,b.queue.read⟩,.nothing,.nothing⟩ := by
  intro hqueue
  have hunread : (t.value ()).drop b.stream.myP = b.queue.unread ++ d := hqueue.unread_eq
  have hlen := congrArg List.length hunread
  rw [hdata,List.length_drop,List.length_append,List.length_append] at hlen
  have hpos := List.length_pos_iff.mpr hd
  omega

/-- Any other call returns something wrong, or loses bytes. -/
theorem Kept.breaks (h : b.Kept) {op : Op} (hok : ¬b.Careful op) : ∃ u, b.step blank op = some u ∧ ¬u.IsQueue := by
  cases op with
  | putS d =>
    obtain ⟨hne,hp⟩ := not_or.mp hok
    obtain ⟨t,ht,-,hdata⟩ := step_putS blank h.sound d
    exact ⟨_,ht,not_isQueue_put hne (not_le.mp hp) hdata⟩
  | putC c =>
    obtain ⟨t,ht,-,hdata⟩ := step_putC blank h.sound c
    exact ⟨_,ht,not_isQueue_put (List.cons_ne_nil _ _) (not_le.mp hok) hdata⟩
  | getS =>
    obtain ⟨t,ht,-⟩ := step_getS blank h.sound
    refine ⟨_,ht,fun hqueue => hok ?_⟩
    have hout : cstr b.stream.unread = b.stream.unread :=
      (Out.bytes.inj hqueue.out_eq).trans h.queue.unread_eq.symm
    change 0 ∉ b.stream.unread
    rw [← hout]
    exact fun hnul => by simpa using List.mem_takeWhile_imp hnul
  | getC => exact absurd trivial hok
  | ungetC c => exact absurd trivial hok
  | getSN n => exact absurd trivial hok
  | clear => exact absurd trivial hok

end Both

end Smx.StrBuf
