import Mathlib.Data.List.GetD
import Smx.Base.Bytes
import Smx.Lib.Holders
import Smx.Lib.Run

/-! `CStrAry`: arrays of strings whose buffers are counted, in memory that is filled with null pointers. -/
namespace Smx
open Holders

/-- The buffers of strings by address: how many handles each has, and its text. -/
structure StrHeap where
  ref : ℕ → ℕ
  text : ℕ → Bytes
  next : ℕ

namespace StrHeap

/-- `Free` on a handle. -/
def free (h : StrHeap) : Option ℕ → StrHeap
  | none => h
  | some x => { h with ref := Function.update h.ref x (h.ref x-1) }

def incRef (h : StrHeap) : Option ℕ → StrHeap
  | none => h
  | some x => { h with ref := Function.update h.ref x (h.ref x+1) }

/-- A buffer with a text, for the handle that comes next. -/
def alloc (h : StrHeap) (v : Bytes) : StrHeap :=
  ⟨Function.update h.ref h.next 0,Function.update h.text h.next v,h.next+1⟩

/-- What a handle shows. -/
def value (h : StrHeap) : Option ℕ → Bytes
  | none => []
  | some x => h.text x

variable (h : StrHeap) (o : Option ℕ) (y : ℕ)

theorem value_congr {h h' : StrHeap} (ht : h.text = h'.text) : h.value = h'.value := by
  funext o
  cases o with
  | none => rfl
  | some x => exact congrFun ht x

theorem ref_free : (h.free o).ref y = h.ref y-if o = some y then 1 else 0 := by
  cases o with
  | none => rfl
  | some x =>
    by_cases hy : y = x
    · simp [free,hy]
    · simp [free,hy,Ne.symm hy]

theorem ref_incRef : (h.incRef o).ref y = h.ref y+if o = some y then 1 else 0 := by
  cases o with
  | none => rfl
  | some x =>
    by_cases hy : y = x
    · simp [incRef,hy]
    · simp [incRef,hy,Ne.symm hy]

/-- Counting touches nothing else. -/
theorem free_incRef_eq (x : Option ℕ) : (h.incRef x).free o = { h with ref := ((h.incRef x).free o).ref } := by
  cases x <;> cases o <;> rfl

end StrHeap

/-- The memory of an array: how many bytes are allocated, and the number of strings in use. -/
structure AryBlock where
  alloc : ℕ
  count : ℕ

/-- `sizeof(CStr)` -/
def sizeofCStr : ℕ := 8

def AryBlock.cap (b : AryBlock) : ℕ := b.alloc/sizeofCStr

/-- Some arrays, and the strings in their slots. -/
structure StrArys (ι : Type) where
  heap : StrHeap
  block : ι → Option AryBlock
  slot : ι × ℕ → Option ℕ
  /-- memory was accessed that is not that of the array -/
  outside : Bool

namespace StrArys
variable {ι : Type} [DecidableEq ι]

def count (s : StrArys ι) (a : ι) : ℕ := ((s.block a).map (·.count)).getD 0

/-- `Alloc() / sizeof(CStr)` -/
def cap (s : StrArys ι) (a : ι) : ℕ := ((s.block a).map (·.cap)).getD 0

def value (s : StrArys ι) (k : ι × ℕ) : Bytes := s.heap.value (s.slot k)

/-- `GetAt` -/
def getAt (s : StrArys ι) (a : ι) (i : ℕ) : Bytes := if i < s.count a then s.value (a,i) else []

/-- `Data()[i] = str` for a `CStr`, and `Data()[i].Free()` for none. -/
def put (s : StrArys ι) (k : ι × ℕ) (x : Option ℕ) : StrArys ι :=
  if k.2 < s.cap k.1 then
    if s.slot k = x then s
    else { s with heap := (s.heap.incRef x).free (s.slot k),slot := Function.update s.slot k x }
  else { s with outside := true }

/-- `Data()[i] = str` for a `const char *`: a buffer with one handle is written to, and one with several is left to the
others. -/
def putChars (s : StrArys ι) (k : ι × ℕ) (d : Option Bytes) : StrArys ι :=
  let v := cstr (d.getD [])
  if k.2 < s.cap k.1 then
    match s.slot k with
    | none => if v = [] then s else put { s with heap := s.heap.alloc v } k (some s.heap.next)
    | some x =>
      if s.heap.ref x = 1 then { s with heap := { s.heap with text := Function.update s.heap.text x v } }
      else if v = [] then s.put k none
      else put { s with heap := s.heap.alloc v } k (some s.heap.next)
  else { s with outside := true }

/-- `Free` on `n` slots from `i` on. -/
def freeSlots (a : ι) : ℕ → ℕ → StrArys ι → StrArys ι
  | 0,_,s => s
  | n+1,i,s => freeSlots a n (i+1) (s.put (a,i) none)

/-- `CBufRefChar::Grow`, for `n` strings. -/
def resize (n : ℕ) : Option AryBlock → Option AryBlock
  | none => if 0 < n then some ⟨n*sizeofCStr,n⟩ else none
  | some b =>
    if 0 < n then
      if b.alloc < n*sizeofCStr then some ⟨n*sizeofCStr+max 256 (n*sizeofCStr/2),n⟩ else some { b with count := n }
    else some { b with count := 0 }

/-- `CBufRefZ::Grow`: memory that is new is filled with zeros. -/
def growZ (s : StrArys ι) (a : ι) (n : ℕ) : StrArys ι :=
  { s with
    block := Function.update s.block a (resize n (s.block a))
    slot := fun k => if k.1 = a ∧ s.cap a ≤ k.2 then none else s.slot k }

/-- `CStrAry::Grow` -/
def grow (s : StrArys ι) (a : ι) (n : ℕ) : StrArys ι :=
  let o := s.count a
  let t := s.growZ a n
  freeSlots a (o-t.count a) (t.count a) t

/-- Where a string comes from: the caller, or an array. -/
inductive Source (ι : Type)
  | str (v : Bytes)
  | slot (b : ι) (j : ℕ)

/-- The handle of a string; one of the caller has a buffer of its own, unless it is empty. -/
def load (s : StrArys ι) : Source ι → StrArys ι × Option ℕ
  | .str v => if v = [] then (s,none) else ({ s with heap := s.heap.alloc v },some s.heap.next)
  | .slot b j => (s,if j < s.count b then s.slot (b,j) else none)

inductive Op (ι : Type)
  | add (a : ι) (src : Source ι)
  /-- `SetAt(int, CStr &)` -/
  | setAt (a : ι) (i : ℕ) (src : Source ι)
  /-- `SetAt(int, const char *)` -/
  | setChars (a : ι) (i : ℕ) (d : Option Bytes)
  | grow (a : ι) (n : ℕ)
  | assign (a b : ι)
  /-- `operator =(const char **)` -/
  | assignList (a : ι) (ts : List Bytes)

/-- The memory of `a` moves when it is made to hold `n` strings. -/
def Moves (s : StrArys ι) (a : ι) (n : ℕ) : Prop := ∃ b ∈ s.block a, b.alloc < n*sizeofCStr

instance (s : StrArys ι) (a : ι) (n : ℕ) : Decidable (s.Moves a n) :=
  decidable_of_iff ((s.block a).any fun b => b.alloc < n*sizeofCStr) (by
    cases h : s.block a <;> simp [Moves,h])

/-- `SetAt(int, CStr &)`. The string is read behind the `Grow`, which may have moved it. -/
def setAt (s : StrArys ι) (a : ι) (i : ℕ) (src : Source ι) : StrArys ι :=
  let (s,x) := s.load src
  if s.count a ≤ i then
    match src with
    | .slot b j =>
      if a = b ∧ j < s.count b ∧ s.Moves a (i+1) then { s with outside := true } else (s.grow a (i+1)).put (a,i) x
    | .str _ => (s.grow a (i+1)).put (a,i) x
  else s.put (a,i) x

/-- The loop of `operator =(const CStrAry &)`. -/
def copySlots (a b : ι) : ℕ → ℕ → StrArys ι → StrArys ι
  | 0,_,s => s
  | n+1,i,s => copySlots a b n (i+1) (s.put (a,i) (s.slot (b,i)))

/-- The loop of `operator =(const char **)`: each of the strings goes to the one slot that `i` was left at. -/
def putAll (a : ι) (i : ℕ) (ts : List Bytes) (s : StrArys ι) : StrArys ι :=
  ts.foldl (fun s t => s.putChars (a,i) (some t)) s

def step (s : StrArys ι) : Op ι → StrArys ι
  | .add a src =>
    let (s,x) := s.load src
    let s := s.grow a (s.count a+1)
    s.put (a,s.count a-1) x
  | .setAt a i src => s.setAt a i src
  | .setChars a i d =>
    let s := if s.count a ≤ i then s.grow a (i+1) else s
    s.putChars (a,i) d
  | .grow a n => s.grow a n
  | .assign a b =>
    let s := freeSlots a (s.cap a) 0 s
    match s.block b with
    | none => s
    | some m =>
      let s := s.grow a m.count
      copySlots a b (s.count a) 0 s
  | .assignList a ts =>
    -- `i` is left behind the last slot
    let i := s.cap a
    let s := freeSlots a i 0 s
    putAll a i ts (s.grow a ts.length)

/-- What the strings of a source show in lists. -/
def Source.value (l : ι → List Bytes) : Source ι → Bytes
  | .str v => v
  | .slot b j => (l b).getD j []

/-- A list that is long enough for an element. -/
def padSet (l : List Bytes) (i : ℕ) (v : Bytes) : List Bytes := (l ++ List.replicate (i+1-l.length) []).set i v

/-- What the operations are to do. -/
def listStep (l : ι → List Bytes) : Op ι → ι → List Bytes
  | .add a src => Function.update l a (l a ++ [src.value l])
  | .setAt a i src => Function.update l a (padSet (l a) i (src.value l))
  | .setChars a i d => Function.update l a (padSet (l a) i (cstr (d.getD [])))
  | .grow a n => Function.update l a ((l a).take n ++ List.replicate (n-(l a).length) [])
  | .assign a b => Function.update l a (l b)
  | .assignList a ts => Function.update l a (ts.map cstr)

/-- Arrays and the lists that they are to be. -/
structure WithLists (ι : Type) where
  arys : StrArys ι
  lists : ι → List Bytes

def WithLists.step (x : WithLists ι) (op : Op ι) : Option (WithLists ι) :=
  some ⟨x.arys.step op,listStep x.lists op⟩

/-- No array has memory yet. -/
def fresh : WithLists ι := ⟨⟨⟨fun _ => 0,fun _ => [],0⟩,fun _ => none,fun _ => none,false⟩,fun _ => []⟩

/-- The operations that do what they are to. -/
def Careful (x : WithLists ι) : Op ι → Prop
  | .setAt a i (.slot b j) => ¬(a = b ∧ j < x.arys.count b ∧ x.arys.count a ≤ i ∧ x.arys.Moves a (i+1))
  | .assign a b => if a = b then ∀ i, x.arys.getAt a i = [] else x.arys.block b = none → x.arys.count a = 0
  | .assignList a ts => ts = [] ∨ x.arys.cap a < ts.length ∧
      ∀ i (hi : i < ts.length), cstr ts[i] = if i = x.arys.cap a then cstr (ts.getLastD []) else []
  | _ => True

omit [DecidableEq ι]

/-- Nothing outside was accessed, and every buffer is counted for its handles: it is released with the last of them. -/
structure Counted (s : StrArys ι) : Prop where
  inside : s.outside = false
  room : ∀ a, s.count a ≤ s.cap a
  finite : ∀ x, (holders s.slot x).Finite
  ref : ∀ x, s.heap.ref x = Holders.count s.slot x
  old : ∀ k x, s.slot k = some x → x < s.heap.next

/-- The slots behind the strings in use are null. -/
def NullBehind (s : StrArys ι) : Prop := ∀ a i, s.count a ≤ i → s.slot (a,i) = none

/-- The arrays are the lists. -/
structure WithLists.Shown (x : WithLists ι) : Prop where
  counted : x.arys.Counted
  null : x.arys.NullBehind
  count_eq : ∀ a, x.arys.count a = (x.lists a).length
  getAt_eq : ∀ a i, x.arys.getAt a i = (x.lists a).getD i []

variable {s t : StrArys ι} {a b : ι} {i n : ℕ} {k : ι × ℕ} {x : Option ℕ} {v : Bytes}

theorem value_of_null (h : s.slot k = none) : s.value k = [] := by
  rw [value,h]
  rfl

theorem getAt_eq_value (hs : s.NullBehind) (a : ι) (i : ℕ) : s.getAt a i = s.value (a,i) := by
  rw [getAt]
  split_ifs with hi
  · rfl
  · exact (value_of_null (hs a i (not_lt.mp hi))).symm

variable [DecidableEq ι]

/-- What a slot is set to is counted, and what it held is released. -/
theorem Counted.put (hs : s.Counted) (hk : k.2 < s.cap k.1) (hx : ∀ y, x = some y → y < s.heap.next) :
    (s.put k x).Counted ∧ ∃ ref, s.put k x =
      { s with heap := { s.heap with ref := ref },slot := Function.update s.slot k x } := by
  rw [StrArys.put,if_pos hk]
  by_cases hsame : s.slot k = x
  · rw [if_pos hsame]
    refine ⟨hs,s.heap.ref,?_⟩
    rw [← hsame,Function.update_eq_self]
  · rw [if_neg hsame,StrHeap.free_incRef_eq]
    refine ⟨⟨hs.inside,hs.room,fun y => finite_update (hs.finite y),fun y => ?_,fun j y hj => ?_⟩,_,rfl⟩
    · change ((s.heap.incRef x).free (s.slot k)).ref y = Holders.count (Function.update s.slot k x) y
      have hcount := count_update (hs.finite y) k x
      rw [StrHeap.ref_free,StrHeap.ref_incRef,hs.ref y]
      omega
    · by_cases hjk : j = k
      · rw [hjk] at hj
        simp only [Function.update_self] at hj
        exact hx y hj
      · simp only [Function.update_of_ne hjk] at hj
        exact hs.old j y hj

/-- Slots that are freed are null. -/
theorem Counted.freeSlots (hs : s.Counted) (hn : i+n ≤ s.cap a) :
    (StrArys.freeSlots a n i s).Counted ∧ ∃ ref, StrArys.freeSlots a n i s =
      { s with
        heap := { s.heap with ref := ref }
        slot := fun k => if k.1 = a ∧ i ≤ k.2 ∧ k.2 < i+n then none else s.slot k } := by
  induction n generalizing i s with
  | zero =>
    refine ⟨hs,s.heap.ref,?_⟩
    have hslot : (fun k : ι × ℕ => if k.1 = a ∧ i ≤ k.2 ∧ k.2 < i+0 then none else s.slot k) = s.slot := by
      funext k
      exact if_neg fun h => by omega
    rw [hslot]
    rfl
  | succ n ih =>
    obtain ⟨hput,ref,hsame⟩ := hs.put (k := (a,i)) (x := none) (by dsimp only; omega) nofun
    have hcap : i+1+n ≤ (s.put (a,i) none).cap a := by
      rw [hsame]
      change i+1+n ≤ s.cap a
      omega
    obtain ⟨hcounted,ref',hrest⟩ := ih hput hcap
    refine ⟨hcounted,ref',?_⟩
    rw [StrArys.freeSlots,hrest,hsame]
    congr 1
    funext k
    by_cases hk : k = (a,i)
    · simp [hk]
    · have hik : ¬(k.1 = a ∧ k.2 = i) := fun h => hk (Prod.ext h.1 h.2)
      have hcond : (k.1 = a ∧ i+1 ≤ k.2 ∧ k.2 < i+1+n) ↔ (k.1 = a ∧ i ≤ k.2 ∧ k.2 < i+(n+1)) := by
        constructor
        · rintro ⟨h1,h2,h3⟩
          exact ⟨h1,by omega,by omega⟩
        · rintro ⟨h1,h2,h3⟩
          have hne : k.2 ≠ i := fun h => hik ⟨h1,h⟩
          exact ⟨h1,by omega,by omega⟩
      simp only [hcond,Function.update_of_ne hk]

/-- The memory after a `Grow` holds as many strings, and no less than it did. -/
theorem cap_resize (n : ℕ) (o : Option AryBlock) (ho : ∀ b, o = some b → b.count ≤ b.cap) :
    ((resize n o).map (·.count)).getD 0 = n ∧ n ≤ ((resize n o).map (·.cap)).getD 0 ∧
      (o.map (·.cap)).getD 0 ≤ ((resize n o).map (·.cap)).getD 0 := by
  cases o with
  | none =>
    rw [resize]
    split_ifs with hn
    · simp [AryBlock.cap,sizeofCStr]
    · obtain rfl : n = 0 := by omega
      simp
  | some b =>
    have hb : b.count ≤ b.alloc/8 := ho b rfl
    rw [resize,sizeofCStr]
    split_ifs with hn hlt
    · refine ⟨rfl,?_,?_⟩
      · change n ≤ (n*8+max 256 (n*8/2))/8
        omega
      · change b.alloc/8 ≤ (n*8+max 256 (n*8/2))/8
        omega
    · refine ⟨rfl,?_,le_rfl⟩
      change n ≤ b.alloc/8
      omega
    · obtain rfl : n = 0 := by omega
      exact ⟨rfl,Nat.zero_le _,le_rfl⟩

/-- What `Grow` does: the slots behind the new end are null, and other arrays stay as they are. -/
structure Grown (s t : StrArys ι) (a : ι) (n : ℕ) : Prop where
  counted : t.Counted
  null : t.NullBehind
  count_self : t.count a = n
  cap_self : s.cap a ≤ t.cap a
  block_of_ne : ∀ b, b ≠ a → t.block b = s.block b
  slot_eq : ∀ k, t.slot k = if k.1 = a ∧ n ≤ k.2 then none else s.slot k
  text_eq : t.heap.text = s.heap.text
  next_eq : t.heap.next = s.heap.next

theorem block_growZ_self : (s.growZ a n).block a = resize n (s.block a) := Function.update_self ..

theorem block_growZ_of_ne (h : b ≠ a) : (s.growZ a n).block b = s.block b := Function.update_of_ne h ..

/-- New memory is null, and so was what was not there. -/
theorem slot_growZ (hs : s.Counted) (hnull : s.NullBehind) : (s.growZ a n).slot = s.slot := by
  funext k
  change (if k.1 = a ∧ s.cap a ≤ k.2 then none else s.slot k) = s.slot k
  split_ifs with hk
  · obtain ⟨rfl,hk⟩ := hk
    exact (hnull k.1 k.2 ((hs.room _).trans hk)).symm
  · rfl

/-- Memory that grows or is used less holds what it held. -/
theorem Counted.growZ (hs : s.Counted) (hnull : s.NullBehind) (a : ι) (n : ℕ) : (s.growZ a n).Counted ∧
    (s.growZ a n).count a = n ∧ s.cap a ≤ (s.growZ a n).cap a := by
  have hroom (b : AryBlock) (hb : s.block a = some b) : b.count ≤ b.cap := by
    have hab := hs.room a
    rwa [StrArys.count,cap,hb] at hab
  obtain ⟨hcount,hle,hcap⟩ := cap_resize n (s.block a) hroom
  rw [← block_growZ_self] at hcount hle hcap
  have hslot := slot_growZ (a := a) (n := n) hs hnull
  refine ⟨⟨hs.inside,fun b => ?_,?_,?_,?_⟩,hcount,hcap⟩
  · by_cases hb : b = a
    · rw [hb]
      exact hcount.trans_le hle
    · rw [StrArys.count,cap,block_growZ_of_ne hb]
      exact hs.room b
  · rw [hslot]
    exact hs.finite
  · rw [hslot]
    exact hs.ref
  · rw [hslot]
    exact hs.old

theorem grown_grow (hs : s.Counted) (hnull : s.NullBehind) (a : ι) (n : ℕ) : Grown s (s.grow a n) a n := by
  obtain ⟨hcounted,hcount,hcap⟩ := hs.growZ hnull a n
  have hslot := slot_growZ (a := a) (n := n) hs hnull
  have hroom : n+(s.count a-n) ≤ (s.growZ a n).cap a := by
    have hold := (hs.room a).trans hcap
    have hnew := hcount ▸ hcounted.room a
    omega
  obtain ⟨hfreed,ref,hsame⟩ := hcounted.freeSlots hroom
  have hgrow : s.grow a n = StrArys.freeSlots a (s.count a-n) n (s.growZ a n) := by
    rw [grow]
    simp only [hcount]
  rw [hgrow]
  have hcut (k : ι × ℕ) : (StrArys.freeSlots a (s.count a-n) n (s.growZ a n)).slot k =
      if k.1 = a ∧ n ≤ k.2 then none else s.slot k := by
    rw [hsame]
    simp only [hslot]
    by_cases hk : k.1 = a ∧ n ≤ k.2
    · rw [if_pos hk]
      split_ifs with hin
      · rfl
      · obtain ⟨rfl,hn⟩ := hk
        exact hnull k.1 k.2 (by by_contra hlt; exact hin ⟨rfl,hn,by omega⟩)
    · rw [if_neg hk,if_neg fun h => hk ⟨h.1,h.2.1⟩]
  have hblock (b : ι) : (StrArys.freeSlots a (s.count a-n) n (s.growZ a n)).block b = (s.growZ a n).block b := by
    rw [hsame]
  have hcountOf (b : ι) : (StrArys.freeSlots a (s.count a-n) n (s.growZ a n)).count b = (s.growZ a n).count b := by
    rw [StrArys.count,hblock,StrArys.count]
  refine ⟨hfreed,fun b i hi => ?_,(hcountOf a).trans hcount,?_,fun b hb => ?_,hcut,by rw [hsame]; rfl,
    by rw [hsame]; rfl⟩
  · rw [hcut]
    rw [hcountOf] at hi
    split_ifs with hk
    · rfl
    · by_cases hb : b = a
      · subst hb
        exact absurd ⟨rfl,hcount ▸ hi⟩ hk
      · rw [StrArys.count,block_growZ_of_ne hb] at hi
        exact hnull b i hi
  · rw [StrArys.cap,StrArys.cap,hblock]
    exact hcap
  · rw [hblock,block_growZ_of_ne hb]

/-! ### Arrays that are lists -/

variable {l l' : ι → List Bytes} {src : Source ι}

omit [DecidableEq ι] in
theorem shown_of_value (hc : s.Counted) (hn : s.NullBehind) (hcount : ∀ a, s.count a = (l a).length)
    (hvalue : ∀ a i, s.value (a,i) = (l a).getD i []) : WithLists.Shown ⟨s,l⟩ :=
  ⟨hc,hn,hcount,fun a i => (getAt_eq_value hn a i).trans (hvalue a i)⟩

omit [DecidableEq ι] in
theorem WithLists.Shown.value_eq (h : WithLists.Shown ⟨s,l⟩) (a : ι) (i : ℕ) : s.value (a,i) = (l a).getD i [] :=
  (getAt_eq_value h.null a i).symm.trans (h.getAt_eq a i)

omit [DecidableEq ι] in
/-- There is one list that an array is. -/
theorem WithLists.Shown.unique (h : WithLists.Shown ⟨s,l⟩) (h' : WithLists.Shown ⟨s,l'⟩) (a : ι) : l a = l' a := by
  have hlen : (l a).length = (l' a).length := (h.count_eq a).symm.trans (h'.count_eq a)
  apply List.ext_getElem hlen
  intro i hi hi'
  have hget := (h.getAt_eq a i).symm.trans (h'.getAt_eq a i)
  rwa [List.getD_eq_getElem _ _ hi,List.getD_eq_getElem _ _ hi'] at hget

omit [DecidableEq ι] in
theorem getD_resized (l : List Bytes) (n i : ℕ) :
    (l.take n ++ List.replicate (n-l.length) []).getD i [] = if n ≤ i then [] else l.getD i [] := by
  simp only [List.getD_eq_getElem?_getD,List.getElem?_append,List.getElem?_take,List.getElem?_replicate,
    List.length_take]
  split_ifs <;> grind

theorem WithLists.Shown.grow (h : WithLists.Shown ⟨s,l⟩) (a : ι) (n : ℕ) :
    WithLists.Shown ⟨s.grow a n,Function.update l a ((l a).take n ++ List.replicate (n-(l a).length) [])⟩ := by
  have hg := grown_grow h.counted h.null a n
  refine shown_of_value hg.counted hg.null (fun b => ?_) fun b i => ?_
  · by_cases hb : b = a
    · rw [hb,Function.update_self,hg.count_self,List.length_append,List.length_take,List.length_replicate]
      omega
    · rw [Function.update_of_ne hb,StrArys.count,hg.block_of_ne b hb]
      exact h.count_eq b
  · have hvalue : (s.grow a n).value (b,i) = if b = a ∧ n ≤ i then [] else s.value (b,i) := by
      rw [StrArys.value,hg.slot_eq]
      split_ifs with hk
      · rfl
      · rw [StrArys.value,StrHeap.value_congr hg.text_eq]
    rw [hvalue]
    by_cases hb : b = a
    · subst hb
      rw [Function.update_self]
      rw [getD_resized,h.value_eq]
      simp
    · rw [Function.update_of_ne hb,if_neg fun hk => hb hk.1,h.value_eq]

/-- A slot in use is set. -/
theorem WithLists.Shown.put (h : WithLists.Shown ⟨s,l⟩) (hi : i < s.count a)
    (hx : ∀ y, x = some y → y < s.heap.next) :
    WithLists.Shown ⟨s.put (a,i) x,Function.update l a ((l a).set i (s.heap.value x))⟩ := by
  obtain ⟨hcounted,ref,hsame⟩ := h.counted.put (k := (a,i)) (hi.trans_le (h.counted.room a)) hx
  rw [hsame] at hcounted ⊢
  refine shown_of_value hcounted (fun b j hj => ?_) (fun b => ?_) fun b j => ?_
  · have hne : (b,j) ≠ (a,i) := by
      rintro ⟨⟩
      exact absurd hi (not_lt.mpr hj)
    change Function.update s.slot (a,i) x (b,j) = none
    rw [Function.update_of_ne hne]
    exact h.null b j hj
  · by_cases hb : b = a
    · rw [hb,Function.update_self,List.length_set]
      exact h.count_eq a
    · rw [Function.update_of_ne hb]
      exact h.count_eq b
  · have hlen : i < (l a).length := h.count_eq a ▸ hi
    change s.heap.value (Function.update s.slot (a,i) x (b,j)) = _
    by_cases hb : b = a
    · subst hb
      rw [Function.update_self]
      by_cases hj : j = i
      · subst hj
        rw [Function.update_self,List.getD_eq_getElem?_getD,List.getElem?_set_self hlen]
        rfl
      · have hne : (b,j) ≠ (b,i) := fun h => hj (Prod.ext_iff.mp h).2
        rw [Function.update_of_ne hne,List.getD_eq_getElem?_getD,List.getElem?_set_ne (Ne.symm hj),
          ← List.getD_eq_getElem?_getD]
        exact h.value_eq b j
    · have hne : (b,j) ≠ (a,i) := fun h => hb (Prod.ext_iff.mp h).1
      rw [Function.update_of_ne hne,Function.update_of_ne hb]
      exact h.value_eq b j

omit [DecidableEq ι] in
/-- A new buffer that no slot refers to yet. -/
theorem WithLists.Shown.alloc (h : WithLists.Shown ⟨s,l⟩) (v : Bytes) :
    WithLists.Shown ⟨{ s with heap := s.heap.alloc v },l⟩ := by
  have hold := h.counted.old
  have hne {k : ι × ℕ} {y : ℕ} (hk : s.slot k = some y) : y ≠ s.heap.next := (hold k y hk).ne
  refine shown_of_value ⟨h.counted.inside,h.counted.room,h.counted.finite,fun y => ?_,fun k y hk => ?_⟩ h.null
    h.count_eq fun a i => ?_
  · change Function.update s.heap.ref s.heap.next 0 y = _
    by_cases hy : y = s.heap.next
    · rw [hy,Function.update_self]
      exact (count_eq_zero fun k hk => hne hk rfl).symm
    · rw [Function.update_of_ne hy]
      exact h.counted.ref y
  · exact (hold k y hk).trans (Nat.lt_succ_self _)
  · rw [← h.value_eq a i]
    change (s.heap.alloc v).value (s.slot (a,i)) = s.heap.value (s.slot (a,i))
    cases hk : s.slot (a,i) with
    | none => rfl
    | some y => exact Function.update_of_ne (hne hk) ..

omit [DecidableEq ι] in
/-- The handle of a string shows its text. -/
theorem WithLists.Shown.load (h : WithLists.Shown ⟨s,l⟩) (src : Source ι) :
    WithLists.Shown ⟨(s.load src).1,l⟩ ∧ (s.load src).1.block = s.block ∧
      (∀ y, (s.load src).2 = some y → y < (s.load src).1.heap.next) ∧
        (s.load src).1.heap.value (s.load src).2 = src.value l := by
  cases src with
  | str v =>
    rw [StrArys.load]
    split_ifs with hv
    · exact ⟨h,rfl,nofun,hv.symm⟩
    · refine ⟨h.alloc v,rfl,?_,Function.update_self ..⟩
      rintro _ ⟨⟩
      exact Nat.lt_succ_self _
  | slot b j =>
    refine ⟨h,rfl,fun y hy => ?_,?_⟩
    · rw [StrArys.load] at hy
      split_ifs at hy with hj
      exact h.counted.old _ _ hy
    · rw [StrArys.load,Source.value,← h.getAt_eq b j,StrArys.getAt]
      split_ifs with hj
      · rfl
      · rfl

omit [DecidableEq ι] in
theorem set_getD {l : List Bytes} {v : Bytes} (h : l.getD i [] = v) (hi : i < l.length) : l.set i v = l := by
  rw [← h,List.getD_eq_getElem _ _ hi,List.set_getElem_self]

/-- A buffer with one handle is written to. -/
theorem WithLists.Shown.overwrite (h : WithLists.Shown ⟨s,l⟩) (hi : i < s.count a) {y : ℕ}
    (hslot : s.slot (a,i) = some y) (href : s.heap.ref y = 1) (v : Bytes) :
    WithLists.Shown ⟨{ s with heap := { s.heap with text := Function.update s.heap.text y v } },
      Function.update l a ((l a).set i v)⟩ := by
  have hlen : i < (l a).length := h.count_eq a ▸ hi
  have hone : Holders.count s.slot y = 1 := (h.counted.ref y).symm.trans href
  refine shown_of_value ⟨h.counted.inside,h.counted.room,h.counted.finite,h.counted.ref,h.counted.old⟩ h.null
    (fun b => ?_) fun b j => ?_
  · by_cases hb : b = a
    · rw [hb,Function.update_self,List.length_set]
      exact h.count_eq a
    · rw [Function.update_of_ne hb]
      exact h.count_eq b
  · change StrHeap.value { s.heap with text := Function.update s.heap.text y v } (s.slot (b,j)) = _
    by_cases hk : (b,j) = (a,i)
    · obtain ⟨rfl,rfl⟩ := Prod.mk.inj hk
      rw [hslot,Function.update_self,List.getD_eq_getElem?_getD,List.getElem?_set_self hlen]
      exact Function.update_self ..
    · have hother : StrHeap.value { s.heap with text := Function.update s.heap.text y v } (s.slot (b,j)) =
          s.value (b,j) := by
        rw [StrArys.value]
        cases hz : s.slot (b,j) with
        | none => rfl
        | some z =>
          refine Function.update_of_ne ?_ ..
          rintro rfl
          exact hk (eq_of_count_eq_one hone hz hslot)
      rw [hother,h.value_eq]
      by_cases hb : b = a
      · subst hb
        have hj : j ≠ i := fun hj => hk (by rw [hj])
        rw [Function.update_self,List.getD_eq_getElem?_getD,List.getD_eq_getElem?_getD,
          List.getElem?_set_ne (Ne.symm hj)]
      · rw [Function.update_of_ne hb]

/-- A slot in use is set to a C string. -/
theorem WithLists.Shown.putChars (h : WithLists.Shown ⟨s,l⟩) (hi : i < s.count a) (d : Option Bytes) :
    WithLists.Shown ⟨s.putChars (a,i) d,Function.update l a ((l a).set i (cstr (d.getD [])))⟩ := by
  have hcap : i < s.cap a := hi.trans_le (h.counted.room a)
  have hlen : i < (l a).length := h.count_eq a ▸ hi
  have hput {v : Bytes} : WithLists.Shown
      ⟨({ s with heap := s.heap.alloc v } : StrArys ι).put (a,i) (some s.heap.next),
        Function.update l a ((l a).set i v)⟩ := by
    have hnew := (h.alloc v).put (a := a) (i := i) (x := some s.heap.next) hi (by rintro _ ⟨⟩; exact Nat.lt_succ_self _)
    have hvalue : (s.heap.alloc v).value (some s.heap.next) = v := Function.update_self ..
    rwa [hvalue] at hnew
  rw [StrArys.putChars]
  simp only [if_pos hcap]
  generalize hv : cstr (d.getD []) = v
  cases hslot : s.slot (a,i) with
  | none =>
    simp only
    split_ifs with hnil
    · have hself : (l a).set i v = l a := set_getD ((h.value_eq a i).symm.trans
        ((value_of_null hslot).trans hnil.symm)) hlen
      rwa [hself,Function.update_eq_self]
    · exact hput
  | some y =>
    simp only
    split_ifs with href hnil
    · exact h.overwrite hi hslot href v
    · have hnew := h.put (x := none) hi nofun
      rw [hnil]
      exact hnew
    · exact hput

/-- Every slot of an array is freed. -/
theorem WithLists.Shown.freed (h : WithLists.Shown ⟨s,l⟩) (a : ι) :
    WithLists.Shown ⟨freeSlots a (s.cap a) 0 s,Function.update l a (List.replicate (s.count a) [])⟩ ∧
      (freeSlots a (s.cap a) 0 s).block = s.block ∧
        (freeSlots a (s.cap a) 0 s).slot = fun k => if k.1 = a then none else s.slot k := by
  obtain ⟨hcounted,ref,hsame⟩ := h.counted.freeSlots (a := a) (i := 0) (n := s.cap a) (Nat.zero_add _).le
  have hslot : (freeSlots a (s.cap a) 0 s).slot = fun k => if k.1 = a then none else s.slot k := by
    rw [hsame]
    funext k
    by_cases hk : k.1 = a
    · simp only [hk,true_and,if_true]
      split_ifs with hin
      · rfl
      · have hle : s.cap a ≤ k.2 := by omega
        obtain ⟨b,j⟩ := k
        obtain rfl : b = a := hk
        exact h.null b j ((h.counted.room b).trans hle)
    · simp only [hk,false_and,if_false]
  have hblock : (freeSlots a (s.cap a) 0 s).block = s.block := by rw [hsame]
  refine ⟨shown_of_value hcounted (fun b i hi => ?_) (fun b => ?_) fun b i => ?_,hblock,hslot⟩
  · rw [hslot]
    simp only
    split_ifs
    · rfl
    · rw [StrArys.count,hblock] at hi
      exact h.null b i hi
  · rw [StrArys.count,hblock]
    by_cases hb : b = a
    · rw [hb,Function.update_self,List.length_replicate]
      rfl
    · rw [Function.update_of_ne hb]
      exact h.count_eq b
  · rw [StrArys.value,hslot]
    by_cases hb : b = a
    · subst hb
      simp [StrHeap.value]
    · have htext : (freeSlots a (s.cap a) 0 s).heap.text = s.heap.text := by rw [hsame]
      rw [Function.update_of_ne hb,← h.value_eq b i]
      simp only [if_neg hb]
      rw [StrArys.value,StrHeap.value_congr htext]

/-! ### The operations -/

omit [DecidableEq ι] in
theorem padSet_of_lt {l : List Bytes} (hi : i < l.length) (v : Bytes) : padSet l i v = l.set i v := by
  have hzero : i+1-l.length = 0 := by omega
  rw [padSet,hzero,List.replicate_zero,List.append_nil]

omit [DecidableEq ι] in
theorem padSet_of_le {l : List Bytes} (hi : l.length ≤ i) (v : Bytes) :
    padSet l i v = (l.take (i+1) ++ List.replicate (i+1-l.length) []).set i v := by
  rw [padSet,List.take_of_length_le (by omega)]

/-- An array is made long enough for an element, which is set then. -/
theorem WithLists.Shown.growPut (h : WithLists.Shown ⟨s,l⟩) (a : ι) (i : ℕ) (hx : ∀ y, x = some y → y < s.heap.next) :
    WithLists.Shown ⟨(s.grow a (i+1)).put (a,i) x,Function.update l a
      (((l a).take (i+1) ++ List.replicate (i+1-(l a).length) []).set i (s.heap.value x))⟩ := by
  have hg := grown_grow h.counted h.null a (i+1)
  have hput := (h.grow a (i+1)).put (a := a) (i := i) (x := x)
    (by rw [hg.count_self]; exact Nat.lt_succ_self i) (hg.next_eq ▸ hx)
  rwa [StrHeap.value_congr hg.text_eq,Function.update_idem,Function.update_self] at hput

/-- `Add` -/
theorem WithLists.Shown.add (h : WithLists.Shown ⟨s,l⟩) (a : ι) (src : Source ι) :
    WithLists.Shown ⟨s.step (.add a src),listStep l (.add a src)⟩ := by
  obtain ⟨hload,hblock,hx,hvalue⟩ := h.load src
  have hcount : (s.load src).1.count a = (l a).length := hload.count_eq a
  have hgrow := (grown_grow hload.counted hload.null a ((s.load src).1.count a+1)).count_self
  have hlist : ((l a).take ((l a).length+1) ++ List.replicate ((l a).length+1-(l a).length) []).set (l a).length
      (src.value l) = l a ++ [src.value l] := by
    rw [List.take_of_length_le (Nat.le_succ _),Nat.add_sub_cancel_left,List.set_append_right _ _ le_rfl]
    simp
  have hput := hload.growPut a ((s.load src).1.count a) hx
  rw [hcount,hvalue,hlist] at hput
  rw [StrArys.step,listStep]
  simp only [hgrow,Nat.add_sub_cancel]
  rwa [hcount]

/-- `SetAt` inside the array, or with memory that stays where it is. -/
theorem WithLists.Shown.setAt (h : WithLists.Shown ⟨s,l⟩) (a : ι) (i : ℕ) {src : Source ι}
    (hsrc : ∀ b j, src = .slot b j → ¬(a = b ∧ j < s.count b ∧ s.count a ≤ i ∧ s.Moves a (i+1))) :
    WithLists.Shown ⟨s.step (.setAt a i src),listStep l (.setAt a i src)⟩ := by
  obtain ⟨hload,hblock,hx,hvalue⟩ := h.load src
  have hcount : (s.load src).1.count a = (l a).length := hload.count_eq a
  rw [StrArys.step,listStep,StrArys.setAt]
  by_cases hi : (l a).length ≤ i
  · have hput := hload.growPut a i hx
    rw [hvalue,← padSet_of_le hi] at hput
    simp only [hcount,if_pos hi]
    cases src with
    | str v => exact hput
    | slot b j =>
      have hno : ¬(a = b ∧ j < (s.load (.slot b j)).1.count b ∧ (s.load (.slot b j)).1.Moves a (i+1)) :=
        fun hmoved => hsrc b j rfl ⟨hmoved.1,hmoved.2.1,(h.count_eq a).trans_le hi,hmoved.2.2⟩
      simp only [if_neg hno]
      exact hput
  · have hput := hload.put (i := i) (hcount ▸ not_le.mp hi) hx
    rw [hvalue,← padSet_of_lt (not_le.mp hi)] at hput
    simp only [hcount,if_neg hi]
    exact hput

/-- `SetAt(int, const char *)` -/
theorem WithLists.Shown.setChars (h : WithLists.Shown ⟨s,l⟩) (a : ι) (i : ℕ) (d : Option Bytes) :
    WithLists.Shown ⟨s.step (.setChars a i d),listStep l (.setChars a i d)⟩ := by
  rw [StrArys.step,listStep]
  by_cases hi : (l a).length ≤ i
  · have hgrow := (grown_grow h.counted h.null a (i+1)).count_self
    have hput := (h.grow a (i+1)).putChars (a := a) (i := i)
      (by rw [hgrow]; exact Nat.lt_succ_self i) d
    rw [Function.update_idem,Function.update_self,← padSet_of_le hi] at hput
    simp only [h.count_eq a,if_pos hi]
    exact hput
  · have hput := h.putChars (a := a) (i := i) (h.count_eq a ▸ not_le.mp hi) d
    rw [← padSet_of_lt (not_le.mp hi)] at hput
    simp only [h.count_eq a,if_neg hi]
    exact hput

/-- The strings of another array are copied to their places. -/
theorem WithLists.Shown.copySlots (h : WithLists.Shown ⟨s,l⟩) (hab : a ≠ b) (hi : i+n ≤ s.count a) :
    ∃ la : List Bytes, (∀ j, la.getD j [] = if i ≤ j ∧ j < i+n then (l b).getD j [] else (l a).getD j []) ∧
      WithLists.Shown ⟨StrArys.copySlots a b n i s,Function.update l a la⟩ ∧
        (StrArys.copySlots a b n i s).count a = s.count a := by
  induction n generalizing i s l with
  | zero =>
    refine ⟨l a,fun j => (if_neg fun hj => by omega).symm,?_,rfl⟩
    rwa [Function.update_eq_self]
  | succ n ih =>
    have hput := h.put (a := a) (i := i) (x := s.slot (b,i)) (by omega) fun y hy => h.counted.old _ _ hy
    have hvalue : s.heap.value (s.slot (b,i)) = (l b).getD i [] := h.value_eq b i
    have hold : s.count a = (l a).length := h.count_eq a
    have hlen : i < (l a).length := by omega
    have hcount : (s.put (a,i) (s.slot (b,i))).count a = s.count a := by
      apply (hput.count_eq a).trans
      simp only [Function.update_self,List.length_set]
      exact hold.symm
    rw [hvalue] at hput
    obtain ⟨la,hla,hshown,hsame⟩ := ih (i := i+1) hput (by rw [hcount]; omega)
    rw [Function.update_idem] at hshown
    refine ⟨la,fun j => ?_,hshown,hsame.trans hcount⟩
    rw [hla j,Function.update_of_ne hab.symm,Function.update_self]
    by_cases hj : j = i
    · subst hj
      rw [if_neg (by omega),if_pos (by omega),List.getD_eq_getElem?_getD,List.getElem?_set_self hlen]
      rfl
    · rw [List.getD_eq_getElem?_getD (l := (l a).set i _),List.getElem?_set_ne (Ne.symm hj),
        ← List.getD_eq_getElem?_getD]
      have hiff : i+1 ≤ j ∧ j < i+1+n ↔ i ≤ j ∧ j < i+(n+1) := by omega
      simp only [hiff]

/-- A slot that is set to what it holds stays as it is. -/
theorem copySlots_self (hi : i+n ≤ s.cap a) : StrArys.copySlots a a n i s = s := by
  induction n generalizing i with
  | zero => rfl
  | succ n ih =>
    have hput : s.put (a,i) (s.slot (a,i)) = s := by
      rw [StrArys.put,if_pos (by dsimp only; omega),if_pos rfl]
    rw [StrArys.copySlots,hput]
    exact ih (by omega)

omit [DecidableEq ι] in
theorem getD_replicate_nil (n i : ℕ) : (List.replicate n ([] : Bytes)).getD i [] = [] := by
  rw [List.getD_eq_getElem?_getD,List.getElem?_replicate]
  split_ifs <;> rfl

omit [DecidableEq ι] in
theorem eq_of_getD {l l' : List Bytes} (hlen : l.length = l'.length) (h : ∀ i, l.getD i [] = l'.getD i []) :
    l = l' := by
  apply List.ext_getElem hlen
  intro i hi hi'
  have hget := h i
  rwa [List.getD_eq_getElem _ _ hi,List.getD_eq_getElem _ _ hi'] at hget

/-- An array is assigned another one with memory. -/
theorem WithLists.Shown.assign (h : WithLists.Shown ⟨s,l⟩) (hab : a ≠ b) (hb : s.block b = none → s.count a = 0) :
    WithLists.Shown ⟨s.step (.assign a b),listStep l (.assign a b)⟩ := by
  obtain ⟨hfreed,hblock,hslot⟩ := h.freed a
  rw [StrArys.step,listStep]
  simp only [hblock]
  cases hm : s.block b with
  | none =>
    have hlb : l b = [] := List.eq_nil_of_length_eq_zero ((h.count_eq b).symm.trans (by rw [StrArys.count,hm]; rfl))
    rw [hb hm] at hfreed
    rw [hlb]
    exact hfreed
  | some m =>
    have hlen : m.count = (l b).length := (h.count_eq b).symm.trans (by rw [StrArys.count,hm]; rfl) |>.symm
    have hg := grown_grow hfreed.counted hfreed.null a m.count
    have hgrow := hfreed.grow a m.count
    rw [Function.update_idem,Function.update_self] at hgrow
    simp only
    obtain ⟨la,hla,hshown,hcount⟩ := hgrow.copySlots (n := ((freeSlots a (s.cap a) 0 s).grow a m.count).count a) hab
      (Nat.zero_add _).le
    rw [Function.update_idem] at hshown
    have hlalb : la = l b := by
      apply eq_of_getD
      · have hlast := hshown.count_eq a
        simp only [Function.update_self] at hlast
        rw [← hlast,hcount,hg.count_self,hlen]
      · intro j
        rw [hla j,Function.update_of_ne hab.symm,hg.count_self,hlen]
        split_ifs with hj
        · rfl
        · rw [Function.update_self,getD_resized]
          have hend : (l b).length ≤ j := by omega
          rw [if_pos (hlen ▸ hend),List.getD_eq_default _ _ hend]
    rwa [hlalb] at hshown

/-- An array that is assigned itself loses its strings. -/
theorem WithLists.Shown.assignSelf (h : WithLists.Shown ⟨s,l⟩) (a : ι) :
    WithLists.Shown ⟨s.step (.assign a a),Function.update l a (List.replicate (s.count a) [])⟩ := by
  obtain ⟨hfreed,hblock,hslot⟩ := h.freed a
  rw [StrArys.step]
  simp only [hblock]
  cases hm : s.block a with
  | none => exact hfreed
  | some m =>
    have hcount : s.count a = m.count := by
      rw [StrArys.count,hm]
      rfl
    have hg := grown_grow hfreed.counted hfreed.null a m.count
    have hgrow := hfreed.grow a m.count
    rw [Function.update_idem,Function.update_self,← hcount,List.length_replicate,Nat.sub_self,List.replicate_zero,
      List.append_nil,List.take_of_length_le (by rw [List.length_replicate])] at hgrow
    simp only [← hcount]
    rwa [copySlots_self ((Nat.zero_add _).trans_le (hgrow.counted.room a))]

/-! ### A list of C strings -/

theorem block_put (s : StrArys ι) (k : ι × ℕ) (x : Option ℕ) : (s.put k x).block = s.block := by
  rw [StrArys.put]
  split_ifs <;> rfl

theorem block_freeSlots (a : ι) (n i : ℕ) (s : StrArys ι) : (freeSlots a n i s).block = s.block := by
  induction n generalizing i s with
  | zero => rfl
  | succ n ih => rw [freeSlots,ih,block_put]

/-- Memory with enough room stays what it is. -/
theorem cap_grow_of_le (hn : n ≤ s.cap a) : (s.grow a n).cap a = s.cap a := by
  simp only [grow,StrArys.cap,block_freeSlots,block_growZ_self] at hn ⊢
  cases hb : s.block a with
  | none =>
    rw [hb] at hn
    obtain rfl : n = 0 := by simpa using hn
    rfl
  | some b =>
    rw [hb] at hn
    have hle : n ≤ b.alloc/8 := hn
    have hroom : ¬b.alloc < n*sizeofCStr := by
      rw [sizeofCStr]
      omega
    simp only [resize,if_neg hroom]
    split_ifs <;> rfl

theorem putChars_of_le (hi : s.cap a ≤ i) (d : Option Bytes) : s.putChars (a,i) d = { s with outside := true } := by
  rw [StrArys.putChars]
  exact if_neg (not_lt.mpr hi)

theorem outside_putAll (hi : s.cap a ≤ i) {ts : List Bytes} (hts : ts ≠ []) : (putAll a i ts s).outside = true := by
  have hkeep (ts : List Bytes) (t : StrArys ι) (ht : t.cap a ≤ i) (hout : t.outside = true) :
      (putAll a i ts t).outside = true := by
    induction ts with
    | nil => exact hout
    | cons u ts ih =>
      have hsame : t.putChars (a,i) (some u) = t := by
        rw [putChars_of_le ht,← hout]
      rw [putAll,List.foldl_cons,hsame]
      exact ih
  cases ts with
  | nil => exact absurd rfl hts
  | cons u ts =>
    rw [putAll,List.foldl_cons,putChars_of_le hi]
    exact hkeep ts _ hi rfl

theorem WithLists.Shown.putAll (h : WithLists.Shown ⟨s,l⟩) (hi : i < s.count a) (ts : List Bytes) :
    WithLists.Shown ⟨StrArys.putAll a i ts s,Function.update l a
      (if ts = [] then l a else (l a).set i (cstr (ts.getLastD [])))⟩ := by
  have hcount : s.count a = (l a).length := h.count_eq a
  induction ts using List.reverseRecOn with
  | nil =>
    rw [if_pos rfl,Function.update_eq_self]
    exact h
  | append_singleton ts t ih =>
    have hlen : (if ts = [] then l a else (l a).set i (cstr (ts.getLastD []))).length = (l a).length := by
      split_ifs
      · rfl
      · exact List.length_set
    have hlast := ih.putChars (a := a) (i := i) (by
      rw [ih.count_eq a]
      simp only [Function.update_self]
      omega) (some t)
    rw [Function.update_idem,Function.update_self] at hlast
    rw [StrArys.putAll,List.foldl_append,if_neg (by simp)]
    have hset : (if ts = [] then l a else (l a).set i (cstr (ts.getLastD []))).set i (cstr ((some t).getD [])) =
        (l a).set i (cstr ((ts ++ [t]).getLastD [])) := by
      rw [List.getLastD_concat]
      split_ifs
      · rfl
      · rw [List.set_set]
        rfl
    rw [hset] at hlast
    exact hlast

/-- What a list of C strings makes of an array whose memory grows for it. -/
theorem WithLists.Shown.assignList (h : WithLists.Shown ⟨s,l⟩) {ts : List Bytes} (hts : s.cap a < ts.length) :
    WithLists.Shown ⟨s.step (.assignList a ts),Function.update l a
      ((List.replicate ts.length []).set (s.cap a) (cstr (ts.getLastD [])))⟩ := by
  obtain ⟨hfreed,hblock,hslot⟩ := h.freed a
  have hg := grown_grow hfreed.counted hfreed.null a ts.length
  have hgrow := hfreed.grow a ts.length
  have hroom := h.counted.room a
  have hlist : (List.replicate (s.count a) ([] : Bytes)).take ts.length ++
      List.replicate (ts.length-(List.replicate (s.count a) ([] : Bytes)).length) [] =
        List.replicate ts.length [] := by
    simp only at hroom
    rw [List.take_of_length_le (by rw [List.length_replicate]; omega),List.length_replicate,
      List.replicate_append_replicate]
    congr 1
    omega
  rw [Function.update_idem,Function.update_self,hlist] at hgrow
  have hall := hgrow.putAll (a := a) (i := s.cap a) (by rw [hg.count_self]; exact hts) ts
  have hne : ts ≠ [] := fun hnil => by simp [hnil] at hts
  rw [Function.update_idem,Function.update_self,if_neg hne] at hall
  exact hall

/-- No string: the array is empty. -/
theorem WithLists.Shown.assignNil (h : WithLists.Shown ⟨s,l⟩) (a : ι) :
    WithLists.Shown ⟨s.step (.assignList a []),Function.update l a []⟩ := by
  obtain ⟨hfreed,-,-⟩ := h.freed a
  have hgrow := hfreed.grow a 0
  rw [Function.update_idem,Function.update_self,List.take_zero,Nat.zero_sub] at hgrow
  exact hgrow

omit [DecidableEq ι] in
theorem map_cstr_eq_iff {c : ℕ} (ts : List Bytes) (v : Bytes) :
    ts.map cstr = (List.replicate ts.length []).set c v ↔
      ∀ i (hi : i < ts.length), cstr ts[i] = if i = c then v else [] := by
  constructor
  · intro h i hi
    have hlen : i < (ts.map cstr).length := by simpa using hi
    have hget := List.getElem_of_eq h hlen
    simpa [List.getElem_set,eq_comm (a := c)] using hget
  · intro h
    apply List.ext_getElem
    · simp
    · intro i hi hi'
      rw [List.getElem_map,h i (by simpa using hi),List.getElem_set,List.getElem_replicate]
      simp [eq_comm]

variable {x : WithLists ι} {op : Op ι}

omit [DecidableEq ι] in
theorem not_shown_of_outside (h : s.outside = true) : ¬WithLists.Shown ⟨s,l⟩ :=
  fun hshown => Bool.noConfusion (h.symm.trans hshown.counted.inside)

/-- An operation does what it is to, exactly when it is one of the careful. -/
theorem shown_step_iff (h : WithLists.Shown ⟨s,l⟩) (op : Op ι) :
    WithLists.Shown ⟨s.step op,listStep l op⟩ ↔ Careful ⟨s,l⟩ op := by
  cases op with
  | add a src => exact iff_of_true (h.add a src) trivial
  | setChars a i d => exact iff_of_true (h.setChars a i d) trivial
  | grow a n => exact iff_of_true (h.grow a n) trivial
  | setAt a i src =>
    cases src with
    | str v => exact iff_of_true (h.setAt a i nofun) trivial
    | slot b j =>
      rw [Careful]
      by_cases hmoved : a = b ∧ j < s.count b ∧ s.count a ≤ i ∧ s.Moves a (i+1)
      · refine iff_of_false (not_shown_of_outside ?_) (not_not.mpr hmoved)
        obtain ⟨rfl,hj,hi,hmove⟩ : a = b ∧ j < s.count b ∧ s.count a ≤ i ∧ s.Moves a (i+1) := hmoved
        simp [StrArys.step,StrArys.setAt,load,hi,hj,hmove]
      · refine iff_of_true (h.setAt a i ?_) hmoved
        rintro _ _ ⟨⟩
        exact hmoved
  | assign a b =>
    rw [Careful]
    by_cases hab : a = b
    · subst hab
      rw [if_pos rfl,listStep,Function.update_eq_self]
      have hself := h.assignSelf a
      constructor
      · intro hshown i
        have hl := hshown.unique hself a
        rw [Function.update_self] at hl
        rw [h.getAt_eq a i]
        simp only [hl]
        exact getD_replicate_nil _ _
      · intro hempty
        have hl : List.replicate (s.count a) [] = l a := by
          apply eq_of_getD
          · rw [List.length_replicate]
            exact h.count_eq a
          · intro i
            rw [getD_replicate_nil]
            exact (hempty i).symm.trans (h.getAt_eq a i)
        rwa [hl,Function.update_eq_self] at hself
    · rw [if_neg hab]
      constructor
      · intro hshown hb
        -- the strings are freed, and are as many as before
        have hnone : s.block b = none := hb
        have hfreed := (h.freed a).1
        rw [StrArys.step] at hshown
        simp only [block_freeSlots,hnone] at hshown
        have hl := hfreed.unique hshown a
        have hlb : (l b).length = 0 := (h.count_eq b).symm.trans (by rw [StrArys.count,hb]; rfl)
        rw [Function.update_self,listStep,Function.update_self,List.eq_nil_of_length_eq_zero hlb] at hl
        simpa using hl
      · exact h.assign hab
  | assignList a ts =>
    rw [Careful]
    by_cases hts : ts = []
    · subst hts
      exact iff_of_true (h.assignNil a) (.inl rfl)
    · by_cases hroom : s.cap a < ts.length
      · have hshown := h.assignList hroom
        have hiff := map_cstr_eq_iff (c := s.cap a) ts (cstr (ts.getLastD []))
        constructor
        · intro hlist
          have hl := hlist.unique hshown a
          rw [listStep,Function.update_self,Function.update_self] at hl
          exact .inr ⟨hroom,hiff.mp hl⟩
        · rintro (hnil | ⟨-,hcareful⟩)
          · exact absurd hnil hts
          · rwa [← hiff.mpr hcareful] at hshown
      · refine iff_of_false (not_shown_of_outside ?_) ?_
        · rw [StrArys.step]
          apply outside_putAll ?_ hts
          have hcap : (freeSlots a (s.cap a) 0 s).cap a = s.cap a := by
            rw [StrArys.cap,block_freeSlots,StrArys.cap]
          have hle : ts.length ≤ (freeSlots a (s.cap a) 0 s).cap a := hcap.symm ▸ not_lt.mp hroom
          exact (cap_grow_of_le hle).le.trans hcap.le
        · rintro (hnil | ⟨hlt,-⟩)
          · exact hts hnil
          · exact hroom hlt

omit [DecidableEq ι] in
theorem fresh_shown : (fresh : WithLists ι).Shown := by
  refine shown_of_value ⟨rfl,fun _ => le_rfl,fun y => ?_,fun y => ?_,nofun⟩ (fun _ _ _ => rfl) (fun _ => rfl)
    fun _ _ => rfl
  · have hnone : holders (fresh : WithLists ι).arys.slot y = ∅ := Set.eq_empty_of_forall_notMem fun _ => nofun
    exact hnone ▸ Set.finite_empty
  · have hnone : Holders.count (fresh : WithLists ι).arys.slot y = 0 := count_eq_zero fun _ => nofun
    exact hnone.symm

end StrArys
end Smx
