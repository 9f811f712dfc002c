import Mathlib.Algebra.Order.Ring.Int
import Mathlib.Data.List.GetD
import Mathlib.Data.List.Forall2
import Smx.Base.Bytes

/-! `qArgAry`: the flags that say which arguments were quoted. -/
namespace Smx

def myGrowBy : ℕ := 16

/-- An `int` as a signed `char`. -/
def charOf (x : ℤ) : ℤ := x.bmod (2^8)

/-- The flags that are allocated, and the `char` that says how many. -/
structure ArgOpts where
  myOpts : Bytes
  myOptsN : ℤ
  deriving DecidableEq

namespace ArgOpts

def empty : ArgOpts := ⟨[],0⟩

/-- The growth in `SetQuot`: what stands from `myOptsN` on is zeroed. `none` where that would be outside of
what is allocated, or the size no `int`. -/
def grow (a : ArgOpts) (n : ℕ) : Option ArgOpts :=
  if a.myOptsN < 0 ∨ 2^31 ≤ n+myGrowBy then none
  else some ⟨a.myOpts.take a.myOptsN.toNat ++ List.replicate (n+myGrowBy-a.myOptsN.toNat) 0,
    charOf (n+myGrowBy : ℕ)⟩

/-- `SetQuot`; `none` when it writes outside of what is allocated. -/
def setQuot (a : ArgOpts) (n : ℕ) (value : Byte) : Option ArgOpts := do
  let a ← if a.myOptsN ≤ n then a.grow n else some a
  if n < a.myOpts.length then some { a with myOpts := a.myOpts.set n value } else none

/-- `GetQuot`, which takes its index as a `char`; `none` when it reads outside of what is allocated. -/
def getQuot (a : ArgOpts) (n : ℕ) : Option Byte :=
  let n := charOf n
  if n < a.myOptsN then if 0 ≤ n then a.myOpts[n.toNat]? else none
  else some 0

/-- Calls of `SetQuot`, one after the other. -/
def setQuots (a : ArgOpts) (calls : List (ℕ × Byte)) : Option ArgOpts :=
  calls.foldlM (fun a c => a.setQuot c.1 c.2) a

end ArgOpts

/-- The value last set for an index, zero if none was. -/
def lastSet (calls : List (ℕ × Byte)) : ℕ → Byte :=
  calls.foldl (fun f c => Function.update f c.1 c.2) fun _ => 0

/-- The flags are right all along calls with these indices: nothing is written or read outside, and each
index in `R` and each that has been set has the value last set. -/
def FlagsRight (ns : List ℕ) (R : Set ℕ) : Prop :=
  ∀ calls : List (ℕ × Byte), calls.map Prod.fst <+: ns → ∃ a, ArgOpts.empty.setQuots calls = some a ∧
    ∀ i, i ∈ R ∨ i ∈ calls.map Prod.fst → a.getQuot i = some (lastSet calls i)

/-- As a `char` the index is still itself, or one that is never set. -/
def Readable (ns : List ℕ) (i : ℕ) : Prop := i < 128 ∨ 0 ≤ charOf i ∧ (charOf i).toNat ∉ ns

/-- How many flags are allocated in the end. -/
def flagRoom (ns : List ℕ) : ℕ := ns.foldl (fun room n => if room ≤ n then n+myGrowBy else room) 0

namespace ArgOpts
variable {a b : ArgOpts} {f : ℕ → Byte} {n i : ℕ} {v : Byte}

/-- The flags are as they should be, and their number fits in a `char`. -/
structure Holds (a : ArgOpts) (f : ℕ → Byte) : Prop where
  count : a.myOptsN = a.myOpts.length
  fits : a.myOpts.length < 128
  flag : ∀ i, f i = a.myOpts.getD i 0

theorem charOf_of_lt (h : n < 128) : charOf n = n := by
  rw [charOf,Int.bmod_eq_of_le (by omega) (by omega)]

theorem charOf_lt (x : ℤ) : charOf x < 128 := by
  have h := Int.bmod_lt (x := x) (m := 2^8) (by decide)
  rw [charOf]
  omega

theorem charOf_wraps (hlow : 128 ≤ n) (hhigh : n < 256) : charOf n = n-256 := by
  rw [charOf,Int.bmod_def]
  omega

theorem holds_empty : Holds empty fun _ => 0 := ⟨rfl,by decide,fun _ => rfl⟩

/-- The flag that is read is that of the index as a `char`. -/
theorem Holds.getQuot_char (h : a.Holds f) {k : ℕ} (hi : charOf i = k) : a.getQuot i = some (f k) := by
  rw [ArgOpts.getQuot,hi,h.count,h.flag]
  by_cases hlt : k < a.myOpts.length
  · simp only [Int.ofNat_lt,if_pos hlt,Int.natCast_nonneg,if_true,Int.toNat_natCast]
    rw [List.getElem?_eq_getElem hlt,List.getD_eq_getElem _ _ hlt]
  · simp only [Int.ofNat_lt,if_neg hlt]
    rw [List.getD_eq_default _ _ (not_lt.mp hlt)]

theorem Holds.getQuot (h : a.Holds f) (hi : i < 128) : a.getQuot i = some (f i) :=
  h.getQuot_char (charOf_of_lt hi)

theorem Holds.getQuot_neg (h : a.Holds f) (hi : charOf i < 0) : a.getQuot i = none := by
  rw [ArgOpts.getQuot,h.count,if_pos (by omega),if_neg (by omega)]

/-- The array grows as long as its size is an `int`. -/
theorem Holds.grow (h : a.Holds f) (hint : n+myGrowBy < 2^31) :
    a.grow n = some ⟨a.myOpts ++ List.replicate (n+myGrowBy-a.myOpts.length) 0,charOf (n+myGrowBy : ℕ)⟩ := by
  rw [ArgOpts.grow,h.count,if_neg (by omega),Int.toNat_natCast,List.take_length]

theorem Holds.set (h : a.Holds f) (hn : n < a.myOpts.length) (v : Byte) :
    Holds { a with myOpts := a.myOpts.set n v } (Function.update f n v) := by
  refine ⟨?_,?_,fun i => ?_⟩
  · exact h.count.trans (by rw [List.length_set])
  · exact (List.length_set ..).trans_lt h.fits
  · rw [Function.update_apply,List.getD_eq_getElem?_getD,List.getElem?_set]
    by_cases hi : i = n
    · rw [if_pos hi,if_pos hi.symm,if_pos hn]
      rfl
    · rw [if_neg hi,if_neg (Ne.symm hi),h.flag,List.getD_eq_getElem?_getD]

theorem Holds.grown (h : a.Holds f) (k : ℕ) (i : ℕ) : f i = (a.myOpts ++ List.replicate k 0).getD i 0 := by
  rw [h.flag]
  by_cases hi : i < a.myOpts.length
  · rw [List.getD_append _ _ _ _ hi]
  · rw [List.getD_append_right _ _ _ _ (not_lt.mp hi),List.getD_eq_default _ _ (not_lt.mp hi),
      List.getD_eq_getElem?_getD]
    cases hk : (List.replicate k (0:Byte))[i-a.myOpts.length]? with
    | none => rfl
    | some v => exact (List.eq_of_mem_replicate (List.mem_of_getElem? hk)).symm

/-- A call that needs no more than 127 flags. -/
theorem Holds.setQuot (h : a.Holds f) (hroom : n < a.myOpts.length ∨ n+myGrowBy < 128) (v : Byte) :
    ∃ b, a.setQuot n v = some b ∧ b.Holds (Function.update f n v) ∧
      b.myOpts.length = if a.myOpts.length ≤ n then n+myGrowBy else a.myOpts.length := by
  by_cases hn : a.myOpts.length ≤ n
  · have hfits : n+myGrowBy < 128 := hroom.resolve_left (not_lt.mpr hn)
    have hlen : (a.myOpts ++ List.replicate (n+myGrowBy-a.myOpts.length) (0:Byte)).length = n+myGrowBy := by
      rw [List.length_append,List.length_replicate]
      omega
    have hgrown : Holds ⟨a.myOpts ++ List.replicate (n+myGrowBy-a.myOpts.length) 0,charOf (n+myGrowBy : ℕ)⟩ f :=
      ⟨by rw [charOf_of_lt hfits,hlen],by rw [hlen]; exact hfits,fun i => h.grown _ i⟩
    have hlt : n < n+myGrowBy := Nat.lt_add_of_pos_right (by decide)
    refine ⟨_,?_,hgrown.set (hlt.trans_eq hlen.symm) v,?_⟩
    · rw [ArgOpts.setQuot,h.count,if_pos (by omega),h.grow (by omega)]
      simp only [Option.bind_eq_bind,Option.bind_some,hlen,if_pos hlt]
    · rw [List.length_set,hlen,if_pos hn]
  · refine ⟨_,?_,h.set (not_le.mp hn) v,?_⟩
    · rw [ArgOpts.setQuot,h.count,if_neg (by omega)]
      simp only [Option.bind_eq_bind,Option.bind_some,if_pos (not_le.mp hn),h.count]
    · rw [List.length_set,if_neg hn]

/-- A call that needs more leaves its own flag unreadable, or another one in its place. -/
theorem Holds.setQuot_beyond (h : a.Holds fun _ => 0) (hn : a.myOpts.length ≤ n) (hroom : 128 ≤ n+myGrowBy)
    (hset : a.setQuot n 1 = some b) : b.getQuot n ≠ some 1 := by
  rw [ArgOpts.setQuot,h.count,if_pos (by omega)] at hset
  have hint : n+myGrowBy < 2^31 := by
    by_contra hint
    rw [ArgOpts.grow,if_pos (.inr (not_lt.mp hint))] at hset
    cases hset
  rw [h.grow hint] at hset
  simp only [Option.bind_eq_bind,Option.bind_some] at hset
  split_ifs at hset with hlt
  cases hset
  rw [ArgOpts.getQuot]
  simp only
  split_ifs with hcount hpos
  · -- another flag, since the index is too great for a `char`
    have hne : (charOf n).toNat ≠ n := by
      intro heq
      have hle : charOf n < 128 := charOf_lt n
      have hlow : n < 128 := by omega
      have hgrow : myGrowBy = 16 := rfl
      rw [charOf_of_lt hlow,charOf_wraps (by omega) (by omega)] at hcount
      push_cast at hcount
      omega
    rw [List.getElem?_set_ne (Ne.symm hne)]
    have hzero := h.grown (n+myGrowBy-a.myOpts.length) (charOf n).toNat
    intro hone
    rw [List.getD_eq_getElem?_getD,hone] at hzero
    cases hzero
  · exact nofun
  · exact nofun

end ArgOpts

section
variable {ns : List ℕ} {calls : List (ℕ × Byte)} {a : ArgOpts}

theorem flagRoom_concat (ns : List ℕ) (n : ℕ) :
    flagRoom (ns ++ [n]) = if flagRoom ns ≤ n then n+myGrowBy else flagRoom ns := by
  rw [flagRoom,List.foldl_append]
  rfl

theorem flagRoom_mono {ns ms : List ℕ} (h : ns <+: ms) : flagRoom ns ≤ flagRoom ms := by
  obtain ⟨ks,rfl⟩ := h
  induction ks using List.reverseRecOn with
  | nil => rw [List.append_nil]
  | append_singleton ks k ih =>
    rw [← List.append_assoc,flagRoom_concat]
    split_ifs with hle
    · omega
    · exact ih

theorem lt_flagRoom {i : ℕ} (h : i ∈ ns) : i < flagRoom ns := by
  induction ns using List.reverseRecOn with
  | nil => cases h
  | append_singleton ns n ih =>
    have hle := flagRoom_mono (List.prefix_append ns [n])
    obtain h | h := List.mem_append.mp h
    · exact (ih h).trans_le hle
    · obtain rfl := List.mem_singleton.mp h
      rw [flagRoom_concat]
      split_ifs with hfits
      · exact Nat.lt_add_of_pos_right (by decide)
      · exact not_le.mp hfits

theorem lastSet_concat (calls : List (ℕ × Byte)) (c : ℕ × Byte) :
    lastSet (calls ++ [c]) = Function.update (lastSet calls) c.1 c.2 := by
  rw [lastSet,List.foldl_append]
  rfl

theorem setQuots_concat (calls : List (ℕ × Byte)) (c : ℕ × Byte) :
    ArgOpts.empty.setQuots (calls ++ [c]) = (ArgOpts.empty.setQuots calls).bind fun a => a.setQuot c.1 c.2 := by
  rw [ArgOpts.setQuots,List.foldlM_append]
  cases hrun : ArgOpts.empty.setQuots calls with
  | none =>
    rw [ArgOpts.setQuots] at hrun
    rw [hrun]
    rfl
  | some a =>
    rw [ArgOpts.setQuots] at hrun
    rw [hrun]
    change (a.setQuot c.1 c.2).bind some = a.setQuot c.1 c.2
    exact Option.bind_fun_some _

/-- Calls that need no more than 127 flags. -/
theorem holds_setQuots (calls : List (ℕ × Byte)) (h : flagRoom (calls.map Prod.fst) < 128) :
    ∃ a, ArgOpts.empty.setQuots calls = some a ∧
    a.Holds (lastSet calls) ∧ a.myOpts.length = flagRoom (calls.map Prod.fst) := by
  induction calls using List.reverseRecOn with
  | nil => exact ⟨.empty,rfl,ArgOpts.holds_empty,rfl⟩
  | append_singleton calls c ih =>
    rw [List.map_append,List.map_singleton,flagRoom_concat] at h
    have hle : flagRoom (calls.map Prod.fst) ≤ flagRoom (calls.map Prod.fst ++ [c.1]) :=
      flagRoom_mono (List.prefix_append _ _)
    rw [flagRoom_concat] at hle
    obtain ⟨a,hrun,ha,hlen⟩ := ih (hle.trans_lt h)
    have hroom : c.1 < a.myOpts.length ∨ c.1+myGrowBy < 128 := by
      rw [hlen]
      split_ifs at h with hfits
      · exact .inr h
      · exact .inl (not_le.mp hfits)
    obtain ⟨b,hset,hb,hblen⟩ := ha.setQuot hroom c.2
    refine ⟨b,?_,?_,?_⟩
    · rw [setQuots_concat,hrun,Option.bind_some,hset]
    · rw [lastSet_concat]
      exact hb
    · rw [hblen,hlen,List.map_append,List.map_singleton,flagRoom_concat]

/-- Calls that all give one value. -/
def callsOf (v : Byte) (ns : List ℕ) : List (ℕ × Byte) := ns.map fun n => (n,v)

theorem map_callsOf (v : Byte) (ns : List ℕ) : (callsOf v ns).map Prod.fst = ns := by
  rw [callsOf,List.map_map]
  exact List.map_id _

theorem lastSet_callsOf (v : Byte) (ns : List ℕ) (i : ℕ) :
    lastSet (callsOf v ns) i = if i ∈ ns then v else 0 := by
  induction ns using List.reverseRecOn with
  | nil => rfl
  | append_singleton ns n ih =>
    rw [callsOf,List.map_append,List.map_singleton,lastSet_concat,Function.update_apply,
      show lastSet (ns.map fun n => (n,v)) i = _ from ih]
    simp only [List.mem_append,List.mem_singleton]
    by_cases hi : i = n
    · rw [if_pos hi,if_pos (.inr hi)]
    · simp only [hi,or_false,if_false]

theorem lastSet_zero (ns : List ℕ) : lastSet (callsOf 0 ns) = fun _ => 0 := by
  funext i
  rw [lastSet_callsOf]
  split_ifs
  · rfl
  · rfl

/-- The call that needs the 128th flag goes wrong, when it sets its flag. -/
theorem not_right_of_room {n : ℕ} (hns : flagRoom ns < 128) (hroom : 128 ≤ flagRoom (ns ++ [n])) :
    ¬∃ a, ArgOpts.empty.setQuots (callsOf 0 ns ++ [(n,1)]) = some a ∧ a.getQuot n = some 1 := by
  intro ⟨b,hrun,hget⟩
  have hmap := map_callsOf 0 ns
  obtain ⟨a,ha,hholds,hlen⟩ := holds_setQuots (callsOf 0 ns) (hmap.symm ▸ hns)
  rw [setQuots_concat,ha,Option.bind_some] at hrun
  rw [hmap] at hlen
  rw [lastSet_zero] at hholds
  rw [flagRoom_concat] at hroom
  split_ifs at hroom with hle
  · exact hholds.setQuot_beyond (hlen.trans_le hle) hroom hrun hget
  · omega

theorem room_of_right {R : Set ℕ} (h : FlagsRight ns R) : flagRoom ns < 128 := by
  by_contra hroom
  induction ns using List.reverseRecOn with
  | nil => exact hroom (by decide)
  | append_singleton ns n ih =>
    by_cases hns : flagRoom ns < 128
    · have hfst : (callsOf 0 ns ++ [(n,1)]).map Prod.fst = ns ++ [n] := by
        rw [List.map_append,map_callsOf]
        rfl
      obtain ⟨a,ha,hflags⟩ := h (callsOf 0 ns ++ [(n,1)]) (hfst ▸ List.prefix_rfl)
      refine not_right_of_room hns (not_lt.mp hroom) ⟨a,ha,?_⟩
      rw [hflags n (.inr (by rw [hfst]; exact List.mem_append_right _ List.mem_cons_self)),lastSet_concat,
        Function.update_self]
    · exact ih (fun calls hpre => h calls (hpre.trans (List.prefix_append _ _))) hns

theorem readable_of_right {R : Set ℕ} (h : FlagsRight ns R) {i : ℕ} (hi : i ∈ R) : Readable ns i := by
  have hroom := room_of_right h
  have hmap := map_callsOf 1 ns
  obtain ⟨a,ha,hholds,-⟩ := holds_setQuots (callsOf 1 ns) (hmap.symm ▸ hroom)
  obtain ⟨b,hb,hflags⟩ := h (callsOf 1 ns) ⟨[],by rw [List.append_nil,hmap]⟩
  obtain rfl : a = b := Option.some.inj (ha.symm.trans hb)
  have hflag := hflags i (.inl hi)
  rw [Readable,or_iff_not_imp_left]
  intro hbig
  have hnot : i ∉ ns := fun hmem => hbig ((lt_flagRoom hmem).trans hroom)
  rw [lastSet_callsOf,if_neg hnot] at hflag
  by_cases hneg : charOf i < 0
  · rw [hholds.getQuot_neg hneg] at hflag
    cases hflag
  · have hk : charOf i = (charOf i).toNat := (Int.toNat_of_nonneg (Int.not_lt.mp hneg)).symm
    refine ⟨Int.not_lt.mp hneg,fun hmem => ?_⟩
    rw [hholds.getQuot_char hk,lastSet_callsOf,if_pos hmem] at hflag
    cases hflag

theorem lastSet_of_not_mem {i : ℕ} (h : i ∉ calls.map Prod.fst) : lastSet calls i = 0 := by
  induction calls using List.reverseRecOn with
  | nil => rfl
  | append_singleton calls c ih =>
    rw [List.map_append,List.mem_append,not_or] at h
    have hi : i ≠ c.1 := fun heq => h.2 (by rw [heq]; exact List.mem_cons_self)
    rw [lastSet_concat,Function.update_of_ne hi]
    exact ih h.1

/-- The flags are right as long as their number fits in a `char` and the indices that are read do. -/
theorem flagsRight_iff (ns : List ℕ) (R : Set ℕ) :
    FlagsRight ns R ↔ flagRoom ns < 128 ∧ ∀ i ∈ R, Readable ns i := by
  constructor
  · exact fun h => ⟨room_of_right h,fun i => readable_of_right h⟩
  · intro ⟨hroom,hR⟩ calls hpre
    have hcalls : flagRoom (calls.map Prod.fst) < 128 := (flagRoom_mono hpre).trans_lt hroom
    obtain ⟨a,ha,hholds,-⟩ := holds_setQuots _ hcalls
    refine ⟨a,ha,fun i hi => ?_⟩
    have hread : Readable ns i := by
      obtain hi | hi := hi
      · exact hR i hi
      · exact .inl ((lt_flagRoom hi).trans hcalls)
    obtain hlt | ⟨hpos,hnot⟩ := hread
    · exact hholds.getQuot hlt
    · have hk : charOf i = (charOf i).toNat := (Int.toNat_of_nonneg hpos).symm
      have hfree {j : ℕ} (hj : j ∉ ns) : j ∉ calls.map Prod.fst := fun hmem => hj (hpre.subset hmem)
      by_cases hlt : i < 128
      · exact hholds.getQuot hlt
      · have hbig : i ∉ calls.map Prod.fst := fun hmem => hlt ((lt_flagRoom hmem).trans hcalls)
        rw [hholds.getQuot_char hk,lastSet_of_not_mem (hfree hnot),lastSet_of_not_mem hbig]

/-- Of 113 quoted arguments the last one is not taken for quoted. -/
theorem last_flag_lost :
    (ArgOpts.empty.setQuots ((List.range 113).map fun n => (n,1))).bind (fun a => a.getQuot 112) = some 0 ∧
      lastSet ((List.range 113).map fun n => (n,1)) 112 = 1 ∧ ¬FlagsRight (List.range 113) ∅ := by
  have hget : (ArgOpts.empty.setQuots ((List.range 113).map fun n => (n,1))).bind (fun a => a.getQuot 112) =
      some 0 := by decide +kernel
  have hset : lastSet ((List.range 113).map fun n => (n,1)) 112 = 1 := by decide
  refine ⟨hget,hset,fun h => ?_⟩
  obtain ⟨a,ha,hflags⟩ := h ((List.range 113).map fun n => (n,1)) (by decide)
  have hflag := hflags 112 (.inr (by decide))
  rw [ha,Option.bind_some,hflag,hset] at hget
  cases hget

end
end Smx
