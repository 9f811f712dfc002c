import Smx.Lib.Run
import Smx.Str.CStr

/-! Runs of operations on strings, and which of them keep every string to itself. -/
namespace Smx

/-- An operation on a string, with its handle first. -/
inductive StrOp (ι : Type)
  | assign (i j : ι)
  | assignChars (i : ι) (d : Option Bytes)
  | grow (i : ι) (n : ℤ)
  | append (i : ι) (d : Bytes)
  | appendChar (i : ι) (c : Byte)
  | appendStr (i j : ι)
  | ltrim (i : ι) (c : Option Byte)
  | rtrim (i : ι) (c : Option Byte)
  | trim (i : ι) (c : Option Byte)
  | shrink (i : ι)
  | free (i : ι)

namespace StrOp
variable {ι : Type}

def handle : StrOp ι → ι
  | assign i _ | assignChars i _ | grow i _ | append i _ | appendChar i _ | appendStr i _ => i
  | ltrim i _ | rtrim i _ | trim i _ | shrink i | free i => i

/-- What the operation makes of a string that shares its buffer with no other one: `v`, when `value`
is what the handles showed before. `Grow` leaves open what the new bytes are. -/
def Gives (value : ι → Bytes) (v : Bytes) : StrOp ι → Prop
  | assign _ j => v = value j
  | assignChars _ d => v = cstr (d.getD [])
  | grow i n => v.length = n.toNat ∧ (value i).take n.toNat <+: v
  | append i d => v = value i ++ d
  | appendChar i c => v = value i ++ [c]
  | appendStr i j => v = value i ++ value j
  | ltrim i c => v = (value i).dropWhile (trims c)
  | rtrim i c => v = (value i).rdropWhile (trims c)
  | trim i c => v = ((value i).dropWhile (trims c)).rdropWhile (trims c)
  | shrink i => v = cstr (value i)
  | free _ => v = []

end StrOp

namespace Store
variable {ι : Type} [DecidableEq ι] (blank : ℕ → ℕ → Byte)

/-- An operation whose behaviour C++ defines leads to a state. -/
def step (s : Store ι) : StrOp ι → Option (Store ι)
  | .assign i j => some (s.copy i j)
  | .assignChars i d => assignChars blank s i d
  | .grow i n => grow blank s i n
  | .append i d => append blank s i d
  | .appendChar i c => appendChar blank s i c
  | .appendStr i j => appendStr blank s i j
  | .ltrim i c => ltrim c s i
  | .rtrim i c => some (rtrim c s i)
  | .trim i c => trim c s i
  | .shrink i => shrink blank s i
  | .free i => some (s.free i)

/-- The operation is defined, gives its own string what it gives an unshared one, and changes no
other string. -/
def Faithful (s : Store ι) (op : StrOp ι) : Prop :=
  ∃ t, step blank s op = some t ∧ op.Gives s.value (t.value op.handle) ∧
    ∀ k, k ≠ op.handle → t.value k = s.value k

/-- Shared strings are not trimmed, unless nothing is taken off, no string is appended to itself
unless it is empty, and no unshared buffer is given a negative size. -/
def Careful (s : Store ι) : StrOp ι → Prop
  | .grow i n => 0 ≤ n ∨ s.handle i = none ∨ s.Shared i
  | .appendStr i j => i = j → s.value i = []
  | .ltrim i c => ¬s.Overruns i c ∧
      (s.Shared i → (s.value i).dropWhile (trims c) = s.value i)
  | .rtrim i c => s.Shared i → (s.value i).rdropWhile (trims c) = s.value i
  | .trim i c => ¬s.Overruns i c ∧
      (s.Shared i → ((s.value i).dropWhile (trims c)).rdropWhile (trims c) = s.value i)
  | _ => True

/-- No handle has a buffer yet. -/
def start : Store ι where
  info _ := ⟨0,0,0,fun _ => 0⟩
  handle _ := none
  next := 0

variable [Fintype ι] {s t : Store ι} {v : Bytes} {blank}

omit [DecidableEq ι] in
theorem start_sound : (start : Store ι).Sound :=
  ⟨fun _ _ => nofun,fun _ _ => nofun,fun _ _ => nofun,fun _ _ => nofun⟩

theorem Filled.faithful (op : StrOp ι) (hstep : step blank s op = some t) (h : Filled s t op.handle v)
    (hgives : op.Gives s.value v) : Faithful blank s op :=
  ⟨t,hstep,h.value ▸ hgives,h.others⟩

omit [Fintype ι] in
theorem not_faithful_of_none (op : StrOp ι) (hstep : step blank s op = none) :
    ¬Faithful blank s op := by
  rintro ⟨t,ht,-⟩
  rw [hstep] at ht
  cases ht

/-- What is trimmed in place is faithful when nobody else sees it. -/
theorem Spread.faithful_iff (op : StrOp ι) (hstep : step blank s op = some t) (h : Spread s t op.handle v)
    (hgives : op.Gives s.value v) (hv : v.length ≤ (s.value op.handle).length) :
    Faithful blank s op ↔ (s.Shared op.handle → v = s.value op.handle) := by
  have hself : t.value op.handle = v := (h.value _).trans (if_pos rfl)
  rw [← h.others_iff hv]
  constructor
  · rintro ⟨t',ht',-,hothers⟩
    obtain rfl := Option.some.inj (hstep.symm.trans ht')
    exact hothers
  · exact fun hothers => ⟨t,hstep,hself.symm ▸ hgives,hothers⟩

/-- Every operation keeps the invariant. -/
theorem step_sound {op : StrOp ι} (hs : s.Sound) (hstep : step blank s op = some t) : t.Sound := by
  cases op with
  | assign i j =>
    obtain rfl := Option.some.inj hstep
    exact (copy_spec hs i j).1
  | assignChars i d =>
    obtain ⟨u,hu,hfilled⟩ := assignChars_spec blank hs i d
    obtain rfl := Option.some.inj (hu.symm.trans hstep)
    exact hfilled.sound
  | grow i n =>
    cases n with
    | ofNat n =>
      obtain ⟨u,v,hu,hfilled,-⟩ := grow_spec blank hs i n
      obtain rfl := Option.some.inj (hu.symm.trans hstep)
      exact hfilled.sound
    | negSucc n => exact ((grow_negative blank hs i (Int.negSucc_lt_zero n)).1 t hstep).sound
  | append i d =>
    obtain ⟨u,hu,hfilled⟩ := append_spec blank hs i d
    obtain rfl := Option.some.inj (hu.symm.trans hstep)
    exact hfilled.sound
  | appendChar i c =>
    obtain ⟨u,hu,hfilled⟩ := appendChar_spec blank hs i c
    obtain rfl := Option.some.inj (hu.symm.trans hstep)
    exact hfilled.sound
  | appendStr i j => exact ((appendStr_spec blank hs i j).1 t hstep).sound
  | ltrim i c => exact ((ltrim_spec hs i c).2 t hstep).sound
  | rtrim i c =>
    obtain rfl := Option.some.inj hstep
    exact (rtrim_spec hs i c).sound
  | trim i c => exact ((trim_spec hs i c).2 t hstep).sound
  | shrink i =>
    obtain ⟨u,hu,hfilled⟩ := shrink_spec blank hs i
    obtain rfl := Option.some.inj (hu.symm.trans hstep)
    exact hfilled.sound
  | free i =>
    obtain rfl := Option.some.inj hstep
    exact free_sound hs i

/-- An operation that is refused exactly when the string runs over its end, and otherwise trims the
string in place, is faithful when it does not run over and nobody else sees what it takes off. -/
theorem faithful_iff_of_trimming (op : StrOp ι) {P : Prop} (hnone : step blank s op = none ↔ P)
    (hsome : ∀ t, step blank s op = some t → Spread s t op.handle v) (hgives : op.Gives s.value v)
    (hv : v.length ≤ (s.value op.handle).length) :
    Faithful blank s op ↔ ¬P ∧ (s.Shared op.handle → v = s.value op.handle) := by
  cases hstep : step blank s op with
  | none =>
    have hP := hnone.mp hstep
    exact ⟨fun h => absurd h (not_faithful_of_none op hstep),fun h => absurd hP h.1⟩
  | some t =>
    have hP : ¬P := by
      intro h
      rw [hnone.mpr h] at hstep
      cases hstep
    rw [(hsome t hstep).faithful_iff op hstep hgives hv]
    exact (and_iff_right hP).symm

/-- A step keeps every string to itself exactly when it is a careful one. -/
theorem faithful_iff_careful (hs : s.Sound) (op : StrOp ι) : Faithful blank s op ↔ s.Careful op := by
  cases op with
  | assign i j =>
    obtain ⟨hsound,hothers,hself⟩ := copy_spec hs i j
    exact iff_of_true ⟨_,rfl,hself,hothers⟩ trivial
  | assignChars i d =>
    obtain ⟨t,ht,hfilled⟩ := assignChars_spec blank hs i d
    exact iff_of_true (hfilled.faithful (.assignChars i d) ht rfl) trivial
  | grow i n =>
    cases n with
    | ofNat n =>
      obtain ⟨t,v,ht,hfilled,hlen,hpre⟩ := grow_spec blank hs i n
      exact iff_of_true (hfilled.faithful (.grow i (Int.ofNat n)) ht ⟨hlen,hpre⟩)
        (.inl (Int.natCast_nonneg n))
    | negSucc n =>
      obtain ⟨hsome,hnone⟩ := grow_negative blank hs i (Int.negSucc_lt_zero n)
      have hneg : ¬(0:ℤ) ≤ Int.negSucc n := (Int.negSucc_lt_zero n).not_ge
      cases hgrow : grow blank s i (Int.negSucc n) with
      | none =>
        have hcareless := hnone.mp hgrow
        refine iff_of_false (not_faithful_of_none (.grow i (Int.negSucc n)) hgrow) ?_
        rintro (h | h)
        · exact hneg h
        · exact hcareless h
      | some t =>
        have hcareful : s.handle i = none ∨ s.Shared i := by
          by_contra h
          rw [hnone.mpr h] at hgrow
          cases hgrow
        exact iff_of_true ((hsome t hgrow).faithful (.grow i (Int.negSucc n)) hgrow
          ⟨rfl,List.nil_prefix⟩) (.inr hcareful)
  | append i d =>
    obtain ⟨t,ht,hfilled⟩ := append_spec blank hs i d
    exact iff_of_true (hfilled.faithful (.append i d) ht rfl) trivial
  | appendChar i c =>
    obtain ⟨t,ht,hfilled⟩ := appendChar_spec blank hs i c
    exact iff_of_true (hfilled.faithful (.appendChar i c) ht rfl) trivial
  | appendStr i j =>
    obtain ⟨hsome,hnone⟩ := appendStr_spec blank hs i j
    cases hstep : appendStr blank s i j with
    | none =>
      obtain ⟨hij,hne⟩ := hnone.mp hstep
      exact iff_of_false (not_faithful_of_none (.appendStr i j) hstep) fun h => hne (h hij)
    | some t =>
      refine iff_of_true ((hsome t hstep).faithful (.appendStr i j) hstep rfl) ?_
      intro hij
      by_contra hne
      rw [hnone.mpr ⟨hij,hne⟩] at hstep
      cases hstep
  | ltrim i c =>
    obtain ⟨hnone,hsome⟩ := ltrim_spec hs i c
    exact faithful_iff_of_trimming (.ltrim i c) hnone hsome rfl
      (List.dropWhile_suffix _).length_le
  | rtrim i c =>
    exact (rtrim_spec hs i c).faithful_iff (.rtrim i c) rfl rfl
      (List.rdropWhile_prefix _ _).length_le
  | trim i c =>
    obtain ⟨hnone,hsome⟩ := trim_spec hs i c
    exact faithful_iff_of_trimming (.trim i c) hnone hsome rfl
      ((List.rdropWhile_prefix _ _).length_le.trans (List.dropWhile_suffix _).length_le)
  | shrink i =>
    obtain ⟨t,ht,hfilled⟩ := shrink_spec blank hs i
    exact iff_of_true (hfilled.faithful (.shrink i) ht rfl) trivial
  | free i =>
    obtain ⟨hothers,hself⟩ := free_value s i
    exact iff_of_true ⟨_,rfl,hself,hothers⟩ trivial

end Store

end Smx
