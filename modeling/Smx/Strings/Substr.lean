import Smx.Core.For

/-! `%left`, `%right` and `%mid`: the bytes that they hand to `PutS`. -/
namespace Smx

/-- The contents of a `CStr`, whose `Length()` is an `int`. -/
structure Text where
  bytes : Bytes
  isInt : bytes.length < 2^31

def Text.length (tmp : Text) : ℤ := tmp.bytes.length

theorem Text.length_mem (tmp : Text) : 0 ≤ tmp.length ∧ tmp.length < 2^31 := by
  have h := tmp.isInt
  rw [Text.length]
  omega

/-- The value of an expression of type `int`; `none` where it overflows. -/
def intValue (x : ℤ) : Option ℤ := if IsInt x then some x else none

/-- `abs`. -/
def absValue (x : ℤ) : Option ℤ := intValue |x|

/-- The bytes from `start` on, as many as `len` says. -/
structure Span where
  start : ℤ
  len : ℤ
  deriving DecidableEq

/-- `EvalLeft`. -/
def evalLeft (tmp : Text) (ind : Bytes) : Option (List Span) :=
  let index := atoi ind
  if 0 < index then
    if index < tmp.length then some [⟨0,index⟩] else some [⟨0,tmp.length⟩]
  else some []

/-- `EvalRight`. -/
def evalRight (tmp : Text) (ind : Bytes) : Option (List Span) :=
  let index := atoi ind
  if 0 < index then
    if index < tmp.length then some [⟨tmp.length-index,index⟩] else some [⟨0,tmp.length⟩]
  else some []

/-- `EvalMid`, with or without a third argument. -/
def evalMid (tmp : Text) (ind : Bytes) (n : Option Bytes) : Option (List Span) := do
  let index := atoi ind
  if (← absValue index) < tmp.length then
    match n with
    | some n =>
      let len := atoi n
      if 0 ≤ index then
        let left ← intValue (tmp.length-index)
        return [⟨index,min left len⟩]
      else
        let left ← intValue (tmp.length+index)
        let start ← intValue (left-(← absValue len))
        return [⟨max start 0,min tmp.length len⟩]
    | none =>
      if 0 ≤ index then return [⟨index,← intValue (tmp.length-index)⟩]
      else return [⟨0,← intValue (tmp.length+index)⟩]
  else return []

/-- A call of one of the three, with the texts of its arguments. -/
inductive SubstrCall
  | left (ind : Bytes)
  | right (ind : Bytes)
  | mid (ind : Bytes)
  | midLen (ind n : Bytes)

namespace SubstrCall

def spans (tmp : Text) : SubstrCall → Option (List Span)
  | left ind => evalLeft tmp ind
  | right ind => evalRight tmp ind
  | mid ind => evalMid tmp ind none
  | midLen ind n => evalMid tmp ind (some n)

/-- Nothing overflows, and what `PutS` is given lies in the string. -/
def Safe (tmp : Text) (c : SubstrCall) : Prop :=
  ∃ spans, c.spans tmp = some spans ∧ ∀ r ∈ spans, 0 ≤ r.start ∧ 0 ≤ r.len ∧ r.start+r.len ≤ tmp.length

/-- The index of `%mid` is not the least `int`, and no negative length is used. -/
def Bounded (tmp : Text) : SubstrCall → Prop
  | left _ => True
  | right _ => True
  | mid ind => atoi ind ≠ -2^31
  | midLen ind n => atoi ind ≠ -2^31 ∧ (tmp.length ≤ |atoi ind| ∨ 0 ≤ atoi n)

end SubstrCall

variable {tmp : Text} {x y : ℤ}

theorem intValue_of_isInt (h : IsInt x) : intValue x = some x := if_pos h

theorem absValue_eq (hx : IsInt x) : absValue x = if x = -2^31 then none else some |x| := by
  rw [absValue,intValue]
  obtain ⟨hlow,hhigh⟩ := hx
  by_cases h : x = -2^31
  · rw [if_pos h,if_neg]
    rintro ⟨-,hlt⟩
    rw [h] at hlt
    exact absurd hlt (by decide)
  · rw [if_neg h,if_pos]
    constructor
    · have := abs_nonneg x
      omega
    · exact abs_lt.mpr ⟨by omega,hhigh⟩

theorem isInt_atoi (s : Bytes) : IsInt (atoi s) := int32_mem _

theorem evalMid_least {ind : Bytes} (h : atoi ind = -2^31) (n : Option Bytes) : evalMid tmp ind n = none := by
  have habs : absValue (atoi ind) = none := by rw [absValue_eq (isInt_atoi ind),if_pos h]
  simp only [evalMid,habs,Option.bind_eq_bind,Option.bind_none]

/-- `%mid` of three arguments, where the index is not the least `int`. -/
theorem evalMid_some {ind : Bytes} (h : atoi ind ≠ -2^31) (n : Bytes) : evalMid tmp ind (some n) =
    if |atoi ind| < tmp.length then
      if 0 ≤ atoi ind then some [⟨atoi ind,min (tmp.length-atoi ind) (atoi n)⟩]
      else if atoi n = -2^31 then none
      else some [⟨max (tmp.length+atoi ind-|atoi n|) 0,min tmp.length (atoi n)⟩]
    else some [] := by
  have hlen := tmp.length_mem
  have hind := isInt_atoi ind
  have hn := isInt_atoi n
  simp only [evalMid,absValue_eq hind,h,if_false,Option.bind_eq_bind,Option.bind_some]
  split_ifs with habs hpos hleast
  · have habs := abs_lt.mp habs
    rw [intValue_of_isInt ⟨by omega,by omega⟩]
    rfl
  · have habs := abs_lt.mp habs
    rw [intValue_of_isInt ⟨by omega,by omega⟩,absValue_eq hn,if_pos hleast]
    rfl
  · have habs := abs_lt.mp habs
    have hle : |atoi n| < 2^31 := abs_lt.mpr ⟨by have := hn.1; omega,hn.2⟩
    have hnonneg := abs_nonneg (atoi n)
    rw [intValue_of_isInt ⟨by omega,by omega⟩,absValue_eq hn,if_neg hleast,Option.bind_some,Option.bind_some,
      intValue_of_isInt ⟨by omega,by omega⟩]
    rfl
  · rfl

theorem evalMid_none {ind : Bytes} (h : atoi ind ≠ -2^31) : evalMid tmp ind none =
    if |atoi ind| < tmp.length then
      if 0 ≤ atoi ind then some [⟨atoi ind,tmp.length-atoi ind⟩] else some [⟨0,tmp.length+atoi ind⟩]
    else some [] := by
  have hlen := tmp.length_mem
  simp only [evalMid,absValue_eq (isInt_atoi ind),h,if_false,Option.bind_eq_bind,Option.bind_some]
  split_ifs with habs hpos
  · have habs := abs_lt.mp habs
    rw [intValue_of_isInt ⟨by omega,by omega⟩]
    rfl
  · have habs := abs_lt.mp habs
    rw [intValue_of_isInt ⟨by omega,by omega⟩]
    rfl
  · rfl

/-- A call is safe iff its index and its length are in bounds. -/
theorem substr_safe_iff (tmp : Text) (c : SubstrCall) : c.Safe tmp ↔ c.Bounded tmp := by
  have hlen := tmp.length_mem
  cases c with
  | left ind =>
    simp only [SubstrCall.Safe,SubstrCall.spans,evalLeft,SubstrCall.Bounded,iff_true]
    split_ifs with hpos hlt
    · exact ⟨_,rfl,by simp; omega⟩
    · exact ⟨_,rfl,by simp; omega⟩
    · exact ⟨_,rfl,by simp⟩
  | right ind =>
    simp only [SubstrCall.Safe,SubstrCall.spans,evalRight,SubstrCall.Bounded,iff_true]
    split_ifs with hpos hlt
    · exact ⟨_,rfl,by simp; omega⟩
    · exact ⟨_,rfl,by simp; omega⟩
    · exact ⟨_,rfl,by simp⟩
  | mid ind =>
    simp only [SubstrCall.Safe,SubstrCall.spans,SubstrCall.Bounded]
    by_cases hleast : atoi ind = -2^31
    · simp [evalMid_least hleast,hleast]
    · rw [evalMid_none hleast]
      simp only [ne_eq,hleast,not_false_eq_true,iff_true]
      split_ifs with habs hpos
      · have habs := abs_lt.mp habs
        exact ⟨_,rfl,by simp; omega⟩
      · have habs := abs_lt.mp habs
        exact ⟨_,rfl,by simp; omega⟩
      · exact ⟨_,rfl,by simp⟩
  | midLen ind n =>
    simp only [SubstrCall.Safe,SubstrCall.spans,SubstrCall.Bounded]
    by_cases hleast : atoi ind = -2^31
    · simp [evalMid_least hleast,hleast]
    · rw [evalMid_some hleast]
      simp only [ne_eq,hleast,not_false_eq_true,true_and]
      split_ifs with habs hpos hn
      · have hnot : ¬tmp.length ≤ |atoi ind| := not_le.mpr habs
        have habs := abs_lt.mp habs
        simp only [Option.some.injEq,exists_eq_left',List.mem_singleton,forall_eq,hnot,false_or]
        omega
      · have hnot : ¬tmp.length ≤ |atoi ind| := not_le.mpr habs
        simp [hnot,hn]
      · have hnot : ¬tmp.length ≤ |atoi ind| := not_le.mpr habs
        have habs := abs_lt.mp habs
        simp only [Option.some.injEq,exists_eq_left',List.mem_singleton,forall_eq,hnot,false_or]
        constructor
        · rintro ⟨-,hlow,-⟩
          omega
        · intro hpos
          rw [abs_of_nonneg hpos]
          omega
      · have hle : tmp.length ≤ |atoi ind| := not_lt.mp habs
        simp [hle]

/-- `%mid(abc,1,-1)` hands a negative length to `PutS`. -/
theorem negative_length : ¬(SubstrCall.midLen (str "1") (str "-1")).Safe ⟨str "abc",by decide⟩ := by
  rintro ⟨spans,hspans,h⟩
  have heval : evalMid ⟨str "abc",by decide⟩ (str "1") (some (str "-1")) = some [⟨1,-1⟩] := by decide
  obtain rfl := Option.some.inj (heval.symm.trans hspans)
  exact absurd (h _ List.mem_cons_self).2.1 (by decide)
end Smx
