import Smx.Base.Bytes
import Mathlib.Data.List.TakeDrop

/-! `base64` and `mime64`: how files are written into a message. -/
namespace Smx

def CRLF : Bytes := [13,10]

def encodeMap : Bytes :=
  str "ABCDEFGHIJKLMNOPQRSTUVWXYZabcdefghijklmnopqrstuvwxyz0123456789+/"

/-- The character of six bits. -/
def mapAt (c : Byte) : Byte := encodeMap.getD c.toNat 0

/-- The six bits between two bytes, and those between the next two. -/
def midAB (a b : Byte) : Byte := (a <<< 4 &&& (48 : Byte)) ||| (b >>> 4 &&& (15 : Byte))

def midBC (b c : Byte) : Byte := (b <<< 2 &&& (60 : Byte)) ||| (c >>> 6 &&& (3 : Byte))

/-- `base64`. -/
def base64 : Bytes → Bytes
  | [] => []
  | [a] => [mapAt (a >>> 2),mapAt (midAB a 0),ch '=',ch '=']
  | [a,b] => [mapAt (a >>> 2),mapAt (midAB a b),mapAt (midBC b 0),ch '=']
  | a::b::c::rest =>
    mapAt (a >>> 2)::mapAt (midAB a b)::mapAt (midBC b c)::mapAt (c &&& 63)::base64 rest

/-- `mime64`: lines of 48 bytes each. -/
def mime64 (s : Bytes) : Bytes :=
  if 48 < s.length then base64 (s.take 48) ++ CRLF ++ mime64 (s.drop 48)
  else if s = [] then [] else base64 s ++ CRLF
termination_by s.length
decreasing_by
  rw [List.length_drop]
  omega

/-- The six bits of a character. -/
def bitsOf (c : Byte) : Byte := UInt8.ofNat (encodeMap.idxOf c)

/-- What base64 text stands for. -/
def unbase64 : Bytes → Bytes
  | w::x::y::z::rest =>
    let a := bitsOf w <<< 2 ||| bitsOf x >>> 4
    let b := bitsOf x <<< 4 ||| bitsOf y >>> 2
    let c := bitsOf y <<< 6 ||| bitsOf z
    if y = ch '=' then [a] else if z = ch '=' then [a,b] else a::b::c::unbase64 rest
  | _ => []

theorem mapAt_spec : ∀ c : Byte, c < 64 →
    bitsOf (mapAt c) = c ∧ mapAt c ≠ ch '=' ∧ mapAt c ≠ ch '.' ∧ mapAt c ≠ 13 ∧ mapAt c ≠ 10 :=
  forall_byte (by decide +kernel)

theorem bitsOf_mapAt (c : Byte) (h : c < 64) : bitsOf (mapAt c) = c := (mapAt_spec c h).1

/-- The characters that base64 text is made of. -/
theorem mapAt_plain (c : Byte) (h : c < 64) :
    mapAt c ≠ ch '=' ∧ mapAt c ≠ ch '.' ∧ mapAt c ≠ 13 ∧ mapAt c ≠ 10 := (mapAt_spec c h).2

theorem or_lt {x y : Byte} (hx : x < 64) (hy : y < 64) : x ||| y < 64 := by
  rw [UInt8.lt_iff_toNat_lt] at hx hy ⊢
  rw [UInt8.toNat_or]
  exact Nat.or_lt_two_pow (n := 6) hx hy

theorem and_lt {m : Byte} (a : Byte) (hm : m < 64) : a &&& m < 64 := by
  rw [UInt8.lt_iff_toNat_lt] at hm ⊢
  rw [UInt8.toNat_and]
  exact Nat.and_le_right.trans_lt hm

theorem bits_lt (a : Byte) : a >>> 2 < 64 ∧ a &&& 63 < 64 := by
  have ha := a.toNat_lt
  refine ⟨?_,and_lt a (by decide)⟩
  rw [UInt8.lt_iff_toNat_lt,UInt8.toNat_shiftRight]
  change a.toNat >>> 2 < 64
  rw [Nat.shiftRight_eq_div_pow]
  omega

theorem pads_lt (a : Byte) : (a <<< 4 &&& (48 : Byte)) < 64 ∧ (a >>> 4 &&& (15 : Byte)) < 64 ∧
    (a <<< 2 &&& (60 : Byte)) < 64 ∧ (a >>> 6 &&& (3 : Byte)) < 64 :=
  ⟨and_lt _ (by decide),and_lt _ (by decide),and_lt _ (by decide),and_lt _ (by decide)⟩

theorem midAB_lt (a b : Byte) : midAB a b < 64 := or_lt (pads_lt a).1 (pads_lt b).2.1

theorem midBC_lt (b c : Byte) : midBC b c < 64 := or_lt (pads_lt b).2.2.1 (pads_lt c).2.2.2

/-- The two parts of a byte that is split between two characters. -/
theorem parts_eq : ∀ a : Byte,
    (a >>> 2) <<< 2 ||| (a <<< 4 &&& (48 : Byte)) >>> 4 = a ∧
    (a >>> 4 &&& (15 : Byte)) >>> 4 = 0 ∧ (a <<< 4 &&& (48 : Byte)) <<< 4 = 0 ∧
    (a >>> 4 &&& (15 : Byte)) <<< 4 ||| (a <<< 2 &&& (60 : Byte)) >>> 2 = a ∧
    (a >>> 6 &&& (3 : Byte)) >>> 2 = 0 ∧ (a <<< 2 &&& (60 : Byte)) <<< 6 = 0 ∧
    (a >>> 6 &&& (3 : Byte)) <<< 6 ||| (a &&& 63) = a :=
  forall_byte (by decide +kernel)

theorem joinA (a b : Byte) : (a >>> 2) <<< 2 ||| midAB a b >>> 4 = a := by
  rw [midAB,UInt8.shiftRight_or,(parts_eq b).2.1,UInt8.or_zero,(parts_eq a).1]

theorem joinB (a b c : Byte) : midAB a b <<< 4 ||| midBC b c >>> 2 = b := by
  rw [midAB,midBC,UInt8.shiftLeft_or,UInt8.shiftRight_or,(parts_eq a).2.2.1,UInt8.zero_or,
    (parts_eq c).2.2.2.2.1,UInt8.or_zero,(parts_eq b).2.2.2.1]

theorem joinC (b c : Byte) : midBC b c <<< 6 ||| (c &&& 63) = c := by
  rw [midBC,UInt8.shiftLeft_or,(parts_eq b).2.2.2.2.2.1,UInt8.zero_or,(parts_eq c).2.2.2.2.2.2]

/-- base64 text stands for the bytes it was made of. -/
theorem unbase64_base64 (s : Bytes) : unbase64 (base64 s) = s := by
  fun_induction base64 s with
  | case1 => rfl
  | case2 a =>
    rw [unbase64]
    rw [if_pos rfl,bitsOf_mapAt _ (bits_lt a).1,bitsOf_mapAt _ (midAB_lt a 0),joinA]
  | case3 a b =>
    rw [unbase64]
    rw [if_neg (mapAt_plain _ (midBC_lt b 0)).1,if_pos rfl,bitsOf_mapAt _ (bits_lt a).1,
      bitsOf_mapAt _ (midAB_lt a b),bitsOf_mapAt _ (midBC_lt b 0),joinA,joinB]
  | case4 a b c rest ih =>
    rw [unbase64]
    rw [if_neg (mapAt_plain _ (midBC_lt b c)).1,if_neg (mapAt_plain _ (bits_lt c).2).1,
      bitsOf_mapAt _ (bits_lt a).1,bitsOf_mapAt _ (midAB_lt a b),bitsOf_mapAt _ (midBC_lt b c),
      bitsOf_mapAt _ (bits_lt c).2,joinA,joinB,joinC,ih]

/-- It has no full stop and no line end. -/
theorem base64_plain (s : Bytes) : ∀ c ∈ base64 s, c ≠ ch '.' ∧ c ≠ 13 ∧ c ≠ 10 := by
  have hmap {x : Byte} (hx : x < 64) : mapAt x ≠ ch '.' ∧ mapAt x ≠ 13 ∧ mapAt x ≠ 10 :=
    (mapAt_plain x hx).2
  have hpad : ch '=' ≠ ch '.' ∧ ch '=' ≠ 13 ∧ ch '=' ≠ 10 := by decide
  fun_induction base64 s with
  | case1 => exact nofun
  | case2 a =>
    simp only [List.forall_mem_cons]
    exact ⟨hmap (bits_lt a).1,hmap (midAB_lt a 0),hpad,hpad,nofun⟩
  | case3 a b =>
    simp only [List.forall_mem_cons]
    exact ⟨hmap (bits_lt a).1,hmap (midAB_lt a b),hmap (midBC_lt b 0),hpad,nofun⟩
  | case4 a b c rest ih =>
    simp only [List.forall_mem_cons]
    exact ⟨hmap (bits_lt a).1,hmap (midAB_lt a b),hmap (midBC_lt b c),hmap (bits_lt c).2,ih⟩

theorem mime64_nil : mime64 [] = [] := by
  rw [mime64]
  rfl

theorem mime64_short {s : Bytes} (hne : s ≠ []) (hlen : s.length ≤ 48) :
    mime64 s = base64 s ++ CRLF := by
  rw [mime64,if_neg (not_lt.mpr hlen),if_neg hne]

theorem mime64_long {s : Bytes} (hlen : 48 < s.length) :
    mime64 s = base64 (s.take 48) ++ CRLF ++ mime64 (s.drop 48) := by
  conv_lhs => rw [mime64]
  rw [if_pos hlen]

/-- The text of whole lines is followed by the text of the rest. -/
theorem mime64_append {s : Bytes} (h : 48 ∣ s.length) (t : Bytes) :
    mime64 (s ++ t) = mime64 s ++ mime64 t := by
  induction hn : s.length using Nat.strong_induction_on generalizing s with
  | _ n ih =>
    subst hn
    obtain ⟨k,hk⟩ := h
    match k with
    | 0 =>
      have hs : s = [] := List.length_eq_zero_iff.mp hk
      rw [hs,mime64_nil]
      rfl
    | 1 =>
      have hs : s ≠ [] := by
        rintro rfl
        exact absurd hk (by decide)
      rw [mime64_short hs hk.le]
      by_cases ht : t = []
      · rw [ht,List.append_nil,mime64_nil,List.append_nil,mime64_short hs hk.le]
      · have hlong : 48 < (s ++ t).length := by
          have hpos := List.length_pos_iff.mpr ht
          rw [List.length_append]
          omega
        rw [mime64_long hlong,List.take_left' hk,List.drop_left' hk]
    | k+2 =>
      have hlong : 48 < s.length := by omega
      have hlong' : 48 < (s ++ t).length := by
        rw [List.length_append]
        omega
      have hdrop : (s.drop 48).length = s.length-48 := List.length_drop
      rw [mime64_long hlong,mime64_long hlong',List.take_append_of_le_length hlong.le,
        List.drop_append_of_le_length hlong.le,List.append_assoc _ (mime64 _)]
      rw [ih (s.drop 48).length (by omega) ⟨k+1,by omega⟩ rfl]

end Smx
