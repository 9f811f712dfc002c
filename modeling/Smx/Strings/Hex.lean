import Smx.Strings.B64

/-! `%encode` and `%decode`, and the hex digits of `HEX_encode` and `HEX_decode`. -/
namespace Smx

/-- `hex2i`, which compares a signed `char`. -/
def hex2i (c : Byte) : Byte :=
  if c ≤ ch '9' ∨ 128 ≤ c then c - ch '0' else if c ≤ ch 'Z' then c - ch 'A' + 10 else c - ch 'a' + 10

def i2hex (c : Byte) : Byte := if c < 10 then ch '0' + c else c - 10 + ch 'a'

/-- `HEX_encode`: two digits for each byte. -/
def hexEncode (strin : Bytes) : Bytes := strin.flatMap fun u : Byte => [i2hex (u >>> 4),i2hex (u &&& 0xF)]

/-- `HEX_decode`, which leaves an odd digit out. -/
def hexDecode : Bytes → Bytes
  | a::b::r => (hex2i a <<< 4 ||| hex2i b)::hexDecode r
  | _ => []

/-- `HEX_encode(CStr)`; `none` where something is written outside of the buffer. -/
def hexEncodeStr (strin : Bytes) : Option Bytes :=
  let strout := hexEncode strin
  if strout.length ≤ cstrRoom (int32 (strin.length*2)) then some strout else none

/-- `HEX_decode(CStr)`. -/
def hexDecodeStr (strin : Bytes) : Option Bytes :=
  let strout := hexDecode strin
  if strout.length ≤ cstrRoom (int32 (strin.length/2)) then some strout else none

/-- `CStr(const char *)`: the bytes before the NUL are copied; `none` where there is no buffer for them. -/
def cstrOfChars (d : Bytes) : Option Bytes :=
  let n := int32 (cstr d).length
  if n = 0 then some []
  else if cstrRoom n = 0 then none
  else some ((cstr d).take n.toNat)

/-- `!encoding.IsEmpty() && !stricmp(encoding, "hex")`. -/
def isHexArg (encoding : Bytes) : Bool := encoding ≠ [] ∧ SameName (cstr encoding) (str "hex")

/-- `%encode`. -/
def evalEncode (evp : Evp) (args : List Bytes) : Option Bytes :=
  if 0 < args.length then
    (cstrOfChars (args.getD 0 [])).bind fun strin =>
      if isHexArg (args.getD 1 []) then hexEncodeStr strin else b64Encode evp strin
  else some []

/-- `%decode`. -/
def evalDecode (evp : Evp) (args : List Bytes) : Option Bytes :=
  if 0 < args.length then
    (cstrOfChars (args.getD 0 [])).bind fun strin =>
      if isHexArg (args.getD 1 []) then hexDecodeStr strin else b64Decode evp strin
  else some []

/-- The upper-case form of a digit. -/
def upperHex (c : Byte) : Byte := if ch 'a' ≤ c ∧ c ≤ ch 'f' then c - 32 else c

/-- A text comes back from `%encode` and `%decode`, its code is undone in upper case too, and neither wrapper
writes outside of its buffer. -/
structure HexRight (evp : Evp) (s : Bytes) : Prop where
  back : ((evalEncode evp [s,str "hex"]).bind fun t => evalDecode evp [t,str "hex"]) = some s
  upper : hexDecode ((hexEncode s).map upperHex) = s
  encode_fits : hexEncodeStr s ≠ none
  decode_fits : hexDecodeStr (hexEncode s) ≠ none

section
variable {evp : Evp} {s d t : Bytes} {c : Byte}

theorem hex2i_i2hex (h : c < 16) : hex2i (i2hex c) = c := by grind [hex2i,i2hex,ch]

theorem hex2i_upperHex (h : c < 16) : hex2i (upperHex (i2hex c)) = c := by grind [hex2i,i2hex,upperHex,ch]

theorem i2hex_ne_zero (h : c < 16) : i2hex c ≠ 0 := by grind [i2hex,ch]

theorem nibbles_lt (u : Byte) : u >>> 4 < 16 ∧ u &&& 0xF < 16 := by
  constructor
  · rw [UInt8.lt_iff_toNat_lt,UInt8.toNat_shiftRight]
    have h := u.toNat_lt
    simp [Nat.shiftRight_eq_div_pow]
    omega
  · rw [UInt8.lt_iff_toNat_lt,UInt8.toNat_and]
    exact Nat.and_lt_two_pow (n := 4) _ (by decide)

theorem nibbles_join (u : Byte) : (u >>> 4) <<< 4 ||| (u &&& 0xF) = u := by
  apply UInt8.toNat_inj.mp
  have h := u.toNat_lt
  have hand : u.toNat &&& 15 = u.toNat % 2^4 := Nat.and_two_pow_sub_one_eq_mod u.toNat 4
  have hmod : u.toNat/16*16 % 256 = 2^4*(u.toNat/16) := by omega
  simp only [UInt8.toNat_or,UInt8.toNat_shiftLeft,UInt8.toNat_shiftRight,UInt8.toNat_and]
  simp [Nat.shiftRight_eq_div_pow,Nat.shiftLeft_eq]
  rw [hand,hmod,← Nat.two_pow_add_eq_or_of_lt (Nat.mod_lt _ (by decide))]
  omega

theorem hexEncode_cons (u : Byte) (s : Bytes) :
    hexEncode (u::s) = i2hex (u >>> 4)::i2hex (u &&& 0xF)::hexEncode s := rfl

theorem length_hexEncode (s : Bytes) : (hexEncode s).length = 2*s.length := by
  induction s with
  | nil => rfl
  | cons u s ih =>
    rw [hexEncode_cons,List.length_cons,List.length_cons,List.length_cons,ih]
    omega

theorem hexDecode_hexEncode (s : Bytes) : hexDecode (hexEncode s) = s := by
  induction s with
  | nil => rfl
  | cons u s ih =>
    obtain ⟨hhigh,hlow⟩ := nibbles_lt u
    rw [hexEncode_cons,hexDecode,hex2i_i2hex hhigh,hex2i_i2hex hlow,nibbles_join,ih]

theorem hexDecode_upper (s : Bytes) : hexDecode ((hexEncode s).map upperHex) = s := by
  induction s with
  | nil => rfl
  | cons u s ih =>
    obtain ⟨hhigh,hlow⟩ := nibbles_lt u
    rw [hexEncode_cons,List.map_cons,List.map_cons,hexDecode,hex2i_upperHex hhigh,hex2i_upperHex hlow,
      nibbles_join,ih]

theorem nul_not_mem_hexEncode (s : Bytes) : 0 ∉ hexEncode s := by
  intro h
  obtain ⟨u,-,hu⟩ := List.mem_flatMap.mp h
  obtain ⟨hhigh,hlow⟩ := nibbles_lt u
  simp only [List.mem_cons,List.not_mem_nil,or_false] at hu
  obtain hu | hu := hu
  · exact i2hex_ne_zero hhigh hu.symm
  · exact i2hex_ne_zero hlow hu.symm

theorem hexEncodeStr_eq (s : Bytes) : hexEncodeStr s = if s.length < 2^30 then some (hexEncode s) else none := by
  rw [hexEncodeStr]
  refine if_congr ?_ rfl rfl
  rw [length_hexEncode]
  by_cases hlen : s.length < 2^30
  · by_cases hpos : 0 < s.length
    · rw [cstrRoom_double hpos hlen]
      omega
    · omega
  · have hroom := cstrRoom_double_lt (not_lt.mp hlen)
    omega

theorem hexDecodeStr_hexEncode (h : s.length < 2^30) : hexDecodeStr (hexEncode s) = some s := by
  rw [hexDecodeStr]
  refine (if_pos ?_).trans (congrArg some (hexDecode_hexEncode s))
  rw [hexDecode_hexEncode,length_hexEncode]
  by_cases hpos : 0 < s.length
  · have hhalf : ((2*s.length : ℕ) : ℤ)/2 = s.length := by omega
    rw [hhalf,cstrRoom_of_lt hpos (by omega)]
    omega
  · omega

/-- What is copied is the text before the NUL, if its size is an `int`. -/
theorem cstrOfChars_eq (h : (cstr d).length+1 < 2^31) : cstrOfChars d = some (cstr d) := by
  have hn : int32 (cstr d).length = (cstr d).length := int32_of_mem ⟨by omega,by omega⟩
  rw [cstrOfChars]
  simp only [hn]
  by_cases hz : cstr d = []
  · rw [hz]
    rfl
  · have hpos := List.length_pos_iff.mpr hz
    have hroom := cstrRoom_of_lt hpos h
    rw [hn] at hroom
    rw [if_neg (by omega),hroom,if_neg (by omega),Int.toNat_natCast,List.take_length]

theorem cstrOfChars_starts (h : cstrOfChars d = some t) : t <+: cstr d := by
  rw [cstrOfChars] at h
  split_ifs at h with hz
  · rw [← Option.some.inj h]
    exact List.nil_prefix
  · rw [← Option.some.inj h]
    exact List.take_prefix _ _

/-- Through both built-ins goes what stands before the NUL, if its code still fits. -/
theorem evalDecode_evalEncode (evp : Evp) (s : Bytes) :
    ((evalEncode evp [s,str "hex"]).bind fun t => evalDecode evp [t,str "hex"]) =
      (cstrOfChars s).bind fun t => if t.length < 2^30 then some t else none := by
  have hhex : isHexArg (str "hex") = true := by decide
  have henc : evalEncode evp [s,str "hex"] = (cstrOfChars s).bind hexEncodeStr := by
    simp [evalEncode,hhex]
  have hdec (t : Bytes) : evalDecode evp [t,str "hex"] = (cstrOfChars t).bind hexDecodeStr := by
    simp [evalDecode,hhex]
  rw [henc,Option.bind_assoc]
  refine Option.bind_congr fun t _ => ?_
  rw [hexEncodeStr_eq]
  split_ifs with hlen
  · have hcode : cstr (hexEncode t) = hexEncode t := cstr_of_nul_free (nul_not_mem_hexEncode t)
    have hchars : cstrOfChars (hexEncode t) = some (hexEncode t) := by
      rw [cstrOfChars_eq (by rw [hcode,length_hexEncode]; omega),hcode]
    rw [Option.bind_some,hdec,hchars,Option.bind_some,hexDecodeStr_hexEncode hlen]
  · rfl

/-- The texts that come back are those with no NUL whose code is no longer than an `int` can say. -/
theorem hexRight_iff (evp : Evp) (s : Bytes) : HexRight evp s ↔ 0 ∉ s ∧ s.length < 2^30 := by
  constructor
  · intro h
    have hfits : s.length < 2^30 := by
      by_contra hlen
      exact h.encode_fits ((hexEncodeStr_eq s).trans (if_neg hlen))
    obtain ⟨t,ht,hback⟩ := Option.bind_eq_some_iff.mp ((evalDecode_evalEncode evp s).symm.trans h.back)
    split_ifs at hback with hlen
    rw [Option.some.inj hback] at ht
    exact ⟨fun hnul => nul_not_mem_cstr s ((cstrOfChars_starts ht).subset hnul),hfits⟩
  · rintro ⟨hnul,hlen⟩
    have hs : cstr s = s := cstr_of_nul_free hnul
    refine ⟨?_,hexDecode_upper s,?_,?_⟩
    · rw [evalDecode_evalEncode,cstrOfChars_eq (by rw [hs]; omega),hs,Option.bind_some,if_pos hlen]
    · rw [hexEncodeStr_eq,if_pos hlen]
      exact Option.some_ne_none _
    · rw [hexDecodeStr_hexEncode hlen]
      exact Option.some_ne_none _

end

/-- A text that begins with a NUL is coded as an empty one. -/
theorem not_hexRight : ¬∀ (evp : Evp) (s : Bytes), HexRight evp s := by
  intro h
  have hback := (h evpBlocks [0,97]).back
  have hnil : cstrOfChars [0,97] = some [] := cstrOfChars_eq (by decide)
  rw [evalDecode_evalEncode,hnil] at hback
  cases hback

end Smx
