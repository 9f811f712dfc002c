import Smx.Base.Number
import Smx.Lib.Sextet
import Smx.Mail.Base64

/-! `B64_encode` and `B64_decode`, on the base64 blocks of a cipher library. -/
namespace Smx

/-- How many bytes `CStr(int n)` has for its text and the NUL, none if `n` or `n+1` is not above zero. -/
def cstrRoom (n : ℤ) : ℕ := if 0 < n then (int32 (n+1)).toNat else 0

/-- The functions of the library: the text that `EVP_EncodeBlock` writes in front of its NUL, and what
`EVP_DecodeBlock` writes, if it does not return -1. -/
structure Evp where
  encodeBlock : Bytes → Bytes
  decodeBlock : Bytes → Option Bytes

/-- The character of six bits by number. -/
def b64Char (i : ℕ) : Byte := encodeMap.getD i 0

/-- The six bits of a character, zero for padding. -/
def b64Val (c : Byte) : ℕ := if c = ch '=' then 0 else encodeMap.idxOf c

/-- What the library documents: three bytes become four characters, padded at the end, and each four
characters of such a text become three bytes. -/
structure Evp.Documented (evp : Evp) : Prop where
  encode : ∀ s, evp.encodeBlock s = Sextet.encode b64Char (ch '=') s
  decode : ∀ (body : Bytes) (p : ℕ), (∀ c ∈ body, c ∈ encodeMap) → p < 3 → 4 ∣ body.length+p →
    evp.decodeBlock (body ++ List.replicate p (ch '=')) =
      some (Sextet.decode b64Val (body ++ List.replicate p (ch '=')))

/-- `B64_encode(CStr)`; `none` where the block is written outside of the buffer. -/
def b64Encode (evp : Evp) (strin : Bytes) : Option Bytes :=
  if strin = [] then some strin
  else
    let text := evp.encodeBlock strin
    if text.length+1 ≤ cstrRoom (int32 (strin.length*2)) then some text else none

/-- What `B64_decode` reads: padding is put back. -/
def altin (strin : Bytes) : Bytes :=
  if strin.length % 4 = 3 ∨ strin.length % 4 = 2 then
    let padded := strin ++ [ch '=']
    if strin.length % 4 = 2 then padded ++ [ch '='] else padded
  else strin

/-- The length that is left when the padding is taken off. -/
def unpadded (strin : Bytes) (len : ℕ) : ℕ :=
  if strin ≠ [] ∧ 0 < len then
    if strin.getD (strin.length-1) 0 = ch '=' then
      if strin.getD (strin.length-2) 0 = ch '=' then len-2 else len-1
    else len
  else len

/-- `B64_decode(CStr)`. -/
def b64Decode (evp : Evp) (strin : Bytes) : Option Bytes :=
  if strin = [] then some strin
  else
    let text := altin strin
    match evp.decodeBlock text with
    | none => some []
    | some out =>
      if out.length ≤ cstrRoom (int32 strin.length) then some (out.take (unpadded text out.length)) else none

/-- A text comes back, also when its padding has been stripped, and nothing is written outside of a
buffer. -/
def B64Right (evp : Evp) (s : Bytes) : Prop := ∃ t, b64Encode evp s = some t ∧ b64Decode evp t = some s ∧
  b64Decode evp (t.rdropWhile (· == ch '=')) = some s

section
variable {evp : Evp} {s body : Bytes} {p : ℕ}

theorem b64Char_mem {i : ℕ} (hi : i < 64) : b64Char i ∈ encodeMap := by
  rw [b64Char,List.getD_eq_getElem _ _ hi]
  exact List.getElem_mem hi

theorem b64Char_eq {i : ℕ} (hi : i < 64) : b64Char i = mapAt (UInt8.ofNat i) := by
  rw [b64Char,mapAt,UInt8.toNat_ofNat_of_lt' (hi.trans (by decide))]

theorem ofNat_lt {i : ℕ} (hi : i < 64) : UInt8.ofNat i < 64 := by
  rw [UInt8.lt_iff_toNat_lt,UInt8.toNat_ofNat_of_lt' (hi.trans (by decide))]
  exact hi

theorem ne_pad_of_mem {c : Byte} (h : c ∈ encodeMap) : c ≠ ch '=' := by
  obtain ⟨i,hi,rfl⟩ := List.getElem_of_mem h
  have hplain := (mapAt_plain (UInt8.ofNat i) (ofNat_lt hi)).1
  rw [← b64Char_eq hi,b64Char,List.getD_eq_getElem _ _ hi] at hplain
  exact hplain

theorem b64Val_b64Char {i : ℕ} (hi : i < 64) : b64Val (b64Char i) = i := by
  have hmem := b64Char_mem hi
  have hidx : encodeMap.idxOf (b64Char i) < 64 := List.idxOf_lt_length_iff.mpr hmem
  have hbits := bitsOf_mapAt (UInt8.ofNat i) (ofNat_lt hi)
  rw [← b64Char_eq hi,bitsOf] at hbits
  have hnat := congrArg UInt8.toNat hbits
  rw [UInt8.toNat_ofNat_of_lt' (hidx.trans (by decide)),UInt8.toNat_ofNat_of_lt' (hi.trans (by decide))] at hnat
  rw [b64Val,if_neg (ne_pad_of_mem hmem),hnat]

theorem cstrRoom_of_lt {n : ℕ} (h0 : 0 < n) (h : n+1 < 2^31) : cstrRoom (int32 n) = n+1 := by
  have hn : int32 n = n := int32_of_mem ⟨by omega,by omega⟩
  have hnext : int32 ((n : ℤ)+1) = n+1 := int32_of_mem ⟨by omega,by omega⟩
  rw [cstrRoom,hn,if_pos (by omega),hnext]
  omega

theorem cstrRoom_double {n : ℕ} (h0 : 0 < n) (h : n < 2^30) : cstrRoom (int32 (n*2)) = n*2+1 := by
  have hroom := cstrRoom_of_lt (n := n*2) (by omega) (by omega)
  push_cast at hroom
  exact hroom

/-- Twice as many bytes as are no `int`: the buffer is smaller than the text itself. -/
theorem cstrRoom_double_lt {n : ℕ} (h : 2^30 ≤ n) : cstrRoom (int32 (n*2)) < n := by
  have hmem := int32_mem (int32 (n*2)+1)
  by_cases hbig : n < 2^31
  · have hneg : int32 (n*2) = n*2-2^32 := by
      rw [int32,Int.bmod_def,Int.emod_eq_of_lt (by omega) (by omega)]
      split_ifs <;> omega
    rw [hneg,cstrRoom,if_neg (by omega)]
    omega
  · rw [cstrRoom]
    split_ifs <;> omega

/-- The text of `n` bytes fits into twice as many. -/
theorem encode_fits_iff {n : ℕ} (h0 : 0 < n) :
    4*((n+2)/3)+1 ≤ cstrRoom (int32 (n*2)) ↔ 2 ≤ n ∧ n < 2^30 := by
  by_cases hn : n < 2^30
  · rw [cstrRoom_double h0 hn]
    omega
  · have hroom := cstrRoom_double_lt (not_lt.mp hn)
    omega

/-- Put back is what has been stripped. -/
theorem altin_eq (hp : p < 3) (h4 : 4 ∣ body.length+p) : altin body = body ++ List.replicate p (ch '=') := by
  obtain rfl | rfl | rfl : p = 0 ∨ p = 1 ∨ p = 2 := by omega
  · have hmod : ¬(body.length % 4 = 3 ∨ body.length % 4 = 2) := by omega
    rw [altin,if_neg hmod]
    simp
  · have hmod : body.length % 4 = 3 := by omega
    simp [altin,hmod]
  · have hmod : body.length % 4 = 2 := by omega
    simp [altin,hmod]

theorem altin_of_dvd (h : 4 ∣ s.length) : altin s = s := by
  have hmod : ¬(s.length % 4 = 3 ∨ s.length % 4 = 2) := by omega
  rw [altin,if_neg hmod]

/-- As many bytes are taken off as there is padding. -/
theorem unpadded_eq (hbody : ∀ c ∈ body, c ∈ encodeMap) (hne : body ≠ []) (hp : p < 3) (len : ℕ) :
    unpadded (body ++ List.replicate p (ch '=')) len = len-p := by
  obtain ⟨init,c,rfl⟩ := (List.eq_nil_or_concat body).resolve_left hne
  have hc : c ≠ ch '=' := ne_pad_of_mem (hbody c (by simp))
  rw [unpadded]
  by_cases hlen : 0 < len
  · obtain rfl | rfl | rfl : p = 0 ∨ p = 1 ∨ p = 2 := by omega
    · simp [hlen,hc]
    · have hback : init.length+1+1-2 = init.length := by omega
      simp [hlen,hc,hback]
    · have hback : init.length+1+2-2 = init.length+1 := by omega
      simp [hlen,hback,List.replicate]
  · simp [hlen]
    omega

theorem strip_pads (hbody : ∀ c ∈ body, c ∈ encodeMap) (p : ℕ) :
    (body ++ List.replicate p (ch '=')).rdropWhile (· == ch '=') = body := by
  have hself : body.reverse.dropWhile (· == ch '=') = body.reverse := by
    apply List.dropWhile_eq_self_iff.mpr
    intro h heq
    exact ne_pad_of_mem (hbody _ (List.mem_reverse.mp (List.getElem_mem h))) (by simpa using heq)
  rw [List.rdropWhile,List.reverse_append,List.reverse_replicate,List.dropWhile_append_of_pos (by simp),hself,
    List.reverse_reverse]

/-- `B64_decode` gives the bytes back that a text was made of. -/
theorem b64Decode_eq (hevp : evp.Documented) (hbody : ∀ c ∈ body, c ∈ encodeMap) (hne : body ≠ []) (hp : p < 3)
    (h4 : 4 ∣ body.length+p) (hlen : body.length+p+1 < 2^31)
    (hdec : Sextet.decode b64Val (body ++ List.replicate p (ch '=')) = s ++ List.replicate p 0) {t : Bytes}
    (ht : t = body ++ List.replicate p (ch '=') ∨ t = body) : b64Decode evp t = some s := by
  have htne : t ≠ [] := by
    obtain rfl | rfl := ht
    · exact List.append_ne_nil_of_left_ne_nil hne _
    · exact hne
  have hread : altin t = body ++ List.replicate p (ch '=') := by
    obtain rfl | rfl := ht
    · exact altin_of_dvd (by simpa using h4)
    · exact altin_eq hp h4
  have htlen : body.length ≤ t.length ∧ t.length ≤ body.length+p := by
    obtain rfl | rfl := ht <;> simp
  have hroom := cstrRoom_of_lt (n := t.length) (List.length_pos_iff.mpr htne) (by omega)
  have hout : s.length+p = 3*((body.length+p)/4) := by
    have h := congrArg List.length hdec
    simpa using h.symm
  have hfits : s.length+p ≤ t.length+1 := by omega
  rw [b64Decode,if_neg htne]
  simp only [hread,hevp.decode body p hbody hp h4,hdec,List.length_append,List.length_replicate,hroom,if_pos hfits,
    unpadded_eq hbody hne hp,Nat.add_sub_cancel,List.take_left]

/-- The bytes come back if there are at least two of them, and not so many that the size is no `int`. -/
theorem b64Right_iff (hevp : evp.Documented) (hne : s ≠ []) : B64Right evp s ↔ 2 ≤ s.length ∧ s.length < 2^30 := by
  have hpos := List.length_pos_iff.mpr hne
  have hfits := encode_fits_iff hpos
  have henc : b64Encode evp s = if 2 ≤ s.length ∧ s.length < 2^30 then
      some (Sextet.encode b64Char (ch '=') s) else none := by
    rw [b64Encode,if_neg hne,hevp.encode]
    simp only [Sextet.length_encode]
    exact if_congr hfits rfl rfl
  constructor
  · rintro ⟨t,ht,-⟩
    rw [henc] at ht
    split_ifs at ht with h
    exact h
  · intro h
    obtain ⟨body,heq,hmem⟩ := Sextet.encode_eq b64Char (ch '=') s
    have hp := Sextet.pads_lt s.length
    have hbody : ∀ c ∈ body, c ∈ encodeMap := by
      intro c hc
      obtain ⟨i,hi,rfl⟩ := hmem c hc
      exact b64Char_mem hi
    have hlen : body.length+Sextet.pads s.length = 4*((s.length+2)/3) := by
      have hcount := congrArg List.length heq
      simpa using hcount.symm
    have hbne : body ≠ [] := by
      intro hnil
      rw [hnil,List.length_nil] at hlen
      omega
    have hdec := Sextet.decode_encode (fun i hi => b64Val_b64Char hi) (if_pos rfl) s
    rw [heq] at hdec
    have hback (t : Bytes) := b64Decode_eq (t := t) hevp hbody hbne hp ⟨_,hlen⟩ (by omega) hdec
    refine ⟨_,henc.trans (if_pos h),hback _ (.inl heq),?_⟩
    rw [heq,strip_pads hbody]
    exact hback _ (.inr rfl)

end

/-- The library functions as they are documented, on whole texts. -/
def evpBlocks : Evp where
  encodeBlock := Sextet.encode b64Char (ch '=')
  decodeBlock t := if 4 ∣ t.length then some (Sextet.decode b64Val t) else none

theorem evpBlocks_documented : evpBlocks.Documented where
  encode _ := rfl
  decode body p _ _ h := by
    rw [evpBlocks]
    exact if_pos (by simpa using h)

theorem b64Right_two : B64Right evpBlocks [0,255] :=
  (b64Right_iff evpBlocks_documented (List.cons_ne_nil _ _)).mpr (by decide)

/-- The five bytes for a text of one byte do not fit into its three. -/
theorem not_b64Right : ¬∀ (evp : Evp) (s : Bytes), evp.Documented → s ≠ [] → B64Right evp s := by
  intro h
  obtain ⟨t,ht,-⟩ := h evpBlocks [97] evpBlocks_documented (List.cons_ne_nil _ _)
  have hnone : b64Encode evpBlocks [97] = none := rfl
  rw [hnone] at ht
  cases ht

end Smx
