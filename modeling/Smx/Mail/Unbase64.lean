import Smx.Strings.B64

/-! `base64` with its table and its NUL, and `base64_decode`. -/
namespace Smx

/-- `pm[c]`; `none` is a place outside of the table. -/
def encodeAt (c : Byte) : Option Byte := encodeMap[c.toNat]?

/-- What `base64` writes, the NUL behind it included. -/
def base64Buf : Bytes → Option Bytes
  | [] => some [0]
  | [a] => do
    let x ← encodeAt (a >>> 2)
    let y ← encodeAt (a <<< 4 &&& 48)
    some [x,y,ch '=',ch '=',0]
  | [a,b] => do
    let x ← encodeAt (a >>> 2)
    let y ← encodeAt (midAB a b)
    let z ← encodeAt (b <<< 2 &&& 60)
    some [x,y,z,ch '=',0]
  | a::b::c::s => do
    let w ← encodeAt (a >>> 2)
    let x ← encodeAt (midAB a b)
    let y ← encodeAt (midBC b c)
    let z ← encodeAt (c &&& 63)
    (base64Buf s).map fun t => w::x::y::z::t

/-- `decode_map`, as it is filled the first time. -/
def decodeMap : List ℕ :=
  (List.range 64).foldl (fun m i => m.set (encodeMap.getD i 0).toNat i) (List.replicate 255 0)

/-- `decode_map[str[i]]`, where a `char` from 128 on is negative. -/
def decodeAt (c : Byte) : Option ℕ := if c < 128 then decodeMap[c.toNat]? else none

/-- The bytes of a group that are put into the buffer. -/
def putOctets (v : ℕ) : Bytes :=
  (if v &&& 0xFF0000 ≠ 0 then [UInt8.ofNat ((v &&& 0xFF0000) >>> 16)] else []) ++
  (if v &&& 0xFF00 ≠ 0 then [UInt8.ofNat ((v &&& 0xFF00) >>> 8)] else []) ++
  if v &&& 0xFF ≠ 0 then [UInt8.ofNat (v &&& 0xFF)] else []

/-- The loop of `base64_decode`, from the place `i` on; `none` where the `int` cannot say the place, or a
place outside of the table is read. -/
def decodeLoop : Bytes → ℕ → ℕ → ℕ → Option Bytes
  | [],i,_,_ => if i < 2^31 then some [] else none
  | c::str,i,v,j =>
    if i < 2^31 then
      if c = 0 then some []
      else
        (decodeAt c).bind fun d =>
          let v := v + d <<< ((3-j)*6)
          if j+1 = 4 then (decodeLoop str (i+1) 0 0).map (putOctets v ++ ·) else decodeLoop str (i+1) v (j+1)
    else none

/-- `base64_decode`. -/
def base64Decode (str : Bytes) : Option Bytes := decodeLoop str 0 0 0

section
variable {s t : Bytes} {i v : ℕ}

theorem encodeAt_of_lt {c : Byte} (h : c < 64) : encodeAt c = some (mapAt c) := by
  have hlt : c.toNat < encodeMap.length := UInt8.lt_iff_toNat_lt.mp h
  rw [encodeAt,mapAt,List.getElem?_eq_getElem hlt,List.getD_eq_getElem _ _ hlt]

theorem midAB_zero (a : Byte) : midAB a 0 = a <<< 4 &&& 48 := by simp [midAB]

theorem midBC_zero (b : Byte) : midBC b 0 = b <<< 2 &&& 60 := by simp [midBC]

/-- No place outside of the table is read, and the text and a NUL are written. -/
theorem base64Buf_eq (s : Bytes) : base64Buf s = some (base64 s ++ [0]) := by
  fun_induction base64 s with
  | case1 => rfl
  | case2 a =>
    have hmid := midAB_lt a 0
    rw [midAB_zero] at hmid ⊢
    simp [base64Buf,encodeAt_of_lt (bits_lt a).1,encodeAt_of_lt hmid]
  | case3 a b =>
    have hmid := midBC_lt b 0
    rw [midBC_zero] at hmid ⊢
    simp [base64Buf,encodeAt_of_lt (bits_lt a).1,encodeAt_of_lt (midAB_lt a b),encodeAt_of_lt hmid]
  | case4 a b c rest ih =>
    simp [base64Buf,encodeAt_of_lt (bits_lt a).1,encodeAt_of_lt (midAB_lt a b),encodeAt_of_lt (midBC_lt b c),
      encodeAt_of_lt (bits_lt c).2,ih]

/-- Bits that are shifted up, and a mask that is shifted with them. -/
theorem shiftLeft_mod_and (x : ℕ) {k m : ℕ} (h : k+m ≤ 8) :
    (x <<< k % 2^8) &&& ((2^m-1) <<< k) = (x % 2^m) <<< k := by
  apply Nat.eq_of_testBit_eq
  intro i
  simp only [Nat.testBit_and,Nat.testBit_mod_two_pow,Nat.testBit_shiftLeft,Nat.testBit_two_pow_sub_one]
  grind

theorem toNat_shl (a : Byte) :
    (a <<< 4 &&& (48 : Byte)).toNat = a.toNat % 4*16 ∧ (a <<< 2 &&& (60 : Byte)).toNat = a.toNat % 16*4 := by
  have h4 := shiftLeft_mod_and a.toNat (k := 4) (m := 2) (by decide)
  have h2 := shiftLeft_mod_and a.toNat (k := 2) (m := 4) (by decide)
  rw [UInt8.toNat_and,UInt8.toNat_and,UInt8.toNat_shiftLeft,UInt8.toNat_shiftLeft]
  rw [Nat.shiftLeft_eq (a.toNat % _)] at h4 h2
  exact ⟨h4,h2⟩

theorem toNat_shr (a : Byte) : (a >>> 4 &&& (15 : Byte)).toNat = a.toNat/16 ∧
    (a >>> 6 &&& (3 : Byte)).toNat = a.toNat/64 ∧ (a >>> 2).toNat = a.toNat/4 ∧ (a &&& 63).toNat = a.toNat % 64 := by
  have h := a.toNat_lt
  have h15 : a.toNat/16 &&& 15 = a.toNat/16 % 2^4 := Nat.and_two_pow_sub_one_eq_mod _ 4
  have h3 : a.toNat/64 &&& 3 = a.toNat/64 % 2^2 := Nat.and_two_pow_sub_one_eq_mod _ 2
  have h63 : a.toNat &&& 63 = a.toNat % 2^6 := Nat.and_two_pow_sub_one_eq_mod _ 6
  simp only [UInt8.toNat_and,UInt8.toNat_shiftRight,Nat.shiftRight_eq_div_pow]
  refine ⟨?_,?_,rfl,h63⟩
  · exact h15.trans (Nat.mod_eq_of_lt (by omega))
  · exact h3.trans (Nat.mod_eq_of_lt (by omega))

theorem toNat_mid (a b : Byte) : (midAB a b).toNat = a.toNat % 4*16+b.toNat/16 ∧
    (midBC a b).toNat = a.toNat % 16*4+b.toNat/64 := by
  have hb := b.toNat_lt
  rw [midAB,midBC,UInt8.toNat_or,UInt8.toNat_or,(toNat_shl a).1,(toNat_shl a).2,(toNat_shr b).1,(toNat_shr b).2.1,
    Nat.mul_comm _ 16,Nat.mul_comm _ 4]
  exact ⟨(Nat.two_pow_add_eq_or_of_lt (i := 4) (by omega) _).symm,
    (Nat.two_pow_add_eq_or_of_lt (i := 2) (by omega) _).symm⟩

/-- `base64` writes the sextets of its bytes. -/
theorem base64_eq (s : Bytes) : base64 s = Sextet.encode b64Char (ch '=') s := by
  have hmap (c : Byte) : mapAt c = b64Char c.toNat := rfl
  fun_induction base64 s with
  | case1 => rfl
  | case2 a =>
    have hmid := (toNat_mid a 0).1
    simp only [hmap,(toNat_shr a).2.2.1,hmid]
    rfl
  | case3 a b =>
    have hmid := (toNat_mid b 0).2
    simp only [hmap,(toNat_shr a).2.2.1,(toNat_mid a b).1,hmid]
    rfl
  | case4 a b c rest ih =>
    simp only [hmap,(toNat_shr a).2.2.1,(toNat_mid a b).1,(toNat_mid b c).2,(toNat_shr c).2.2.2,ih]
    rfl

/-- The bits of a mask that stands `k` bits up. -/
theorem and_mask (v k : ℕ) : (v &&& (2^8-1) <<< k) >>> k = v/2^k % 2^8 ∧
    (v &&& (2^8-1) <<< k = 0 ↔ (v &&& (2^8-1) <<< k) >>> k = 0) := by
  have hshift : (v &&& (2^8-1) <<< k) >>> k = v/2^k % 2^8 := by
    rw [Nat.shiftRight_and_distrib,Nat.shiftLeft_shiftRight,Nat.shiftRight_eq_div_pow,Nat.and_two_pow_sub_one_eq_mod]
  have hlow : (v &&& (2^8-1) <<< k) % 2^k = 0 := by
    rw [Nat.and_mod_two_pow,Nat.shiftLeft_eq,Nat.mul_mod_left,Nat.and_zero]
  refine ⟨hshift,?_⟩
  rw [Nat.shiftRight_eq_div_pow]
  constructor
  · intro h
    rw [h,Nat.zero_div]
  · intro h
    have hdiv := Nat.div_add_mod (v &&& (2^8-1) <<< k) (2^k)
    rw [h,hlow] at hdiv
    omega

theorem filter_octet (n : ℕ) :
    [UInt8.ofNat n].filter (· ≠ 0) = if n % 2^8 ≠ 0 then [UInt8.ofNat (n % 2^8)] else [] := by
  have hmod : UInt8.ofNat (n % 2^8) = UInt8.ofNat n := by
    apply UInt8.toNat_inj.mp
    rw [UInt8.toNat_ofNat',UInt8.toNat_ofNat',Nat.mod_mod]
  have hzero : UInt8.ofNat n = 0 ↔ n % 2^8 = 0 := by
    rw [← UInt8.toNat_inj,UInt8.toNat_ofNat']
    rfl
  rw [hmod]
  by_cases h : n % 2^8 = 0
  · rw [if_neg (not_not.mpr h)]
    simp [hzero.mpr h]
  · rw [if_pos h]
    simp [mt hzero.mp h]

/-- The octets that are not zero are put into the buffer. -/
theorem putOctets_eq (v : ℕ) : putOctets v = (Sextet.octets v).filter (· ≠ 0) := by
  obtain ⟨h16,hz16⟩ := and_mask v 16
  obtain ⟨h8,hz8⟩ := and_mask v 8
  obtain ⟨h0,hz0⟩ := and_mask v 0
  have hsplit : Sextet.octets v = [UInt8.ofNat (v/2^16)] ++ [UInt8.ofNat (v/2^8)] ++ [UInt8.ofNat (v/2^0)] := by
    simp [Sextet.octets]
  rw [hsplit,List.filter_append,List.filter_append,filter_octet,filter_octet,filter_octet,putOctets]
  congr 1
  · congr 1
    · rw [← h16]
      exact if_congr (not_congr hz16) rfl rfl
    · rw [← h8]
      exact if_congr (not_congr hz8) rfl rfl
  · rw [← h0]
    exact if_congr (not_congr hz0) rfl rfl

/-- A table that is filled place by place. -/
theorem getElem?_fill {f : ℕ → ℕ} {m : List ℕ} {k n : ℕ} (hlen : m.length = n) (hf : ∀ j < k, f j < n)
    (hinj : ∀ j < k, ∀ l < k, f j = f l → j = l) :
    ((List.range k).foldl (fun m j => m.set (f j) j) m).length = n ∧
    (∀ j < k, ((List.range k).foldl (fun m j => m.set (f j) j) m)[f j]? = some j) ∧
    ∀ p, (∀ j < k, f j ≠ p) → ((List.range k).foldl (fun m j => m.set (f j) j) m)[p]? = m[p]? := by
  induction k with
  | zero => exact ⟨hlen,nofun,fun _ _ => rfl⟩
  | succ k ih =>
    obtain ⟨hn,hset,hrest⟩ := ih (fun j hj => hf j (by omega))
      fun j hj l hl => hinj j (by omega) l (by omega)
    rw [List.range_succ,List.foldl_append,List.foldl_cons,List.foldl_nil]
    refine ⟨(List.length_set ..).trans hn,fun j hj => ?_,fun p hp => ?_⟩
    · by_cases hjk : j = k
      · rw [hjk,List.getElem?_set_self (by rw [hn]; exact hf k (by omega))]
      · have hne : f k ≠ f j := fun h => hjk (hinj j hj k (by omega) h.symm)
        rw [List.getElem?_set_ne hne]
        exact hset j (by omega)
    · rw [List.getElem?_set_ne (hp k (by omega))]
      exact hrest p fun j hj => hp j (by omega)

theorem encodeMap_ascii : ∀ c ∈ encodeMap, c < 128 := by
  have h : (encodeMap.all fun c => decide (c < 128)) = true := rfl
  simpa using h

theorem b64Char_inj {j k : ℕ} (hj : j < 64) (hk : k < 64) (h : b64Char j = b64Char k) : j = k := by
  rw [← b64Val_b64Char hj,h,b64Val_b64Char hk]

theorem decodeMap_fill : (∀ j < 64, decodeMap[(b64Char j).toNat]? = some j) ∧
    ∀ p, (∀ j < 64, (b64Char j).toNat ≠ p) → decodeMap[p]? = (List.replicate 255 0)[p]? :=
  (getElem?_fill List.length_replicate
    (fun j hj => (UInt8.lt_iff_toNat_lt.mp (encodeMap_ascii _ (b64Char_mem hj))).trans (by decide))
    fun j hj k hk h => b64Char_inj hj hk (UInt8.toNat_inj.mp h)).2

/-- The table gives the value of each character of the alphabet, and zero for the padding. -/
theorem decodeAt_eq {c : Byte} (h : c ∈ encodeMap ∨ c = ch '=') : decodeAt c = some (b64Val c) := by
  obtain h | rfl := h
  · obtain ⟨j,hj,rfl⟩ := List.getElem_of_mem h
    have hchar : encodeMap[j] = b64Char j := (List.getD_eq_getElem _ _ hj).symm
    rw [decodeAt,if_pos (encodeMap_ascii _ h),hchar,decodeMap_fill.1 j hj,b64Val_b64Char hj]
  · have hpad : decodeMap[(ch '=').toNat]? = (List.replicate 255 0)[(ch '=').toNat]? :=
      decodeMap_fill.2 _ fun j hj h => ne_pad_of_mem (b64Char_mem hj) (UInt8.toNat_inj.mp h)
    rw [decodeAt,if_pos (by decide),hpad]
    rfl

/-- The characters of a base64 text. -/
def Base64Char (c : Byte) : Prop := c ∈ encodeMap ∨ c = ch '='

theorem Base64Char.ne_zero {c : Byte} (h : Base64Char c) : c ≠ 0 := by
  have hall : (encodeMap.all fun c => c != 0) = true := rfl
  obtain h | rfl := h
  · simpa using List.all_eq_true.mp hall c h
  · decide

theorem base64_chars (s : Bytes) : ∀ c ∈ base64 s, Base64Char c := by
  obtain ⟨body,heq,hbody⟩ := Sextet.encode_eq b64Char (ch '=') s
  rw [base64_eq,heq]
  intro c hc
  obtain hc | hc := List.mem_append.mp hc
  · obtain ⟨j,hj,rfl⟩ := hbody c hc
    exact .inl (b64Char_mem hj)
  · exact .inr (List.eq_of_mem_replicate hc)

/-- One turn for a character that does not end its group, and one for the character that does. -/
theorem decodeLoop_cons {c : Byte} (hi : i < 2^31) (hc : Base64Char c) (str : Bytes) (v j : ℕ) :
    decodeLoop (c::str) i v j = if j+1 = 4 then
      (decodeLoop str (i+1) 0 0).map (putOctets (v + b64Val c <<< ((3-j)*6)) ++ ·)
    else decodeLoop str (i+1) (v + b64Val c <<< ((3-j)*6)) (j+1) := by
  rw [decodeLoop,if_pos hi,if_neg hc.ne_zero,decodeAt_eq hc,Option.bind_some]

/-- Text in whole groups is read as the octets it stands for, the zeros left out. -/
theorem decodeLoop_eq (h4 : 4 ∣ t.length) (ht : ∀ c ∈ t, Base64Char c) (hi : i+t.length < 2^31) :
    decodeLoop t i 0 0 = some ((Sextet.decode b64Val t).filter (· ≠ 0)) := by
  fun_induction Sextet.decode b64Val t generalizing i with
  | case1 w x y z t ih =>
    simp only [List.forall_mem_cons] at ht
    obtain ⟨hw,hx,hy,hz,ht⟩ := ht
    simp only [List.length_cons] at h4 hi
    have hjoin : 0 + b64Val w <<< ((3-0)*6) + b64Val x <<< ((3-1)*6) + b64Val y <<< ((3-2)*6) +
        b64Val z <<< ((3-3)*6) = Sextet.join (b64Val w) (b64Val x) (b64Val y) (b64Val z) := by
      simp only [Nat.shiftLeft_eq,Sextet.join]
      omega
    rw [decodeLoop_cons (by omega) hw,if_neg (by decide),decodeLoop_cons (by omega) hx,if_neg (by decide),
      decodeLoop_cons (by omega) hy,if_neg (by decide),decodeLoop_cons (by omega) hz,if_pos rfl,
      ih (by omega) ht (by omega),hjoin,putOctets_eq,List.filter_append]
    rfl
  | case2 t h =>
    obtain _ | ⟨w,_ | ⟨x,_ | ⟨y,_ | ⟨z,t⟩⟩⟩⟩ := t
    · simp_all [decodeLoop]
    · simp at h4
    · simp at h4
    · simp at h4
    · exact absurd rfl (h w x y z t)

/-- A text that is too long for an `int` is not read to its end. -/
theorem decodeLoop_long (ht : 0 ∉ t) (hlong : 2^31 ≤ i+t.length) (v j : ℕ) : decodeLoop t i v j = none := by
  induction t generalizing i v j with
  | nil => exact if_neg (not_lt.mpr hlong)
  | cons c t ih =>
    have hc : c ≠ 0 := fun h => ht (by rw [h]; exact List.mem_cons_self)
    have hrest (v j : ℕ) : decodeLoop t (i+1) v j = none :=
      ih (fun h => ht (List.mem_cons_of_mem c h)) (by rw [List.length_cons] at hlong; omega) v j
    rw [decodeLoop,if_neg hc]
    by_cases hi : i < 2^31
    · rw [if_pos hi]
      refine Option.bind_eq_none_iff.mpr fun d _ => ?_
      simp only [hrest,Option.map_none,ite_self]
    · exact if_neg hi

theorem length_base64 (s : Bytes) : (base64 s).length = 4*((s.length+2)/3) := by
  rw [base64_eq,Sextet.length_encode]

theorem base64Decode_base64_iff (hnul : 0 ∉ s) :
    base64Decode (base64 s) = some s ↔ 4*((s.length+2)/3) < 2^31 := by
  have hlen := length_base64 s
  constructor
  · intro h
    by_contra hlong
    have hne : 0 ∉ base64 s := fun h => (base64_chars s 0 h).ne_zero rfl
    have hnone := decodeLoop_long (i := 0) hne (by omega) 0 0
    rw [base64Decode,hnone] at h
    cases h
  · intro hshort
    rw [base64Decode,decodeLoop_eq ⟨_,hlen⟩ (base64_chars s) (by omega),base64_eq,
      Sextet.decode_encode (fun j hj => b64Val_b64Char hj) (if_pos rfl),List.filter_append]
    have hself : s.filter (· ≠ 0) = s := by
      refine List.filter_eq_self.mpr fun c hc => ?_
      simpa using ne_of_mem_of_not_mem hc hnul
    rw [hself]
    simp

/-- `base64` writes the text of the bytes and a NUL, and `base64_decode` reads it back as long as an `int`
can say its places. -/
theorem base64_roundtrip (s : Bytes) : base64Buf s = some (base64 s ++ [0]) ∧
    (base64 s).length = 4*((s.length+2)/3) ∧ (∀ c ∈ base64 s, c ∈ encodeMap ∨ c = ch '=') ∧
    (0 ∉ s → (base64Decode (base64 s) = some s ↔ 4*((s.length+2)/3) < 2^31)) :=
  ⟨base64Buf_eq s,length_base64 s,base64_chars s,base64Decode_base64_iff⟩

end

theorem base64_roundtrip_abcd : base64Decode (base64 (str "abcd")) = some (str "abcd") :=
  ((base64_roundtrip (str "abcd")).2.2.2 (by decide)).mpr (by decide)

theorem base64Decode_replicate {n : ℕ} (h : 2^31 ≤ 4*((n+2)/3)) : ∃ s : Bytes, 0 ∉ s ∧
    base64Decode (base64 s) ≠ some s := by
  refine ⟨List.replicate n 97,by simp,fun hback => ?_⟩
  have hshort := (base64Decode_base64_iff (by simp)).mp hback
  rw [List.length_replicate] at hshort
  omega

/-- The text of 1610612736 bytes has one character more than an `int` can say. -/
theorem not_base64_roundtrip : ¬∀ s : Bytes, 0 ∉ s → base64Decode (base64 s) = some s := by
  intro h
  obtain ⟨s,hnul,hne⟩ := base64Decode_replicate (n := 1610612736) (by norm_num)
  exact hne (h s hnul)

end Smx
