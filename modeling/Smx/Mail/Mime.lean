import Smx.Mail.Parts
import Smx.Mail.Unbase64

/-! `mime64` with its buffer, on a whole file and on the chunks that are read of it. -/
namespace Smx

/-- What `mime64` allocates for `len` bytes: `rlen`, and two more. -/
def mimeSize (len : ℕ) : ℕ :=
  let rlen := 4*((len-len % 3)/3 + if len % 3 ≠ 0 then 1 else 0)
  let rlen := rlen+2*(1+len/48)
  rlen+1+2

/-- The bytes that there are, none when the size is no `int`. -/
def mimeAlloc (len : ℕ) : ℕ := (int32 (mimeSize len)).toNat

/-- The loop and what follows it, from `po` on; the NUL that `base64` writes is overwritten by the line end.
`none` where something is written outside of the buffer. -/
def mimeLoop (room : ℕ) (str : Bytes) (po : ℕ) : Option Bytes :=
  if 48 < str.length then
    if po+66 ≤ room then (mimeLoop room (str.drop 48) (po+66)).map (base64 (str.take 48) ++ CRLF ++ ·) else none
  else
    let last := if 0 < str.length then base64 str ++ CRLF else []
    if po+last.length+1 ≤ room then some last else none
termination_by str.length
decreasing_by
  rw [List.length_drop]
  omega

/-- `mime64`, which takes the length as an `int`. -/
def mime64Buf (str : Bytes) : Option Bytes :=
  if str.length < 2^31 then mimeLoop (mimeAlloc str.length) str 0 else none

/-- A file as `fread` gives it, chunk by chunk. -/
def fileChunks (s : Bytes) : List Bytes :=
  if s = [] then [] else s.take Q_CHUNK::fileChunks (s.drop Q_CHUNK)
termination_by s.length
decreasing_by
  have hpos := List.length_pos_iff.mpr ‹_›
  have hchunk : Q_CHUNK = 6144 := rfl
  rw [List.length_drop]
  omega

/-- The lines of a text in base64, without their ends. -/
def mimeLines (s : Bytes) : List Bytes :=
  if 48 < s.length then base64 (s.take 48)::mimeLines (s.drop 48) else if s = [] then [] else [base64 s]
termination_by s.length
decreasing_by
  rw [List.length_drop]
  omega

section
variable {s : Bytes} {room po : ℕ}

theorem length_mime64 (s : Bytes) : (mime64 s).length = 4*((s.length+2)/3)+2*((s.length+47)/48) := by
  fun_induction mime64 s with
  | case1 s hlen ih =>
    have htake : (s.take 48).length = 48 := List.length_take_of_le hlen.le
    rw [List.length_append,List.length_append,ih,length_base64,htake,List.length_drop]
    have hcrlf : CRLF.length = 2 := rfl
    omega
  | case2 => rfl
  | case3 s hlen hne =>
    have hpos := List.length_pos_iff.mpr hne
    have hcrlf : CRLF.length = 2 := rfl
    rw [List.length_append,length_base64]
    omega

theorem length_line (h : 48 < s.length) : (mime64 s).length = 66+(mime64 (s.drop 48)).length := by
  rw [length_mime64,length_mime64,List.length_drop]
  omega

theorem mime64_last (h : ¬48 < s.length) : (if 0 < s.length then base64 s ++ CRLF else []) = mime64 s := by
  by_cases hs : s = []
  · rw [hs,mime64_nil]
    rfl
  · rw [mime64_short hs (not_lt.mp h),if_pos (List.length_pos_iff.mpr hs)]

/-- The loop writes the text if there is room for it and its NUL. -/
theorem mimeLoop_eq (room : ℕ) (s : Bytes) (po : ℕ) : mimeLoop room s po =
    if po+(mime64 s).length+1 ≤ room then some (mime64 s) else none := by
  fun_induction mimeLoop room s po with
  | case1 s po hlen hroom ih =>
    have hline := length_line hlen
    rw [ih]
    by_cases hfits : po+(mime64 s).length+1 ≤ room
    · rw [if_pos hfits,if_pos (by omega),Option.map_some,mime64_long hlen]
    · rw [if_neg hfits,if_neg (by omega),Option.map_none]
  | case2 s po hlen hroom =>
    have hline := length_line hlen
    rw [if_neg (by omega)]
  | case3 s po hlen last hroom =>
    have hlast : last = mime64 s := mime64_last hlen
    rw [← hlast,if_pos hroom]
  | case4 s po hlen last hroom =>
    have hlast : last = mime64 s := mime64_last hlen
    rw [← hlast,if_neg hroom]

/-- The buffer is large enough, as long as its size is an `int`. -/
theorem mime64Buf_eq (s : Bytes) :
    mime64Buf s = if mimeSize s.length < 2^31 then some (mime64 s) else none := by
  have hlen := length_mime64 s
  have hfits : (mime64 s).length+1 ≤ mimeSize s.length := by
    rw [mimeSize]
    split_ifs <;> omega
  have hbound : s.length < 2^31 → mimeSize s.length < 2^32 := by
    rw [mimeSize]
    split_ifs <;> omega
  by_cases hs : s.length < 2^31
  · rw [mime64Buf,if_pos hs,mimeLoop_eq]
    refine if_congr ?_ rfl rfl
    by_cases hsize : mimeSize s.length < 2^31
    · have hint : int32 (mimeSize s.length) = mimeSize s.length := int32_of_mem ⟨by omega,by omega⟩
      rw [mimeAlloc,hint]
      omega
    · have hneg : int32 (mimeSize s.length) = mimeSize s.length-2^32 := by
        have hlt := hbound hs
        rw [int32,Int.bmod_def,Int.emod_eq_of_lt (by omega) (by omega)]
        split_ifs <;> omega
      have hlt := hbound hs
      rw [mimeAlloc,hneg]
      omega
  · rw [mime64Buf,if_neg hs,if_neg (by omega)]

/-- The chunks of a file are encoded to the text of the whole file. -/
theorem fileChunks_encoded (s : Bytes) :
    ∃ blocks, (fileChunks s).mapM mime64Buf = some blocks ∧ blocks.flatten = mime64 s := by
  fun_induction fileChunks s with
  | case1 => exact ⟨[],rfl,mime64_nil.symm⟩
  | case2 s hne ih =>
    obtain ⟨blocks,hblocks,hflat⟩ := ih
    have hchunk : Q_CHUNK = 6144 := rfl
    have hlen : (s.take Q_CHUNK).length ≤ 6144 := List.length_take_le _ _
    have hsize : mimeSize (s.take Q_CHUNK).length < 2^31 := by
      rw [mimeSize]
      split_ifs <;> omega
    refine ⟨mime64 (s.take Q_CHUNK)::blocks,?_,?_⟩
    · rw [List.mapM_cons,mime64Buf_eq,if_pos hsize,hblocks]
      rfl
    · rw [List.flatten_cons,hflat]
      exact encoded_chunk true s

theorem mime64_eq_lines (s : Bytes) : mime64 s = (mimeLines s).flatMap (· ++ CRLF) := by
  fun_induction mimeLines s with
  | case1 s hlen ih => rw [mime64_long hlen,ih,List.flatMap_cons]
  | case2 => exact mime64_nil
  | case3 s hlen hne => rw [mime64_short hne (not_lt.mp hlen),List.flatMap_cons,List.flatMap_nil,List.append_nil]

theorem flatten_mimeLines (s : Bytes) : (mimeLines s).flatten = base64 s := by
  fun_induction mimeLines s with
  | case1 s hlen ih =>
    have htake : (s.take 48).length = 48 := List.length_take_of_le hlen.le
    rw [List.flatten_cons,ih,base64_eq,base64_eq,base64_eq,← Sextet.encode_append (by rw [htake]; decide),
      List.take_append_drop]
  | case2 => rfl
  | case3 s hlen hne => rw [List.flatten_cons,List.flatten_nil,List.append_nil]

/-- No line is longer than 64 characters, or has a line end in it. -/
theorem mimeLines_short (s : Bytes) : ∀ l ∈ mimeLines s, l.length ≤ 64 ∧ 13 ∉ l ∧ 10 ∉ l := by
  have hline {t : Bytes} (h : t.length ≤ 48) : (base64 t).length ≤ 64 ∧ 13 ∉ base64 t ∧ 10 ∉ base64 t := by
    refine ⟨?_,fun h => (base64_plain t 13 h).2.1 rfl,fun h => (base64_plain t 10 h).2.2 rfl⟩
    rw [length_base64]
    omega
  fun_induction mimeLines s with
  | case1 s hlen ih => exact List.forall_mem_cons.mpr ⟨hline (List.length_take_le _ _),ih⟩
  | case2 => exact nofun
  | case3 s hlen hne => exact List.forall_mem_cons.mpr ⟨hline (not_lt.mp hlen),nofun⟩

/-- The chunks of a file make one seamless text of short lines, which stands for the file; the whole of it is
written in one go, inside the buffer, as long as the size is an `int`. -/
theorem mime_seamless (s : Bytes) :
    (∃ blocks, (fileChunks s).mapM mime64Buf = some blocks ∧ blocks.flatten = mime64 s) ∧
    (∃ lines : List Bytes, mime64 s = lines.flatMap (· ++ CRLF) ∧ (∀ l ∈ lines, l.length ≤ 64 ∧ 13 ∉ l ∧ 10 ∉ l) ∧
      unbase64 lines.flatten = s) ∧
    (mime64Buf s = some (mime64 s) ↔ mimeSize s.length < 2^31) := by
  refine ⟨fileChunks_encoded s,⟨mimeLines s,mime64_eq_lines s,mimeLines_short s,?_⟩,?_⟩
  · rw [flatten_mimeLines,unbase64_base64]
  · rw [mime64Buf_eq]
    simp

theorem mime64Buf_replicate {n : ℕ} (h : 2^31 ≤ mimeSize n) :
    ∃ s : Bytes, s ≠ [] ∧ mime64Buf s ≠ some (mime64 s) := by
  refine ⟨List.replicate n 97,?_,?_⟩
  · intro hnil
    have hlen := congrArg List.length hnil
    rw [List.length_replicate,List.length_nil] at hlen
    rw [hlen] at h
    exact absurd h (by decide)
  · rw [mime64Buf_eq,List.length_replicate,if_neg (not_lt.mpr h)]
    exact nofun

end

/-- The size for 1600000000 bytes is no `int`, and there is no buffer. -/
theorem not_mime64Buf : ¬∀ s : Bytes, s ≠ [] → mime64Buf s = some (mime64 s) := by
  intro h
  obtain ⟨s,hne,hbuf⟩ := mime64Buf_replicate (n := 1600000000) (by decide)
  exact hbuf (h s hne)

end Smx
