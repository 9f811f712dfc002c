import Smx.Str.Buffer

/-! `CStr`: strings on counted buffers, and what their operations do to strings that share one. -/
namespace Smx
open RefCount

def poke (p : ℕ) (c : Byte) (buf : ℕ → Byte) : ℕ → Byte := Function.update buf p c

def memcpy (o : ℕ) (d : Bytes) (buf : ℕ → Byte) (p : ℕ) : Byte :=
  if o ≤ p then d[p-o]?.getD (buf p) else buf p

/-- `while (test(*p)) ++p;`, for the `fuel` bytes in use. -/
def scanUp (test : Byte → Bool) (buf : ℕ → Byte) : ℕ → ℕ → ℕ
  | 0,p => p
  | fuel+1,p => if test (buf p) then scanUp test buf fuel (p+1) else p

/-- `while (p >= m_buf && test(*p)) --p;`, where `p` is behind the byte looked at. -/
def scanDown (test : Byte → Bool) (buf : ℕ → Byte) : ℕ → ℕ
  | 0 => 0
  | p+1 => if test (buf p) then scanDown test buf p else p+1

/-- The bytes that `LTrim` and `RTrim` take off, without a character and with one. -/
def trims : Option Byte → Byte → Bool
  | none => isspace
  | some c => fun b => b == c

namespace Store
variable {ι : Type} [DecidableEq ι] (blank : ℕ → ℕ → Byte)

/-- `CStr::Grow`; a negative size is written in front of a buffer that is kept. -/
def grow (s : Store ι) (i : ι) (n : ℤ) : Option (Store ι) :=
  if 0 < n then some ((bufGrow blank s i (n.toNat+1)).write i (poke n.toNat 0))
  else
    let t := bufGrow blank s i 0
    if n = 0 ∨ t.handle i = none then some (t.write i (poke 0 0)) else none

/-- `operator =(const char *)`. -/
def assignChars (s : Store ι) (i : ι) (d : Option Bytes) : Option (Store ι) :=
  match d with
  | none => grow blank s i 0
  | some d =>
    let n := (cstr d).length
    (grow blank s i n).map (write · i fun buf => poke n 0 (memcpy 0 (cstr d) buf))

/-- `Append(const char *, int)`. -/
def append (s : Store ι) (i : ι) (d : Bytes) : Option (Store ι) :=
  let o := s.length i
  (grow blank s i (o + d.length : ℕ)).map (write · i (memcpy o d))

/-- `Append(char)` and `operator <<(char)`. -/
def appendChar (s : Store ι) (i : ι) (c : Byte) : Option (Store ι) :=
  let o := s.length i
  (grow blank s i (o+1 : ℕ)).map (write · i (poke o c))

/-- `operator <<(const CStr &)`; what is copied must not reach over the end of the string. -/
def appendStr (s : Store ι) (i j : ι) : Option (Store ι) :=
  if s.length j = 0 then some s
  else
    let o := s.length i
    (grow blank s i (o + s.length j : ℕ)).bind fun t =>
      let d := t.value j
      if o + d.length ≤ t.length i then some (t.write i (memcpy o d)) else none

/-- `LTrim`; the scan must stop at the terminating NUL. -/
def ltrim (c : Option Byte) (s : Store ι) (i : ι) : Option (Store ι) :=
  match s.handle i with
  | none => some s
  | some a =>
    let b := s.info a
    if b.n-1 = 0 then some s
    else
      let k := scanUp (trims c) b.buf b.n 0
      if k = b.n then none
      else some (s.setInfo a { b with
        n := b.n-k, buf := fun p => if p < b.n-k then b.buf (k+p) else b.buf p })

/-- `RTrim`. -/
def rtrim (c : Option Byte) (s : Store ι) (i : ι) : Store ι :=
  match s.handle i with
  | none => s
  | some a =>
    let b := s.info a
    if b.n-1 = 0 then s
    else
      let p := scanDown (trims c) b.buf (b.n-1)
      s.setInfo a { b with n := p+1, buf := poke p 0 b.buf }

/-- `Trim`. -/
def trim (c : Option Byte) (s : Store ι) (i : ι) : Option (Store ι) :=
  (ltrim c s i).map fun t => rtrim c t i

/-- `Shrink`. -/
def shrink (s : Store ι) (i : ι) : Option (Store ι) :=
  match s.handle i with
  | none => some s
  | some a =>
    let b := s.info a
    if b.n-1 = 0 then some s else grow blank s i (scanUp (· != 0) b.buf b.n 0)

end Store

namespace Store
variable {ι : Type}

/-- Another handle points to the buffer of `i`. -/
def Shared (s : Store ι) (i : ι) : Prop :=
  s.handle i ≠ none ∧ ∃ k, k ≠ i ∧ s.handle k = s.handle i

/-- A string made of NULs only, from which NULs are to be trimmed on the left. -/
def Overruns (s : Store ι) (i : ι) (c : Option Byte) : Prop :=
  c = some 0 ∧ s.value i ≠ [] ∧ ∀ b ∈ s.value i, b = 0

end Store

section
variable {test : Byte → Bool} {buf : ℕ → Byte} {d : Bytes} {c : Byte} {m n o : ℕ}

@[simp] theorem poke_self (p : ℕ) (c : Byte) (buf : ℕ → Byte) : poke p c buf p = c := by
  simp [poke]

theorem poke_of_ne {p : ℕ} (h : p ≠ o) : poke o c buf p = buf p := by
  simp [poke,h]

theorem bytesOf_poke_of_le (h : m ≤ o) : bytesOf (poke o c buf) m = bytesOf buf m :=
  bytesOf_congr fun _ hp => poke_of_ne (hp.trans_le h).ne

theorem bytesOf_poke : bytesOf (poke o c buf) (o+1) = bytesOf buf o ++ [c] := by
  rw [bytesOf_succ,bytesOf_poke_of_le le_rfl,poke_self]

theorem memcpy_end : memcpy o d buf (o+d.length) = buf (o+d.length) := by
  simp [memcpy]

theorem bytesOf_memcpy : bytesOf (memcpy o d buf) (o+d.length) = bytesOf buf o ++ d := by
  rw [bytesOf_add]
  congr 1
  · exact bytesOf_congr fun p hp => if_neg (by omega)
  · apply List.ext_getElem
    · exact length_bytesOf
    · intro p _ hp
      simp [bytesOf,memcpy,hp]

theorem scanUp_eq (n p : ℕ) : scanUp test buf n p =
    p + ((bytesOf (fun q => buf (p+q)) n).takeWhile test).length := by
  induction n generalizing p with
  | zero => rfl
  | succ n ih =>
    rw [scanUp,bytesOf_cons,List.takeWhile_cons]
    cases h : test (buf p) with
    | false => simp
    | true =>
      rw [if_pos rfl,ih,Nat.add_zero,if_pos rfl,List.length_cons]
      simp only [Nat.add_assoc,Nat.add_comm 1]

theorem scanDown_eq (m : ℕ) : scanDown test buf m = ((bytesOf buf m).rdropWhile test).length := by
  induction m with
  | zero => rfl
  | succ m ih =>
    rw [scanDown,bytesOf_succ,List.rdropWhile_concat]
    split
    · exact ih
    · simp

end

namespace Store
variable {ι : Type} {s t u : Store ι} {i j : ι} {a : ℕ} {c : Option Byte} (blank : ℕ → ℕ → Byte)

theorem write_write (f g : (ℕ → Byte) → ℕ → Byte) :
    (s.write i f).write i g = s.write i (g ∘ f) := by
  cases h : s.handle i with
  | none => simp [write,h]
  | some a => simp [write,setInfo,h]

theorem write_of_null (h : s.handle i = none) (f : (ℕ → Byte) → ℕ → Byte) : s.write i f = s := by
  rw [write,h]

variable [DecidableEq ι]

/-- `Grow` to no bytes lets a shared buffer go. -/
theorem bufGrow_zero_of_shared (h : ∀ a, s.handle i = some a → (s.info a).ref ≠ 1) :
    bufGrow blank s i 0 = s.free i := by
  unfold bufGrow
  cases hi : s.handle i with
  | none => simp [free,hi]
  | some a => simp [h a hi]

variable [Fintype ι]

/-- The string `i` of `s` has been cut to `m` bytes or made longer, and then written to. -/
structure Written (s t : Store ι) (i : ι) (m : ℕ) (f : (ℕ → Byte) → ℕ → Byte) : Prop where
  sound : t.Sound
  others : ∀ k, k ≠ i → t.value k = s.value k
  value : ∃ buf, bytesOf buf (min (s.length i) m) = (s.value i).take m ∧
    t.value i = bytesOf (f buf) m

omit [DecidableEq ι] in
theorem Owned.written {b m n : ℕ} (hs : s.Sound) (h : Owned s t i b n) (hm : n-1 = m) (hn : m ≤ n)
    {f : (ℕ → Byte) → ℕ → Byte} (hf : ∀ buf, buf m = 0 → f buf m = 0) :
    Written s (t.write i (f ∘ poke m 0)) i m f := by
  have hend : (f ∘ poke m 0) (t.info b).buf (n-1) = 0 := by
    rw [hm]
    exact hf _ (poke_self m 0 _)
  obtain ⟨hsound,hother,hvalue⟩ := h.write hs hend
  rw [hm] at hvalue
  refine ⟨hsound,hother,poke m 0 (t.info b).buf,?_,hvalue⟩
  rw [bytesOf_poke_of_le (min_le_right _ _)]
  cases hi : s.handle i with
  | none => simp [Store.value,length,hi,bytesOf]
  | some a =>
    have hkeep := h.keep a hi
    have hlen : s.length i = (s.info a).n-1 := by rw [length,hi]
    rw [value_of_handle hi,hlen,List.take_eq_take_min,length_bytesOf,min_comm m,
      take_bytesOf (min_le_left _ _)]
    exact bytesOf_congr fun p hp => hkeep p (by omega)

/-- What `Grow` and writing to the bytes it made room for do. -/
theorem grow_write (hs : s.Sound) (i : ι) (m : ℕ) {f : (ℕ → Byte) → ℕ → Byte}
    (hf : ∀ buf, buf m = 0 → f buf m = 0) :
    ∃ t, grow blank s i m = some t ∧ Written s (t.write i f) i m f := by
  cases m with
  | succ m =>
    obtain ⟨b,hb⟩ := bufGrow_owned blank hs i (Nat.succ_pos (m+1))
    have hgrow : grow blank s i (m+1 : ℕ) =
        some ((bufGrow blank s i (m+2)).write i (poke (m+1) 0)) := if_pos (Int.natCast_pos.mpr m.succ_pos)
    refine ⟨_,hgrow,?_⟩
    rw [write_write]
    exact hb.written hs rfl (Nat.le_succ _) hf
  | zero =>
    have hgrow : grow blank s i (0 : ℕ) = some ((bufGrow blank s i 0).write i (poke 0 0)) := by
      simp [grow]
    refine ⟨_,hgrow,?_⟩
    rw [write_write]
    by_cases hown : ∃ a, s.handle i = some a ∧ (s.info a).ref = 1
    · obtain ⟨a,hi,href⟩ := hown
      have hzero : bufGrow blank s i 0 = s.setInfo a { s.info a with n := 0 } := by
        simp [bufGrow,hi,href]
      have howned : Owned s (s.setInfo a { s.info a with n := 0 }) i a 0 :=
        setInfo_owned hs hi href href (Nat.zero_le _) fun _ _ => rfl
      rw [hzero]
      exact howned.written hs rfl le_rfl hf
    · obtain ⟨hother,hself⟩ := free_value s i
      have hnull : (s.free i).handle i = none := by rw [(free_frame s i).1,Function.update_self]
      rw [bufGrow_zero_of_shared blank fun a hi href => hown ⟨a,hi,href⟩,write_of_null hnull]
      refine ⟨free_sound hs i,hother,fun _ => 0,?_,hself⟩
      simp [bytesOf]

/-- What an operation that fills a buffer of its own with `v` does. -/
structure Filled (s t : Store ι) (i : ι) (v : Bytes) : Prop where
  sound : t.Sound
  others : ∀ k, k ≠ i → t.value k = s.value k
  value : t.value i = v

theorem grow_spec (hs : s.Sound) (i : ι) (m : ℕ) : ∃ t v, grow blank s i m = some t ∧
    Filled s t i v ∧ v.length = m ∧ (s.value i).take m <+: v := by
  obtain ⟨t,ht,hsound,hother,buf,hold,hvalue⟩ := grow_write blank hs i m (f := id) fun _ h => h
  have hwrite : t.write i id = t := by
    cases h : t.handle i with
    | none => exact write_of_null h id
    | some a => simp [write,setInfo,h]
  rw [hwrite] at hsound hother hvalue
  refine ⟨t,bytesOf buf m,ht,⟨hsound,hother,hvalue⟩,length_bytesOf,?_⟩
  rw [← hold,← take_bytesOf (min_le_right _ _)]
  exact List.take_prefix _ _

theorem assignChars_spec (hs : s.Sound) (i : ι) (d : Option Bytes) :
    ∃ t, assignChars blank s i d = some t ∧ Filled s t i (cstr (d.getD [])) := by
  cases d with
  | none =>
    obtain ⟨t,v,ht,hfilled,hlen,-⟩ := grow_spec blank hs i 0
    obtain rfl := List.length_eq_zero_iff.mp hlen
    exact ⟨t,ht,hfilled⟩
  | some d =>
    let n := (cstr d).length
    obtain ⟨t,ht,hsound,hother,buf,-,hvalue⟩ := grow_write blank hs i n
      (f := fun buf => poke n 0 (memcpy 0 (cstr d) buf)) fun _ _ => poke_self n 0 _
    refine ⟨_,by rw [assignChars,ht,Option.map_some],hsound,hother,?_⟩
    have hcopy : bytesOf (memcpy 0 (cstr d) buf) (0 + (cstr d).length) = bytesOf buf 0 ++ cstr d :=
      bytesOf_memcpy
    rw [Nat.zero_add] at hcopy
    rw [hvalue,bytesOf_poke_of_le le_rfl,hcopy]
    rfl

theorem append_spec (hs : s.Sound) (i : ι) (d : Bytes) :
    ∃ t, append blank s i d = some t ∧ Filled s t i (s.value i ++ d) := by
  obtain ⟨t,ht,hsound,hother,buf,hold,hvalue⟩ := grow_write blank hs i (s.length i + d.length)
    (f := memcpy (s.length i) d) fun _ h => memcpy_end.trans h
  refine ⟨_,by rw [append,ht,Option.map_some],hsound,hother,?_⟩
  rw [min_eq_left (Nat.le_add_right _ _),← length_value,List.take_of_length_le (by omega)] at hold
  rw [hvalue,bytesOf_memcpy,← length_value,hold]

theorem appendChar_spec (hs : s.Sound) (i : ι) (c : Byte) :
    ∃ t, appendChar blank s i c = some t ∧ Filled s t i (s.value i ++ [c]) := by
  obtain ⟨t,ht,hsound,hother,buf,hold,hvalue⟩ := grow_write blank hs i (s.length i + 1)
    (f := poke (s.length i) c) fun _ h => (poke_of_ne (Nat.succ_ne_self _)).trans h
  refine ⟨_,by rw [appendChar,ht,Option.map_some],hsound,hother,?_⟩
  rw [min_eq_left (Nat.le_add_right _ _),← length_value,List.take_of_length_le (by simp)] at hold
  rw [hvalue,bytesOf_poke,← length_value,hold]

/-- A string that is not empty runs over its end when it is appended to itself. -/
theorem appendStr_spec (hs : s.Sound) (i j : ι) :
    (∀ t, appendStr blank s i j = some t → Filled s t i (s.value i ++ s.value j)) ∧
      (appendStr blank s i j = none ↔ i = j ∧ s.value i ≠ []) := by
  have hlen (k : ι) : s.length k = 0 ↔ s.value k = [] := by
    rw [← length_value,List.length_eq_zero_iff]
  unfold appendStr
  by_cases hj : s.length j = 0
  · have hnil := (hlen j).mp hj
    rw [if_pos hj,hnil,List.append_nil]
    refine ⟨?_,nofun,?_⟩
    · rintro _ ⟨⟩
      exact ⟨hs,fun _ _ => rfl,rfl⟩
    · rintro ⟨rfl,hne⟩
      exact absurd hnil hne
  · rw [if_neg hj]
    by_cases hij : i = j
    · subst hij
      obtain ⟨t,v,ht,hfilled,hv,-⟩ := grow_spec blank hs i (s.length i + s.length i)
      have hover : ¬s.length i + (t.value i).length ≤ t.length i := by
        rw [← length_value (s := t),hfilled.value,hv]
        omega
      dsimp only
      rw [ht,Option.bind_some,if_neg hover]
      exact ⟨nofun,fun _ => ⟨rfl,fun h => hj ((hlen i).mpr h)⟩,fun _ => rfl⟩
    · obtain ⟨t,ht,hsound,hother,buf,hold,hvalue⟩ := grow_write blank hs i
        (s.length i + s.length j) (f := memcpy (s.length i) (s.value j)) fun buf h => by
          rw [← length_value (i := j),memcpy_end,length_value,h]
      obtain ⟨t',v,ht',hfilled,hv,-⟩ := grow_spec blank hs i (s.length i + s.length j)
      obtain rfl := Option.some.inj (ht.symm.trans ht')
      have hroom : s.length i + (s.value j).length ≤ t.length i := by
        rw [← length_value (s := t),hfilled.value,hv,length_value]
      have hsame : t.value j = s.value j := hfilled.others j fun h => hij h.symm
      dsimp only
      rw [ht,Option.bind_some,hsame,if_pos hroom]
      refine ⟨?_,nofun,fun h => absurd h.1 hij⟩
      rintro _ ⟨⟩
      refine ⟨hsound,hother,?_⟩
      rw [min_eq_left (Nat.le_add_right _ _),← length_value,List.take_of_length_le (by omega)] at hold
      rw [hvalue,← length_value (i := j),bytesOf_memcpy,← length_value,hold]

theorem Sound.shared_iff (hs : s.Sound) (hi : s.handle i = some a) :
    s.Shared i ↔ (s.info a).ref ≠ 1 := by
  rw [hs.ref i a hi,ne_eq,refs_eq_one_iff hi,Shared,hi]
  simp

/-- A negative size is taken by a string that has no buffer of its own. -/
theorem grow_negative (hs : s.Sound) (i : ι) {n : ℤ} (hn : n < 0) :
    (∀ t, grow blank s i n = some t → Filled s t i []) ∧
      (grow blank s i n = none ↔ ¬(s.handle i = none ∨ s.Shared i)) := by
  have hgrow : grow blank s i n = if (bufGrow blank s i 0).handle i = none
      then some ((bufGrow blank s i 0).write i (poke 0 0)) else none := by
    simp [grow,hn.not_gt,hn.ne]
  rw [hgrow]
  by_cases hown : ∃ a, s.handle i = some a ∧ (s.info a).ref = 1
  · obtain ⟨a,hi,href⟩ := hown
    have hkept : (bufGrow blank s i 0).handle i ≠ none := by
      simp [bufGrow,hi,href,setInfo]
    rw [if_neg hkept]
    have hnot : ¬(s.handle i = none ∨ s.Shared i) := by
      rw [hs.shared_iff hi,hi]
      simp [href]
    exact ⟨by rintro _ ⟨⟩,fun _ => hnot,fun _ => rfl⟩
  · have hnull : (s.free i).handle i = none := by rw [(free_frame s i).1,Function.update_self]
    rw [bufGrow_zero_of_shared blank fun a hi href => hown ⟨a,hi,href⟩,if_pos hnull,
      write_of_null hnull]
    refine ⟨?_,by rintro ⟨⟩,fun h => absurd ?_ h⟩
    · rintro _ ⟨⟩
      exact ⟨free_sound hs i,(free_value s i).1,(free_value s i).2⟩
    · cases hi : s.handle i with
      | none => exact .inl rfl
      | some a => exact .inr ((hs.shared_iff hi).mpr fun href => hown ⟨a,hi,href⟩)

/-- The buffer of `i` shows `v`, and so do all strings that share it. -/
structure Spread (s t : Store ι) (i : ι) (v : Bytes) : Prop where
  sound : t.Sound
  handle : t.handle = s.handle
  value : ∀ k, t.value k = if s.handle k = s.handle i then v else s.value k

omit [DecidableEq ι] in
theorem Spread.refl (hs : s.Sound) (i : ι) : Spread s s i (s.value i) := by
  refine ⟨hs,rfl,fun k => ?_⟩
  split_ifs with h
  · exact value_congr h
  · rfl

omit [DecidableEq ι] in
theorem Spread.trans {v w : Bytes} (h : Spread s t i v) (h' : Spread t u i w) : Spread s u i w := by
  refine ⟨h'.sound,h'.handle.trans h.handle,fun k => ?_⟩
  rw [h'.value,h.handle]
  split_ifs with hk
  · rfl
  · rw [h.value,if_neg hk]

omit [DecidableEq ι] in
/-- Changing a buffer in place changes all the strings that share it. -/
theorem setInfo_spread (hs : s.Sound) (hi : s.handle i = some a) (m : ℕ) (buf : ℕ → Byte)
    (hm : m < (s.info a).n) (hend : buf m = 0) :
    Spread s (s.setInfo a { s.info a with n := m+1, buf := buf }) i (bytesOf buf m) := by
  have hroom := hs.room i a hi
  refine ⟨⟨hs.lt,?_,?_,?_⟩,rfl,?_⟩
  · intro k b hk
    by_cases hab : b = a
    · subst hab
      simpa [setInfo] using hs.ref k b hk
    · simpa [setInfo,hab] using hs.ref k b hk
  · intro k b hk
    by_cases hab : b = a
    · subst hab
      simp only [setInfo,Function.update_self]
      omega
    · simpa [setInfo,hab] using hs.room k b hk
  · intro k b hk
    by_cases hab : b = a
    · subst hab
      simpa [setInfo] using hend
    · simpa [setInfo,hab] using hs.ends k b hk
  · intro k
    rw [hi]
    split_ifs with hk
    · rw [value_of_handle (s := s.setInfo a _) hk]
      simp [setInfo]
    · cases hkb : s.handle k with
      | none => rw [value_of_null hkb,value_of_null (s := s.setInfo a _) hkb]
      | some b =>
        have hab : b ≠ a := by
          rintro rfl
          exact hk hkb
        rw [value_of_handle hkb,value_of_handle (s := s.setInfo a _) hkb]
        simp [setInfo,hab]

omit [DecidableEq ι] in
/-- Trimming changes no other string when nothing is shared, or nothing is taken off. -/
theorem Spread.others_iff {v : Bytes} (h : Spread s t i v) (hv : v.length ≤ (s.value i).length) :
    (∀ k, k ≠ i → t.value k = s.value k) ↔ (s.Shared i → v = s.value i) := by
  constructor
  · rintro hothers ⟨-,k,hk,hsame⟩
    have hvalue := h.value k
    rw [if_pos hsame,hothers k hk,value_congr hsame] at hvalue
    exact hvalue.symm
  · intro hshared k hk
    rw [h.value k]
    split_ifs with hsame
    · rw [value_congr hsame]
      by_cases hi : s.handle i = none
      · rw [value_of_null hi] at hv ⊢
        exact List.length_eq_zero_iff.mp (Nat.le_zero.mp hv)
      · exact hshared ⟨hi,k,hk,hsame⟩
    · rfl

omit [DecidableEq ι] in
/-- The bytes in use are the string and the NUL behind it. -/
theorem Sound.bytes_in_use (hs : s.Sound) (hi : s.handle i = some a) (hn : (s.info a).n-1 ≠ 0) :
    bytesOf (s.info a).buf (s.info a).n = s.value i ++ [0] := by
  obtain ⟨m,hm⟩ : ∃ m, (s.info a).n = m+1 := Nat.exists_eq_succ_of_ne_zero (by omega)
  have hend := hs.ends i a hi
  rw [value_of_handle hi,hm,Nat.add_sub_cancel]
  rw [hm,Nat.add_sub_cancel] at hend
  rw [bytesOf_succ,hend]

theorem trims_nul {c : Option Byte} : trims c 0 = true ↔ c = some 0 := by
  cases c with
  | none => exact ⟨fun h => absurd h (by decide),nofun⟩
  | some c => rw [trims,beq_iff_eq,Option.some_inj,eq_comm]

omit [DecidableEq ι] [Fintype ι] in
/-- `LTrim` skips the NUL behind the string when it has skipped nothing but NULs. -/
theorem skipped_of_overruns (h : s.Overruns i c) :
    ((s.value i ++ [0]).takeWhile (trims c)).length = (s.value i).length + 1 := by
  obtain ⟨rfl,-,hzero⟩ := h
  rw [List.takeWhile_append_of_pos fun b hb => by simp [trims,hzero b hb]]
  simp [trims]

omit [DecidableEq ι] [Fintype ι] in
theorem skipped_of_not_overruns (h : ¬s.Overruns i c) (hne : s.value i ≠ []) :
    ((s.value i ++ [0]).takeWhile (trims c)).length = ((s.value i).takeWhile (trims c)).length := by
  rw [List.takeWhile_append]
  split_ifs with hfull
  · have hself : (s.value i).takeWhile (trims c) = s.value i :=
      (List.takeWhile_prefix _).eq_of_length hfull
    have hnul : ¬trims c 0 = true := by
      intro hc
      obtain rfl := trims_nul.mp hc
      refine h ⟨rfl,hne,fun b hb => ?_⟩
      simpa [trims] using List.takeWhile_eq_self_iff.mp hself b hb
    rw [hself,List.takeWhile_cons_of_neg hnul,List.append_nil]
  · rfl

omit [DecidableEq ι] in
/-- `LTrim` leaves the string without the bytes it skips, unless it runs over its end. -/
theorem ltrim_spec (hs : s.Sound) (i : ι) (c : Option Byte) :
    (ltrim c s i = none ↔ s.Overruns i c) ∧
      ∀ t, ltrim c s i = some t → Spread s t i ((s.value i).dropWhile (trims c)) := by
  have hempty (hnil : s.value i = []) (hltrim : ltrim c s i = some s) :
      (ltrim c s i = none ↔ s.Overruns i c) ∧
        ∀ t, ltrim c s i = some t → Spread s t i ((s.value i).dropWhile (trims c)) := by
    rw [hltrim]
    refine ⟨⟨nofun,fun h => absurd hnil h.2.1⟩,?_⟩
    rintro _ ⟨⟩
    have hrefl := Spread.refl hs i
    rw [hnil] at hrefl ⊢
    exact hrefl
  cases hi : s.handle i with
  | none => exact hempty (value_of_null hi) (by rw [ltrim,hi])
  | some a =>
    by_cases hn : (s.info a).n-1 = 0
    · apply hempty
      · rw [value_of_handle hi,hn]
        rfl
      · rw [ltrim,hi]
        exact if_pos hn
    · have hlen : (s.value i).length = (s.info a).n-1 := by rw [length_value,length,hi]
      have hne : s.value i ≠ [] := by
        intro h
        rw [h] at hlen
        exact hn hlen.symm
      have hscan : scanUp (trims c) (s.info a).buf (s.info a).n 0 =
          ((s.value i ++ [0]).takeWhile (trims c)).length := by
        rw [scanUp_eq,Nat.zero_add,← hs.bytes_in_use hi hn]
        simp only [Nat.zero_add]
      have hltrim : ltrim c s i = if scanUp (trims c) (s.info a).buf (s.info a).n 0 = (s.info a).n
          then none else some (s.setInfo a { s.info a with
            n := (s.info a).n - scanUp (trims c) (s.info a).buf (s.info a).n 0
            buf := fun p => if p < (s.info a).n - scanUp (trims c) (s.info a).buf (s.info a).n 0
              then (s.info a).buf (scanUp (trims c) (s.info a).buf (s.info a).n 0 + p)
              else (s.info a).buf p }) := by
        rw [ltrim,hi]
        exact if_neg hn
      rw [hltrim,hscan]
      by_cases hover : s.Overruns i c
      · rw [skipped_of_overruns hover,hlen,if_pos (by omega)]
        exact ⟨⟨fun _ => hover,fun _ => rfl⟩,nofun⟩
      · rw [skipped_of_not_overruns hover hne]
        have hle := (List.takeWhile_prefix (p := trims c) (l := s.value i)).length_le
        have hdrop : (s.value i).dropWhile (trims c) =
            (s.value i).drop ((s.value i).takeWhile (trims c)).length := by
          have hsplit := congrArg (List.drop ((s.value i).takeWhile (trims c)).length)
            (List.takeWhile_append_dropWhile (p := trims c) (l := s.value i))
          rwa [List.drop_left' rfl] at hsplit
        rw [hlen] at hle
        rw [if_neg (by omega),hdrop]
        refine ⟨⟨nofun,fun h => absurd h hover⟩,?_⟩
        rintro _ ⟨⟩
        generalize ((s.value i).takeWhile (trims c)).length = k at hle
        obtain ⟨m,hm⟩ : ∃ m, (s.info a).n = k+m+1 := ⟨(s.info a).n-1-k,by omega⟩
        have hend := hs.ends i a hi
        rw [value_of_handle hi,drop_bytesOf hle]
        have hspread := setInfo_spread hs hi m
          (fun p => if p < m+1 then (s.info a).buf (k+p) else (s.info a).buf p) (by omega)
          (by simpa [hm] using hend)
        have hvalue : bytesOf (fun p => if p < m+1 then (s.info a).buf (k+p) else (s.info a).buf p) m =
            bytesOf (fun p => (s.info a).buf (k+p)) m :=
          bytesOf_congr fun p hp => if_pos (hp.trans m.lt_succ_self)
        rw [hvalue] at hspread
        have hleft : (s.info a).n - k = m+1 := by omega
        have hcount : (s.info a).n - 1 - k = m := by omega
        rw [hleft,hcount]
        exact hspread

omit [DecidableEq ι] in
/-- `RTrim` leaves the string without the bytes it skips. -/
theorem rtrim_spec (hs : s.Sound) (i : ι) (c : Option Byte) :
    Spread s (rtrim c s i) i ((s.value i).rdropWhile (trims c)) := by
  have hempty (hnil : s.value i = []) (hrtrim : rtrim c s i = s) :
      Spread s (rtrim c s i) i ((s.value i).rdropWhile (trims c)) := by
    have hrefl := Spread.refl hs i
    rw [hnil] at hrefl
    rw [hrtrim,hnil]
    exact hrefl
  cases hi : s.handle i with
  | none => exact hempty (value_of_null hi) (by rw [rtrim,hi])
  | some a =>
    by_cases hn : (s.info a).n-1 = 0
    · apply hempty
      · rw [value_of_handle hi,hn]
        rfl
      · rw [rtrim,hi]
        exact if_pos hn
    · let p := scanDown (trims c) (s.info a).buf ((s.info a).n-1)
      have hrtrim : rtrim c s i = s.setInfo a { s.info a with
          n := p+1, buf := poke p 0 (s.info a).buf } := by
        rw [rtrim,hi]
        exact if_neg hn
      have hp : p = ((s.value i).rdropWhile (trims c)).length := by
        rw [value_of_handle hi]
        exact scanDown_eq _
      have hpre := List.rdropWhile_prefix (trims c) (l := s.value i)
      have hle := hpre.length_le
      rw [length_value,length,hi,← hp] at hle
      dsimp only at hle
      have hspread := setInfo_spread hs hi p _ (by omega) (poke_self p 0 (s.info a).buf)
      rw [bytesOf_poke_of_le le_rfl] at hspread
      have hvalue : (s.value i).rdropWhile (trims c) = bytesOf (s.info a).buf p := by
        rw [List.prefix_iff_eq_take.mp hpre,← hp,value_of_handle hi,take_bytesOf hle]
      rw [hrtrim,hvalue]
      exact hspread

omit [DecidableEq ι] in
theorem trim_spec (hs : s.Sound) (i : ι) (c : Option Byte) :
    (trim c s i = none ↔ s.Overruns i c) ∧ ∀ t, trim c s i = some t →
      Spread s t i (((s.value i).dropWhile (trims c)).rdropWhile (trims c)) := by
  obtain ⟨hnone,hsome⟩ := ltrim_spec hs i c
  refine ⟨?_,fun t ht => ?_⟩
  · rw [trim,Option.map_eq_none_iff,hnone]
  · obtain ⟨u,hu,rfl⟩ := Option.map_eq_some_iff.mp ht
    have hleft := hsome u hu
    have hright := rtrim_spec hleft.sound i c
    rw [hleft.value i,if_pos rfl] at hright
    exact hleft.trans hright

theorem shrink_spec (hs : s.Sound) (i : ι) :
    ∃ t, shrink blank s i = some t ∧ Filled s t i (cstr (s.value i)) := by
  have hempty (hnil : s.value i = []) (hshrink : shrink blank s i = some s) :
      ∃ t, shrink blank s i = some t ∧ Filled s t i (cstr (s.value i)) := by
    refine ⟨s,hshrink,hs,fun _ _ => rfl,?_⟩
    rw [hnil]
    rfl
  cases hi : s.handle i with
  | none => exact hempty (value_of_null hi) (by rw [shrink,hi])
  | some a =>
    by_cases hn : (s.info a).n-1 = 0
    · apply hempty
      · rw [value_of_handle hi,hn]
        rfl
      · rw [shrink,hi]
        exact if_pos hn
    · have hscan : scanUp (· != 0) (s.info a).buf (s.info a).n 0 = (cstr (s.value i)).length := by
        rw [scanUp_eq,Nat.zero_add]
        simp only [Nat.zero_add]
        rw [hs.bytes_in_use hi hn,List.takeWhile_append]
        split_ifs with hfull
        · rw [List.takeWhile_cons_of_neg (by simp),List.append_nil]
          exact hfull.symm
        · rfl
      have hshrink : shrink blank s i = grow blank s i (cstr (s.value i)).length := by
        rw [shrink,hi,← hscan]
        exact if_neg hn
      obtain ⟨t,v,ht,hfilled,hlen,hpre⟩ := grow_spec blank hs i (cstr (s.value i)).length
      have hcstr : cstr (s.value i) = (s.value i).take (cstr (s.value i)).length :=
        List.prefix_iff_eq_take.mp (List.takeWhile_prefix _)
      rw [← hcstr] at hpre
      refine ⟨t,hshrink.trans ht,?_⟩
      rw [hpre.eq_of_length hlen.symm]
      exact hfilled

end Store

end Smx
