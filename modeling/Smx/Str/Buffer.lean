import Smx.Base.Bytes
import Smx.Lib.RefCount

/-! `CBufRefChar`: buffers that are shared between handles and counted. -/
namespace Smx
open RefCount

/-- `BUFFER_INFO` and the bytes behind it: `x` of them are allocated and `n` are in use. -/
structure BufferInfo where
  ref : ℕ
  x : ℕ
  n : ℕ
  buf : ℕ → Byte

/-- The buffers by address, and the one that each handle points to. -/
structure Store (ι : Type) where
  info : ℕ → BufferInfo
  handle : ι → Option ℕ
  next : ℕ

namespace Store
variable {ι : Type} [DecidableEq ι]

def setInfo (s : Store ι) (a : ℕ) (b : BufferInfo) : Store ι :=
  { s with info := Function.update s.info a b }

/-- `Free`. -/
def free (s : Store ι) (i : ι) : Store ι :=
  match s.handle i with
  | none => s
  | some a =>
    { s.setInfo a { s.info a with ref := (s.info a).ref-1 } with
      handle := Function.update s.handle i none }

/-- `Copy`: `i` is set to the buffer of `j`. -/
def copy (s : Store ι) (i j : ι) : Store ι :=
  if s.handle i = s.handle j then s
  else
    match s.handle j with
    | none => s.free i
    | some b =>
      let t := (s.setInfo b { s.info b with ref := (s.info b).ref+1 }).free i
      { t with handle := Function.update t.handle i (some b) }

/-- A buffer of its own for `i`. -/
def alloc (s : Store ι) (i : ι) (b : BufferInfo) : Store ι where
  info := Function.update s.info s.next b
  handle := Function.update s.handle i (some s.next)
  next := s.next+1

variable (blank : ℕ → ℕ → Byte)

/-- `CBufRefChar::Grow`; `blank` is what `malloc` finds in memory. -/
def bufGrow (s : Store ι) (i : ι) (n : ℕ) : Store ι :=
  match s.handle i with
  | none => if 0 < n then s.alloc i ⟨1,n,n,blank s.next⟩ else s
  | some a =>
    let b := s.info a
    let z := n + max 256 (n/2)
    if 0 < n then
      if b.ref = 1 then
        if b.x < n then s.setInfo a ⟨1,z,n,fun p => if p < b.x then b.buf p else blank a p⟩
        else s.setInfo a { b with n := n }
      else
        (s.free i).alloc i ⟨1,z,n,fun p => if p < min b.n n then b.buf p else blank s.next p⟩
    else if b.ref = 1 then s.setInfo a { b with n := 0 }
    else s.free i

/-- Bytes written to the buffer of `i`. -/
def write (s : Store ι) (i : ι) (f : (ℕ → Byte) → ℕ → Byte) : Store ι :=
  match s.handle i with
  | none => s
  | some a => s.setInfo a { s.info a with buf := f (s.info a).buf }

/-- What is kept in every run: a buffer's count is the number of its handles, and the bytes in use
are allocated and end with a NUL. -/
structure Sound [Fintype ι] (s : Store ι) : Prop where
  lt : ∀ i a, s.handle i = some a → a < s.next
  ref : ∀ i a, s.handle i = some a → (s.info a).ref = refs s.handle a
  room : ∀ i a, s.handle i = some a → (s.info a).n ≤ (s.info a).x
  ends : ∀ i a, s.handle i = some a → (s.info a).buf ((s.info a).n-1) = 0

end Store

/-- The first `m` bytes of a buffer. -/
def bytesOf (buf : ℕ → Byte) (m : ℕ) : Bytes := (List.range m).map buf

section
variable {buf buf' : ℕ → Byte} {m k : ℕ}

@[simp] theorem length_bytesOf : (bytesOf buf m).length = m := by simp [bytesOf]

theorem bytesOf_congr (h : ∀ p < m, buf p = buf' p) : bytesOf buf m = bytesOf buf' m :=
  List.map_congr_left fun p hp => h p (List.mem_range.mp hp)

theorem bytesOf_succ : bytesOf buf (m+1) = bytesOf buf m ++ [buf m] := by
  simp [bytesOf,List.range_succ]

theorem bytesOf_cons : bytesOf buf (m+1) = buf 0::bytesOf (fun p => buf (p+1)) m := by
  simp [bytesOf,List.range_succ_eq_map]

theorem bytesOf_add : bytesOf buf (m+k) = bytesOf buf m ++ bytesOf (fun p => buf (m+p)) k := by
  simp [bytesOf,List.range_add]

theorem take_bytesOf (h : k ≤ m) : (bytesOf buf m).take k = bytesOf buf k := by
  obtain ⟨d,rfl⟩ := Nat.exists_eq_add_of_le h
  rw [bytesOf_add,List.take_left' length_bytesOf]

theorem drop_bytesOf (h : k ≤ m) : (bytesOf buf m).drop k = bytesOf (fun p => buf (k+p)) (m-k) := by
  obtain ⟨d,rfl⟩ := Nat.exists_eq_add_of_le h
  rw [bytesOf_add,List.drop_left' length_bytesOf,Nat.add_sub_cancel_left]

end

namespace Store
variable {ι : Type} [DecidableEq ι] {s t : Store ι} {i j k : ι} {a b n : ℕ}

/-- `Length`. -/
def length (s : Store ι) (i : ι) : ℕ :=
  match s.handle i with
  | none => 0
  | some a => (s.info a).n-1

/-- What a handle shows. -/
def value (s : Store ι) (i : ι) : Bytes :=
  match s.handle i with
  | none => []
  | some a => bytesOf (s.info a).buf ((s.info a).n-1)

omit [DecidableEq ι]

theorem value_of_handle (h : s.handle i = some a) :
    s.value i = bytesOf (s.info a).buf ((s.info a).n-1) := by
  rw [value,h]

theorem value_of_null (h : s.handle i = none) : s.value i = [] := by
  rw [value,h]

@[simp] theorem length_value : (s.value i).length = s.length i := by
  unfold value length
  cases s.handle i with
  | none => rfl
  | some a => exact length_bytesOf

theorem value_congr (h : s.handle k = s.handle i) : s.value k = s.value i := by
  rw [value,value,h]

/-- The buffer `b` is the one of `i` alone, with `n` bytes in use, and all other handles are as they
were. -/
structure Owned [Fintype ι] (s t : Store ι) (i : ι) (b n : ℕ) : Prop where
  handle_self : t.handle i = some b
  handle_of_ne : ∀ k, k ≠ i → t.handle k = s.handle k
  alone : ∀ k, k ≠ i → s.handle k ≠ some b
  kept : ∀ k a, k ≠ i → s.handle k = some a → (t.info a).x = (s.info a).x ∧
    (t.info a).n = (s.info a).n ∧ (t.info a).buf = (s.info a).buf
  ref : ∀ k a, t.handle k = some a → (t.info a).ref = refs t.handle a
  count : (t.info b).n = n
  room : n ≤ (t.info b).x
  keep : ∀ a, s.handle i = some a → ∀ p < min (s.info a).n n, (t.info b).buf p = (s.info a).buf p
  lt : ∀ k a, t.handle k = some a → a < t.next

/-- After writing into it a buffer of one's own shows the bytes written, and nothing else changes. -/
theorem Owned.write [Fintype ι] (hs : s.Sound) (h : Owned s t i b n) {f : (ℕ → Byte) → ℕ → Byte}
    (hf : f (t.info b).buf (n-1) = 0) :
    (t.write i f).Sound ∧ (∀ k, k ≠ i → (t.write i f).value k = s.value k) ∧
      (t.write i f).value i = bytesOf (f (t.info b).buf) (n-1) := by
  have hwrite : t.write i f = t.setInfo b { t.info b with buf := f (t.info b).buf } := by
    rw [Store.write,h.handle_self]
  have hother (k : ι) (a : ℕ) (hk : k ≠ i) (ha : s.handle k = some a) : a ≠ b := by
    rintro rfl
    exact h.alone k hk ha
  rw [hwrite]
  refine ⟨⟨h.lt,?_,?_,?_⟩,?_,?_⟩
  · intro k a ha
    by_cases hab : a = b
    · subst hab
      simpa [setInfo] using h.ref k a ha
    · simpa [setInfo,hab] using h.ref k a ha
  · intro k a ha
    by_cases hab : a = b
    · subst hab
      simpa [setInfo,h.count] using h.room
    · have hk : k ≠ i := by
        rintro rfl
        exact hab (Option.some.inj (ha.symm.trans h.handle_self))
      have ha' : s.handle k = some a := (h.handle_of_ne k hk).symm.trans ha
      obtain ⟨hx,hn,-⟩ := h.kept k a hk ha'
      simpa [setInfo,hab,hx,hn] using hs.room k a ha'
  · intro k a ha
    by_cases hab : a = b
    · subst hab
      simpa [setInfo,h.count] using hf
    · have hk : k ≠ i := by
        rintro rfl
        exact hab (Option.some.inj (ha.symm.trans h.handle_self))
      have ha' : s.handle k = some a := (h.handle_of_ne k hk).symm.trans ha
      obtain ⟨-,hn,hbuf⟩ := h.kept k a hk ha'
      simpa [setInfo,hab,hn,hbuf] using hs.ends k a ha'
  · intro k hk
    have hsame : t.handle k = s.handle k := h.handle_of_ne k hk
    cases hhandle : s.handle k with
    | none =>
      rw [value_of_null hhandle,value_of_null (s := t.setInfo b _) (hsame.trans hhandle)]
    | some a =>
      have hab := hother k a hk hhandle
      obtain ⟨-,hn,hbuf⟩ := h.kept k a hk hhandle
      rw [value_of_handle hhandle,value_of_handle (s := t.setInfo b _) (hsame.trans hhandle)]
      simp [setInfo,hab,hn,hbuf]
  · rw [value_of_handle (s := t.setInfo b _) h.handle_self]
    simp [setInfo,h.count]

variable [DecidableEq ι]

/-- What `Free` does to a handle that has a buffer. -/
theorem free_of_handle (h : s.handle i = some a) : s.free i =
    { s.setInfo a { s.info a with ref := (s.info a).ref-1 } with
      handle := Function.update s.handle i none } := by
  rw [free,h]

/-- `Free` leaves the bytes of all buffers and the other handles alone. -/
theorem free_frame (s : Store ι) (i : ι) : (s.free i).handle = Function.update s.handle i none ∧
    (s.free i).next = s.next ∧ ∀ a, ((s.free i).info a).x = (s.info a).x ∧
      ((s.free i).info a).n = (s.info a).n ∧ ((s.free i).info a).buf = (s.info a).buf := by
  cases h : s.handle i with
  | none =>
    have hfree : s.free i = s := by rw [free,h]
    rw [hfree,← h,Function.update_eq_self]
    exact ⟨rfl,rfl,fun a => ⟨rfl,rfl,rfl⟩⟩
  | some b =>
    rw [free_of_handle h]
    refine ⟨rfl,rfl,fun a => ?_⟩
    by_cases hab : a = b
    · subst hab
      simp [setInfo]
    · simp [setInfo,hab]

theorem free_value (s : Store ι) (i : ι) :
    (∀ k, k ≠ i → (s.free i).value k = s.value k) ∧ (s.free i).value i = [] := by
  obtain ⟨hhandle,-,hinfo⟩ := free_frame s i
  constructor
  · intro k hk
    have hsame : (s.free i).handle k = s.handle k := by rw [hhandle,Function.update_of_ne hk]
    cases h : s.handle k with
    | none => rw [value_of_null h,value_of_null (hsame.trans h)]
    | some a =>
      rw [value_of_handle h,value_of_handle (hsame.trans h),(hinfo a).2.1,(hinfo a).2.2]
  · apply value_of_null
    rw [hhandle,Function.update_self]

/-- What `Copy` does when `j` has another buffer than `i`. -/
theorem copy_frame {b : ℕ} (hij : s.handle i ≠ s.handle j) (hj : s.handle j = some b) :
    (s.copy i j).handle = Function.update s.handle i (some b) ∧ (s.copy i j).next = s.next ∧
      (∀ c, ((s.copy i j).info c).x = (s.info c).x ∧ ((s.copy i j).info c).n = (s.info c).n ∧
        ((s.copy i j).info c).buf = (s.info c).buf) ∧
      ∀ c, ((s.copy i j).info c).ref = if c = b then (s.info c).ref+1
        else if s.handle i = some c then (s.info c).ref-1 else (s.info c).ref := by
  unfold copy
  rw [if_neg hij,hj]
  dsimp only
  obtain ⟨hhandle,hnext,hinfo⟩ := free_frame (s.setInfo b { s.info b with ref := (s.info b).ref+1 }) i
  refine ⟨?_,hnext,fun c => ?_,fun c => ?_⟩
  · rw [hhandle]
    simp [setInfo]
  · obtain ⟨hx,hn,hbuf⟩ := hinfo c
    rw [hx,hn,hbuf]
    by_cases hc : c = b
    · subst hc
      simp [setInfo]
    · simp [setInfo,hc]
  · cases hi : s.handle i with
    | none =>
      have hfree : (s.setInfo b { s.info b with ref := (s.info b).ref+1 }).free i =
          s.setInfo b { s.info b with ref := (s.info b).ref+1 } := by
        unfold free
        simp [setInfo,hi]
      rw [hfree]
      by_cases hc : c = b
      · subst hc
        simp [setInfo]
      · simp [setInfo,hc]
    | some a =>
      have hab : a ≠ b := by
        rintro rfl
        exact hij (hi.trans hj.symm)
      rw [free_of_handle (s := s.setInfo b _) hi]
      by_cases hc : c = b
      · subst hc
        simp [setInfo,hab.symm]
      · by_cases hca : c = a
        · subst hca
          simp [setInfo,hc]
        · have hac : a ≠ c := fun h => hca h.symm
          simp [setInfo,hc,hca,hac]

variable [Fintype ι]

theorem free_sound (hs : s.Sound) (i : ι) : (s.free i).Sound := by
  obtain ⟨hhandle,hnext,hinfo⟩ := free_frame s i
  have hold (k : ι) (a : ℕ) (h : (s.free i).handle k = some a) : s.handle k = some a ∧ k ≠ i := by
    rw [hhandle] at h
    by_cases hk : k = i
    · subst hk
      simp at h
    · exact ⟨by simpa [hk] using h,hk⟩
  refine ⟨?_,?_,?_,?_⟩
  · intro k a h
    rw [hnext]
    exact hs.lt k a (hold k a h).1
  · intro k a h
    have hcount := refs_update s.handle i none a
    rw [hhandle]
    cases hi : s.handle i with
    | none =>
      have hfree : s.free i = s := by rw [free,hi]
      rw [hfree,← hi,Function.update_eq_self]
      exact hs.ref k a (hold k a h).1
    | some b =>
      have href := hs.ref k a (hold k a h).1
      rw [free_of_handle hi]
      by_cases hab : a = b
      · subst hab
        rw [if_pos hi,if_neg nofun] at hcount
        simp only [setInfo,Function.update_self]
        omega
      · rw [if_neg (by rw [hi]; exact fun h => hab (Option.some.inj h).symm),if_neg nofun] at hcount
        simp only [setInfo,Function.update_of_ne hab]
        omega
  · intro k a h
    rw [(hinfo a).1,(hinfo a).2.1]
    exact hs.room k a (hold k a h).1
  · intro k a h
    rw [(hinfo a).2.1,(hinfo a).2.2]
    exact hs.ends k a (hold k a h).1

theorem alloc_owned (hs : s.Sound) (hi : s.handle i = none) {b : BufferInfo} (href : b.ref = 1)
    (hroom : b.n ≤ b.x) : Owned s (s.alloc i b) i s.next b.n := by
  have hfresh (k : ι) (a : ℕ) (h : s.handle k = some a) : a ≠ s.next := (hs.lt k a h).ne
  have hself : (s.alloc i b).handle i = some s.next := Function.update_self _ _ _
  have hne (k : ι) (hk : k ≠ i) : (s.alloc i b).handle k = s.handle k := Function.update_of_ne hk _ _
  refine ⟨hself,hne,fun k _ h => hfresh k _ h rfl,?_,?_,?_,?_,?_,?_⟩
  · intro k a _ h
    simp [alloc,hfresh k a h]
  · intro k a h
    by_cases hk : k = i
    · subst hk
      obtain rfl := Option.some.inj (hself.symm.trans h)
      have hone := (refs_eq_one_iff hself).mpr fun k hk hka =>
        hfresh k _ ((hne k hk).symm.trans hka) rfl
      rw [hone]
      simpa [alloc] using href
    · have ha := (hne k hk).symm.trans h
      have hcount := refs_update s.handle i (some s.next) a
      rw [if_neg (by rw [hi]; exact nofun),
        if_neg fun h' => hfresh k a ha (Option.some.inj h').symm] at hcount
      have hold := hs.ref k a ha
      simp only [alloc,Function.update_of_ne (hfresh k a ha)]
      omega
  · simp [alloc]
  · simpa [alloc] using hroom
  · intro a ha
    rw [hi] at ha
    cases ha
  · intro k a h
    by_cases hk : k = i
    · subst hk
      obtain rfl := Option.some.inj (hself.symm.trans h)
      exact Nat.lt_succ_self _
    · exact (hs.lt k a ((hne k hk).symm.trans h)).trans (Nat.lt_succ_self _)

/-- A buffer that only `i` refers to may be changed in place. -/
theorem setInfo_owned (hs : s.Sound) (hi : s.handle i = some a) (href : (s.info a).ref = 1)
    {b : BufferInfo} (hb : b.ref = 1) (hroom : b.n ≤ b.x)
    (hkeep : ∀ p < min (s.info a).n b.n, b.buf p = (s.info a).buf p) :
    Owned s (s.setInfo a b) i a b.n := by
  have halone := (refs_eq_one_iff hi).mp ((hs.ref i a hi).symm.trans href)
  refine ⟨hi,fun _ _ => rfl,halone,?_,?_,?_,?_,?_,hs.lt⟩
  · intro k c hk h
    have hca : c ≠ a := by
      rintro rfl
      exact halone k hk h
    simp [setInfo,hca]
  · intro k c h
    by_cases hca : c = a
    · subst hca
      simpa [setInfo,hb] using ((refs_eq_one_iff hi).mpr halone).symm
    · simpa [setInfo,hca] using hs.ref k c h
  · simp [setInfo]
  · simpa [setInfo] using hroom
  · intro c hc
    obtain rfl := Option.some.inj (hi.symm.trans hc)
    simpa [setInfo] using hkeep

/-- `Grow` to a positive size leaves `i` with a buffer of its own. -/
theorem bufGrow_owned (blank : ℕ → ℕ → Byte) (hs : s.Sound) (i : ι) (hn : 0 < n) :
    ∃ b, Owned s (bufGrow blank s i n) i b n := by
  unfold bufGrow
  cases hi : s.handle i with
  | none =>
    simp only [if_pos hn]
    exact ⟨s.next,alloc_owned hs hi rfl le_rfl⟩
  | some a =>
    simp only [if_pos hn]
    by_cases href : (s.info a).ref = 1
    · rw [if_pos href]
      refine ⟨a,?_⟩
      have hroom := hs.room i a hi
      by_cases hx : (s.info a).x < n
      · rw [if_pos hx]
        refine setInfo_owned hs hi href rfl (Nat.le_add_right _ _) fun p hp => if_pos ?_
        have hp' : p < min (s.info a).n n := hp
        omega
      · rw [if_neg hx]
        exact setInfo_owned hs hi href href (not_lt.mp hx) fun p _ => rfl
    · rw [if_neg href]
      obtain ⟨hhandle,hnext,hinfo⟩ := free_frame s i
      have hnull : (s.free i).handle i = none := by rw [hhandle,Function.update_self]
      have hne (k : ι) (hk : k ≠ i) : (s.free i).handle k = s.handle k := by
        rw [hhandle,Function.update_of_ne hk]
      obtain ⟨hself,hother,halone,hkept,hrefs,hcount,hroom,-,hlt⟩ := alloc_owned (free_sound hs i) hnull
        (b := ⟨1,n + max 256 (n/2),n,
          fun p => if p < min (s.info a).n n then (s.info a).buf p else blank s.next p⟩)
        rfl (Nat.le_add_right _ _)
      refine ⟨(s.free i).next,hself,fun k hk => (hother k hk).trans (hne k hk),
        fun k hk h => halone k hk ((hne k hk).trans h),?_,hrefs,hcount,hroom,?_,hlt⟩
      · intro k c hk h
        obtain ⟨hx,hn',hbuf⟩ := hkept k c hk ((hne k hk).trans h)
        exact ⟨hx.trans (hinfo c).1,hn'.trans (hinfo c).2.1,hbuf.trans (hinfo c).2.2⟩
      · intro c hc p hp
        obtain rfl := Option.some.inj (hi.symm.trans hc)
        simp only [alloc,Function.update_self]
        exact if_pos hp

/-- After `Copy` both handles show the same. -/
theorem copy_spec (hs : s.Sound) (i j : ι) : (s.copy i j).Sound ∧
    (∀ k, k ≠ i → (s.copy i j).value k = s.value k) ∧ (s.copy i j).value i = s.value j := by
  by_cases hij : s.handle i = s.handle j
  · have hcopy : s.copy i j = s := if_pos hij
    rw [hcopy]
    exact ⟨hs,fun _ _ => rfl,value_congr hij⟩
  · cases hj : s.handle j with
    | none =>
      have hcopy : s.copy i j = s.free i := by
        unfold copy
        rw [if_neg hij,hj]
      obtain ⟨hvalue,hself⟩ := free_value s i
      rw [hcopy]
      exact ⟨free_sound hs i,hvalue,hself.trans (value_of_null hj).symm⟩
    | some b =>
      obtain ⟨hhandle,hnext,hinfo,href⟩ := copy_frame hij hj
      have hself : (s.copy i j).handle i = some b := by rw [hhandle,Function.update_self]
      have hne (k : ι) (hk : k ≠ i) : (s.copy i j).handle k = s.handle k := by
        rw [hhandle,Function.update_of_ne hk]
      -- Whatever is referred to afterwards was referred to before.
      have hold (k : ι) (c : ℕ) (h : (s.copy i j).handle k = some c) : ∃ k', s.handle k' = some c := by
        by_cases hk : k = i
        · subst hk
          obtain rfl := Option.some.inj (hself.symm.trans h)
          exact ⟨j,hj⟩
        · exact ⟨k,(hne k hk).symm.trans h⟩
      refine ⟨⟨?_,?_,?_,?_⟩,?_,?_⟩
      · intro k c h
        obtain ⟨k',h'⟩ := hold k c h
        rw [hnext]
        exact hs.lt k' c h'
      · intro k c h
        obtain ⟨k',h'⟩ := hold k c h
        have hcount := refs_update s.handle i (some b) c
        have hbefore := hs.ref k' c h'
        rw [href,hhandle]
        by_cases hc : c = b
        · subst hc
          rw [if_neg (by rw [← hj]; exact hij),if_pos rfl] at hcount
          rw [if_pos rfl]
          omega
        · rw [if_neg fun h => hc (Option.some.inj h).symm] at hcount
          rw [if_neg hc]
          split_ifs at hcount ⊢ <;> omega
      · intro k c h
        obtain ⟨k',h'⟩ := hold k c h
        rw [(hinfo c).1,(hinfo c).2.1]
        exact hs.room k' c h'
      · intro k c h
        obtain ⟨k',h'⟩ := hold k c h
        rw [(hinfo c).2.1,(hinfo c).2.2]
        exact hs.ends k' c h'
      · intro k hk
        cases h : s.handle k with
        | none => rw [value_of_null h,value_of_null ((hne k hk).trans h)]
        | some c =>
          rw [value_of_handle h,value_of_handle ((hne k hk).trans h),(hinfo c).2.1,(hinfo c).2.2]
      · rw [value_of_handle hself,value_of_handle hj,(hinfo b).2.1,(hinfo b).2.2]

end Store

end Smx
