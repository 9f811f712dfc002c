import Mathlib.Algebra.Order.Floor.Ring
import Mathlib.Data.Rat.Floor
import Smx.Lib.Backward
import Smx.Table.ColDef

/-! `CTabFmt::NumFmt`: a number is printed into a buffer, and copied from its front to its end when it is grouped. -/
namespace Smx

open Memory

/-- The nearest whole number, and the even one of two. -/
def roundEven (x : ℚ) : ℕ :=
  let n := ⌊x⌋₊
  if x-n < 1/2 then n else if 1/2 < x-n then n+1 else if n % 2 = 0 then n else n+1

/-- The value in units of the last decimal place. -/
def scaled (dec : ℕ) (val : ℚ) : ℕ := roundEven (|val| * 10^dec)

/-- The last `dec` digits of a number. -/
def lastDigits : ℕ → ℕ → Bytes
  | 0,_ => []
  | d+1,n => lastDigits d (n/10) ++ [digitChar (n % 10)]

def signText (val : ℚ) : Bytes := if val < 0 then [ch '-'] else []

/-- The digits in front of the decimal point. -/
def wholeText (dec : ℕ) (val : ℚ) : Bytes := decDigits (scaled dec val/10^dec)

/-- `printf("%.*f", dec, val)` -/
def printed (dec : ℕ) (val : ℚ) : Bytes :=
  signText val ++ wholeText dec val ++ if dec = 0 then [] else ch '.'::lastDigits dec (scaled dec val)

/-- `_snprintf(szOut, cbOut, …)`, where `szOut` is behind the first cell of a buffer of `cb`. -/
def snprintf (cb : ℕ) (mem : ℕ → Byte) (text : Bytes) : ℕ → Byte := write mem 1 (text.take (cb-2) ++ [0])

/-- `szOut + len - 1`, where the length is -1 if it is no `int`. -/
def printedEnd (text : Bytes) : ℕ := if text.length < 2^31 then text.length+1 else 0

section
variable (size : ℕ)

/-- `while (t-- > 0 && *p == '0') *p-- = ' ';` -/
def blankZeros : ℕ → ℕ → (ℕ → Byte) → Option (ℕ → Byte)
  | 0,_,mem => some mem
  | t+1,p,mem => do
    let c ← fetchBack size mem p
    if c = ch '0' then
      let mem ← storeBack size mem p (ch ' ')
      blankZeros t (p-1) mem
    else some mem

def trimZeros (col : ColFmt) (p : ℕ) (mem : ℕ → Byte) : Option (ℕ → Byte) :=
  if 0 < col.dec ∧ col.trz ≠ 0 then blankZeros size (col.dec-col.trz+1).toNat p mem else some mem

/-- `while ((*n-- = *p--) != '.');` -/
def copyPoint : ℕ → ℕ → (ℕ → Byte) → Option (ℕ × ℕ × (ℕ → Byte))
  | _,0,_ => none
  | n,p+1,mem => do
    let c ← fetch size mem p
    let mem ← storeBack size mem n c
    if c = ch '.' then some (n-1,p,mem) else copyPoint (n-1) p mem

/-- The loop over the whole digits, and the sign. -/
def copyGroups (tho : Byte) : ℕ → ℕ → ℕ → (ℕ → Byte) → Option (ℕ × (ℕ → Byte))
  | _,_,0,_ => none
  | i,n,p+1,mem => do
    let c ← fetch size mem p
    if c = 0 then some (n,mem)
    else if tho ≠ 0 ∧ isdigit c then
      if (i+1) % 3 = 0 then
        let mem ← storeBack size mem n tho
        let c ← fetch size mem p
        let mem ← storeBack size mem (n-1) c
        copyGroups tho (i+1) (n-2) p mem
      else
        let mem ← storeBack size mem n c
        copyGroups tho (i+1) (n-1) p mem
    else
      let mem ← storeBack size mem n c
      copyGroups tho i (n-1) p mem

/-- `if ((n = strchr(szOut, '.'))) *n = col.dch;` -/
def putPoint (dch : Byte) (mem : ℕ → Byte) : Option (ℕ → Byte) :=
  if dch ≠ 0 ∧ dch ≠ ch '.' then do
    let q ← scan size mem (fun c => c != 0 && c != ch '.') size 1
    let c ← fetch size mem q
    if c = ch '.' then store size mem q dch else some mem
  else some mem

/-- The decimals and the point, or nothing: the pointers behind them. -/
def copyDecimals (dec : ℤ) (n p : ℕ) (mem : ℕ → Byte) : Option (ℕ × ℕ × (ℕ → Byte)) :=
  if 0 < dec then copyPoint size n p mem
  else do
    let c ← fetchBack size mem p
    some (n,if c = ch '.' then p-1 else p,mem)

/-- `if (*n && n[1] == '.' && col.dch) n[1] = col.dch;` -/
def replacePoint (dch : Byte) (n : ℕ) (mem : ℕ → Byte) : Option (ℕ → Byte) := do
  let c ← fetchBack size mem n
  if c ≠ 0 then
    let d ← fetchBack size mem (n+1)
    if d = ch '.' ∧ dch ≠ 0 then storeBack size mem (n+1) dch else some mem
  else some mem

/-- The last whole digit, and the loop over the others. -/
def copyWhole (tho : Byte) (n p : ℕ) (mem : ℕ → Byte) : Option (ℕ × (ℕ → Byte)) := do
  let c ← fetchBack size mem p
  if c ≠ 0 then
    let mem ← storeBack size mem n c
    copyGroups size tho 0 (n-1) (p-1) mem
  else some (n,mem)

/-- The number is copied to the end of the buffer: the text there. -/
def groupText (col : ColFmt) (p : ℕ) (mem : ℕ → Byte) : Option Bytes := do
  let mem ← storeBack size mem size 0
  let (n,p,mem) ← copyDecimals size col.dec (size-1) p mem
  let mem ← replacePoint size col.dch n mem
  let (n,mem) ← copyWhole size col.tho n p mem
  text size mem (· == 0) size n

end

/-- The text of a value that is not zero. -/
def valueFmt (col : ColFmt) (val : ℚ) (cb : ℕ) (mem : ℕ → Byte) : Option Bytes := do
  let shown := printed col.dec.toNat val
  let mem ← trimZeros cb col (printedEnd shown) (snprintf cb (Function.update mem 0 0) shown)
  if 1000 ≤ |val| then groupText cb col (printedEnd shown) mem
  else
    let mem ← putPoint cb col.dch mem
    text cb mem (· == 0) cb 1

/-- The text of a zero. -/
def zeroFmt (col : ColFmt) (cb : ℕ) (mem : ℕ → Byte) : Option Bytes := do
  let shown :=
    if col.zer = ch '-' then List.replicate (col.dec+1).toNat (ch ' ') ++ [ch '-']
    else if col.zer = ch ' ' ∨ col.zer = ch '_' then []
    else printed col.dec.toNat 0
  let mem ← putPoint cb col.dch (snprintf cb (Function.update mem 0 0) shown)
  text cb mem (· == 0) cb 1

/-- `NumFmt` for a cell whose text `szDat` has the value `val`, with a buffer of `cb` cells. -/
def numFmt (col : ColFmt) (szDat : Bytes) (val : ℚ) (cb : ℕ) (mem : ℕ → Byte) : Option Bytes :=
  if -1 < col.dec then
    if val = 0 then zeroFmt col cb mem else valueFmt col val cb mem
  else some szDat

/-- What a buffer held before. -/
def dirty (_ : ℕ) : Byte := ch 'x'

example : numFmt { dec := 2, tho := ch ',', dch := ch '.' } [] (-1234567891/1000) 256 dirty =
    some (str "-1,234,567.89") := by decide +kernel

example : numFmt { dec := 2, tho := ch ',' } [] (999999/1000) 512 dirty = some (str "1000.00") := by decide +kernel

/-- A separator in front of every group of three, from the right. -/
def group (tho : Byte) : Bytes → Bytes
  | [] => []
  | c::cs => c::if tho ≠ 0 ∧ cs ≠ [] ∧ cs.length % 3 = 0 then tho::group tho cs else group tho cs

/-- The zeros at the end are blanked, `t` of them at most. -/
def blanked (t : ℕ) (ds : Bytes) : Bytes :=
  let zeros := min t (ds.reverse.takeWhile (· == ch '0')).length
  ds.take (ds.length-zeros) ++ List.replicate zeros (ch ' ')

/-- The decimals, as `trz` asks for them. -/
def decimals (col : ColFmt) (val : ℚ) : Bytes :=
  let ds := lastDigits col.dec.toNat (scaled col.dec.toNat val)
  if col.trz = 0 then ds else blanked (col.dec-col.trz+1).toNat ds

def fraction (point : Byte) (col : ColFmt) (val : ℚ) : Bytes := if col.dec = 0 then [] else point::decimals col val

/-- How a value that is not zero is to be shown. -/
def numText (col : ColFmt) (val : ℚ) : Bytes :=
  signText val ++ group col.tho (wholeText col.dec.toNat val) ++
    fraction (if col.dch = 0 then ch '.' else col.dch) col val

/-- The cell in front of the copied point is not NUL: it is of the printed text, or of what the buffer held. -/
def PointSeen (col : ColFmt) (val : ℚ) (cb : ℕ) (mem : ℕ → Byte) : Prop :=
  let len := (printed col.dec.toNat val).length
  let q := cb-3-col.dec.toNat
  q ≤ len ∨ len+1 < q ∧ mem q ≠ 0

section
variable {size n n' p i : ℕ} {mem mem' : ℕ → Byte} {tho c : Byte} {text : Bytes}

/-- The loop does not end once it reads what it has written itself. -/
theorem copyGroups_pos (htho : ∀ q, n ≤ q → q < p → mem q ≠ 0)
    (h : copyGroups size tho i n p mem = some (n',mem')) : 1 ≤ n' := by
  induction p generalizing i n mem with
  | zero => cases h
  | succ p ih =>
    rw [copyGroups] at h
    obtain ⟨c,hc,h⟩ := Option.bind_eq_some_iff.mp h
    obtain ⟨hlt,rfl⟩ := fetch_eq_some.mp hc
    -- what is put at the two pointers is not NUL
    have hmove : ∀ {i n : ℕ} {mem₁ mem₂ : ℕ → Byte} {c : Byte}, c ≠ 0 → (∀ q, n ≤ q → q < p → mem₁ q ≠ 0) →
        storeBack size mem₁ n c = some mem₂ → copyGroups size tho i (n-1) p mem₂ = some (n',mem') → 1 ≤ n' := by
      intro i n mem₁ mem₂ c hne hmem hs hloop
      obtain ⟨q,rfl,-,rfl⟩ := storeBack_eq_some.mp hs
      refine ih ?_ hloop
      intro r hr hrp
      rcases Nat.eq_or_lt_of_le hr with rfl | hr
      · simpa using hne
      · rw [Nat.add_sub_cancel] at hr
        rw [Function.update_of_ne hr.ne']
        exact hmem r hr hrp
    have hold : ∀ q, n ≤ q → q < p → mem q ≠ 0 := fun q hq hqp => htho q hq (hqp.trans (Nat.lt_succ_self p))
    split_ifs at h with hz hd hi
    · have hend : ¬n ≤ p := fun hn => htho p hn (Nat.lt_succ_self p) hz
      cases h
      omega
    · obtain ⟨mem₁,hs,h₁⟩ := Option.bind_eq_some_iff.mp h
      obtain ⟨c,hc,h₂⟩ := Option.bind_eq_some_iff.mp h₁
      obtain ⟨mem₂,hs',h₃⟩ := Option.bind_eq_some_iff.mp h₂
      obtain ⟨q,rfl,-,rfl⟩ := storeBack_eq_some.mp hs
      rw [fetch_of_lt hlt] at hc
      have hnew : ∀ r, r < p+1 → (q ≤ r ∨ r = p) → Function.update mem q tho r ≠ 0 := by
        intro r hr hqr
        by_cases hrq : r = q
        · simpa [hrq] using hd.1
        · rw [Function.update_of_ne hrq]
          rcases hqr with hqr | rfl
          · exact htho r (by omega) hr
          · exact hz
      have hn : q+1-2 = q+1-1-1 := by omega
      rw [hn] at h₃
      refine hmove ?_ ?_ hs' h₃
      · cases hc
        exact hnew p (Nat.lt_succ_self p) (Or.inr rfl)
      · intro r hr hrp
        exact hnew r (by omega) (Or.inl hr)
    · obtain ⟨mem₁,hs,h⟩ := Option.bind_eq_some_iff.mp h
      exact hmove hz hold hs h
    · obtain ⟨mem₁,hs,h⟩ := Option.bind_eq_some_iff.mp h
      exact hmove hz hold hs h

theorem copyPoint_le {p' : ℕ} (hp : p ≤ n) (h : copyPoint size n p mem = some (n',p',mem')) : p' ≤ n' := by
  induction p generalizing n mem with
  | zero => cases h
  | succ p ih =>
    obtain ⟨c,-,h₁⟩ := Option.bind_eq_some_iff.mp h
    obtain ⟨mem₁,-,h₂⟩ := Option.bind_eq_some_iff.mp h₁
    split_ifs at h₂
    · cases h₂
      omega
    · exact ih (by omega) h₂

/-- Once NUL is copied nothing else is. -/
theorem copyPoint_stuck (hz : mem n = 0) : copyPoint size n (n+1) mem = none := by
  induction n generalizing mem with
  | zero =>
    rw [copyPoint]
    cases fetch size mem 0 <;> rfl
  | succ n ih =>
    rw [copyPoint]
    by_cases hlt : n+1 < size
    · rw [fetch_of_lt hlt,hz]
      have hs : storeBack size mem (n+1) 0 = some (Function.update mem n 0) := store_of_lt (by omega)
      change (storeBack size mem (n+1) 0 >>= _) = none
      rw [hs]
      exact ih (Function.update_self ..)
    · rw [fetch,if_neg hlt]
      rfl

theorem copyDecimals_le {dec : ℤ} {p' : ℕ} (hz : mem (size-1) = 0)
    (h : copyDecimals size dec (size-1) p mem = some (n',p',mem')) : p' ≤ n'+1 := by
  rw [copyDecimals] at h
  split_ifs at h
  · cases p with
    | zero => cases h
    | succ q =>
      have hq : q < size := by
        obtain ⟨c,hc,-⟩ := Option.bind_eq_some_iff.mp h
        exact (fetch_eq_some.mp hc).1
      rcases Nat.lt_or_ge q (size-1) with hlt | hge
      · exact (copyPoint_le hlt h).trans (Nat.le_succ n')
      · obtain rfl : q = size-1 := by omega
        rw [copyPoint_stuck hz] at h
        cases h
  · obtain ⟨c,hc,h₁⟩ := Option.bind_eq_some_iff.mp h
    obtain ⟨q,rfl,hq,-⟩ := fetchBack_eq_some.mp hc
    cases h₁
    split_ifs <;> omega

theorem copyWhole_pos (hn : 1 ≤ n) (hp : p ≤ n+1) (h : copyWhole size tho n p mem = some (n',mem')) : 1 ≤ n' := by
  obtain ⟨c,-,h₁⟩ := Option.bind_eq_some_iff.mp h
  split_ifs at h₁ with hc
  · obtain ⟨mem₁,hs,h₂⟩ := Option.bind_eq_some_iff.mp h₁
    obtain ⟨q,rfl,-,rfl⟩ := storeBack_eq_some.mp hs
    refine copyGroups_pos ?_ h₂
    intro r hr hrp
    obtain rfl : r = q := by omega
    rw [Function.update_self]
    exact hc
  · cases h₁
    exact hn

/-- What is read back fits into the buffer, behind the cell in front of it. -/
theorem groupText_length {col : ColFmt} (h : groupText size col p mem = some text) : text.length+2 ≤ size := by
  obtain ⟨mem₁,h₁,h⟩ := Option.bind_eq_some_iff.mp h
  obtain ⟨⟨n,p,mem₂⟩,h₂,h⟩ := Option.bind_eq_some_iff.mp h
  obtain ⟨mem₃,h₃,h⟩ := Option.bind_eq_some_iff.mp h
  obtain ⟨⟨n',mem₄⟩,h₄,h⟩ := Option.bind_eq_some_iff.mp h
  have hz : mem₁ (size-1) = 0 := by
    obtain ⟨q,hq,-,rfl⟩ := storeBack_eq_some.mp h₁
    rw [hq,Nat.add_sub_cancel,Function.update_self]
  have hn : 1 ≤ n := by
    obtain ⟨c,hc,-⟩ := Option.bind_eq_some_iff.mp h₃
    obtain ⟨q,rfl,-⟩ := fetchBack_eq_some.mp hc
    exact Nat.succ_pos q
  have hn' := copyWhole_pos hn (copyDecimals_le hz h₂) h₄
  have htext := text_lt h
  omega

theorem valueFmt_length {col : ColFmt} {val : ℚ} {cb : ℕ} (h : valueFmt col val cb mem = some text) :
    text.length+2 ≤ cb := by
  obtain ⟨mem₁,-,h₁⟩ := Option.bind_eq_some_iff.mp h
  split_ifs at h₁
  · exact groupText_length h₁
  · obtain ⟨mem₂,-,h₂⟩ := Option.bind_eq_some_iff.mp h₁
    have htext := text_lt h₂
    omega

end

end Smx
