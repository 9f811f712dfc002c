import Smx.Strings.Substr

/-! `%lpad`, `%rpad` and `%cpad`. -/
namespace Smx

/-- What `PadParams` reads: the string, the width and the fill. -/
structure PadParams where
  str : Text
  pad : ℤ
  isInt : IsInt pad
  fill : Bytes

/-- `PadParams`, for the string and the arguments behind it. -/
def padParams (str : Text) : List Bytes → PadParams
  | [] => ⟨str,0,by decide,[ch ' ']⟩
  | [p] => ⟨str,atoi p,isInt_atoi p,[ch ' ']⟩
  | p::f::_ => ⟨str,atoi p,isInt_atoi p,f⟩

/-- `for (; i < p; ++i) out->PutC(f[j++ % l]);`: what is put out, and the counters behind it. -/
def padLoop (f : Bytes) (p : ℤ) : ℕ → ℤ → ℕ → Bytes × ℤ × ℕ
  | 0,i,j => ([],i,j)
  | k+1,i,j =>
    if i < p then
      let (text,i',j') := padLoop f p k (i+1) (j+1)
      (f.getD (j % f.length) 0::text,i',j')
    else ([],i,j)

/-- What is put out in front of the string, and behind it. -/
structure Padded where
  left : Bytes
  str : Bytes
  right : Bytes
  deriving DecidableEq

def Padded.out (t : Padded) : Bytes := t.left ++ t.str ++ t.right

/-- The loop from `i` on, left out where there is no fill. -/
def padFrom (f : Bytes) (p i : ℤ) (j : ℕ) : Bytes × ℤ × ℕ :=
  if 0 < f.length then padLoop f p (p-i).toNat i j else ([],i,j)

/-- `EvalLPad`. -/
def evalLPad (q : PadParams) : Padded := ⟨(padFrom q.fill q.pad q.str.length 0).1,q.str.bytes,[]⟩

/-- `EvalRPad`. -/
def evalRPad (q : PadParams) : Padded := ⟨[],q.str.bytes,(padFrom q.fill q.pad q.str.length 0).1⟩

/-- `EvalCPad`; `none` where the width less the length overflows. -/
def evalCPad (q : PadParams) : Option Padded :=
  if 0 < q.fill.length then do
    let d ← intValue (q.pad-q.str.length)
    let (left,i,j) := padFrom q.fill (d.tdiv 2) q.str.length 0
    return ⟨left,q.str.bytes,(padFrom q.fill q.pad i j).1⟩
  else some ⟨[],q.str.bytes,[]⟩

/-- `n` characters of the fill, from the one numbered `j` on. -/
def fillText (f : Bytes) (j n : ℕ) : Bytes := (List.range n).map fun k => f.getD ((j+k) % f.length) 0

variable {f : Bytes} {p i : ℤ} {j : ℕ}

theorem fillText_succ (n : ℕ) : fillText f j (n+1) = f.getD (j % f.length) 0::fillText f (j+1) n := by
  simp [fillText,List.range_succ_eq_map,Nat.add_assoc,Nat.add_comm 1]

@[simp] theorem length_fillText (n : ℕ) : (fillText f j n).length = n := by simp [fillText]

theorem padLoop_eq (k : ℕ) (hk : (p-i).toNat = k) : padLoop f p k i j = (fillText f j k,i+k,j+k) := by
  induction k generalizing i j with
  | zero => simp [padLoop,fillText]
  | succ k ih =>
    have hlt : i < p := by omega
    rw [padLoop,if_pos hlt,ih (by omega),fillText_succ]
    simp only [Prod.mk.injEq,true_and]
    omega

theorem padFrom_eq (hf : f ≠ []) : padFrom f p i j = (fillText f j (p-i).toNat,i+(p-i).toNat,j+(p-i).toNat) := by
  rw [padFrom,if_pos (List.length_pos_of_ne_nil hf)]
  exact padLoop_eq _ rfl

/-- How many characters are missing. -/
def PadParams.missing (q : PadParams) : ℕ := (q.pad-q.str.length).toNat

/-- The missing characters stand on the left, on the right, or half of them on each side. -/
structure PadsWell (q : PadParams) : Prop where
  lpad : evalLPad q = ⟨fillText q.fill 0 q.missing,q.str.bytes,[]⟩
  rpad : evalRPad q = ⟨[],q.str.bytes,fillText q.fill 0 q.missing⟩
  cpad : evalCPad q = some ⟨fillText q.fill 0 (q.missing/2),q.str.bytes,
    fillText q.fill (q.missing/2) (q.missing-q.missing/2)⟩

variable {q : PadParams}

/-- What is put out is as long as the width, if the string is not longer. -/
theorem PadsWell.length_out (h : PadsWell q) : ((evalLPad q).out.length : ℤ) = max q.pad q.str.length ∧
    ((evalRPad q).out.length : ℤ) = max q.pad q.str.length ∧
    ∀ t, evalCPad q = some t → (t.out.length : ℤ) = max q.pad q.str.length := by
  have hlen : ((q.str.bytes.length + q.missing : ℕ) : ℤ) = max q.pad q.str.length := by
    simp only [PadParams.missing,Text.length]
    omega
  refine ⟨?_,?_,?_⟩
  · rw [h.lpad,← hlen]
    simp [Padded.out,Nat.add_comm]
  · rw [h.rpad,← hlen]
    simp [Padded.out]
  · intro t ht
    obtain rfl := Option.some.inj (h.cpad.symm.trans ht)
    rw [← hlen]
    simp only [Padded.out,List.length_append,length_fillText]
    omega

theorem evalLPad_eq (hf : q.fill ≠ []) : evalLPad q = ⟨fillText q.fill 0 q.missing,q.str.bytes,[]⟩ := by
  rw [evalLPad,padFrom_eq hf]
  rfl

theorem evalRPad_eq (hf : q.fill ≠ []) : evalRPad q = ⟨[],q.str.bytes,fillText q.fill 0 q.missing⟩ := by
  rw [evalRPad,padFrom_eq hf]
  rfl

theorem evalCPad_none (hf : q.fill ≠ []) (hlow : q.pad-q.str.length < -2^31) : evalCPad q = none := by
  have hint : ¬IsInt (q.pad-q.str.length) := fun h => absurd h.1 (by omega)
  simp [evalCPad,List.length_pos_of_ne_nil hf,intValue,hint]

/-- The left side of `%cpad` starts to count at the length of the string. -/
theorem evalCPad_some (hf : q.fill ≠ []) (hlow : -2^31 ≤ q.pad-q.str.length) {k : ℕ}
    (hk : ((q.pad-q.str.length).tdiv 2-q.str.length).toNat = k) :
    evalCPad q = some ⟨fillText q.fill 0 k,q.str.bytes,fillText q.fill k (q.pad-(q.str.length+k)).toNat⟩ := by
  have hlen := q.str.length_mem
  have hpad := q.isInt.2
  simp only [evalCPad,List.length_pos_of_ne_nil hf,if_true,intValue_of_isInt ⟨hlow,by omega⟩,padFrom_eq hf,hk,
    Option.bind_eq_bind,Option.bind_some,Nat.zero_add]
  rfl

/-- Half of a number of characters; a negative number is rounded towards 0. -/
theorem tdiv_two (x : ℤ) : x.tdiv 2 = (x.toNat/2 : ℕ) ∨ x < 0 ∧ x.tdiv 2 ≤ 0 := by
  rcases lt_or_ge x 0 with hx | hx
  · right
    refine ⟨hx,?_⟩
    have hneg : (-x).tdiv 2 = -x/2 := Int.tdiv_eq_ediv_of_nonneg (by omega)
    rw [Int.neg_tdiv] at hneg
    omega
  · left
    rw [Int.tdiv_eq_ediv_of_nonneg hx]
    omega

/-- Padding is right iff the string is empty, or the width is at most one more than its length and does not
overflow. -/
theorem padsWell_iff (q : PadParams) (hf : q.fill ≠ []) :
    PadsWell q ↔ q.str.bytes = [] ∨ (-2^31 ≤ q.pad-q.str.length ∧ q.pad ≤ q.str.length+1) := by
  have hlen := q.str.length_mem
  have hpad := q.isInt
  have hhalf := tdiv_two (q.pad-q.str.length)
  have hiff : PadsWell q ↔ evalCPad q = some ⟨fillText q.fill 0 (q.missing/2),q.str.bytes,
      fillText q.fill (q.missing/2) (q.missing-q.missing/2)⟩ :=
    ⟨fun h => h.cpad,fun h => ⟨evalLPad_eq hf,evalRPad_eq hf,h⟩⟩
  rw [hiff]
  by_cases hempty : q.str.bytes = []
  · have hzero : q.str.length = 0 := by simp [Text.length,hempty]
    simp only [hempty,true_or,iff_true]
    rw [evalCPad_some hf (by have := hpad.1; omega) (k := q.missing/2) (by simp only [PadParams.missing]; omega),hempty]
    congr 3
    simp only [PadParams.missing]
    omega
  · have hpos : 0 < q.str.length := by
      have := List.length_pos_of_ne_nil hempty
      simp only [Text.length]
      omega
    simp only [hempty,false_or]
    by_cases hlow : -2^31 ≤ q.pad-q.str.length
    · rw [evalCPad_some hf hlow rfl]
      simp only [hlow,true_and]
      constructor
      · intro h
        have hleft := congrArg (fun t : Padded => t.left.length) (Option.some.inj h)
        simp only [length_fillText,PadParams.missing] at hleft
        omega
      · intro hle
        have hzero : q.missing/2 = 0 := by
          simp only [PadParams.missing]
          omega
        have hk : ((q.pad-q.str.length).tdiv 2-q.str.length).toNat = 0 := by omega
        rw [hzero,hk]
        simp [PadParams.missing]
    · rw [evalCPad_none hf (by omega)]
      exact iff_of_false (by rintro ⟨⟩) fun h => hlow h.1

/-- One character and a width of three: both blanks stand on the right. -/
theorem uneven_sides : (padParams ⟨str "x",by decide⟩ [str "3"]).fill ≠ [] ∧
    ¬PadsWell (padParams ⟨str "x",by decide⟩ [str "3"]) := by
  refine ⟨List.cons_ne_nil _ _,?_⟩
  intro h
  exact absurd h.cpad (by decide)

theorem padsWell_iff_one : PadsWell (padParams ⟨str "x",by decide⟩ [str "2",str "-"]) ↔
    str "x" = [] ∨ (-2^31 ≤ atoi (str "2")-((str "x").length : ℤ) ∧ atoi (str "2") ≤ ((str "x").length : ℤ)+1) :=
  padsWell_iff (padParams ⟨str "x",by decide⟩ [str "2",str "-"]) (List.cons_ne_nil _ _)
end Smx
