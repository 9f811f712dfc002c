import Smx.Time.DateParse

/-! `FmtTime`: the items of a format, from the left. -/
namespace Smx.DateParse

def s_wdays : List Bytes :=
  [str "Sunday",str "Monday",str "Tuesday",str "Wednesday",str "Thursday",str "Friday",str "Saturday"]

def s_wday3 : List Bytes := [str "Sun",str "Mon",str "Tue",str "Wed",str "Thu",str "Fri",str "Sat"]

def s_mons : List Bytes :=
  [str "January",str "February",str "March",str "April",str "May",str "June",str "July",str "August",
    str "September",str "October",str "November",str "December"]

def s_mon3 : List Bytes :=
  [str "Jan",str "Feb",str "Mar",str "Apr",str "May",str "Jun",str "Jul",str "Aug",str "Sep",str "Oct",str "Nov",str "Dec"]

/-- A number of two digits. -/
def put2 (n : ℤ) : Bytes := (if n < 10 then [ch '0'] else []) ++ itoa n

/-- An item that is one letter, or the letter twice. -/
def oneOrTwo (p : Bytes) (c : Char) (one two : Bytes) : Bytes × ℕ := if p.getD 1 0 = ch c then (two,2) else (one,1)

/-- The items `m` and `w`, which may have four letters. -/
def upToFour (p : Bytes) (c : Char) (one two three four : Bytes) : Bytes × ℕ :=
  if p.getD 1 0 = ch c then
    if p.getD 2 0 = ch c then if p.getD 3 0 = ch c then (four,4) else (three,3)
    else (two,2)
  else (one,1)

/-- What one item prints, and its length. -/
def fmtItem (tms : Tm) (p : Bytes) : Bytes × ℕ :=
  let c := p.getD 0 0
  if c = ch 'y' ∧ p.getD 1 0 = ch 'y' then
    if p.getD 2 0 = ch 'y' ∧ p.getD 3 0 = ch 'y' then (itoa (tms.year+1900),4)
    else ((if tms.year.tmod 100 < 10 then [ch '0'] else []) ++ itoa ((tms.year+1900).tmod 100),2)
  else if c = ch 'h' then
    let hour := if tms.hour.tmod 12 = 0 then 12 else tms.hour.tmod 12
    oneOrTwo p 'h' (itoa hour) (put2 hour)
  else if c = ch 'H' then oneOrTwo p 'H' (itoa tms.hour) (put2 tms.hour)
  else if c = ch 'n' then oneOrTwo p 'n' (itoa tms.min) (put2 tms.min)
  else if c = ch 'm' then
    upToFour p 'm' (itoa (tms.mon+1)) (put2 (tms.mon+1)) (s_mon3.getD tms.mon.toNat []) (s_mons.getD tms.mon.toNat [])
  else if c = ch 's' then oneOrTwo p 's' (itoa tms.sec) (put2 tms.sec)
  else if c = ch 'w' then
    upToFour p 'w' (itoa tms.wday) (itoa tms.wday) (s_wday3.getD tms.wday.toNat []) (s_wdays.getD tms.wday.toNat [])
  else if c = ch 'd' then oneOrTwo p 'd' (itoa tms.mday) (put2 tms.mday)
  else if c = ch 'a' then
    oneOrTwo p 'a' (if tms.hour > 11 then str "p" else str "a") (if tms.hour > 11 then str "pm" else str "am")
  else if c = ch 'A' then
    oneOrTwo p 'A' (if tms.hour > 11 then str "P" else str "A") (if tms.hour > 11 then str "PM" else str "AM")
  else ([c],1)

/-- The loop of `FmtTime`. -/
def fmtLoop (tms : Tm) : ℕ → Bytes → Bytes
  | 0,_ => []
  | fuel+1,p =>
    if p.getD 0 0 = 0 then []
    else (fmtItem tms p).1 ++ fmtLoop tms fuel (p.drop (fmtItem tms p).2)

/-- `FmtTime`. -/
def FmtTime (tms : Tm) (p : Bytes) : Bytes := fmtLoop tms p.length p

/-- Every item has a length, so that the format has no more items than characters. -/
theorem fmtItem_pos (tms : Tm) (p : Bytes) : 0 < (fmtItem tms p).2 := by
  have hone (c : Char) (one two : Bytes) : 0 < (oneOrTwo p c one two).2 := by
    rw [oneOrTwo]
    split_ifs <;> exact Nat.zero_lt_succ _
  have hfour (c : Char) (one two three four : Bytes) : 0 < (upToFour p c one two three four).2 := by
    rw [upToFour]
    split_ifs <;> exact Nat.zero_lt_succ _
  have hif {P : Prop} [Decidable P] {x y : Bytes × ℕ} (hx : 0 < x.2) (hy : 0 < y.2) : 0 < (if P then x else y).2 := by
    split_ifs
    · exact hx
    · exact hy
  exact hif (hif (Nat.zero_lt_succ _) (Nat.zero_lt_succ _)) (hif (hone ..) (hif (hone ..) (hif (hone ..)
    (hif (hfour ..) (hif (hone ..) (hif (hfour ..) (hif (hone ..) (hif (hone ..) (hif (hone ..)
      (Nat.zero_lt_succ _))))))))))

theorem fmtLoop_fuel (tms : Tm) {fuel : ℕ} {p : Bytes} (h : p.length ≤ fuel) : fmtLoop tms fuel p = FmtTime tms p := by
  suffices hsame : ∀ n m p, p.length ≤ n → p.length ≤ m → fmtLoop tms n p = fmtLoop tms m p from
    hsame _ _ p h le_rfl
  intro n
  induction n with
  | zero =>
    intro m p hn _
    obtain rfl : p = [] := List.length_eq_zero_iff.mp (Nat.le_zero.mp hn)
    cases m <;> rfl
  | succ n ih =>
    intro m p hn hm
    cases m with
    | zero =>
      obtain rfl : p = [] := List.length_eq_zero_iff.mp (Nat.le_zero.mp hm)
      rfl
    | succ m =>
      have hpos := fmtItem_pos tms p
      have hlen : (p.drop (fmtItem tms p).2).length = p.length-(fmtItem tms p).2 := List.length_drop
      rw [fmtLoop,fmtLoop,ih m _ (by omega) (by omega)]

theorem fmtTime_item {tms : Tm} {p q out : Bytes} {k : ℕ} (h : p.getD 0 0 ≠ 0) (hitem : fmtItem tms p = (out,k))
    (hq : p.drop k = q) : FmtTime tms p = out ++ FmtTime tms q := by
  have hpos := fmtItem_pos tms p
  cases p with
  | nil => exact absurd rfl h
  | cons c p =>
    rw [FmtTime,List.length_cons,fmtLoop,if_neg h,fmtLoop_fuel,hitem,hq]
    rw [List.length_drop,List.length_cons]
    omega

/-- What the loop prints, item for item, each with its length in the format. -/
inductive Prints (tms : Tm) : Bytes → List (Bytes × ℕ) → Prop
  | nil : Prints tms [] []
  | item {p out : Bytes} {k : ℕ} {l : List (Bytes × ℕ)} : p.getD 0 0 ≠ 0 → fmtItem tms p = (out,k) →
    Prints tms (p.drop k) l → Prints tms p ((out,k)::l)

theorem Prints.fmtTime_eq {tms : Tm} {p : Bytes} {l : List (Bytes × ℕ)} (h : Prints tms p l) :
    FmtTime tms p = l.flatMap Prod.fst := by
  induction h with
  | nil => rfl
  | item hne hitem _ ih => rw [fmtTime_item hne hitem rfl,ih,List.flatMap_cons]

section
variable (tms : Tm)

/-- The hour that `h` prints. -/
def face : ℤ := if tms.hour.tmod 12 = 0 then 12 else tms.hour.tmod 12

/-- What `aa` prints. -/
def half : Bytes := if tms.hour > 11 then str "pm" else str "am"

theorem prints_slash_seconds : Prints tms (str "m/d/yyyy hh:nn:ss aa") [(itoa (tms.mon+1),1),([ch '/'],1),(itoa tms.mday,1),
    ([ch '/'],1),(itoa (tms.year+1900),4),([ch ' '],1),(put2 (face tms),2),([ch ':'],1),(put2 tms.min,2),([ch ':'],1),
    (put2 tms.sec,2),([ch ' '],1),(half tms,2)] := by
  repeat' first | exact .nil | refine .item (by decide) rfl ?_

theorem prints_slash_minutes : Prints tms (str "m/d/yyyy hh:nn aa") [(itoa (tms.mon+1),1),([ch '/'],1),(itoa tms.mday,1),
    ([ch '/'],1),(itoa (tms.year+1900),4),([ch ' '],1),(put2 (face tms),2),([ch ':'],1),(put2 tms.min,2),([ch ' '],1),
    (half tms,2)] := by
  repeat' first | exact .nil | refine .item (by decide) rfl ?_

theorem prints_dash : Prints tms (str "yyyy-mm-dd HH:nn:ss") [(itoa (tms.year+1900),4),([ch '-'],1),(put2 (tms.mon+1),2),
    ([ch '-'],1),(put2 tms.mday,2),([ch ' '],1),(put2 tms.hour,2),([ch ':'],1),(put2 tms.min,2),([ch ':'],1),
    (put2 tms.sec,2)] := by
  repeat' first | exact .nil | refine .item (by decide) rfl ?_

end

end Smx.DateParse
