import Smx.Time.FmtTime

/-! Dates and times that are written in numbers, and what `date_parse` makes of them. -/
namespace Smx.DateParse
open Scanf

/-- The letters of `%[apmAPM]`. -/
def letters : Bytes := str "apmAPM"

theorem distinct : alphabet.Distinct letters := ⟨by decide +kernel,by decide +kernel⟩

theorem isDigit_eq : alphabet.isDigit = isdigit := by
  funext c
  exact forall_byte (P := fun c => alphabet.isDigit c = isdigit c) (by decide +kernel) c

abbrev Toks := List (Tok Byte)
abbrev Assigns := List (Assign Byte IntVar StrVar)

def Vars.assigns (v : Vars) (as : Assigns) : Vars := as.foldl Vars.assign v

theorem Vars.assigns_append (v : Vars) (as bs : Assigns) : v.assigns (as ++ bs) = (v.assigns as).assigns bs :=
  List.foldl_append ..

/-- Formats set neither `ampm` nor `gmtoff`. -/
theorem Vars.assigns_keeps (v : Vars) (as : Assigns) : (v.assigns as).ampm = v.ampm ∧ (v.assigns as).gmtoff = v.gmtoff := by
  induction as generalizing v with
  | nil => exact ⟨rfl,rfl⟩
  | cons a as ih =>
    obtain ⟨hampm,hgmtoff⟩ := ih (v.assign a)
    have hassign : (v.assign a).ampm = v.ampm ∧ (v.assign a).gmtoff = v.gmtoff := by
      cases a <;> exact ⟨rfl,rfl⟩
    exact ⟨hampm.trans hassign.1,hgmtoff.trans hassign.2⟩

/-! Formats that do not fit, by the parts of the text alone. -/

/-- What a format assigns whose count is not reached. -/
def Try.misses (ts : Toks) (t : Try) : Option Assigns :=
  (scanToks alphabet letters t.format ts).filter fun as => as.length != t.count

def triesMiss (ts : Toks) : List Try → Option Assigns
  | [] => some []
  | t::l => (t.misses ts).bind fun as => (triesMiss ts l).map (as ++ ·)

def branchesMiss (ts : Toks) : List Branch → Option Assigns
  | [] => some []
  | b::bs => (triesMiss ts b.tries).bind fun as => (branchesMiss ts bs).map (as ++ ·)

section
variable {ts : Toks} (h : Scanf.Apart alphabet letters ts) {as : Assigns}
include h

theorem Try.run_toks {t : Try} (hscan : scanToks alphabet letters t.format ts = some as) (v : Vars) :
    t.run (Scanf.text ts) v = if as.length = t.count then lookAll t.looks (v.assigns as) else (false,v.assigns as) := by
  rw [Try.run,scan_text distinct t.format h hscan]
  rfl

theorem Try.run_misses {t : Try} (hmiss : t.misses ts = some as) (v : Vars) : t.run (Scanf.text ts) v = (false,v.assigns as) := by
  obtain ⟨hscan,hcount⟩ := Option.filter_eq_some_iff.mp hmiss
  rw [Try.run_toks h hscan,if_neg (by simpa using hcount)]

/-- The formats in front of one that is reached only leave assignments behind. -/
theorem runTries_append {l : List Try} (hmiss : triesMiss ts l = some as) (r : List Try) (v : Vars) :
    runTries (Scanf.text ts) (l ++ r) v = runTries (Scanf.text ts) r (v.assigns as) := by
  induction l generalizing as v with
  | nil =>
    obtain rfl : [] = as := Option.some.inj hmiss
    rfl
  | cons t l ih =>
    obtain ⟨as₁,hfirst,hrest⟩ := Option.bind_eq_some_iff.mp hmiss
    obtain ⟨as₂,hsecond,rfl⟩ := Option.map_eq_some_iff.mp hrest
    rw [List.cons_append,runTries,Try.run_misses h hfirst,Vars.assigns_append]
    exact ih hsecond _

theorem firstBranch_append {bs : List Branch} (hmiss : branchesMiss ts bs = some as) (r : List Branch) (v : Vars) :
    firstBranch (Scanf.text ts) (bs ++ r) v = firstBranch (Scanf.text ts) r (v.assigns as) := by
  induction bs generalizing as v with
  | nil =>
    obtain rfl : [] = as := Option.some.inj hmiss
    rfl
  | cons b bs ih =>
    obtain ⟨as₁,hfirst,hrest⟩ := Option.bind_eq_some_iff.mp hmiss
    obtain ⟨as₂,hsecond,rfl⟩ := Option.map_eq_some_iff.mp hrest
    have htries := runTries_append h hfirst [] v
    rw [List.append_nil] at htries
    rw [List.cons_append,firstBranch,Branch.run,htries,Vars.assigns_append]
    exact ih hsecond _

/-- The format that fits, behind those of its branch that do not. -/
theorem runTries_hit {l r : List Try} {t : Try} {as' : Assigns} (hmiss : triesMiss ts l = some as)
    (hscan : scanToks alphabet letters t.format ts = some as') (hcount : as'.length = t.count) {v w : Vars}
    (hlooks : lookAll t.looks ((v.assigns as).assigns as') = (true,w)) :
    runTries (Scanf.text ts) (l ++ t::r) v = (true,w) := by
  rw [runTries_append h hmiss,runTries,Try.run_toks h hscan,if_pos hcount,hlooks]
  rfl

/-- The first format that fits the text is number `j` of branch `i`: it, and all that is assigned until then. -/
def reached (ts : Toks) (i j : ℕ) : Option (Branch × Try × Assigns) :=
  match branches.drop i with
  | [] => none
  | b::_ =>
    match b.tries.drop j with
    | [] => none
    | t::_ =>
      (branchesMiss ts (branches.take i)).bind fun as =>
        (triesMiss ts (b.tries.take j)).bind fun as₁ =>
          ((scanToks alphabet letters t.format ts).filter fun as₂ => as₂.length == t.count).map fun as₂ =>
            (b,t,as ++ as₁ ++ as₂)

theorem firstBranch_reached {i j : ℕ} {b : Branch} {t : Try} (hreached : reached ts i j = some (b,t,as)) {v w : Vars}
    (hlooks : lookAll t.looks (v.assigns as) = (true,w)) (hnone : b.looks = []) (hwhen : b.when w (Scanf.text ts) = true) :
    firstBranch (Scanf.text ts) branches v = some (b,w) := by
  unfold reached at hreached
  split at hreached
  · exact absurd hreached nofun
  next b' post hdrop =>
    split at hreached
    · exact absurd hreached nofun
    next t' r htries =>
      obtain ⟨as₀,hmiss,hreached⟩ := Option.bind_eq_some_iff.mp hreached
      obtain ⟨as₁,hmiss₁,hreached⟩ := Option.bind_eq_some_iff.mp hreached
      obtain ⟨as₂,hscan,heq⟩ := Option.map_eq_some_iff.mp hreached
      obtain ⟨rfl,rfl,rfl⟩ := Prod.mk.inj heq |>.imp_right Prod.mk.inj
      obtain ⟨hscan,hcount⟩ := Option.filter_eq_some_iff.mp hscan
      rw [Vars.assigns_append,Vars.assigns_append] at hlooks
      have hrun := runTries_hit (r := r) h hmiss₁ hscan (by simpa using hcount) hlooks
      rw [← htries,List.take_append_drop] at hrun
      rw [← List.take_append_drop i branches,firstBranch_append h hmiss,hdrop,firstBranch,Branch.run,hrun,hnone]
      simp only [if_true,lookAll,hwhen,Bool.and_self]

end

/-! Spellings of a moment. -/

/-- The digits of a number, zeros in front included. -/
structure Digits (n : ℕ) where
  text : Bytes
  spec : text ≠ [] ∧ (∀ c ∈ text, isdigit c = true) ∧ digitsValue 0 text = n

/-- A date and a time of day, with the numbers as people write them. -/
structure Moment where
  year : ℕ
  month : ℕ
  day : ℕ
  hour : ℕ
  min : ℕ
  sec : ℕ
  year_mem : 1901 ≤ year ∧ year ≤ 9999
  month_mem : 1 ≤ month ∧ month ≤ 12
  day_mem : 1 ≤ day ∧ day ≤ 31
  hour_lt : hour < 24
  min_lt : min < 60
  sec_lt : sec < 60

namespace Moment
variable (m : Moment)

/-- The fields of `struct tm`. -/
def fields : Tm := ⟨m.sec,m.min,m.hour,m.day,m.month-1,m.year-1900,0,-1⟩

/-- The hour on a clock face. -/
def hour12 : ℕ := if m.hour % 12 = 0 then 12 else m.hour % 12

def midnight : Prop := m.hour = 0 ∧ m.min = 0 ∧ m.sec = 0

/-- How `am` or `pm` is written. -/
def marks : List Bytes :=
  if 11 < m.hour then [str "pm",str "PM",str "Pm",str "pM",str "p",str "P"]
  else [str "am",str "AM",str "Am",str "aM",str "a",str "A"]

def ampm : ℤ := if 11 < m.hour then AMPM_PM else AMPM_AM

theorem ampm_fix_hour12 : ampm_fix m.hour12 m.ampm = m.hour := by
  have hlt := m.hour_lt
  unfold ampm_fix ampm hour12
  split_ifs <;> simp_all [AMPM_AM,AMPM_PM] <;> omega

theorem mark_mem {w : Bytes} (h : w ∈ m.marks) :
    (w ≠ [] ∧ ∀ c ∈ w, c ∈ letters) ∧ strintSearch w ampmTab = some m.ampm := by
  have hall : (∀ w ∈ [str "pm",str "PM",str "Pm",str "pM",str "p",str "P"],
      (w ≠ [] ∧ ∀ c ∈ w, c ∈ letters) ∧ strintSearch w ampmTab = some AMPM_PM) ∧
      ∀ w ∈ [str "am",str "AM",str "Am",str "aM",str "a",str "A"],
        (w ≠ [] ∧ ∀ c ∈ w, c ∈ letters) ∧ strintSearch w ampmTab = some AMPM_AM := by decide +kernel
  unfold marks at h
  unfold ampm
  split_ifs at h ⊢
  · exact hall.1 w h
  · exact hall.2 w h

end Moment

/-- The hour: of 24, or of 12 with `am` or `pm`, with a blank before it or not. -/
inductive HourText (m : Moment)
  | full (t : Digits m.hour)
  | half (t : Digits m.hour12) (blank : Bool) (mark : Bytes) (h : mark ∈ m.marks)

structure TimeText (m : Moment) where
  hour : HourText m
  min : Digits m.min
  sec : Option (Digits m.sec)

/-- The spellings in numbers: `m/d/yyyy` or `yyyy-mm-dd`, alone or with a time, and `yyyymmdd`. -/
inductive Spelling (m : Moment)
  | dated (slash : Bool) (month : Digits m.month) (day : Digits m.day) (year : Digits m.year)
      (time : Option (TimeText m))
  | packed

def sep (c : Char) : Tok Byte := .sep (ch c)

def HourText.digits {m : Moment} : HourText m → Bytes
  | .full t => t.text
  | .half t _ _ _ => t.text

def HourText.mark {m : Moment} : HourText m → Toks
  | .full _ => []
  | .half _ false mark _ => [.word mark]
  | .half _ true mark _ => [sep ' ',.word mark]

def TimeText.toks {m : Moment} (t : TimeText m) : Toks :=
  .num t.hour.digits::sep ':'::.num t.min.text::
    (match t.sec with
    | some s => [sep ':',.num s.text]
    | none => []) ++ t.hour.mark

def fourDigits (n : ℕ) : Bytes := [n/1000,n/100 % 10,n/10 % 10,n % 10].map fun d => UInt8.ofNat (48+d)
def twoDigits (n : ℕ) : Bytes := [n/10,n % 10].map fun d => UInt8.ofNat (48+d)

namespace Spelling
variable {m : Moment}

def toks : Spelling m → Toks
  | .dated slash month day year time =>
    (if slash then [.num month.text,sep '/',.num day.text,sep '/',.num year.text]
      else [.num year.text,sep '-',.num month.text,sep '-',.num day.text]) ++
    (match time with
    | some t => sep ' '::t.toks
    | none => [])
  | .packed => [.num (fourDigits m.year ++ twoDigits m.month ++ twoDigits m.day)]

def text (s : Spelling m) : Bytes := Scanf.text s.toks

theorem text_dated (slash : Bool) (month : Digits m.month) (day : Digits m.day) (year : Digits m.year) (hour : HourText m)
    (min : Digits m.min) (sec : Option (Digits m.sec)) :
    (dated slash month day year (some ⟨hour,min,sec⟩)).text =
      (if slash then [month.text,[ch '/'],day.text,[ch '/'],year.text]
        else [year.text,[ch '-'],month.text,[ch '-'],day.text]).flatten ++
      ([[ch ' '],hour.digits,[ch ':'],min.text].flatten ++ ((sec.elim [] fun s => ch ':'::s.text) ++ Scanf.text hour.mark)) := by
  cases slash <;> cases sec <;> simp [text,toks,TimeText.toks,Tok.text,sep]

/-- The text says all of the moment: what it leaves out is zero. -/
def States : Spelling m → Prop
  | .dated _ _ _ _ (some ⟨_,_,some _⟩) => True
  | .dated _ _ _ _ (some ⟨_,_,none⟩) => m.sec = 0
  | .dated _ _ _ _ none => m.midnight
  | .packed => m.midnight

/-- `m/d/yyyy` with a time that has seconds. -/
def slashSeconds : Spelling m → Bool
  | .dated true _ _ _ (some ⟨_,_,some _⟩) => true
  | _ => false

end Spelling

theorem Digits.apart {n : ℕ} (t : Digits n) {ts : Toks} (hnext : ∀ c ∈ (Scanf.text ts).head?, isdigit c = false)
    (h : Scanf.Apart alphabet letters ts) : Scanf.Apart alphabet letters (.num t.text::ts) := by
  obtain ⟨t,hne,hdigits,-⟩ := t
  rw [← isDigit_eq] at hdigits hnext
  exact ⟨hne,hdigits,hnext,h⟩

theorem lookAll_ampm {v : Vars} {a : ℤ} (h : strintSearch (v.str .ampm) ampmTab = some a) :
    lookAll [.ampm] v = (true,{ v with ampm := a }) := by
  rw [lookAll,Look.run,h]
  rfl

/-- `date_parse` fills the fields by the branch that it comes to. -/
theorem date_parse_first {t : Bytes} {ts : Toks} (h : Scanf.Apart alphabet letters (.num t::ts)) (c : Clock) {b : Branch}
    {w : Vars} (hfirst : firstBranch (Scanf.text (.num t::ts)) branches
      { c.vars with ampm := AMPM_NONE, gmtoff := c.gmtoff } = some (b,w)) :
    date_parse c (Scanf.text (.num t::ts)) =
      let tm := b.fill w { c.now with wday := 0, isdst := 0 }
      .time { tm with year := yearFix c.first tm.year, isdst := -1 } (c.gmtoff-w.gmtoff) := by
  obtain ⟨d,t,rfl⟩ := List.exists_cons_of_ne_nil h.1
  have hdigit : isdigit d = true := by
    rw [← isDigit_eq]
    exact h.2.1 d List.mem_cons_self
  have hblank : (d == ch ' ' || d == ch '\t') = false :=
    forall_byte (P := fun d => isdigit d = true → (d == ch ' ' || d == ch '\t') = false) (by decide +kernel) d hdigit
  have hdrop : (Scanf.text (.num (d::t)::ts)).dropWhile (fun c => c == ch ' ' || c == ch '\t') =
      Scanf.text (.num (d::t)::ts) := List.dropWhile_cons_of_neg (by rw [hblank]; exact Bool.false_ne_true)
  have hne : Scanf.text (.num (d::t)::ts) ≠ [] := List.cons_ne_nil _ _
  simp only [date_parse,if_neg hne,hdrop,hfirst]

theorem date_parse_reached {t : Bytes} {ts : Toks} (h : Scanf.Apart alphabet letters (.num t::ts)) {i j : ℕ} {b : Branch}
    {f : Try} {as : Assigns} (hreached : reached (.num t::ts) i j = some (b,f,as)) (c : Clock) {w : Vars}
    (hlooks : lookAll f.looks (Vars.assigns { c.vars with ampm := AMPM_NONE, gmtoff := c.gmtoff } as) = (true,w))
    (hnone : b.looks = []) (hwhen : b.when w (Scanf.text (.num t::ts)) = true) :
    date_parse c (Scanf.text (.num t::ts)) =
      let tm := b.fill w { c.now with wday := 0, isdst := 0 }
      .time { tm with year := yearFix c.first tm.year, isdst := -1 } (c.gmtoff-w.gmtoff) :=
  date_parse_first h c (firstBranch_reached h hreached hlooks hnone hwhen)

namespace Moment
variable (m : Moment) (c : Clock)

theorem yearFix_year : yearFix c.first m.year = m.year-1900 := by
  have := m.year_mem
  exact if_pos (by omega)

/-- The fields that a branch fills from numbers with the right values. -/
theorem time_eq {sec min hour mday mon year r : ℤ} (hsec : sec = m.sec) (hmin : min = m.min) (hhour : hour = m.hour)
    (hday : mday = m.day) (hmon : mon = r) (hyear : year = m.year) :
    Parsed.time ⟨sec,min,hour,mday,mon,yearFix c.first year,0,-1⟩ (c.gmtoff-c.gmtoff) =
      .time { m.fields with mon := r } 0 := by
  rw [hsec,hmin,hhour,hday,hmon,hyear,m.yearFix_year,sub_self]
  rfl
end Moment

theorem Digits.value_eq {n : ℕ} (t : Digits n) : (alphabet.value t.text : ℤ) = n := congrArg _ t.spec.2.2

theorem HourText.apart {m : Moment} (t : HourText m) : Scanf.Apart alphabet letters t.mark ∧
    ∀ c ∈ (Scanf.text t.mark).head?, isdigit c = false := by
  have hletter : ∀ c ∈ letters, isdigit c = false := by decide +kernel
  cases t with
  | full t => exact ⟨trivial,nofun⟩
  | half t blank w h =>
    obtain ⟨⟨hne,hletters⟩,-⟩ := m.mark_mem h
    cases blank with
    | false =>
      refine ⟨⟨hne,hletters,rfl⟩,?_⟩
      intro c hc
      rw [HourText.mark,text_cons,Tok.text,head?_text hne] at hc
      exact hletter c (hletters c (List.mem_of_mem_head? hc))
    | true =>
      refine ⟨⟨by decide +kernel,hne,hletters,rfl⟩,?_⟩
      intro c hc
      obtain rfl : ch ' ' = c := Option.some.inj hc
      decide

theorem apart_sep {c : Char} (hc : isdigit (ch c) = false) {ts : Toks} (h : Scanf.Apart alphabet letters ts) :
    Scanf.Apart alphabet letters (sep c::ts) ∧ ∀ d ∈ (Scanf.text (sep c::ts)).head?, isdigit d = false := by
  refine ⟨⟨by rw [isDigit_eq]; exact hc,h⟩,?_⟩
  intro d hd
  obtain rfl : ch c = d := Option.some.inj hd
  exact hc

/-- A number, what separates it, and the rest. -/
theorem Digits.apart_sep {n : ℕ} (t : Digits n) {c : Char} (hc : isdigit (ch c) = false) {ts : Toks}
    (h : Scanf.Apart alphabet letters ts) : Scanf.Apart alphabet letters (.num t.text::sep c::ts) :=
  t.apart (DateParse.apart_sep hc h).2 (DateParse.apart_sep hc h).1

theorem HourText.digits_apart {m : Moment} (t : HourText m) {c : Char} (hc : isdigit (ch c) = false) {ts : Toks}
    (h : Scanf.Apart alphabet letters ts) : Scanf.Apart alphabet letters (.num t.digits::sep c::ts) := by
  cases t with
  | full t => exact t.apart_sep hc h
  | half t => exact t.apart_sep hc h

theorem TimeText.apart {m : Moment} (t : TimeText m) : Scanf.Apart alphabet letters t.toks := by
  obtain ⟨hour,min,sec⟩ := t
  have hmark := hour.apart
  apply hour.digits_apart (by decide)
  cases sec with
  | none => exact min.apart hmark.2 hmark.1
  | some s => exact min.apart_sep (by decide) (s.apart hmark.2 hmark.1)

namespace Spelling
variable {m : Moment}

theorem apart_dated (slash : Bool) (month : Digits m.month) (day : Digits m.day) (year : Digits m.year)
    (time : Option (TimeText m)) : Scanf.Apart alphabet letters (dated slash month day year time).toks := by
  have hlast {n : ℕ} (t : Digits n) : Scanf.Apart alphabet letters (.num t.text::match time with
      | some t => sep ' '::t.toks
      | none => []) := by
    cases time with
    | none => exact t.apart nofun trivial
    | some time => exact t.apart_sep (by decide) time.apart
  cases slash with
  | false => exact year.apart_sep (by decide) (month.apart_sep (by decide) (hlast day))
  | true => exact month.apart_sep (by decide) (day.apart_sep (by decide) (hlast year))

/-- The month that `date_parse` hands on: with a slash and seconds it is taken as it was read. -/
def monthRead (s : Spelling m) : ℤ := if s.slashSeconds then m.month else m.month-1

variable (c : Clock)

theorem date_parse_midnight (slash : Bool) (month : Digits m.month) (day : Digits m.day) (year : Digits m.year)
    (h : m.midnight) : date_parse c (dated slash month day year none).text = .time m.fields 0 := by
  obtain ⟨hhour,hmin,hsec⟩ := h
  have happart := apart_dated slash month day year none
  have hzero {n : ℕ} (hn : n = 0) : (0 : ℤ) = n := by rw [hn]; rfl
  have hmon : mm_fix (alphabet.value month.text) = m.month-1 := congrArg mm_fix month.value_eq
  cases slash with
  | false =>
    refine (date_parse_reached happart (i := 9) (j := 0) rfl c rfl rfl rfl).trans ?_
    exact m.time_eq c (hzero hsec) (hzero hmin) (hzero hhour) day.value_eq hmon year.value_eq
  | true =>
    refine (date_parse_reached happart (i := 8) (j := 0) rfl c rfl rfl rfl).trans ?_
    exact m.time_eq c (hzero hsec) (hzero hmin) (hzero hhour) day.value_eq hmon year.value_eq

theorem date_parse_seconds (slash : Bool) (month : Digits m.month) (day : Digits m.day) (year : Digits m.year)
    (hour : HourText m) (min : Digits m.min) (sec : Digits m.sec) :
    date_parse c (dated slash month day year (some ⟨hour,min,some sec⟩)).text =
      .time { m.fields with mon := if slash then m.month else m.month-1 } 0 := by
  have happart := apart_dated slash month day year (some ⟨hour,min,some sec⟩)
  have hmon : mm_fix (alphabet.value month.text) = m.month-1 := congrArg mm_fix month.value_eq
  cases hour with
  | full t =>
    cases slash with
    | false =>
      refine (date_parse_reached happart (i := 6) (j := 3) rfl c rfl rfl rfl).trans ?_
      exact m.time_eq c sec.value_eq min.value_eq t.value_eq day.value_eq hmon year.value_eq
    | true =>
      refine (date_parse_reached happart (i := 4) (j := 2) rfl c rfl rfl rfl).trans ?_
      exact m.time_eq c sec.value_eq min.value_eq t.value_eq day.value_eq month.value_eq year.value_eq
  | half t blank w h =>
    have hampm := (m.mark_mem h).2
    have hhour : ampm_fix (alphabet.value t.text) m.ampm = m.hour := by rw [t.value_eq,m.ampm_fix_hour12]
    cases slash with
    | false =>
      cases blank <;>
        exact (date_parse_reached happart (i := 6) (j := 1) rfl c (lookAll_ampm hampm) rfl rfl).trans
          (m.time_eq c sec.value_eq min.value_eq hhour day.value_eq hmon year.value_eq)
    | true =>
      cases blank <;>
        exact (date_parse_reached happart (i := 4) (j := 1) rfl c (lookAll_ampm hampm) rfl rfl).trans
          (m.time_eq c sec.value_eq min.value_eq hhour day.value_eq month.value_eq year.value_eq)

theorem date_parse_minutes (slash : Bool) (month : Digits m.month) (day : Digits m.day) (year : Digits m.year)
    (hour : HourText m) (min : Digits m.min) (h : m.sec = 0) :
    date_parse c (dated slash month day year (some ⟨hour,min,none⟩)).text = .time m.fields 0 := by
  have happart := apart_dated slash month day year (some ⟨hour,min,none⟩)
  have hsec : (0 : ℤ) = m.sec := by rw [h]; rfl
  have hmon : mm_fix (alphabet.value month.text) = m.month-1 := congrArg mm_fix month.value_eq
  cases hour with
  | full t =>
    cases slash with
    | false =>
      refine (date_parse_reached happart (i := 7) (j := 3) rfl c rfl rfl rfl).trans ?_
      exact m.time_eq c hsec min.value_eq t.value_eq day.value_eq hmon year.value_eq
    | true =>
      refine (date_parse_reached happart (i := 5) (j := 3) rfl c rfl rfl rfl).trans ?_
      exact m.time_eq c hsec min.value_eq t.value_eq day.value_eq hmon year.value_eq
  | half t blank w h =>
    have hampm := (m.mark_mem h).2
    have hhour : ampm_fix (alphabet.value t.text) m.ampm = m.hour := by rw [t.value_eq,m.ampm_fix_hour12]
    cases slash with
    | false =>
      cases blank <;>
        exact (date_parse_reached happart (i := 7) (j := 1) rfl c (lookAll_ampm hampm) rfl rfl).trans
          (m.time_eq c hsec min.value_eq hhour day.value_eq hmon year.value_eq)
    | true =>
      cases blank <;>
        exact (date_parse_reached happart (i := 5) (j := 1) rfl c (lookAll_ampm hampm) rfl rfl).trans
          (m.time_eq c hsec min.value_eq hhour day.value_eq hmon year.value_eq)

/-- `yyyymmdd` as one number. -/
def number (m : Moment) : ℕ := 10000*m.year+100*m.month+m.day

theorem digit_byte {d : ℕ} (h : d < 10) : isdigit (UInt8.ofNat (48+d)) = true ∧ (UInt8.ofNat (48+d)).toNat-48 = d := by
  interval_cases d <;> decide

theorem digitsValue_map {ds : List ℕ} (h : ∀ d ∈ ds, d < 10) (n : ℕ) :
    digitsValue n (ds.map fun d => UInt8.ofNat (48+d)) = ds.foldl (fun n d => 10*n+d) n := by
  induction ds generalizing n with
  | nil => rfl
  | cons d ds ih =>
    rw [List.map_cons,digitsValue,List.foldl_cons,(digit_byte (h d List.mem_cons_self)).2]
    exact ih (fun e he => h e (List.mem_cons_of_mem d he)) _

/-- The eight digits are those of one number. -/
def packedDigits (m : Moment) : Digits (number m) := by
  refine ⟨fourDigits m.year ++ twoDigits m.month ++ twoDigits m.day,List.cons_ne_nil _ _,?_⟩
  obtain ⟨_,hyear⟩ := m.year_mem
  obtain ⟨_,hmonth⟩ := m.month_mem
  obtain ⟨_,hday⟩ := m.day_mem
  let ds := [m.year/1000,m.year/100 % 10,m.year/10 % 10,m.year % 10,m.month/10,m.month % 10,m.day/10,m.day % 10]
  have hlt : ∀ d ∈ ds, d < 10 := by simp [ds]; omega
  change (∀ c ∈ ds.map fun d => UInt8.ofNat (48+d), _) ∧ digitsValue 0 (ds.map fun d => UInt8.ofNat (48+d)) = _
  constructor
  · intro c hc
    obtain ⟨d,hd,rfl⟩ := List.mem_map.mp hc
    exact (digit_byte (hlt d hd)).1
  · rw [digitsValue_map hlt,number]
    simp only [ds,List.foldl_cons,List.foldl_nil]
    omega

theorem number_parts (m : Moment) : (number m : ℤ).tmod 100 = m.day ∧ ((number m : ℤ).tdiv 100).tmod 100 = m.month ∧
    (number m : ℤ).tdiv 10000 = m.year := by
  obtain ⟨_,hmonth⟩ := m.month_mem
  obtain ⟨_,hday⟩ := m.day_mem
  rw [Int.tmod_eq_emod_of_nonneg (by omega),Int.tdiv_eq_ediv_of_nonneg (by omega),
    Int.tmod_eq_emod_of_nonneg (by omega),Int.tdiv_eq_ediv_of_nonneg (by omega),number]
  omega

theorem packed_when (length : ℕ) {v : Vars} (hyear : v.int .year = number m) (cp : Bytes) :
    (DateParse.packed length).when v cp = (cp.length == length) := by
  obtain ⟨hday,hmonth,-⟩ := number_parts m
  have hdays := m.day_mem
  have hmonths := m.month_mem
  simp only [DateParse.packed,hyear,hday,hmonth,Bool.and_eq_right_iff_imp]
  intro _
  simp only [Bool.and_eq_true,decide_eq_true_eq]
  omega

theorem packed_run (length : ℕ) (v : Vars) : (DateParse.packed length).run (packed (m := m)).text v =
    ((packed (m := m)).text.length == length,v.assign (.int .year (number m))) := by
  have happart : Scanf.Apart alphabet letters [.num (packedDigits m).text] := (packedDigits m).apart nofun trivial
  have hrun : runTries (packed (m := m)).text (DateParse.packed length).tries v =
      (true,v.assign (.int .year (alphabet.value (packedDigits m).text))) :=
    runTries_hit (l := []) (r := []) happart rfl rfl rfl rfl
  rw [(packedDigits m).value_eq] at hrun
  have hwhen := packed_when length (v := v.assign (.int .year (number m))) rfl (packed (m := m)).text
  rw [Branch.run,hrun,← hwhen]
  rfl

/-- The first format with a slash has left the number where the day and the month are taken from. -/
theorem date_parse_packed (h : m.midnight) : date_parse c (packed (m := m)).text = .time m.fields 0 := by
  obtain ⟨hhour,hmin,hsec⟩ := h
  have happart : Scanf.Apart alphabet letters [.num (packedDigits m).text] := (packedDigits m).apart nofun trivial
  obtain ⟨as,hmiss,hmon⟩ : ∃ as, branchesMiss [.num (packedDigits m).text] (branches.take 29) = some as ∧
      ∀ v : Vars, (v.assigns as).int .mon = number m := ⟨_,rfl,fun _ => (packedDigits m).value_eq⟩
  have hfirst (v : Vars) : firstBranch (packed (m := m)).text branches v =
      some (DateParse.packed 8,((v.assigns as).assign (.int .year (number m))).assign (.int .year (number m))) := by
    have hmissed := firstBranch_append happart hmiss (branches.drop 29) v
    rw [List.take_append_drop] at hmissed
    have hdrop : branches.drop 29 = [DateParse.packed 6,DateParse.packed 8] := rfl
    refine hmissed.trans ?_
    rw [hdrop]
    change firstBranch (packed (m := m)).text _ _ = _
    rw [firstBranch,packed_run,firstBranch,packed_run]
    rfl
  have hvars : ∃ w : Vars, firstBranch (packed (m := m)).text branches
      { c.vars with ampm := AMPM_NONE, gmtoff := c.gmtoff } = some (DateParse.packed 8,w) ∧
      w.int .mon = number m ∧ w.int .year = number m ∧ w.gmtoff = c.gmtoff :=
    ⟨_,hfirst _,hmon _,rfl,(Vars.assigns_keeps _ as).2⟩
  obtain ⟨w,hw,hmon,hyear,hgmtoff⟩ := hvars
  obtain ⟨hday,hmonth,hyears⟩ := number_parts m
  have hzero {n : ℕ} (hn : n = 0) : (0 : ℤ) = n := by rw [hn]; rfl
  refine (date_parse_first happart c hw).trans ?_
  rw [hgmtoff]
  refine m.time_eq c (hzero hsec) (hzero hmin) (hzero hhour) ?_ (r := m.month-1) ?_ ?_
  · exact (congrArg (Int.tmod · 100) hmon).trans hday
  · change mm_fix (((w.int .mon).tdiv 100).tmod 100) = m.month-1
    rw [hmon,hmonth]
    rfl
  · exact (congrArg (Int.tdiv · 10000) hyear).trans hyears

/-- All spellings that state a moment are read to its fields, but for the month with a slash and seconds. -/
theorem date_parse_spelling (s : Spelling m) (h : s.States) :
    date_parse c s.text = .time { m.fields with mon := s.monthRead } 0 := by
  cases s with
  | packed => exact date_parse_packed c h
  | dated slash month day year time =>
    cases time with
    | none =>
      have hread : (dated slash month day year none).monthRead = m.month-1 := by cases slash <;> rfl
      rw [hread]
      exact date_parse_midnight c slash month day year h
    | some time =>
      obtain ⟨hour,min,sec⟩ := time
      cases sec with
      | none =>
        have hread : (dated slash month day year (some ⟨hour,min,none⟩)).monthRead = m.month-1 := by cases slash <;> rfl
        rw [hread]
        exact date_parse_minutes c slash month day year hour min h
      | some sec =>
        have hread : (dated slash month day year (some ⟨hour,min,some sec⟩)).monthRead =
            if slash then (m.month : ℤ) else m.month-1 := by cases slash <;> rfl
        rw [hread]
        exact date_parse_seconds c slash month day year hour min sec

theorem agree_iff (s t : Spelling m) (hs : s.States) (ht : t.States) :
    date_parse c s.text = date_parse c t.text ↔ s.slashSeconds = t.slashSeconds := by
  rw [date_parse_spelling c s hs,date_parse_spelling c t ht,monthRead,monthRead]
  have hnext : (m.month : ℤ)-1 ≠ m.month := by omega
  cases s.slashSeconds <;> cases t.slashSeconds <;> simp [Moment.fields,hnext,hnext.symm]

end Spelling

/-! What `FmtTime` prints. -/

/-- A zero in front does not count. -/
theorem put2_spec {n : ℕ} (h : n < 2^31) :
    put2 n ≠ [] ∧ (∀ c ∈ put2 n, isdigit c = true) ∧ digitsValue 0 (put2 n) = n := by
  obtain ⟨hne,hdigits,hvalue⟩ := itoa_digits h
  rw [put2]
  split_ifs
  · have hzero : digitsValue 0 ([ch '0'] ++ itoa n) = digitsValue 0 (itoa n) := by
      rw [digitsValue,List.foldl_append]
      rfl
    rw [hzero,List.singleton_append]
    exact ⟨List.cons_ne_nil _ _,List.forall_mem_cons.mpr ⟨by decide,hdigits⟩,hvalue⟩
  · rw [List.nil_append]
    exact ⟨hne,hdigits,hvalue⟩

namespace Moment
variable (m : Moment)

/-- `struct tm` of the moment, with any day of the week and any flag for summer time. -/
def tm (wday isdst : ℤ) : Tm := { m.fields with wday := wday, isdst := isdst }

theorem hour12_lt : m.hour12 < 2^31 := by
  unfold hour12
  split_ifs <;> omega

def mark : Bytes := if 11 < m.hour then str "pm" else str "am"

theorem mark_mem_marks : m.mark ∈ m.marks := by
  unfold mark marks
  split_ifs <;> exact List.mem_cons_self

/-- The texts of the numbers are those of numbers. -/
theorem digits_lt : m.month < 2^31 ∧ m.day < 2^31 ∧ m.year < 2^31 ∧ m.hour < 2^31 ∧ m.min < 2^31 ∧ m.sec < 2^31 := by
  have hyear := m.year_mem
  have hmonth := m.month_mem
  have hday := m.day_mem
  have hhour := m.hour_lt
  have hmin := m.min_lt
  have hsec := m.sec_lt
  omega

variable (wday isdst : ℤ)

theorem mon_succ : (m.tm wday isdst).mon+1 = m.month := by
  change (m.month : ℤ)-1+1 = m.month
  omega

theorem year_shift : (m.tm wday isdst).year+1900 = m.year := by
  change (m.year : ℤ)-1900+1900 = m.year
  omega

theorem face_tm : face (m.tm wday isdst) = m.hour12 := by
  change (if (m.hour : ℤ).tmod 12 = 0 then 12 else (m.hour : ℤ).tmod 12) = m.hour12
  rw [hour12,Int.tmod_eq_emod_of_nonneg (Int.natCast_nonneg _)]
  split_ifs <;> omega

theorem half_tm : half (m.tm wday isdst) = m.mark := by
  change (if (m.hour : ℤ) > 11 then str "pm" else str "am") = m.mark
  unfold mark
  split_ifs <;> first | rfl | omega

end Moment

/-- The formats that print all of a moment in numbers. -/
inductive TimeFormat
  | slashSeconds
  | slashMinutes
  | dash
  deriving DecidableEq

def TimeFormat.text : TimeFormat → Bytes
  | .slashSeconds => str "m/d/yyyy hh:nn:ss aa"
  | .slashMinutes => str "m/d/yyyy hh:nn aa"
  | .dash => str "yyyy-mm-dd HH:nn:ss"

theorem exists_digits {n : ℕ} {t : Bytes} (h : t ≠ [] ∧ (∀ c ∈ t, isdigit c = true) ∧ digitsValue 0 t = n) :
    ∃ d : Digits n, d.text = t := ⟨⟨t,h⟩,rfl⟩

/-- Whether the format prints the seconds, or there are none. -/
def TimeFormat.States (m : Moment) (f : TimeFormat) : Prop := f = .slashMinutes → m.sec = 0

/-- What a format prints is a spelling. -/
theorem exists_spelling (m : Moment) (wday isdst : ℤ) (f : TimeFormat) (hf : f.States m) :
    ∃ s : Spelling m, FmtTime (m.tm wday isdst) f.text = s.text ∧ s.States ∧
      s.slashSeconds = decide (f = .slashSeconds) := by
  have hfields : (m.tm wday isdst).mday = m.day ∧ (m.tm wday isdst).hour = m.hour ∧ (m.tm wday isdst).min = m.min ∧
      (m.tm wday isdst).sec = m.sec := ⟨rfl,rfl,rfl,rfl⟩
  obtain ⟨hday,hhour,hmin,hsec⟩ := hfields
  obtain ⟨hmonth_lt,hday_lt,hyear_lt,hhour_lt,hmin_lt,hsec_lt⟩ := m.digits_lt
  obtain ⟨year,hyears⟩ := exists_digits (itoa_digits hyear_lt)
  obtain ⟨mins,hmins⟩ := exists_digits (put2_spec hmin_lt)
  obtain ⟨secs,hsecs⟩ := exists_digits (put2_spec hsec_lt)
  obtain ⟨face,hface⟩ := exists_digits (put2_spec m.hour12_lt)
  let hour : HourText m := .half face true m.mark m.mark_mem_marks
  cases f with
  | slashSeconds =>
    obtain ⟨month,hmonths⟩ := exists_digits (itoa_digits hmonth_lt)
    obtain ⟨day,hdays⟩ := exists_digits (itoa_digits hday_lt)
    have hprints := prints_slash_seconds (m.tm wday isdst)
    rw [m.mon_succ,m.year_shift,m.face_tm,m.half_tm,hday,hmin,hsec] at hprints
    refine ⟨.dated true month day year (some ⟨hour,mins,some secs⟩),?_,trivial,rfl⟩
    rw [TimeFormat.text,hprints.fmtTime_eq,Spelling.text_dated,← hyears,← hmins,← hsecs,← hface,← hmonths,← hdays]
    simp [hour,HourText.digits,HourText.mark,Tok.text,sep]
  | slashMinutes =>
    obtain ⟨month,hmonths⟩ := exists_digits (itoa_digits hmonth_lt)
    obtain ⟨day,hdays⟩ := exists_digits (itoa_digits hday_lt)
    have hprints := prints_slash_minutes (m.tm wday isdst)
    rw [m.mon_succ,m.year_shift,m.face_tm,m.half_tm,hday,hmin] at hprints
    refine ⟨.dated true month day year (some ⟨hour,mins,none⟩),?_,hf rfl,rfl⟩
    rw [TimeFormat.text,hprints.fmtTime_eq,Spelling.text_dated,← hyears,← hmins,← hface,← hmonths,← hdays]
    simp [hour,HourText.digits,HourText.mark,Tok.text,sep]
  | dash =>
    obtain ⟨month,hmonths⟩ := exists_digits (put2_spec hmonth_lt)
    obtain ⟨day,hdays⟩ := exists_digits (put2_spec hday_lt)
    obtain ⟨hours,hhours⟩ := exists_digits (put2_spec hhour_lt)
    have hprints := prints_dash (m.tm wday isdst)
    rw [m.mon_succ,m.year_shift,hday,hhour,hmin,hsec] at hprints
    refine ⟨.dated false month day year (some ⟨.full hours,mins,some secs⟩),?_,trivial,rfl⟩
    rw [TimeFormat.text,hprints.fmtTime_eq,Spelling.text_dated,← hyears,← hmins,← hsecs,← hmonths,← hdays,← hhours]
    simp [HourText.digits,HourText.mark]

/-- Spellings that state one moment are read alike exactly when both are `m/d/yyyy` with seconds or neither is; what
`FmtTime` prints is read back exactly when it is not that spelling. -/
theorem spellingsAgree_iff (c : Clock) (m : Moment) (wday isdst : ℤ) :
    (∀ s t : Spelling m, s.States → t.States →
      (date_parse c s.text = date_parse c t.text ↔ s.slashSeconds = t.slashSeconds)) ∧
    ∀ f : TimeFormat, f.States m →
      (date_parse c (FmtTime (m.tm wday isdst) f.text) = .time m.fields 0 ↔ f ≠ .slashSeconds) := by
  constructor
  · exact Spelling.agree_iff c
  · intro f hf
    obtain ⟨s,htext,hstates,hslash⟩ := exists_spelling m wday isdst f hf
    have hnext : (m.month : ℤ) ≠ m.month-1 := by omega
    rw [htext,Spelling.date_parse_spelling c s hstates,Spelling.monthRead,hslash]
    by_cases h : f = .slashSeconds
    · simp [h,Moment.fields,hnext]
    · exact iff_of_true (by rw [if_neg (by simp [h])]; rfl) h

/-- Seven minutes past two on a leap day, in the afternoon. -/
def leapDay : Moment where
  year := 2024
  month := 2
  day := 29
  hour := 14
  min := 7
  sec := 0
  year_mem := by decide
  month_mem := by decide
  day_mem := by decide
  hour_lt := by decide
  min_lt := by decide
  sec_lt := by decide

def newYear : Clock where
  now := ⟨0,0,0,1,0,125,3,0⟩
  gmtoff := 0
  first := 125
  vars := ⟨fun _ => 0,fun _ => [],0,0,0⟩

theorem spellingsAgree_leapDay :
    FmtTime (leapDay.tm 4 0) (str "m/d/yyyy hh:nn aa") = str "2/29/2024 02:07 pm" ∧
      date_parse newYear (FmtTime (leapDay.tm 4 0) (str "m/d/yyyy hh:nn aa")) = .time ⟨0,7,14,29,1,124,0,-1⟩ 0 :=
  ⟨by decide +kernel,((spellingsAgree_iff newYear leapDay 4 0).2 .slashMinutes fun _ => rfl).mpr nofun⟩

/-- `2/29/2024 14:07:00` is read as the 29th of March. -/
theorem not_spellingsAgree : ¬∀ (c : Clock) (m : Moment) (s t : Spelling m), s.States → t.States →
    date_parse c s.text = date_parse c t.text := by
  intro h
  let month : Digits leapDay.month := ⟨str "2",by decide +kernel⟩
  let day : Digits leapDay.day := ⟨str "29",by decide +kernel⟩
  let year : Digits leapDay.year := ⟨str "2024",by decide +kernel⟩
  let time : TimeText leapDay := ⟨.full ⟨str "14",by decide +kernel⟩,⟨str "07",by decide +kernel⟩,some ⟨str "00",by decide +kernel⟩⟩
  have hsame := h newYear leapDay (.dated true month day year (some time)) (.dated false month day year (some time))
    trivial trivial
  have hread : date_parse newYear (str "2/29/2024 14:07:00") = .time ⟨0,7,14,29,2,124,0,-1⟩ 0 ∧
      date_parse newYear (str "2024-2-29 14:07:00") = .time ⟨0,7,14,29,1,124,0,-1⟩ 0 := by decide +kernel
  have htime : Parsed.time ⟨0,7,14,29,2,124,0,-1⟩ 0 = Parsed.time ⟨0,7,14,29,1,124,0,-1⟩ 0 :=
    hread.1.symm.trans (hsame.trans hread.2)
  exact absurd htime (by decide)

end Smx.DateParse
