import Mathlib.Data.List.Sort
import Mathlib.Logic.Function.Basic
import Smx.Base.Number
import Smx.Lib.Scanf
import Smx.Strings.EnumSort

/-! `date_parse`: some thirty formats, tried in order on variables that they share. -/
namespace Smx.DateParse
open Scanf

/-- The characters of C. -/
def alphabet : Alphabet Byte := ⟨isspace,str "0123456789",ch '-',ch '+',digitsValue 0⟩

/-! The tables of names. -/

/-- The loop of `strint_search`, which halves `[l, h]`. -/
def strintLoop (s : Bytes) (tab : List (Bytes × ℤ)) : ℕ → ℤ → ℤ → Option ℤ
  | 0,_,_ => none
  | fuel+1,l,h =>
    let i := (h+l)/2
    let e := tab.getD i.toNat ([],0)
    let r := stricmp s e.1
    if r < 0 then if i-1 < l then none else strintLoop s tab fuel l (i-1)
    else if r > 0 then if h < i+1 then none else strintLoop s tab fuel (i+1) h
    else some e.2

/-- `strint_search` on a table that was sorted at the first call. -/
def strintSearch (s : Bytes) (tab : List (Bytes × ℤ)) : Option ℤ :=
  let sorted := tab.insertionSort fun a b => stricmp a.1 b.1 ≤ 0
  strintLoop s sorted sorted.length 0 (sorted.length-1)

def AMPM_NONE : ℤ := 0
def AMPM_AM : ℤ := 1
def AMPM_PM : ℤ := 2

def ampmTab : List (Bytes × ℤ) :=
  [(str "am",AMPM_AM),(str "pm",AMPM_PM),(str "a",AMPM_AM),(str "p",AMPM_PM)]

def wdayTab : List (Bytes × ℤ) :=
  [(str "sun",0),(str "sunday",0),(str "mon",1),(str "monday",1),(str "tue",2),(str "tuesday",2),
    (str "wed",3),(str "wednesday",3),(str "thu",4),(str "thursday",4),(str "fri",5),(str "friday",5),
    (str "sat",6),(str "saturday",6)]

def monTab : List (Bytes × ℤ) :=
  [(str "jan",0),(str "january",0),(str "feb",1),(str "february",1),(str "mar",2),(str "march",2),
    (str "apr",3),(str "april",3),(str "may",4),(str "jun",5),(str "june",5),(str "jul",6),(str "july",6),
    (str "aug",7),(str "august",7),(str "sep",8),(str "september",8),(str "oct",9),(str "october",9),
    (str "nov",10),(str "november",10),(str "dec",11),(str "december",11)]

def gmtoffTab : List (Bytes × ℤ) :=
  [(str "gmt",0),(str "utc",0),(str "ut",0),(str "0000",0),(str "+0000",0),(str "-0000",0),
    (str "0100",3600),(str "+0100",3600),(str "-0100",-3600),(str "0200",7200),(str "+0200",7200),(str "-0200",-7200),
    (str "0300",10800),(str "+0300",10800),(str "-0300",-10800),(str "0400",14400),(str "+0400",14400),
    (str "-0400",-14400),(str "0500",18000),(str "+0500",18000),(str "-0500",-18000),(str "0600",21600),
    (str "+0600",21600),(str "-0600",-21600),(str "0700",25200),(str "+0700",25200),(str "-0700",-25200),
    (str "0800",28800),(str "+0800",28800),(str "-0800",-28800),(str "0900",32400),(str "+0900",32400),
    (str "-0900",-32400),(str "1000",36000),(str "+1000",36000),(str "-1000",-36000),(str "1100",39600),
    (str "+1100",39600),(str "-1100",-39600),(str "1200",43200),(str "+1200",43200),(str "-1200",-43200),
    (str "jst",7200),(str "jdt",10800),(str "bst",-3600),(str "nst",-12600),(str "ast",-14400),(str "edt",-10800),
    (str "est",-18000),(str "edt",-14400),(str "cst",-21600),(str "cdt",-18000),(str "mst",-25200),
    (str "mdt",-21600),(str "pst",-28800),(str "pdt",-25200),(str "yst",-32400),(str "ydt",-28800),
    (str "hst",-36000),(str "hdt",-32400),(str "a",-3600),(str "b",-7200),(str "c",-10800),(str "d",-14400),
    (str "e",-18000),(str "f",-21600),(str "g",-25200),(str "h",-28800),(str "i",-32400),(str "k",-36000),
    (str "l",-39600),(str "m",-43200),(str "n",-3600),(str "o",-7200),(str "p",-10800),(str "q",-14400),
    (str "r",-18000),(str "s",-21600),(str "t",-25200),(str "u",-28800),(str "v",-32400),(str "w",-36000),
    (str "x",-39600),(str "y",-43200)]

/-! The variables, and what a format does to them. -/

inductive IntVar
  | sec
  | min
  | hour
  | mday
  | mon
  | year
  deriving DecidableEq, Repr

inductive StrVar
  | mon
  | wday
  | gmtoff
  | ampm
  deriving DecidableEq, Repr

/-- The local variables. -/
structure Vars where
  int : IntVar → ℤ
  str : StrVar → Bytes
  wday : ℤ
  gmtoff : ℤ
  ampm : ℤ

def Vars.assign (v : Vars) : Assign Byte IntVar StrVar → Vars
  | .int var val => { v with int := Function.update v.int var val }
  | .str var val => { v with str := Function.update v.str var val }

/-- `struct tm`, as far as `date_parse` fills it. -/
structure Tm where
  sec : ℤ
  min : ℤ
  hour : ℤ
  mday : ℤ
  mon : ℤ
  year : ℤ
  wday : ℤ
  isdst : ℤ
  deriving DecidableEq, Repr

/-- `scan_ampm`, `scan_wday`, `scan_mon` and `scan_gmtoff`. -/
inductive Look
  | ampm
  | wday
  | mon
  | gmtoff
  deriving DecidableEq, Repr

/-- The variable is set when the name is found. -/
def Look.run (v : Vars) : Look → Option Vars
  | .ampm => (strintSearch (v.str .ampm) ampmTab).map fun i => { v with ampm := i }
  | .wday => (strintSearch (v.str .wday) wdayTab).map fun i => { v with wday := i }
  | .mon => (strintSearch (v.str .mon) monTab).map fun i => { v with int := Function.update v.int .mon i }
  | .gmtoff => (strintSearch (v.str .gmtoff) gmtoffTab).map fun i => { v with gmtoff := i }

/-- A row of `&&`: where it ends, what was set before stays set. -/
def lookAll : List Look → Vars → Bool × Vars
  | [],v => (true,v)
  | l::ls,v =>
    match l.run v with
    | some v' => lookAll ls v'
    | none => (false,v)

abbrev Format := List (Dir Byte IntVar StrVar)

/-- `sscanf( cp, format, ... ) == count && ...` -/
structure Try where
  format : Format
  count : ℕ
  looks : List Look := []

def Try.run (cp : Bytes) (t : Try) (v : Vars) : Bool × Vars :=
  let as := scan alphabet t.format cp
  let v' := as.foldl Vars.assign v
  if as.length = t.count then lookAll t.looks v' else (false,v')

/-- A row of `||`. -/
def runTries (cp : Bytes) : List Try → Vars → Bool × Vars
  | [],v => (false,v)
  | t::ts,v =>
    let r := t.run cp v
    if r.1 then r else runTries cp ts r.2

/-- One `else if`: the formats, what is looked up after them, a condition on numbers and length, and
how `tm` is filled. -/
structure Branch where
  tries : List Try
  looks : List Look := []
  when : Vars → Bytes → Bool := fun _ _ => true
  fill : Vars → Tm → Tm

def Branch.run (cp : Bytes) (b : Branch) (v : Vars) : Bool × Vars :=
  let r := runTries cp b.tries v
  if r.1 then
    let q := lookAll b.looks r.2
    (q.1 && b.when q.2 cp,q.2)
  else r

/-! The pieces of the formats. -/

def lit (c : Char) : Dir Byte IntVar StrVar := .lit (ch c)

/-- `%[a-zA-Z]` -/
def alpha (var : StrVar) : Dir Byte IntVar StrVar := .set (fun c => 97 ≤ tolower c && tolower c ≤ 122) var

/-- ` %[apmAPM]` -/
def ampm : Format := [.space,.set (fun c => (str "apmAPM").contains c) .ampm]

/-- ` %[^: ]` -/
def zone : Format := [.space,.set (fun c => !(str ": ").contains c) .gmtoff]

/-- `%d:%d` -/
def hhmm : Format := [.int .hour,lit ':',.int .min]

/-- `%d:%d:%d` -/
def hhmmss : Format := [.int .hour,lit ':',.int .min,lit ':',.int .sec]

/-- `%d %[a-zA-Z]` -/
def nMth : Format := [.int .mday,.space,alpha .mon]

/-- `%d %[a-zA-Z] %d` -/
def nMthYyyy : Format := nMth ++ [.space,.int .year]

/-- `%d/%d` -/
def mmdd : Format := [.int .mon,lit '/',.int .mday]

/-- `%d/%d/%d` -/
def mmddyy : Format := mmdd ++ [lit '/',.int .year]

/-- `%d-%d-%d` -/
def yymmdd : Format := [.int .year,lit '-',.int .mon,lit '-',.int .mday]

/-- `%[a-zA-Z], %d %[a-zA-Z] %d` -/
def wdyNMthYyyy : Format := [alpha .wday,lit ',',.space] ++ nMthYyyy

/-- `%[a-zA-Z] %[a-zA-Z] %d` -/
def wdyMthN : Format := [alpha .wday,.space,alpha .mon,.space,.int .mday]

/-- A date and a time with a blank between them. -/
def spaced (a b : Format) : Format := a ++ .space::b

/-! How `tm` is filled. -/

def ampm_fix (hour ampm : ℤ) : ℤ :=
  if ampm = AMPM_AM then if hour = 12 then 0 else hour
  else if ampm = AMPM_PM then if hour ≠ 12 then hour+12 else hour
  else hour

def mm_fix (mm : ℤ) : ℤ := mm-1

/-- The date, with the month as `mon` gives it, and the hour and the minute. -/
def fillMinutes (mon : ℤ) (v : Vars) (tm : Tm) : Tm :=
  { tm with mday := v.int .mday, mon := mon, year := v.int .year, hour := ampm_fix (v.int .hour) v.ampm,
            min := v.int .min, sec := 0 }

def fillSeconds (mon : ℤ) (v : Vars) (tm : Tm) : Tm := { fillMinutes mon v tm with sec := v.int .sec }

/-- The date at midnight. -/
def fillDate (mday mon year : ℤ) (tm : Tm) : Tm :=
  { tm with mday := mday, mon := mon, year := year, hour := 0, min := 0, sec := 0 }

/-- A row of formats that end in a zone or not and in `ampm` or not: first with `ampm`, then without. -/
def withAmpm (before after : Format) (count : ℕ) : List Try :=
  [⟨before ++ ampm ++ after,count,[.ampm]⟩,⟨before ++ after,count-1,[]⟩]

/-- `yymmdd` and `yyyymmdd`: what is checked is `tm_year`, and what the day and the month are taken from is `tm_mon`,
with the number that a format with a slash has left there. -/
def packed (length : ℕ) : Branch where
  tries := [⟨[.int .year],1,[]⟩]
  when v cp :=
    0 < (v.int .year).tmod 100 && (v.int .year).tmod 100 ≤ 31 && 0 < ((v.int .year).tdiv 100).tmod 100 &&
      ((v.int .year).tdiv 100).tmod 100 ≤ 12 && cp.length == length
  fill v := fillDate ((v.int .mon).tmod 100) (mm_fix (((v.int .mon).tdiv 100).tmod 100)) ((v.int .year).tdiv 10000)

/-- The branches, in the order of the source. -/
def branches : List Branch :=
   -- N mth YYYY HH:MM:SS ampm zone
  [ { tries := withAmpm (spaced nMthYyyy hhmmss) zone 8
      looks := [.mon,.gmtoff]
      fill := fun v => fillSeconds (v.int .mon) v },
   -- N mth YYYY HH:MM ampm zone
    { tries := withAmpm (spaced nMthYyyy hhmm) zone 7
      looks := [.mon,.gmtoff]
      fill := fun v => fillMinutes (v.int .mon) v },
   -- N mth YYYY HH:MM:SS ampm
    { tries := withAmpm (spaced nMthYyyy hhmmss) [] 7
      looks := [.mon]
      fill := fun v => fillSeconds (v.int .mon) v },
   -- N mth YYYY HH:MM ampm
    { tries := withAmpm (spaced nMthYyyy hhmm) [] 6
      looks := [.mon]
      fill := fun v => fillMinutes (v.int .mon) v },
   -- mm/dd/yy[yy] HH:MM:SS [ampm] [zone]; the month is taken as it was read
    { tries :=
        [⟨spaced mmddyy hhmmss ++ ampm ++ zone,8,[.gmtoff,.ampm]⟩,
          ⟨spaced mmddyy hhmmss ++ ampm,7,[.ampm]⟩,
          ⟨spaced mmddyy hhmmss,6,[]⟩]
      fill := fun v => fillSeconds (v.int .mon) v },
   -- mm/dd/yy[yy] HH:MM [ampm] [zone]
    { tries :=
        [⟨spaced mmddyy hhmm ++ ampm ++ zone,7,[.gmtoff,.ampm]⟩,
          ⟨spaced mmddyy hhmm ++ ampm,6,[.ampm]⟩,
          ⟨spaced mmddyy hhmm ++ zone,6,[.gmtoff]⟩,
          ⟨spaced mmddyy hhmm,5,[]⟩]
      fill := fun v => fillMinutes (mm_fix (v.int .mon)) v },
   -- yy[yy]-mm-dd hh:nn:ss [ampm] [zone]
    { tries :=
        [⟨spaced yymmdd hhmmss ++ ampm ++ zone,8,[.gmtoff,.ampm]⟩,
          ⟨spaced yymmdd hhmmss ++ ampm,7,[.ampm]⟩,
          ⟨spaced yymmdd hhmmss ++ zone,7,[.gmtoff]⟩,
          ⟨spaced yymmdd hhmmss,6,[]⟩]
      fill := fun v => fillSeconds (mm_fix (v.int .mon)) v },
   -- yy[yy]-mm-dd hh:nn [ampm] [zone]
    { tries :=
        [⟨spaced yymmdd hhmm ++ ampm ++ zone,7,[.gmtoff,.ampm]⟩,
          ⟨spaced yymmdd hhmm ++ ampm,6,[.ampm]⟩,
          ⟨spaced yymmdd hhmm ++ zone,6,[.gmtoff]⟩,
          ⟨spaced yymmdd hhmm,5,[]⟩]
      fill := fun v => fillMinutes (mm_fix (v.int .mon)) v },
   -- mm/dd/yy[yy]
    { tries := [⟨mmddyy,3,[]⟩]
      fill := fun v => fillDate (v.int .mday) (mm_fix (v.int .mon)) (v.int .year) },
   -- yy[yy]-mm-dd
    { tries := [⟨yymmdd,3,[]⟩]
      fill := fun v => fillDate (v.int .mday) (mm_fix (v.int .mon)) (v.int .year) },
   -- mm/dd hh:ss aa; the minute is not taken, and the year stays as it was
    { tries := [⟨spaced mmdd hhmm ++ ampm,5,[.ampm]⟩]
      fill := fun v tm =>
        { tm with mday := v.int .mday, mon := mm_fix (v.int .mon), hour := ampm_fix (v.int .hour) v.ampm,
                  min := 0, sec := 0 } },
   -- mm/dd hh:ss
    { tries := [⟨spaced mmdd hhmm,4,[]⟩]
      fill := fun v tm =>
        { tm with mday := v.int .mday, mon := mm_fix (v.int .mon), hour := v.int .hour, min := v.int .min,
                  sec := 0 } },
   -- mm/dd
    { tries := [⟨mmdd,2,[]⟩]
      fill := fun v tm => fillDate (v.int .mday) (mm_fix (v.int .mon)) tm.year tm },
   -- HH:MM:SS ampm zone N mth YYYY
    { tries := withAmpm hhmmss (zone ++ .space::nMthYyyy) 8
      looks := [.gmtoff,.mon]
      fill := fun v => fillSeconds (v.int .mon) v },
   -- HH:MM ampm zone N mth YYYY
    { tries := withAmpm hhmm (zone ++ .space::nMthYyyy) 7
      looks := [.gmtoff,.mon]
      fill := fun v => fillMinutes (v.int .mon) v },
   -- HH:MM:SS ampm N mth YYYY
    { tries := withAmpm hhmmss (.space::nMthYyyy) 7
      looks := [.mon]
      fill := fun v => fillSeconds (v.int .mon) v },
   -- HH:MM ampm N mth YYYY
    { tries := withAmpm hhmm (.space::nMthYyyy) 6
      looks := [.mon]
      fill := fun v => fillMinutes (v.int .mon) v },
   -- wdy, N mth YYYY HH:MM:SS ampm zone
    { tries := withAmpm (spaced wdyNMthYyyy hhmmss) zone 9
      looks := [.wday,.mon,.gmtoff]
      fill := fun v tm => { fillSeconds (v.int .mon) v tm with wday := v.wday } },
   -- wdy, N mth YYYY HH:MM ampm zone
    { tries := withAmpm (spaced wdyNMthYyyy hhmm) zone 8
      looks := [.wday,.mon,.gmtoff]
      fill := fun v tm => { fillMinutes (v.int .mon) v tm with wday := v.wday } },
   -- wdy, N mth YYYY HH:MM:SS ampm
    { tries := withAmpm (spaced wdyNMthYyyy hhmmss) [] 8
      looks := [.wday,.mon]
      fill := fun v tm => { fillSeconds (v.int .mon) v tm with wday := v.wday } },
   -- wdy, N mth YYYY HH:MM ampm
    { tries := withAmpm (spaced wdyNMthYyyy hhmm) [] 7
      looks := [.wday,.mon]
      fill := fun v tm => { fillMinutes (v.int .mon) v tm with wday := v.wday } },
   -- wdy mth N HH:MM:SS ampm zone YYYY
    { tries := withAmpm (spaced wdyMthN hhmmss) (zone ++ [.space,.int .year]) 9
      looks := [.wday,.mon,.gmtoff]
      fill := fun v tm => { fillSeconds (v.int .mon) v tm with wday := v.wday } },
   -- wdy mth N HH:MM ampm zone YYYY
    { tries := withAmpm (spaced wdyMthN hhmm) (zone ++ [.space,.int .year]) 8
      looks := [.wday,.mon,.gmtoff]
      fill := fun v tm => { fillMinutes (v.int .mon) v tm with wday := v.wday } },
   -- N mth YY[YY]
    { tries := [⟨nMthYyyy,3,[]⟩]
      looks := [.mon]
      fill := fun v => fillDate (v.int .mday) (v.int .mon) (v.int .year) },
   -- mth N [,] YY[YY]
    { tries :=
        [⟨[alpha .mon,.space,.int .mday,.space,.int .year],3,[]⟩,
          ⟨[alpha .mon,.space,.int .mday,.space,lit ',',.space,.int .year],3,[]⟩]
      looks := [.mon]
      fill := fun v => fillDate (v.int .mday) (v.int .mon) (v.int .year) },
   -- mth [,] YY[YY]
    { tries :=
        [⟨[alpha .mon,.space,.int .year],2,[]⟩,⟨[alpha .mon,.space,lit ',',.space,.int .year],2,[]⟩]
      looks := [.mon]
      fill := fun v => fillDate 1 (v.int .mon) (v.int .year) },
   -- mth
    { tries := [⟨[alpha .mon],1,[]⟩]
      looks := [.mon]
      fill := fun v tm => fillDate 1 (v.int .mon) tm.year tm },
   -- HH:MM:SS ampm
    { tries := withAmpm hhmmss [] 4
      fill := fun v tm =>
        { tm with hour := ampm_fix (v.int .hour) v.ampm, min := v.int .min, sec := v.int .sec } },
   -- HH:MM ampm
    { tries := withAmpm hhmm [] 3
      fill := fun v tm => { tm with hour := ampm_fix (v.int .hour) v.ampm, min := v.int .min, sec := 0 } },
   packed 6,
   packed 8]

/-- What `date_parse` has around it. -/
structure Clock where
  /-- the local time now -/
  now : Tm
  gmtoff : ℤ
  /-- `tm_year` at the first call, which decides about the century of years of two digits -/
  first : ℤ
  /-- what the local variables hold before anything is assigned -/
  vars : Vars

inductive Parsed
  /-- for no text -/
  | zero
  /-- -1 -/
  | error
  /-- the fields that are handed to `mktime`, and what is added to its answer -/
  | time (tm : Tm) (shift : ℤ)
  deriving DecidableEq, Repr

/-- The first branch that fits the text. -/
def firstBranch (cp : Bytes) : List Branch → Vars → Option (Branch × Vars)
  | [],_ => none
  | b::bs,v =>
    let r := b.run cp v
    if r.1 then some (b,r.2) else firstBranch cp bs r.2

/-- A year of four digits, or the one closest to now with these last digits. -/
def yearFix (first year : ℤ) : ℤ :=
  let yk_low := (first+50).tmod 100
  let yk_off := 100*(first-50).tdiv 100
  if year > 1900 then year-1900
  else (if year < yk_low then year+100 else year)+yk_off

/-- `date_parse`. -/
def date_parse (c : Clock) (s : Bytes) : Parsed :=
  if s = [] then .zero
  else
    let cp := s.dropWhile fun c => c == ch ' ' || c == ch '\t'
    let tm : Tm := { c.now with wday := 0, isdst := 0 }
    match firstBranch cp branches { c.vars with ampm := AMPM_NONE, gmtoff := c.gmtoff } with
    | none => .error
    | some (b,v) =>
      let tm := b.fill v tm
      .time { tm with year := yearFix c.first tm.year, isdst := -1 } (c.gmtoff-v.gmtoff)

end Smx.DateParse
