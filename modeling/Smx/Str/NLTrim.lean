import Smx.Base.Bytes

/-! `qStrNLTrim`: blank lines and the white space in front of a line are left out of what is written. A pointer is what
can be read from where it points. -/
namespace Smx.NLTrim

/-- `strchr`: how far away the first such character is. -/
def strchr (c : Byte) : Bytes → Option (Option ℕ)
  | [] => none
  | b::s => if b = c then some (some 0) else if b = 0 then some none else (strchr c s).map (·.map (·+1))

/-- `memchr` -/
def memchr (c : Byte) : Bytes → ℕ → Option (Option ℕ)
  | _,0 => some none
  | [],_+1 => none
  | b::s,n+1 => if b = c then some (some 0) else (memchr c s n).map (·.map (·+1))

/-- The `n` characters that are written by `PutS(s, n)`. -/
def readN (s : Bytes) (n : ℕ) : Option Bytes := if n ≤ s.length then some (s.take n) else none

/-- Those that are written by `PutS(s)`. -/
def readZ (s : Bytes) : Option Bytes := if 0 ∈ s then some (cstr s) else none

/-- `while(isspace(*s)) ++s;` -/
def skipZ : Bytes → Option Bytes
  | [] => none
  | c::s => if isspace c then skipZ s else some (c::s)

/-- `while(s < e && isspace(*s)) ++s;`: where `s` stops, and how far it is from there to `e`. -/
def skipN : Bytes → ℕ → Option (Bytes × ℕ)
  | s,0 => some (s,0)
  | [],_+1 => none
  | c::s,n+1 => if isspace c then skipN s n else some (c::s,n+1)

/-- `while(s < e && isspace(*p)) ++s;` -/
def skipAt (p : Bytes) : Bytes → ℕ → Option (Bytes × ℕ)
  | s,0 => some (s,0)
  | s,n+1 => p.head?.bind fun c => if isspace c then skipAt p s.tail n else some (s,n+1)

/-- `PutS(s)`: what is passed on, and `myNL`. -/
def putZ : ℕ → Bool → Bytes → Option (Bytes × Bool)
  | 0,_,_ => none
  | fuel+1,myNL,s => do
    match ← strchr (ch '\n') s with
    | some p =>
      let out ← readN s (if myNL then p else p+1)
      let s ← skipZ (s.drop (p+1))
      let c ← s.head?
      let (rest,myNL) ← putZ fuel (c == 0) s
      some (out ++ rest,myNL)
    | none =>
      let s ← if myNL then skipZ s else some s
      let c ← s.head?
      let out ← readZ s
      some (out,if c ≠ 0 then false else myNL)

/-- `PutS(s, n)` -/
def putN : ℕ → Bool → Bytes → ℕ → Option (Bytes × Bool)
  | 0,_,_,_ => none
  | fuel+1,myNL,s,n => do
    match ← memchr (ch '\n') s n with
    | some p =>
      let out ← readN s (if myNL then p else p+1)
      let (s,n) ← skipAt (s.drop p) (s.drop (p+1)) (n-(p+1))
      let (rest,myNL) ← putN fuel (n == 0) s n
      some (out ++ rest,myNL)
    | none =>
      let (s,n) ← if myNL then skipN s n else some (s,n)
      let out ← readN s n
      some (out,if 0 < n then false else myNL)

/-- How a piece of text is handed over. -/
inductive Call
  | putS (s : Bytes)
  | putSN (s : Bytes)
  | putC (c : Byte)

def Call.piece : Call → Bytes
  | .putS s | .putSN s => s
  | .putC c => [c]

/-- A call with a piece in memory, whose terminator is there for `PutS(s)` only. -/
def Call.run (myNL : Bool) : Call → Option (Bytes × Bool)
  | .putS s => putZ (s.length+1) myNL (s ++ [0])
  | .putSN s => putN (s.length+1) myNL s s.length
  | .putC c => putN 2 myNL [c] 1

/-- The bytes that calls pass on, one after the other; none where one reads behind its piece. -/
def runCalls : Bool → List Call → Option Bytes
  | _,[] => some []
  | myNL,c::calls => do
    let (out,myNL) ← c.run myNL
    let rest ← runCalls myNL calls
    some (out ++ rest)

def textOf (calls : List Call) : Bytes := calls.flatMap Call.piece

/-- However the text is cut, a fresh object passes on the same bytes. -/
def CutFree (t : Bytes) : Prop := ∃ out, ∀ calls, textOf calls = t → runCalls true calls = some out

/-- Behind the newlines in front there is white space other than newlines. -/
def BlankBehindNewlines (t : Bytes) : Prop := ∀ c ∈ t.dropWhile (· == ch '\n'), isspace c = true ∧ c ≠ ch '\n'

instance (t : Bytes) : Decidable (BlankBehindNewlines t) := inferInstanceAs (Decidable (∀ _ ∈ _, _))

example : runCalls true [.putSN (str "a\n\n  b"),.putS (str "\n \nc")] = some (str "ac") := by decide

example : runCalls true [.putS (str "a\n\n  b\n \nc")] = some (str "ab\nc") := by decide

section
variable {a s t : Bytes} {c : Byte} {myNL : Bool} {fuel : ℕ}

theorem strchr_none (h : c ∉ s) (hnul : 0 ∉ s) (hc : c ≠ 0) : strchr c (s ++ [0]) = some none := by
  induction s with
  | nil => simp [strchr,hc.symm]
  | cons b s ih =>
    obtain ⟨hb,hs⟩ := List.ne_and_not_mem_of_not_mem_cons h
    obtain ⟨hb0,hs0⟩ := List.ne_and_not_mem_of_not_mem_cons hnul
    rw [List.cons_append,strchr,if_neg hb.symm,if_neg hb0.symm,ih hs hs0]
    rfl

theorem memchr_none (h : c ∉ s) : memchr c s s.length = some none := by
  induction s with
  | nil => rfl
  | cons b s ih =>
    obtain ⟨hb,hs⟩ := List.ne_and_not_mem_of_not_mem_cons h
    rw [List.length_cons,memchr,if_neg hb.symm,ih hs]
    rfl

theorem memchr_append (h : c ∉ a) (s : Bytes) : memchr c (a ++ c::s) (a ++ c::s).length = some (some a.length) := by
  induction a with
  | nil => simp [memchr]
  | cons b a ih =>
    obtain ⟨hb,ha⟩ := List.ne_and_not_mem_of_not_mem_cons h
    rw [List.cons_append,List.length_cons,memchr,if_neg hb.symm,ih ha]
    rfl

theorem skipZ_eq (s : Bytes) : skipZ (s ++ [0]) = some (s.dropWhile isspace ++ [0]) := by
  induction s with
  | nil => rfl
  | cons c s ih =>
    rw [List.cons_append,skipZ,List.dropWhile_cons]
    split_ifs
    · exact ih
    · rfl

theorem skipN_eq (s : Bytes) : skipN s s.length = some (s.dropWhile isspace,(s.dropWhile isspace).length) := by
  induction s with
  | nil => rfl
  | cons c s ih =>
    rw [List.length_cons,skipN,List.dropWhile_cons]
    split_ifs
    · exact ih
    · rfl

/-- The character looked at is the newline, so nothing stops the loop before the end. -/
theorem skipAt_newline (p s : Bytes) (n : ℕ) : skipAt (ch '\n'::p) s n = some (s.drop n,0) := by
  induction n generalizing s with
  | zero => rfl
  | succ n ih =>
    rw [skipAt,List.head?_cons,Option.bind_some,if_pos (by decide),ih,List.drop_tail]

theorem readN_length (s : Bytes) : readN s s.length = some s := by
  simp [readN]

theorem readN_append (a s : Bytes) : readN (a ++ s) a.length = some a := by
  simp [readN]

theorem readZ_eq (h : 0 ∉ s) : readZ (s ++ [0]) = some s := by
  rw [readZ,if_pos (by simp),cstr,List.takeWhile_append_of_pos]
  · simp
  · intro c hc
    simpa using ne_of_mem_of_not_mem hc h

/-- What is left of a text without newlines. -/
def trimFront (myNL : Bool) (s : Bytes) : Bytes := if myNL then s.dropWhile isspace else s

theorem trimFront_append (myNL : Bool) (s t : Bytes) :
    trimFront myNL (s ++ t) = trimFront myNL s ++ trimFront (myNL && (trimFront myNL s).isEmpty) t := by
  cases myNL with
  | false => rfl
  | true =>
    simp only [trimFront,if_true,Bool.true_and,List.dropWhile_append]
    split_ifs with h
    · rw [List.isEmpty_iff.mp h]
      rfl
    · rfl

theorem not_mem_trimFront (h : c ∉ s) (myNL : Bool) : c ∉ trimFront myNL s := by
  intro hc
  rw [trimFront] at hc
  split_ifs at hc
  · exact h ((List.dropWhile_suffix _).mem hc)
  · exact h hc

theorem putN_plain (h : ch '\n' ∉ s) :
    putN (fuel+1) myNL s s.length = some (trimFront myNL s,myNL && (trimFront myNL s).isEmpty) := by
  rw [putN,memchr_none h]
  cases myNL with
  | false => simp [readN_length,trimFront]
  | true =>
    simp only [Option.bind_eq_bind,Option.bind_some,if_true,skipN_eq,readN_length,trimFront]
    cases s.dropWhile isspace <;> simp

theorem putZ_plain (h : ch '\n' ∉ s) (hnul : 0 ∉ s) :
    putZ (fuel+1) myNL (s ++ [0]) = some (trimFront myNL s,myNL && (trimFront myNL s).isEmpty) := by
  rw [putZ,strchr_none h hnul (by decide)]
  cases myNL with
  | false =>
    obtain ⟨c,hc⟩ : ∃ c, (s ++ [0]).head? = some c := Option.isSome_iff_exists.mp (by cases s <;> rfl)
    simp [hc,readZ_eq hnul,trimFront]
  | true =>
    have hplain := not_mem_trimFront hnul true
    simp only [trimFront,if_true] at hplain ⊢
    simp only [Option.bind_eq_bind,Option.bind_some,skipZ_eq,readZ_eq hplain]
    cases ht : s.dropWhile isspace with
    | nil => simp
    | cons c t =>
      rw [ht] at hplain
      simp [(List.ne_and_not_mem_of_not_mem_cons hplain).1.symm]

/-- Of a piece with a newline only what is in front of it is passed on. -/
theorem putN_newline (h : ch '\n' ∉ a) :
    putN (fuel+2) myNL (a ++ ch '\n'::s) (a ++ ch '\n'::s).length =
      some (if myNL then a else a ++ [ch '\n'],true) := by
  have hread : readN (a ++ ch '\n'::s) (if myNL then a.length else a.length+1) =
      some (if myNL then a else a ++ [ch '\n']) := by
    cases myNL with
    | false =>
      have hlen : a.length+1 = (a ++ [ch '\n']).length := by simp
      rw [List.append_cons]
      simp only [Bool.false_eq_true,if_false,hlen]
      exact readN_append (a ++ [ch '\n']) s
    | true => exact readN_append a _
  have hn : (a ++ ch '\n'::s).length-(a.length+1) = s.length := by
    rw [List.length_append,List.length_cons]
    omega
  have hs : (a ++ ch '\n'::s).drop (a.length+1) = s := by simp
  rw [putN,memchr_append h]
  simp only [Option.bind_eq_bind,Option.bind_some,hread,List.drop_left,hs,hn,skipAt_newline,List.drop_length]
  simp [putN,memchr,skipN,readN]

theorem run_plain (c : Call) (h : ch '\n' ∉ c.piece) (hnul : 0 ∉ c.piece) :
    c.run myNL = some (trimFront myNL c.piece,myNL && (trimFront myNL c.piece).isEmpty) := by
  cases c with
  | putS s => exact putZ_plain h hnul
  | putSN s => exact putN_plain h
  | putC c => exact putN_plain h

theorem textOf_cons (c : Call) (calls : List Call) : textOf (c::calls) = c.piece ++ textOf calls := rfl

/-- A text without newlines loses the white space in front, however it is cut. -/
theorem runCalls_plain {calls : List Call} (h : ch '\n' ∉ textOf calls) (hnul : 0 ∉ textOf calls) :
    runCalls myNL calls = some (trimFront myNL (textOf calls)) := by
  induction calls generalizing myNL with
  | nil => cases myNL <;> rfl
  | cons c calls ih =>
    rw [textOf_cons,List.mem_append,not_or] at h hnul
    rw [runCalls,run_plain c h.1 hnul.1,textOf_cons,trimFront_append]
    simp only [Option.bind_eq_bind,Option.bind_some,ih h.2 hnul.2]

theorem BlankBehindNewlines.of_append (h : BlankBehindNewlines (s ++ t)) :
    BlankBehindNewlines s ∧ BlankBehindNewlines t := by
  rw [BlankBehindNewlines,List.dropWhile_append] at h
  split_ifs at h with hs
  · refine ⟨?_,h⟩
    rw [BlankBehindNewlines,List.isEmpty_iff.mp hs]
    simp
  · refine ⟨fun c hc => h c (List.mem_append_left _ hc),fun c hc => h c (List.mem_append_right _ ?_)⟩
    exact (List.dropWhile_suffix _).mem hc

theorem BlankBehindNewlines.isspace (h : BlankBehindNewlines s) : ∀ c ∈ s, isspace c = true := by
  intro c hc
  rw [← List.takeWhile_append_dropWhile (p := (· == ch '\n')) (l := s),List.mem_append] at hc
  rcases hc with hc | hc
  · have hnl := List.mem_takeWhile_imp (p := (· == ch '\n')) hc
    rw [eq_of_beq hnl]
    decide
  · exact (h c hc).1

/-- Such a piece is left out whole at the beginning of a line. -/
theorem run_blank (c : Call) (h : BlankBehindNewlines c.piece) (hnul : 0 ∉ c.piece) :
    c.run true = some ([],true) := by
  have hskip : trimFront true c.piece = [] := List.dropWhile_eq_nil_iff.mpr h.isspace
  by_cases hnl : ch '\n' ∈ c.piece
  · have hhead : ∃ s, c.piece = ch '\n'::s := by
      cases hp : c.piece with
      | nil => simp [hp] at hnl
      | cons b s =>
        by_contra hb
        have hb : (b == ch '\n') = false := beq_false_of_ne fun he => hb ⟨s,by rw [he]⟩
        rw [hp,BlankBehindNewlines,List.dropWhile_cons_of_neg (by simp [hb])] at h
        exact (h _ (hp ▸ hnl)).2 rfl
    obtain ⟨s,hs⟩ := hhead
    cases c with
    | putS p =>
      obtain rfl : p = ch '\n'::s := hs
      have hblank : s.dropWhile Smx.isspace = [] :=
        List.dropWhile_eq_nil_iff.mpr fun c hc => h.isspace c (List.mem_cons_of_mem _ hc)
      change putZ (s.length+2) true (ch '\n'::(s ++ [0])) = _
      rw [putZ,strchr,if_pos rfl]
      simp [readN,skipZ_eq,hblank,putZ,strchr,skipZ,Smx.isspace,readZ,cstr,ch]
    | putSN p =>
      obtain rfl : p = ch '\n'::s := hs
      exact putN_newline (a := []) List.not_mem_nil
    | putC b =>
      obtain ⟨rfl,-⟩ := List.cons.inj hs
      rfl
  · rw [run_plain c hnl hnul,hskip]
    rfl

theorem runCalls_blank {calls : List Call} (h : BlankBehindNewlines (textOf calls)) (hnul : 0 ∉ textOf calls) :
    runCalls true calls = some [] := by
  induction calls with
  | nil => rfl
  | cons c calls ih =>
    rw [textOf_cons] at h hnul
    rw [List.mem_append,not_or] at hnul
    rw [runCalls,run_blank c h.of_append.1 hnul.1]
    simp only [Option.bind_eq_bind,Option.bind_some,ih h.of_append.2 hnul.2,List.nil_append]

/-- What is passed on when a text comes character by character. -/
def trimmed : Bool → Bytes → Bytes
  | _,[] => []
  | myNL,c::t =>
    if c = ch '\n' then (if myNL then [] else [c]) ++ trimmed true t
    else if myNL && isspace c then trimmed true t
    else c::trimmed false t

theorem runCalls_chars (t : Bytes) : runCalls myNL (t.map .putC) = some (trimmed myNL t) := by
  induction t generalizing myNL with
  | nil => rfl
  | cons c t ih =>
    rw [List.map_cons,runCalls,trimmed]
    by_cases hc : c = ch '\n'
    · subst hc
      have hrun : (Call.putC (ch '\n')).run myNL = some (if myNL then [] else [ch '\n'],true) :=
        putN_newline (a := []) List.not_mem_nil
      rw [hrun,if_pos rfl]
      simp only [Option.bind_eq_bind,Option.bind_some,ih]
    · have hrun : (Call.putC c).run myNL = _ := putN_plain (fun h => hc (List.mem_singleton.mp h).symm)
      rw [hrun,if_neg hc]
      simp only [Option.bind_eq_bind,Option.bind_some,ih,trimFront]
      cases myNL with
      | false => rfl
      | true => cases hb : isspace c <;> simp [hb]

theorem trimmed_true_cons (c : Byte) (t : Bytes) :
    trimmed true (c::t) = if isspace c then trimmed true t else c::trimmed false t := by
  rw [trimmed]
  by_cases hc : c = ch '\n'
  · subst hc
    rfl
  · rw [if_neg hc,Bool.true_and]

theorem head_trimmed (t : Bytes) : ∀ c ∈ (trimmed true t).head?, isspace c = false := by
  induction t with
  | nil => simp [trimmed]
  | cons c t ih =>
    rw [trimmed_true_cons]
    split_ifs with hc
    · exact ih
    · simpa using hc

theorem isspace_of_trimmed (h : trimmed true t = []) : ∀ c ∈ t, isspace c = true := by
  induction t with
  | nil => simp
  | cons c t ih =>
    rw [trimmed_true_cons] at h
    split_ifs at h with hc
    exact List.forall_mem_cons.mpr ⟨hc,ih h⟩

theorem trimmed_false (h : ch '\n' ∉ a) (t : Bytes) :
    trimmed false (a ++ ch '\n'::t) = a ++ ch '\n'::trimmed true t := by
  induction a with
  | nil => rfl
  | cons c a ih =>
    obtain ⟨hc,ha⟩ := List.ne_and_not_mem_of_not_mem_cons h
    rw [List.cons_append,trimmed,if_neg hc.symm,ih ha]
    rfl

/-- The first line is passed on without its newline only when it is empty. -/
theorem eq_nil_of_trimmed (h : ch '\n' ∉ a) (ht : trimmed true (a ++ ch '\n'::t) = a) :
    a = [] ∧ trimmed true t = [] := by
  cases a with
  | nil => exact ⟨rfl,ht⟩
  | cons c a =>
    obtain ⟨hc,ha⟩ := List.ne_and_not_mem_of_not_mem_cons h
    have hhead := head_trimmed (c::a ++ ch '\n'::t) c (by rw [ht]; rfl)
    rw [List.cons_append,trimmed,if_neg hc.symm,hhead,trimmed_false ha] at ht
    have hlen := congrArg List.length ht
    simp at hlen

theorem runCalls_append_newline (h : ch '\n' ∉ a) (s : Bytes) :
    runCalls myNL [.putSN (a ++ ch '\n'::s)] = some (if myNL then a else a ++ [ch '\n']) := by
  have hrun : (Call.putSN (a ++ ch '\n'::s)).run myNL = some (if myNL then a else a ++ [ch '\n'],true) := by
    have hfuel : (a ++ ch '\n'::s).length+1 = a.length+s.length+2 := by
      rw [List.length_append,List.length_cons]
      omega
    rw [Call.run,hfuel]
    exact putN_newline h
  rw [runCalls,hrun]
  simp [runCalls]

theorem blankBehindNewlines_takeWhile (t : Bytes) : BlankBehindNewlines (t.takeWhile (· == ch '\n')) := by
  have hnil : (t.takeWhile (· == ch '\n')).dropWhile (· == ch '\n') = [] :=
    List.dropWhile_eq_nil_iff.mpr fun c hc => List.mem_takeWhile_imp (p := (· == ch '\n')) hc
  rw [BlankBehindNewlines,hnil]
  simp

theorem textOf_two (s t : Bytes) : textOf [.putSN s,.putSN t] = s ++ t := congrArg (s ++ ·) (List.append_nil t)

/-- What stands in front of a newline is passed on when the text is cut before it. -/
theorem runCalls_cut (hs : BlankBehindNewlines s) (hnul : 0 ∉ s) (ha : ch '\n' ∉ a) (t : Bytes) :
    runCalls true [.putSN s,.putSN (a ++ ch '\n'::t)] = some a := by
  rw [runCalls,run_blank (.putSN s) hs hnul]
  simp only [Option.bind_eq_bind,Option.bind_some,runCalls_append_newline ha]
  rfl

/-- A text whose cutting makes no difference has no newline, or is newlines and then other white space. -/
theorem cutFree_iff (t : Bytes) (hnul : 0 ∉ t) : CutFree t ↔ ch '\n' ∉ t ∨ BlankBehindNewlines t := by
  constructor
  · rintro ⟨out,hout⟩
    by_contra hn
    obtain ⟨hnl,hblank⟩ := not_or.mp hn
    obtain ⟨a,b,rfl,ha⟩ := List.eq_append_cons_of_mem (not_not.mp hnl)
    have hwhole := hout [.putSN _] (List.append_nil _)
    rw [runCalls_append_newline ha] at hwhole
    have hchars := hout ((a ++ ch '\n'::b).map .putC) (by simp [textOf,List.flatMap_map,Call.piece])
    rw [runCalls_chars] at hchars
    have hsame : trimmed true (a ++ ch '\n'::b) = a := Option.some.inj (hchars.trans hwhole.symm)
    obtain ⟨rfl,hrest⟩ := eq_nil_of_trimmed ha hsame
    obtain rfl : [] = out := Option.some.inj hwhole
    obtain ⟨c,hc,hcn⟩ : ∃ c ∈ (ch '\n'::b).dropWhile (· == ch '\n'), ¬(isspace c = true ∧ c ≠ ch '\n') := by
      simpa [BlankBehindNewlines] using hblank
    have hmem : c ∈ ch '\n'::b := (List.dropWhile_suffix _).mem hc
    have hspace : isspace c = true := isspace_of_trimmed (t := ch '\n'::b) (by rw [← hsame]; rfl) c hmem
    obtain rfl : c = ch '\n' := of_not_not fun hne => hcn ⟨hspace,hne⟩
    -- cut before the first character that is no newline
    obtain ⟨d,r,hdr⟩ := List.exists_cons_of_ne_nil (List.ne_nil_of_mem hc)
    have hd : d ≠ ch '\n' := by
      have hhead := List.head?_dropWhile_not (· == ch '\n') (ch '\n'::b)
      rw [hdr] at hhead
      simpa using hhead
    rw [hdr] at hc
    obtain ⟨a,r,rfl,ha⟩ := List.eq_append_cons_of_mem ((List.mem_cons.mp hc).resolve_left hd.symm)
    have hcut := List.takeWhile_append_dropWhile (p := (· == ch '\n')) (l := ch '\n'::b)
    rw [hdr,← List.cons_append] at hcut
    have htwo := runCalls_cut (blankBehindNewlines_takeWhile _) (fun h => hnul ((List.takeWhile_prefix _).mem h))
      (a := d::a) (by simpa [ha] using hd.symm) r
    cases (hout _ ((textOf_two ..).trans hcut)).symm.trans htwo
  · rintro (h | h)
    · refine ⟨trimFront true t,?_⟩
      rintro calls rfl
      exact runCalls_plain h hnul
    · refine ⟨[],?_⟩
      rintro calls rfl
      exact runCalls_blank h hnul

end

theorem cutFree_line : (0 : Byte) ∉ str "  a b" ∧ CutFree (str "  a b") := by
  have hnul : (0 : Byte) ∉ str "  a b" := by decide
  exact ⟨hnul,(cutFree_iff _ hnul).mpr (Or.inl (by decide))⟩

/-- Handed over with its length, a text of two lines loses the second one. -/
theorem not_cutFree : (0 : Byte) ∉ str "a\nb" ∧ ¬CutFree (str "a\nb") := by
  refine ⟨by decide,?_⟩
  rintro ⟨out,hout⟩
  have hn : runCalls true [.putSN (str "a\nb")] = some (str "a") := by decide
  have hz : runCalls true [.putS (str "a\nb")] = some (str "ab") := by decide
  have hsame := (hout _ (List.append_nil _)).symm.trans hn
  rw [hout _ (List.append_nil _),Option.some.inj hsame] at hz
  exact absurd (Option.some.inj hz) (by decide)

end Smx.NLTrim
