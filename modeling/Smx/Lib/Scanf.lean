import Mathlib.Data.Int.Notation
import Mathlib.Data.List.Basic
import Mathlib.Tactic.Common

/-! Formats of the `scanf` family: white space, literal characters, decimal numbers and sets of characters.
A text that is given as numbers, separators and a word can be scanned without looking into its characters. -/
namespace Scanf
variable {α ι ω : Type}

/-- The characters that formats know of. -/
structure Alphabet (α : Type) where
  space : α → Bool
  digits : List α
  minus : α
  plus : α
  /-- of a row of digits -/
  value : List α → ℕ

/-- A directive, with the variable that it assigns. -/
inductive Dir (α ι ω : Type)
  /-- white space in the format -/
  | space
  | lit (c : α)
  /-- `%d` -/
  | int (var : ι)
  /-- `%[...]` -/
  | set (member : α → Bool) (var : ω)

inductive Assign (α ι ω : Type)
  | int (var : ι) (val : ℤ)
  | str (var : ω) (val : List α)

/-- The parts of a text. -/
inductive Tok (α : Type)
  | num (digits : List α)
  | sep (c : α)
  | word (letters : List α)

def Tok.text : Tok α → List α
  | .num t => t
  | .sep c => [c]
  | .word t => t

def text (ts : List (Tok α)) : List α := ts.flatMap Tok.text

@[simp] theorem text_nil : text ([] : List (Tok α)) = [] := rfl

@[simp] theorem text_cons (t : Tok α) (ts : List (Tok α)) : text (t::ts) = t.text ++ text ts := rfl

theorem takeWhile_append_stop {p : α → Bool} {t rest : List α} (ht : ∀ c ∈ t, p c = true)
    (hrest : ∀ c ∈ rest.head?, p c = false) :
    (t ++ rest).takeWhile p = t ∧ (t ++ rest).dropWhile p = rest := by
  rw [List.takeWhile_append_of_pos ht,List.dropWhile_append_of_pos ht]
  cases rest with
  | nil => exact ⟨List.append_nil t,rfl⟩
  | cons c rest =>
    have hc : ¬p c = true := by simp [hrest c rfl]
    rw [List.takeWhile_cons_of_neg hc,List.dropWhile_cons_of_neg hc,List.append_nil]
    exact ⟨rfl,rfl⟩

theorem takeWhile_eq_nil {p : α → Bool} {t rest : List α} (ht : ∀ c ∈ t, p c = false) (hne : t ≠ []) :
    (t ++ rest).takeWhile p = [] := by
  cases t with
  | nil => exact absurd rfl hne
  | cons c t => exact List.takeWhile_cons_of_neg (by simp [ht c List.mem_cons_self])

theorem head?_text {t : List α} (hne : t ≠ []) (rest : List α) : (t ++ rest).head? = t.head? :=
  List.head?_append_of_ne_nil _ hne

variable [DecidableEq α] (A : Alphabet α)

def Alphabet.isDigit (c : α) : Bool := A.digits.contains c

/-- A number with its sign, and what follows it. -/
def readInt (s : List α) : Option (ℤ × List α) :=
  let signed := s.head? = some A.minus ∨ s.head? = some A.plus
  let s' := if signed then s.tail else s
  let t := s'.takeWhile A.isDigit
  if t = [] then none
  else some (if s.head? = some A.minus then -(A.value t : ℤ) else A.value t,s'.dropWhile A.isDigit)

/-- The assignments, up to the first directive that fails. Their number is what `sscanf` returns, unless the text
ends before the first one. -/
def scan : List (Dir α ι ω) → List α → List (Assign α ι ω)
  | [],_ => []
  | .space::f,s => scan f (s.dropWhile A.space)
  | .lit c::f,s => if s.head? = some c then scan f s.tail else []
  | .int var::f,s =>
    match readInt A (s.dropWhile A.space) with
    | some (val,rest) => .int var val::scan f rest
    | none => []
  | .set member var::f,s =>
    if s.takeWhile member = [] then []
    else .str var (s.takeWhile member)::scan f (s.dropWhile member)

variable (letters : List α)

/-- Numbers stand apart, and a word of the letters given ends the text. -/
def Apart : List (Tok α) → Prop
  | [] => True
  | .num t::ts => t ≠ [] ∧ (∀ c ∈ t, A.isDigit c = true) ∧ (∀ c ∈ (text ts).head?, A.isDigit c = false) ∧ Apart ts
  | .sep c::ts => A.isDigit c = false ∧ Apart ts
  | .word t::ts => t ≠ [] ∧ (∀ c ∈ t, c ∈ letters) ∧ ts = []

def skipSeps : List (Tok α) → List (Tok α)
  | .sep c::ts => if A.space c then skipSeps ts else .sep c::ts
  | ts => ts

/-- `scan` on the parts of a text; nothing where it would have to look into one of them. -/
def scanToks : List (Dir α ι ω) → List (Tok α) → Option (List (Assign α ι ω))
  | [],_ => some []
  | .space::f,ts => scanToks f (skipSeps A ts)
  | .lit c::f,ts =>
    match ts with
    | [] => some []
    | .num _::_ => if A.isDigit c then none else some []
    | .sep d::ts => if d = c then scanToks f ts else some []
    | .word _::_ => if letters.contains c then none else some []
  | .int var::f,ts =>
    match skipSeps A ts with
    | .num t::ts => (scanToks f ts).map (.int var (A.value t)::·)
    | .sep c::_ => if c = A.minus ∨ c = A.plus then none else some []
    | _ => some []
  | .set member var::f,ts =>
    match ts with
    | [] => some []
    | .num _::_ => if A.digits.any member then none else some []
    | .sep c::_ => if member c then none else some []
    | .word t::ts =>
      if letters.all member then (scanToks f ts).map (.str var t::·)
      else if letters.any member then none
      else some []

/-- No letter is a digit, a blank or a sign, and no digit is a blank or a sign. -/
structure Alphabet.Distinct : Prop where
  letter : ∀ c ∈ letters, A.isDigit c = false ∧ A.space c = false ∧ c ≠ A.minus ∧ c ≠ A.plus
  digit : ∀ c ∈ A.digits, A.space c = false ∧ c ≠ A.minus ∧ c ≠ A.plus

variable {A letters} {ts : List (Tok α)}

theorem Alphabet.isDigit_iff {c : α} : A.isDigit c = true ↔ c ∈ A.digits := List.contains_iff_mem

theorem readInt_of_unsigned {s : List α} (h : ∀ c ∈ s.head?, c ≠ A.minus ∧ c ≠ A.plus) :
    readInt A s = if s.takeWhile A.isDigit = [] then none
      else some ((A.value (s.takeWhile A.isDigit) : ℤ),s.dropWhile A.isDigit) := by
  have hminus : s.head? ≠ some A.minus := fun hs => (h _ hs).1 rfl
  have hplus : s.head? ≠ some A.plus := fun hs => (h _ hs).2 rfl
  simp only [readInt,hminus,hplus,or_self,if_false]

theorem readInt_none {s : List α} (h : ∀ c ∈ s.head?, A.isDigit c = false ∧ c ≠ A.minus ∧ c ≠ A.plus) :
    readInt A s = none := by
  have hnone : s.takeWhile A.isDigit = [] := by
    cases s with
    | nil => rfl
    | cons c s => exact List.takeWhile_cons_of_neg (by simp [(h c rfl).1])
  rw [readInt_of_unsigned fun c hc => (h c hc).2,if_pos hnone]

section
variable (hA : A.Distinct letters)
include hA

theorem readInt_num {t rest : List α} (hne : t ≠ []) (ht : ∀ c ∈ t, A.isDigit c = true)
    (hrest : ∀ c ∈ rest.head?, A.isDigit c = false) : readInt A (t ++ rest) = some ((A.value t : ℤ),rest) := by
  obtain ⟨htake,hdrop⟩ := takeWhile_append_stop ht hrest
  rw [readInt_of_unsigned,htake,hdrop,if_neg hne]
  intro c hc
  rw [head?_text hne] at hc
  exact (hA.digit c (A.isDigit_iff.mp (ht c (List.mem_of_mem_head? hc)))).2

theorem skipSeps_spec (h : Apart A letters ts) :
    (text ts).dropWhile A.space = text (skipSeps A ts) ∧ Apart A letters (skipSeps A ts) := by
  induction ts with
  | nil => exact ⟨rfl,h⟩
  | cons t ts ih =>
    cases t with
    | num t =>
      cases t with
      | nil => exact absurd rfl h.1
      | cons c t =>
        have hc := (hA.digit c (A.isDigit_iff.mp (h.2.1 c List.mem_cons_self))).1
        exact ⟨List.dropWhile_cons_of_neg (by simp [hc]),h⟩
    | sep c =>
      by_cases hc : A.space c = true
      · have hskip : skipSeps A (.sep c::ts) = skipSeps A ts := if_pos hc
        rw [hskip]
        exact ⟨(List.dropWhile_cons_of_pos hc).trans (ih h.2).1,(ih h.2).2⟩
      · have hskip : skipSeps A (.sep c::ts) = .sep c::ts := if_neg hc
        rw [hskip]
        exact ⟨List.dropWhile_cons_of_neg hc,h⟩
    | word t =>
      cases t with
      | nil => exact absurd rfl h.1
      | cons c t =>
        have hc := (hA.letter c (h.2.1 c List.mem_cons_self)).2.1
        exact ⟨List.dropWhile_cons_of_neg (by simp [hc]),h⟩

/-- On texts of parts the format does what is said of the parts. -/
def Knows (A : Alphabet α) (letters : List α) (f : List (Dir α ι ω)) : Prop :=
  ∀ {ts : List (Tok α)} {as : List (Assign α ι ω)}, Apart A letters ts → scanToks A letters f ts = some as →
    scan A f (text ts) = as

variable {f : List (Dir α ι ω)} (ih : Knows A letters f)
include ih

theorem Knows.space : Knows A letters (.space::f) := by
  intro ts as h hscan
  obtain ⟨hdrop,hskip⟩ := skipSeps_spec hA h
  rw [scan,hdrop]
  exact ih hskip hscan

omit hA in
theorem Knows.lit (c : α) : Knows A letters (.lit c::f) := by
  intro ts as h hscan
  have hfail {s : List α} (hhead : s.head? ≠ some c) : scan A (.lit c::f) s = [] := if_neg hhead
  cases ts with
  | nil =>
    rw [text_nil,hfail (by simp)]
    exact Option.some.inj hscan
  | cons t ts =>
    cases t with
    | num t =>
      obtain ⟨hne,hdigits,-⟩ := h
      simp only [scanToks] at hscan
      split_ifs at hscan with hc
      rw [text_cons,Tok.text,hfail]
      · exact Option.some.inj hscan
      · rw [head?_text hne]
        exact fun hhead => hc (hdigits c (List.mem_of_mem_head? hhead))
    | sep d =>
      simp only [scanToks] at hscan
      split_ifs at hscan with hd
      · subst hd
        exact (if_pos rfl).trans (ih h.2 hscan)
      · rw [text_cons,Tok.text,hfail]
        · exact Option.some.inj hscan
        · exact fun hhead => hd (Option.some.inj hhead)
    | word t =>
      obtain ⟨hne,hletters,-⟩ := h
      simp only [scanToks] at hscan
      split_ifs at hscan with hc
      rw [text_cons,Tok.text,hfail]
      · exact Option.some.inj hscan
      · rw [head?_text hne]
        exact fun hhead => hc (List.contains_iff_mem.mpr (hletters c (List.mem_of_mem_head? hhead)))

theorem Knows.int (var : ι) : Knows A letters (.int var::f) := by
  intro ts as h hscan
  obtain ⟨hdrop,hskip⟩ := skipSeps_spec hA h
  rw [scan,hdrop]
  simp only [scanToks] at hscan
  cases hts : skipSeps A ts with
  | nil =>
    rw [hts] at hscan
    exact Option.some.inj hscan
  | cons t ts' =>
    rw [hts] at hscan hskip
    cases t with
    | num t =>
      obtain ⟨hne,hdigits,hnext,hrest⟩ := hskip
      obtain ⟨bs,hbs,rfl⟩ := Option.map_eq_some_iff.mp hscan
      rw [text_cons,Tok.text,readInt_num hA hne hdigits hnext]
      exact congrArg _ (ih hrest hbs)
    | sep c =>
      simp only at hscan
      split_ifs at hscan with hsign
      have hread : readInt A (text (.sep c::ts')) = none := readInt_none fun d hd => by
        obtain rfl : c = d := Option.some.inj hd
        exact ⟨hskip.1,not_or.mp hsign⟩
      rw [hread]
      exact Option.some.inj hscan
    | word t =>
      obtain ⟨hne,hletters,-⟩ := hskip
      have hread : readInt A (t ++ text ts') = none := readInt_none fun d hd => by
        rw [head?_text hne] at hd
        obtain ⟨hdigit,-,hsign⟩ := hA.letter d (hletters d (List.mem_of_mem_head? hd))
        exact ⟨hdigit,hsign⟩
      rw [text_cons,Tok.text,hread]
      exact Option.some.inj hscan

omit hA in
theorem Knows.set (member : α → Bool) (var : ω) : Knows A letters (.set member var::f) := by
  intro ts as h hscan
  have hfail {s : List α} (htake : s.takeWhile member = []) : scan A (.set member var::f) s = [] := if_pos htake
  cases ts with
  | nil =>
    rw [text_nil,hfail rfl]
    exact Option.some.inj hscan
  | cons t ts =>
    cases t with
    | num t =>
      obtain ⟨hne,hdigits,-⟩ := h
      simp only [scanToks] at hscan
      split_ifs at hscan with hany
      have hout : ∀ c ∈ t, member c = false := fun c hc =>
        Bool.eq_false_iff.mpr fun hmember => hany (List.any_eq_true.mpr ⟨c,A.isDigit_iff.mp (hdigits c hc),hmember⟩)
      rw [text_cons,Tok.text,hfail (takeWhile_eq_nil hout hne)]
      exact Option.some.inj hscan
    | sep c =>
      simp only [scanToks] at hscan
      split_ifs at hscan with hc
      rw [text_cons,Tok.text,List.singleton_append,hfail (List.takeWhile_cons_of_neg hc)]
      exact Option.some.inj hscan
    | word t =>
      obtain ⟨hne,hletters,rfl⟩ := h
      simp only [scanToks] at hscan
      split_ifs at hscan with hall hany
      · obtain ⟨bs,hbs,rfl⟩ := Option.map_eq_some_iff.mp hscan
        have hmember : ∀ c ∈ t, member c = true := fun c hc => List.all_eq_true.mp hall c (hletters c hc)
        obtain ⟨htake,hdrop⟩ : (t ++ []).takeWhile member = t ∧ (t ++ []).dropWhile member = [] :=
          takeWhile_append_stop hmember (by simp)
        have hnil : Apart A letters [] := trivial
        rw [text_cons,Tok.text,text_nil,scan,htake,hdrop,if_neg hne]
        exact congrArg _ (ih hnil hbs)
      · have hout : ∀ c ∈ t, member c = false := fun c hc =>
          Bool.eq_false_iff.mpr fun hmember => hany (List.any_eq_true.mpr ⟨c,hletters c hc,hmember⟩)
        rw [text_cons,Tok.text,hfail (takeWhile_eq_nil hout hne)]
        exact Option.some.inj hscan

omit ih in
theorem scan_text (f : List (Dir α ι ω)) : Knows A letters f := by
  induction f with
  | nil => exact fun _ hscan => Option.some.inj hscan
  | cons d f ih =>
    cases d with
    | space => exact ih.space hA
    | lit c => exact ih.lit c
    | int var => exact ih.int hA var
    | set member var => exact ih.set member var

end
end Scanf
