import Smx.Mail.Base64

/-! Lines that begin with a full stop, and the receiver who takes the full stop away. -/
namespace Smx

def DOT : Byte := ch '.'

/-- No line but the first begins with a full stop. -/
def NoDot (s : Bytes) : Prop := ¬[13,10,DOT] <:+: s

/-- The same, and the first line does not either. -/
def LineSafe (s : Bytes) : Prop := NoDot (CRLF ++ s)

/-- Dot-stuffing undone: the full stop at the beginning of a line is taken away. -/
def unstuff : Bool → Bytes → Bytes
  | _,[] => []
  | _,13::10::s => 13::10::unstuff true s
  | begins,c::s => if begins = true ∧ c = DOT then unstuff false s else c::unstuff false s

variable {a b s : Bytes} {c : Byte}

theorem noDot_cons : NoDot (c::s) ↔ ¬[13,10,DOT] <+: c::s ∧ NoDot s := by
  rw [NoDot,List.infix_cons_iff,not_or]
  rfl

theorem noDot_nil : NoDot [] := by
  intro h
  exact absurd h.length_le (by decide)

theorem prefix_append_cr : [10,DOT] <+: a ++ 13::b ↔ [10,DOT] <+: a := by
  have hdot : DOT ≠ 13 := by decide
  cases a with
  | nil => simp
  | cons d a =>
    cases a with
    | nil => simp [hdot]
    | cons e a => simp [List.cons_prefix_cons]

/-- A line end is found on one side of a CR or on the other. -/
theorem noDot_append_cons : NoDot (a ++ 13::b) ↔ NoDot a ∧ NoDot (13::b) := by
  induction a with
  | nil => exact (and_iff_right noDot_nil).symm
  | cons d a ih =>
    have hstart : [13,10,DOT] <+: d::(a ++ 13::b) ↔ [13,10,DOT] <+: d::a := by
      rw [List.cons_prefix_cons,List.cons_prefix_cons,prefix_append_cr]
    rw [List.cons_append,noDot_cons,hstart,ih,← and_assoc,← noDot_cons]

theorem noDot_of_no_cr (h : 13 ∉ s) : NoDot s := by
  intro hmark
  exact h (hmark.subset List.mem_cons_self)

/-- Behind a line end a line begins. -/
theorem noDot_crlf : NoDot (CRLF ++ s) ↔ s.head? ≠ some DOT ∧ NoDot s := by
  have hlf : NoDot (10::s) ↔ NoDot s := by
    rw [noDot_cons]
    exact and_iff_right fun h => absurd (List.cons_prefix_cons.mp h).1 (by decide)
  rw [CRLF,List.cons_append,List.cons_append,List.nil_append,noDot_cons,hlf]
  refine and_congr_left fun _ => not_congr ?_
  cases s with
  | nil => exact iff_of_false (fun h => absurd h.length_le (by decide)) nofun
  | cons d s =>
    simp only [List.cons_prefix_cons, List.nil_prefix,List.head?_cons,Option.some_inj]
    constructor
    · intro h
      exact h.2.2.1.symm
    · intro h
      exact ⟨trivial,trivial,h.symm,trivial⟩

/-- A name without a CR before a text changes nothing. -/
theorem noDot_append_of_no_cr (h : 13 ∉ a) : NoDot (a ++ s) ↔ NoDot s := by
  induction a with
  | nil => rfl
  | cons d a ih =>
    rw [List.mem_cons,not_or] at h
    rw [List.cons_append,noDot_cons,ih h.2]
    exact and_iff_right fun hstart => h.1 (List.cons_prefix_cons.mp hstart).1

theorem unstuff_length_le (begins : Bool) (s : Bytes) : (unstuff begins s).length ≤ s.length := by
  fun_induction unstuff begins s with
  | case1 => exact le_rfl
  | case2 _ s ih =>
    simp only [List.length_cons]
    omega
  | case3 begins c s _ _ ih => exact ih.trans (Nat.le_succ _)
  | case4 begins c s _ _ ih => exact Nat.succ_le_succ ih

/-- The receiver gets back what was sent just if no line begins with a full stop. -/
theorem unstuff_eq_iff (begins : Bool) (s : Bytes) :
    unstuff begins s = s ↔ (begins = true → s.head? ≠ some DOT) ∧ NoDot s := by
  fun_induction unstuff begins s with
  | case1 => exact iff_of_true rfl ⟨fun _ => nofun,noDot_nil⟩
  | case2 begins s ih =>
    have hhead : begins = true → (13::10::s : Bytes).head? ≠ some DOT := fun _ h =>
      absurd (Option.some.inj h) (by decide)
    rw [List.cons_inj_right,List.cons_inj_right,ih,and_iff_right hhead]
    exact (and_congr_left fun _ => forall_prop_of_true rfl).trans noDot_crlf.symm
  | case3 begins c s _ hc ih =>
    refine iff_of_false ?_ ?_
    · intro h
      have hlen := unstuff_length_le false s
      rw [h,List.length_cons] at hlen
      omega
    · intro h
      rw [hc.2] at h
      exact h.1 hc.1 rfl
  | case4 begins c s hline hc ih =>
    have hstart : ¬[13,10,DOT] <+: c::s := by
      intro h
      obtain ⟨hcr,h⟩ := List.cons_prefix_cons.mp h
      obtain ⟨r,rfl⟩ := h
      exact hline _ hcr.symm rfl
    rw [List.cons_inj_right,ih,noDot_cons,and_iff_right hstart,and_iff_right nofun]
    refine (and_iff_right ?_).symm
    intro hbegins hdot
    exact hc ⟨hbegins,Option.some.inj hdot⟩

/-- `CRLF . CRLF`, by which a message ends. -/
def EndMark : Bytes := CRLF ++ [DOT] ++ CRLF

/-- A message without such lines has no end mark but the one behind it. -/
theorem eq_nil_of_endMark {message pre post : Bytes} (h : NoDot message)
    (heq : message ++ EndMark = pre ++ EndMark ++ post) : post = [] := by
  rw [List.append_assoc] at heq
  obtain ⟨x,-,hx⟩ | ⟨x,hx,hrest⟩ := List.append_eq_append_iff.mp heq
  · have hlen := congrArg List.length hx
    rw [List.length_append,List.length_append] at hlen
    exact List.length_eq_zero_iff.mp (by omega)
  · -- The mark would begin within the message.
    match x with
    | [] =>
      rw [List.nil_append] at hrest
      have hlen := congrArg List.length hrest
      rw [List.length_append] at hlen
      exact List.length_eq_zero_iff.mp (by omega)
    | [c] =>
      have hlf := congrArg (·[1]?) hrest
      exact absurd (Option.some.inj hlf) (by decide)
    | [c,d] =>
      have hdot := congrArg (·[2]?) hrest
      exact absurd (Option.some.inj hdot) (by decide)
    | c::d::e::x =>
      have h3 := congrArg (·.take 3) hrest
      obtain ⟨rfl,hde⟩ := List.cons.inj h3
      obtain ⟨rfl,he⟩ := List.cons.inj hde
      obtain ⟨rfl,-⟩ := List.cons.inj he
      exact absurd ⟨pre,x,by rw [hx,List.append_assoc]; rfl⟩ h

theorem lineSafe_iff : LineSafe s ↔ s.head? ≠ some DOT ∧ NoDot s := noDot_crlf

theorem lineSafe_nil : LineSafe [] := noDot_crlf.mpr ⟨nofun,noDot_nil⟩

theorem lineSafe_append_cr : LineSafe (a ++ 13::b) ↔ LineSafe a ∧ NoDot (13::b) := by
  rw [LineSafe,← List.append_assoc,noDot_append_cons]
  rfl

theorem lineSafe_base64 (s : Bytes) : LineSafe (base64 s) := by
  rw [lineSafe_iff]
  refine ⟨fun h => ?_,noDot_of_no_cr fun h => (base64_plain s 13 h).2.1 rfl⟩
  exact (base64_plain s DOT (List.mem_of_head? h)).1 rfl

/-- base64 lines never begin with a full stop. -/
theorem lineSafe_mime64 (s : Bytes) : LineSafe (mime64 s) := by
  have hline (t u : Bytes) (hu : LineSafe u) : LineSafe (base64 t ++ CRLF ++ u) := by
    rw [List.append_assoc]
    exact lineSafe_append_cr.mpr ⟨lineSafe_base64 t,hu⟩
  fun_induction mime64 s with
  | case1 s hlen ih => exact hline _ _ ih
  | case2 => exact lineSafe_nil
  | case3 s hlen hne =>
    rw [← List.append_nil (base64 s ++ CRLF)]
    exact hline s [] lineSafe_nil

end Smx
