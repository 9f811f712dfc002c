import Smx.Compile.Format
import Smx.Parse.Host

/-! `ParseMagic`: pages that begin with a magic string are parsed, others are passed on. -/
namespace Smx
open EmitM (emit)

def S_MAGIC1 : Bytes := str "%expand%"
def S_MAGIC2 : Bytes := str "<!--%expand%-->"

/-- The loop over the rest of a magic string: the characters that have been read, whether that was all of
it, and what is left. -/
def magicLoop : Bytes → Bytes → Bytes × Bool × Bytes
  | [],inp => ([],true,inp)
  | m::ms,inp =>
    let r := getC inp
    if r.1 = EOF then ([],false,r.2)
    else if r.1 ≠ m then ([r.1],false,r.2)
    else
      let t := magicLoop ms r.2
      (r.1::t.1,t.2)

section
variable {σ : Type} (parseTry runCompiled : Bytes → SmxM σ Unit)

/-- The part of `ParseMagic` for one magic string, whose first character has been read. -/
def matchMagic (magic : Bytes) (found : Bytes → SmxM σ Unit) (bProcessUnhandled : Bool) (c : Byte)
    (inp : Bytes) : SmxM σ Bool :=
  let t := magicLoop magic.tail inp
  if t.2.1 then do
    found t.2.2
    pure true
  else do
    if bProcessUnhandled then emit (c::t.1)
    pure false

/-- `ParseMagic`. -/
def parseMagic (bProcessUnhandled : Bool) (inp : Bytes) : SmxM σ Bool :=
  let r := getC inp
  if r.1 = EOF then pure false
  else if r.1 = S_MAGIC1.headD 0 then matchMagic S_MAGIC1 parseTry bProcessUnhandled r.1 r.2
  else if r.1 = S_MAGIC2.headD 0 then matchMagic S_MAGIC2 parseTry bProcessUnhandled r.1 r.2
  else if r.1 = CMAGIC_V1.headD 0 then matchMagic CMAGIC_V1 runCompiled bProcessUnhandled r.1 r.2
  else do
    if bProcessUnhandled then do
      emit [r.1]
      emit r.2
    pure false

end

def magics : List Bytes := [S_MAGIC1,S_MAGIC2,CMAGIC_V1]

/-- What becomes of the page behind a magic string. -/
def evaluator {σ : Type} (parseTry runCompiled : Bytes → SmxM σ Unit) (magic : Bytes) : Bytes → SmxM σ Unit :=
  if magic = CMAGIC_V1 then runCompiled else parseTry

/-- Behind a magic string the page is evaluated, and the string is not put out; without one the whole page
is put out. -/
def MagicRight (inp : Bytes) : Prop :=
  ∀ (σ : Type) (parseTry runCompiled : Bytes → SmxM σ Unit),
    (∀ magic ∈ magics, ∀ rest, inp = magic ++ rest → parseMagic parseTry runCompiled true inp =
      evaluator parseTry runCompiled magic rest >>= fun _ => pure true) ∧
    ((∀ magic ∈ magics, ¬magic <+: inp) →
      parseMagic parseTry runCompiled true inp = emit inp >>= fun _ => pure false)

/-- The page begins with a magic string, or with none of their first characters, or is the beginning of a
magic string with at most one more character. -/
def Unharmed (inp : Bytes) : Prop :=
  inp.head? ≠ some EOF ∧ ∀ magic ∈ magics, inp.head? = magic.head? →
    magic <+: inp ∨ inp.dropLast <+: magic ∧ EOF ∉ inp

section
variable {σ : Type} {parseTry runCompiled : Bytes → SmxM σ Unit} {magic inp rest ms : Bytes}

theorem magicLoop_append (hm : EOF ∉ ms) : magicLoop ms (ms ++ rest) = (ms,true,rest) := by
  induction ms with
  | nil => rfl
  | cons m ms ih =>
    rw [List.mem_cons,not_or] at hm
    have hget : getC (m::(ms ++ rest)) = (m,ms ++ rest) := rfl
    rw [List.cons_append,magicLoop,hget]
    simp only [if_neg (Ne.symm hm.1),ne_eq,not_true_eq_false,if_false,ih hm.2]

theorem magicLoop_missed (h : ¬ms <+: inp) : (magicLoop ms inp).2.1 = false := by
  induction ms generalizing inp with
  | nil => exact absurd List.nil_prefix h
  | cons m ms ih =>
    rw [magicLoop]
    split_ifs with heof hne
    · rfl
    · rfl
    · cases inp with
      | nil => exact absurd rfl heof
      | cons c inp =>
        obtain rfl : c = m := not_not.mp hne
        exact ih fun hpre => h (List.cons_prefix_cons.mpr ⟨rfl,hpre⟩)

/-- Nothing has been read over where at most the last character is another one. -/
theorem magicLoop_eq_iff (h : ¬ms <+: inp) :
    (magicLoop ms inp).1 = inp ↔ inp.dropLast <+: ms ∧ EOF ∉ inp := by
  induction ms generalizing inp with
  | nil => exact absurd List.nil_prefix h
  | cons m ms ih =>
    cases inp with
    | nil => exact ⟨fun _ => ⟨List.nil_prefix,List.not_mem_nil⟩,fun _ => rfl⟩
    | cons c inp =>
      have hget : getC (c::inp) = (c,inp) := rfl
      rw [magicLoop,hget]
      simp only
      by_cases heof : c = EOF
      · rw [if_pos heof,heof]
        constructor
        · intro hnil
          cases hnil
        · intro hf
          exact absurd List.mem_cons_self hf.2
      rw [if_neg heof]
      by_cases hne : c = m
      · rw [if_neg (not_not.mpr hne)]
        obtain rfl := hne
        have hpre : ¬ms <+: inp := fun hpre => h (List.cons_prefix_cons.mpr ⟨rfl,hpre⟩)
        rw [List.cons_inj_right,ih hpre,List.mem_cons,not_or]
        cases inp with
        | nil => simp [Ne.symm heof]
        | cons d inp =>
          rw [List.dropLast_cons_cons,List.cons_prefix_cons]
          simp [Ne.symm heof]
      · rw [if_pos hne]
        cases inp with
        | nil => simp [Ne.symm heof]
        | cons d inp =>
          rw [List.dropLast_cons_cons,List.cons_prefix_cons]
          simp [hne]

theorem matchMagic_found (magic : Bytes) {found : Bytes → SmxM σ Unit} {c : Byte} {b : Bool} (hm : EOF ∉ magic.tail) :
    matchMagic magic found b c (magic.tail ++ rest) = found rest >>= fun _ => pure true := by
  rw [matchMagic,magicLoop_append hm]
  rfl

theorem matchMagic_missed (magic : Bytes) {found : Bytes → SmxM σ Unit} {c : Byte} (h : ¬magic.tail <+: inp) :
    matchMagic magic found true c inp = emit (c::(magicLoop magic.tail inp).1) >>= fun _ => pure false := by
  rw [matchMagic,magicLoop_missed h]
  rfl

theorem out_of_emit {inp out : Bytes}
    (h : (emit out >>= fun _ => pure false : SmxM Unit Bool) = emit inp >>= fun _ => pure false) : out = inp := by
  have hout := congrArg Outcome.out (congrFun h ())
  exact (List.append_nil out).symm.trans (hout.trans (List.append_nil inp))

theorem parseMagic_magic {c : Byte} {t : Bytes} (h : c::ms ∈ magics) :
    parseMagic parseTry runCompiled true (c::t) =
      matchMagic (c::ms) (evaluator parseTry runCompiled (c::ms)) true c t := by
  simp only [magics,List.mem_cons,List.not_mem_nil,or_false] at h
  obtain h | h | h := h
  · rw [h]
    obtain rfl : c = ch '%' := (List.cons.inj h).1
    rfl
  · rw [h]
    obtain rfl : c = ch '<' := (List.cons.inj h).1
    rfl
  · rw [h]
    obtain rfl : c = 0xF2 := (List.cons.inj h).1
    rfl

theorem parseMagic_other {c : Byte} {t : Bytes} (hc : c ≠ EOF) (h : ∀ magic ∈ magics, magic.head? ≠ some c) :
    parseMagic parseTry runCompiled true (c::t) = emit (c::t) >>= fun _ => pure false := by
  have hne {magic : Bytes} (hm : magic ∈ magics) (hnil : magic ≠ []) : c ≠ magic.headD 0 := by
    obtain ⟨d,ds,rfl⟩ := List.exists_cons_of_ne_nil hnil
    intro heq
    exact h _ hm (congrArg some heq.symm)
  have hget : getC (c::t) = (c,t) := rfl
  rw [parseMagic,hget]
  simp only
  rw [if_neg hc,if_neg (hne (by decide) (by decide)),if_neg (hne (by decide) (by decide)),
    if_neg (hne (by decide) (by decide)),if_pos trivial]
  exact (EmitM.emit_append_bind [c] t _).symm

/-- The magic strings begin with different characters, none with the end of input. -/
theorem magic_unique {c : Byte} {ms ms' : Bytes} (h : c::ms ∈ magics) (h' : c::ms' ∈ magics) : ms = ms' := by
  have hall : ∀ m ∈ magics, ∀ m' ∈ magics, m.head? = m'.head? → m = m' := by decide
  exact (List.cons.inj (hall _ h _ h' rfl)).2

theorem eof_not_mem {magic : Bytes} (h : magic ∈ magics) : EOF ∉ magic := by
  have hall : ∀ m ∈ magics, EOF ∉ m := by decide
  exact hall magic h

/-- A page that is not evaluated is passed on whole where it has no more than one character behind what it
shares with a magic string. -/
theorem magicRight_iff (inp : Bytes) : MagicRight inp ↔ Unharmed inp := by
  cases inp with
  | nil =>
    have hne : ∀ magic ∈ magics, magic ≠ [] := by decide
    refine ⟨fun _ => ⟨nofun,fun magic hm hhead => ?_⟩,fun _ σ parseTry runCompiled => ⟨?_,fun _ => ?_⟩⟩
    · exact absurd (List.head?_eq_none_iff.mp hhead.symm) (hne magic hm)
    · intro magic hm rest hnil
      exact absurd (List.append_eq_nil_iff.mp hnil.symm).1 (hne magic hm)
    · exact (EmitM.emit_nil_bind fun _ => pure false).symm
  | cons c t =>
    by_cases hc : c = EOF
    · rw [hc]
      refine ⟨fun h => ?_,fun h => absurd rfl h.1⟩
      have hnot : ∀ magic ∈ magics, ¬magic <+: EOF::t := by
        intro magic hm hpre
        cases magic with
        | nil => exact absurd hm (by decide)
        | cons d ms =>
          obtain rfl := (List.cons_prefix_cons.mp hpre).1
          exact eof_not_mem hm List.mem_cons_self
      have heq := (h Unit (fun _ => pure ()) fun _ => pure ()).2 hnot
      have hout := congrArg Outcome.out (congrFun heq ())
      cases hout
    by_cases hex : ∃ ms, c::ms ∈ magics
    · obtain ⟨ms,hm⟩ := hex
      have hms : EOF ∉ ms := fun h => eof_not_mem hm (List.mem_cons_of_mem _ h)
      by_cases hpre : ms <+: t
      · obtain ⟨rest,rfl⟩ := hpre
        have hwhole : c::ms <+: c::(ms ++ rest) := List.cons_prefix_cons.mpr ⟨rfl,List.prefix_append _ _⟩
        constructor
        · intro _
          refine ⟨fun h => hc (Option.some.inj h),fun magic hm' hhead => .inl ?_⟩
          cases magic with
          | nil => cases hhead
          | cons d ms' =>
            obtain rfl : c = d := Option.some.inj hhead
            rwa [magic_unique hm' hm]
        · intro _ σ parseTry runCompiled
          refine ⟨fun magic hm' rest' heq => ?_,fun hnot => absurd hwhole (hnot _ hm)⟩
          cases magic with
          | nil => exact absurd hm' (by decide)
          | cons d ms' =>
            obtain ⟨rfl,htail⟩ := List.cons.inj heq
            obtain rfl := magic_unique hm hm'
            obtain rfl := List.append_cancel_left htail
            rw [parseMagic_magic hm]
            exact matchMagic_found (c::ms) hms
      · have hnot : ∀ magic ∈ magics, ¬magic <+: c::t := by
          intro magic hm' hpre'
          cases magic with
          | nil => exact absurd hm' (by decide)
          | cons d ms' =>
            obtain ⟨rfl,htail⟩ := List.cons_prefix_cons.mp hpre'
            rw [magic_unique hm' hm] at htail
            exact hpre htail
        have hmiss {σ : Type} (parseTry runCompiled : Bytes → SmxM σ Unit) :
            parseMagic parseTry runCompiled true (c::t) =
              emit (c::(magicLoop ms t).1) >>= fun _ => pure false := by
          rw [parseMagic_magic hm]
          exact matchMagic_missed (c::ms) hpre
        have hdrop : (c::t).dropLast <+: c::ms ∧ EOF ∉ c::t ↔ t.dropLast <+: ms ∧ EOF ∉ t := by
          rw [List.mem_cons,not_or]
          cases t with
          | nil => simp [Ne.symm hc]
          | cons d t =>
            rw [List.dropLast_cons_cons,List.cons_prefix_cons]
            simp [Ne.symm hc]
        constructor
        · intro h
          have heq := (h Unit (fun _ => pure ()) fun _ => pure ()).2 hnot
          rw [hmiss] at heq
          have hall := hdrop.mpr ((magicLoop_eq_iff hpre).mp (List.cons.inj (out_of_emit heq)).2)
          refine ⟨fun h => hc (Option.some.inj h),fun magic hm' hhead => .inr ?_⟩
          cases magic with
          | nil => cases hhead
          | cons d ms' =>
            obtain rfl : c = d := Option.some.inj hhead
            rwa [magic_unique hm' hm]
        · intro h σ parseTry runCompiled
          refine ⟨fun magic hm' rest heq => absurd ⟨rest,heq.symm⟩ (hnot magic hm'),fun _ => ?_⟩
          have hall := (h.2 _ hm rfl).resolve_left (hnot _ hm)
          rw [hmiss,(magicLoop_eq_iff hpre).mpr (hdrop.mp hall)]
    · have hother : ∀ magic ∈ magics, magic.head? ≠ some c := by
        intro magic hm hhead
        cases magic with
        | nil => cases hhead
        | cons d ms =>
          obtain rfl : d = c := Option.some.inj hhead
          exact hex ⟨ms,hm⟩
      refine ⟨fun _ => ⟨fun h => hc (Option.some.inj h),fun magic hm hhead => absurd hhead.symm (hother magic hm)⟩,
        fun _ σ parseTry runCompiled => ⟨fun magic hm rest heq => ?_,fun _ => parseMagic_other hc hother⟩⟩
      cases magic with
      | nil => exact absurd hm (by decide)
      | cons d ms =>
        obtain rfl := (List.cons.inj heq).1
        exact absurd ⟨ms,hm⟩ hex

/-- Of an HTML page two characters are left. -/
theorem html_cut : ¬MagicRight (str "<html>") ∧
    ((parseMagic (fun _ => pure ()) (fun _ => pure ()) true (str "<html>") : SmxM Unit Bool).run ()).out =
      str "<h" := by
  constructor
  · intro h
    have heq := (h Unit (fun _ => pure ()) fun _ => pure ()).2 (by decide)
    have hout := congrArg Outcome.out (congrFun heq ())
    exact absurd hout (by decide)
  · decide

end
end Smx
