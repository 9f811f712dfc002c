import Smx.Compile.Meaning

/-! Compiled code and its source text, run in one context: the compiler and `RunCompiled` walk
the quote maps alike, and the only text that gets lost is the name of a call that breaks off. -/
namespace Smx
open EmitM (emit capture liftExn quiet Follows Matches)

/-- The maps that `%define` makes and the built-ins are registered with. -/
def QuoteMap (map : Bytes) : Prop := ∀ c ∈ map, c = ch '0' ∨ c = ch '1' ∨ c = ch 'A'

mutual

/-- What the reader makes: names are names, arguments are evaluated or quoted as the quote maps
say, and error messages come from strict contexts. -/
def Code.Moded (G : Grammar) : Code → Prop
  | .nil => True
  | .out _ rest => rest.Moded G
  | .func name args rest =>
      IsName name ∧ args.Moded G (argsStart (G.qmapOf name)) ∧ rest.Moded G
  | .junk _ rest => G.strict = true ∧ rest.Moded G

def CodeArgs.Moded (G : Grammar) : Bool × Bytes → CodeArgs → Prop
  | _,.nil => True
  | q,.raw quoted _ rest => (q.1 || quoted) = true ∧ rest.Moded G (qmapNext q.1 q.2)
  | q,.code body rest => q.1 = false ∧ body.Moded G ∧ rest.Moded G (qmapNext q.1 q.2)

end

section
variable {G : Grammar}

theorem Code.Moded.append {a b : Code} (ha : a.Moded G) (hb : b.Moded G) : (a.append b).Moded G := by
  match a with
  | .nil => exact hb
  | .out text rest =>
    have hrest : rest.Moded G := ha
    exact hrest.append hb
  | .func name args rest => exact ⟨ha.1,ha.2.1,ha.2.2.append hb⟩
  | .junk c rest => exact ⟨ha.1,ha.2.append hb⟩

theorem Code.Moded.flush {rest : Code} (h : rest.Moded G) (text : List Piece) :
    (Code.flush text rest).Moded G := by
  unfold Code.flush
  split_ifs <;> exact h

theorem Code.moded_flush_nil (text : List Piece) : (Code.flush text .nil).Moded G :=
  have hnil : Code.nil.Moded G := trivial
  hnil.flush text

theorem Code.moded_flush_func {name : Bytes} {args : CodeArgs} (hname : IsName name)
    (hargs : args.Moded G (argsStart (G.qmapOf name))) (text : List Piece) :
    (Code.flush text (.func name args .nil)).Moded G :=
  have hfunc : (Code.func name args .nil).Moded G := ⟨hname,hargs,trivial⟩
  hfunc.flush text

end

namespace Grammar
variable (G : Grammar)

structure ReadsModed (n : ℕ) : Prop where
  func : ∀ inp buf, (G.readFunc n inp buf).1.Moded G
  name : ∀ c inp buf, isqsymf c = true → (G.readName n c inp buf).1.Moded G
  args : ∀ qmode map inp, (G.readArgs n qmode map inp).1.Moded G (qmode,map)
  arg : ∀ c inp, (G.readArg n c inp).1.Moded G
  turn : ∀ st tmp c inp, (G.readTurn n st tmp c inp).1.Moded G
  loop : ∀ st tmp inp, (G.readLoop n st tmp inp).1.Moded G

variable {G} {n : ℕ}

theorem readsModed_zero : G.ReadsModed 0 where
  func _ _ := trivial
  name _ _ _ _ := trivial
  args qmode map inp := by
    cases qmode with
    | true => exact ⟨rfl,trivial⟩
    | false => exact ⟨rfl,trivial,trivial⟩
  arg _ _ := trivial
  turn _ _ _ _ := Code.moded_flush_nil _
  loop _ _ _ := Code.moded_flush_nil _

theorem ReadsModed.succ (ih : G.ReadsModed n) : G.ReadsModed (n+1) where
  func inp buf := by
    simp only [readFunc]
    by_cases hsym : isqsymf (getC inp).1 = true
    · rw [if_pos hsym]
      exact ih.name _ _ _ hsym
    rw [if_neg hsym]
    by_cases hstrict : G.strict = true
    · simp only [if_pos hstrict]
      split_ifs
      · trivial
      · exact ⟨hstrict,trivial⟩
      · trivial
    · simp only [if_neg hstrict]
      split_ifs <;> trivial
  name c inp buf hc := by
    simp only [readName]
    split_ifs
    · exact Code.moded_flush_func (isName_scanName hc inp) (ih.args _ _ _) _
    · have hnil (q : Bool × Bytes) : CodeArgs.nil.Moded G q := trivial
      exact Code.moded_flush_func (isName_scanName hc inp) (hnil _) _
    all_goals trivial
  args qmode map inp := by
    simp only [readArgs]
    split_ifs with hq
    · exact ⟨hq,ih.args _ _ _⟩
    · exact ⟨hq,trivial⟩
    all_goals
      simp only [Bool.or_eq_true,not_or,Bool.not_eq_true] at hq
    · exact ⟨hq.1,ih.arg _ _,ih.args _ _ _⟩
    · exact ⟨hq.1,ih.arg _ _,trivial⟩
  arg c inp := ih.turn _ _ _ _
  turn st tmp c inp := by
    simp only [readTurn]
    split_ifs
    · exact ih.loop _ _ _
    · exact ih.loop _ _ _
    · exact ((ih.func _ _).append ((ih.loop _ _ _).flush _)).flush _
    · split
      · exact ih.loop _ _ _
      · exact ih.loop _ _ _
      · exact Code.moded_flush_nil _
  loop st tmp inp := by
    simp only [readLoop]
    split_ifs
    · exact Code.moded_flush_nil _
    · exact ih.turn _ _ _ _

variable (G)

theorem readsModed (n : ℕ) : G.ReadsModed n := by
  induction n with
  | zero => exact readsModed_zero
  | succ n ih => exact ih.succ

theorem readParse_moded (n : ℕ) (inp : Bytes) (buf : List Piece) : (G.readParse n inp buf).Moded G := by
  induction n generalizing inp buf with
  | zero => exact Code.moded_flush_nil _
  | succ n ih =>
    simp only [readParse]
    split_ifs
    · exact Code.moded_flush_nil _
    · exact ((G.readsModed n).func _ _).append (ih _ _)
    · exact ih _ _

theorem read_moded (inp : Bytes) : (G.read inp).Moded G := G.readParse_moded _ _ _

end Grammar

/-- The runner is in the mode that the parser had for the argument. -/
def SameMode (p : Bool × Bytes) (q : Byte × Option Bytes) : Prop :=
  q.1 = (if p.1 then ch '1' else ch '0') ∧
    (q.2 = some p.2 ∧ QuoteMap p.2 ∨
      q.2 = none ∧ (p = (false,[]) ∨ p.1 = true ∧ p.2.head? = some (ch 'A')))

theorem sameMode_start {map : Option Bytes} (h : ∀ m, map = some m → QuoteMap m) :
    SameMode (argsStart map) (runStart map) := by
  cases map with
  | none => exact ⟨rfl,.inr ⟨rfl,.inl rfl⟩⟩
  | some m =>
    cases m with
    | nil => exact ⟨rfl,.inl ⟨rfl,nofun⟩⟩
    | cons c rest =>
      have hrest : QuoteMap rest := fun d hd => h _ rfl d (List.mem_cons_of_mem _ hd)
      obtain rfl | rfl | rfl := h _ rfl c List.mem_cons_self
      · exact ⟨rfl,.inl ⟨rfl,hrest⟩⟩
      · exact ⟨rfl,.inl ⟨rfl,hrest⟩⟩
      · exact ⟨rfl,.inr ⟨rfl,.inr ⟨rfl,rfl⟩⟩⟩

theorem SameMode.next {p : Bool × Bytes} {q : Byte × Option Bytes} (h : SameMode p q) :
    SameMode (qmapNext p.1 p.2) (runNext q.1 q.2) := by
  obtain ⟨qmode,map⟩ := p
  obtain ⟨mode,omap⟩ := q
  obtain ⟨hmode,⟨homap,hmap⟩ | ⟨homap,hend | ⟨hall,hhead⟩⟩⟩ := h
  · simp only at hmode homap hmap
    subst hmode homap
    cases map with
    | nil => exact ⟨rfl,.inl ⟨rfl,nofun⟩⟩
    | cons c rest =>
      have hrest : QuoteMap rest := fun d hd => hmap d (List.mem_cons_of_mem _ hd)
      obtain rfl | rfl | rfl := hmap c List.mem_cons_self
      · exact ⟨rfl,.inl ⟨rfl,hrest⟩⟩
      · exact ⟨rfl,.inl ⟨rfl,hrest⟩⟩
      · cases qmode <;> exact ⟨rfl,.inl ⟨rfl,hmap⟩⟩
  · cases hend
    simp only at hmode homap
    subst hmode homap
    exact ⟨rfl,.inr ⟨rfl,.inl rfl⟩⟩
  · simp only at hmode homap hall hhead
    subst hall homap hmode
    obtain ⟨rest,rfl⟩ := List.head?_eq_some_iff.mp hhead
    exact ⟨rfl,.inr ⟨rfl,.inr ⟨rfl,rfl⟩⟩⟩

section
variable {σ ο : Type} (H : Host σ ο) {G : Grammar}

mutual

/-- Running a tree does what the tree means. -/
theorem Code.Moded.matches (hmaps : ∀ name map, G.qmapOf name = some map → QuoteMap map)
    {code : Code} (h : code.Moded G) : Matches (H.runCode code) (H.meaning G.qmapOf compText code) := by
  match code with
  | .nil => exact .refl _
  | .out text rest =>
    have hrest : rest.Moded G := h
    exact .bind (.refl _) fun _ => hrest.matches hmaps
  | .func name args rest =>
    rw [Host.runCode,Host.meaning]
    refine .bind (.refl _) fun s => ?_
    cases H.find s name with
    | none => exact .throw_none _
    | some obj =>
      by_cases hq : H.getQmap obj = G.qmapOf name
      · simp only [hq,if_true]
        exact .bind (h.2.1.matches hmaps (sameMode_start (hmaps name))) fun ary =>
          .bind (.quiet _) fun _ => h.2.2.matches hmaps
      · simp only [if_neg hq]
        exact .throw_none _
  | .junk c rest => exact .throw_none _

theorem CodeArgs.Moded.matches (hmaps : ∀ name map, G.qmapOf name = some map → QuoteMap map)
    {args : CodeArgs} {p : Bool × Bytes} {q : Byte × Option Bytes} (h : args.Moded G p)
    (hmode : SameMode p q) :
    Matches (H.runCodeArgs q args) (H.meaningArgs G.qmapOf compText args) := by
  match args with
  | .nil => exact .refl _
  | .raw quoted text rest =>
    have hne : ch '1' ≠ ch '0' := by decide
    have hraw : ¬ (¬ quoted = true ∧ q.1 = ch '0') := by
      rintro ⟨hquot,h0⟩
      rw [hmode.1] at h0
      have hp : p.1 = true := by simpa [hquot] using h.1
      rw [if_pos hp] at h0
      exact hne h0
    rw [Host.runCodeArgs,Host.meaningArgs,if_neg hraw,pure_bind]
    exact .bind (h.2.matches hmaps hmode.next) fun _ => .refl _
  | .code body rest =>
    have h0 : q.1 = ch '0' := by rw [hmode.1,h.1]; rfl
    rw [Host.runCodeArgs,Host.meaningArgs,if_pos h0,bind_assoc]
    simp only [pure_bind]
    exact .bind (.capture (h.2.1.matches hmaps)) fun r =>
      .bind (h.2.2.matches hmaps hmode.next) fun _ => .refl _

end

end

/-! A context that is not strict compiles every text. -/

namespace CompEnv
variable {E : CompEnv} {α β : Type}

/-- Compiles without an error. -/
def Total (x : CompM α) : Prop := ∀ st, ∃ r, x st = .ok r

theorem total_pure (a : α) : Total (pure a) := fun st => ⟨(a,st),rfl⟩

theorem Total.bind {x : CompM α} {f : α → CompM β} (hx : Total x) (hf : ∀ a, Total (f a)) :
    Total (x >>= f) := by
  intro st
  obtain ⟨⟨a,st'⟩,ha⟩ := hx st
  rw [bind_of_ok ha]
  exact hf a st'

theorem total_outS (s : Bytes) : Total (outS s) := fun _ => ⟨_,rfl⟩

theorem total_outFlush : Total outFlush := fun _ => ⟨_,rfl⟩

theorem total_drawKey : Total E.drawKey := by
  intro st
  unfold drawKey
  split <;> exact ⟨_,rfl⟩

theorem total_outText (s : Bytes) : Total (E.outText s) := by
  unfold outText
  split_ifs
  · exact total_pure _
  · exact total_drawKey.bind fun _ => total_pure _

theorem total_outFunc (name : Bytes) (ary : List Arg) : Total (E.outFunc name ary) :=
  total_drawKey.bind fun _ => total_pure _

variable (E) in
structure Compiles (n : ℕ) : Prop where
  func : ∀ inp, Total (E.compFunc n inp)
  name : ∀ c inp, Total (E.compName n c inp)
  args : ∀ qmode map inp, Total (E.compArgs n qmode map inp)
  arg : ∀ c inp, Total (E.compArg n c inp)
  turn : ∀ st cur tmp c inp, Total (E.compTurn n st cur tmp c inp)
  loop : ∀ st cur tmp inp, Total (E.compLoop n st cur tmp inp)

theorem compiles_zero : E.Compiles 0 where
  func _ := total_pure _
  name _ _ := total_pure _
  args _ _ _ := total_pure _
  arg _ _ := total_pure _
  turn _ _ _ _ _ := (total_outText _).bind fun _ => total_pure _
  loop _ _ _ _ := (total_outText _).bind fun _ => total_pure _

variable (hstrict : E.strict = false)
include hstrict

theorem total_rejectPunct (c : Byte) : Total (E.rejectPunct c) := by
  rw [rejectPunct,hstrict]
  exact total_pure _

theorem Compiles.succ {n : ℕ} (ih : E.Compiles n) : E.Compiles (n+1) where
  func inp := by
    simp only [compFunc]
    split_ifs
    · exact ih.name _ _
    · exact (total_outS _).bind fun _ => total_pure _
    · exact (total_outS _).bind fun _ => (total_rejectPunct hstrict _).bind fun _ => total_pure _
    · exact (total_outS _).bind fun _ => total_pure _
  name c inp := by
    simp only [compName]
    split_ifs
    · exact total_outFlush.bind fun _ => (ih.args _ _ _).bind fun _ =>
        (total_outFunc _ _).bind fun _ => total_pure _
    · exact total_outFlush.bind fun _ => (total_outFunc _ _).bind fun _ => total_pure _
    all_goals exact (total_outS _).bind fun _ => total_pure _
  args qmode map inp := by
    simp only [compArgs]
    refine Total.bind ?_ fun a => ?_
    · by_cases hq : (qmode || (argHead inp).1) = true
      · rw [if_pos hq]
        exact total_pure _
      · rw [if_neg hq]
        exact (ih.arg _ _).bind fun _ => total_pure _
    · split_ifs
      · exact (ih.args _ _ _).bind fun _ => total_pure _
      · exact total_pure _
  arg c inp := ih.turn _ _ _ _ _
  turn st cur tmp c inp := by
    simp only [compTurn]
    split_ifs
    · exact ih.loop _ _ _ _
    · exact ih.loop _ _ _ _
    · exact (total_outText _).bind fun _ => (ih.func _).bind fun _ =>
        total_outFlush.bind fun _ => ih.loop _ _ _ _
    · split
      · exact ih.loop _ _ _ _
      · exact ih.loop _ _ _ _
      · exact (total_outText _).bind fun _ => total_pure _
  loop st cur tmp inp := by
    simp only [compLoop]
    split_ifs
    · exact (total_outText _).bind fun _ => total_pure _
    · exact ih.turn _ _ _ _ _

theorem compiles (n : ℕ) : E.Compiles n := by
  induction n with
  | zero => exact compiles_zero
  | succ n ih => exact ih.succ hstrict

theorem total_compParse (n : ℕ) (inp : Bytes) : Total (E.compParse n inp) := by
  induction n generalizing inp with
  | zero => exact total_outFlush
  | succ n ih =>
    simp only [compParse]
    split_ifs
    · exact total_outFlush
    · exact ((compiles hstrict n).func _).bind fun _ => (ih _).bind fun _ => total_pure _
    · exact (total_outS _).bind fun _ => ih _

theorem exists_compile (inp : Bytes) : ∃ bs, E.compile inp = .ok bs := by
  obtain ⟨r,hr⟩ := total_compParse hstrict (4*inp.length+4) inp ⟨[],0⟩
  rw [compile,hr]
  exact ⟨_,rfl⟩

end CompEnv

def Piece.IsByte : Piece → Prop
  | .byte _ => True
  | .broken _ _ => False

theorem compText_eq_sourceText {text : List Piece} (h : ∀ p ∈ text, p.IsByte) :
    compText text = sourceText text := by
  induction text with
  | nil => rfl
  | cons p text ih =>
    have hrest := ih fun p hp => h p (List.mem_cons_of_mem _ hp)
    cases p with
    | byte c => exact congrArg (c::·) hrest
    | broken name ne => exact (h _ List.mem_cons_self).elim

theorem length_compText_le (text : List Piece) :
    (compText text).length ≤ (sourceText text).length := by
  induction text with
  | nil => exact le_refl _
  | cons p text ih =>
    rw [length_compText] at ih ⊢
    cases p with
    | byte c => exact Nat.succ_le_succ ih
    | broken name ne =>
      simp only [sourceText_broken,List.cons_append,List.length_cons,List.length_append]
      omega

theorem isByte_of_length {text : List Piece}
    (h : (sourceText text).length ≤ (compText text).length) : ∀ p ∈ text, p.IsByte := by
  induction text with
  | nil => exact nofun
  | cons p text ih =>
    have hle := length_compText_le text
    rw [length_compText] at h hle ih
    cases p with
    | byte c =>
      intro p hp
      obtain rfl | hp := List.mem_cons.mp hp
      · trivial
      · exact ih (Nat.le_of_succ_le_succ h) p hp
    | broken name ne =>
      have hpos := List.length_pos_iff.mpr ne
      simp only [sourceText_broken,List.cons_append,List.length_cons,List.length_append] at h
      omega

mutual

/-- No call breaks off. -/
def Code.Intact : Code → Prop
  | .nil => True
  | .out text rest => (∀ p ∈ text, p.IsByte) ∧ rest.Intact
  | .func _ args rest => args.Intact ∧ rest.Intact
  | .junk _ _ => True

def CodeArgs.Intact : CodeArgs → Prop
  | .nil => True
  | .raw _ _ rest => rest.Intact
  | .code body rest => body.Intact ∧ rest.Intact

end

section
variable {σ ο : Type} (H : Host σ ο) (qmapOf : Bytes → Option Bytes)

mutual

theorem Code.Intact.meaning_eq {code : Code} (h : code.Intact) :
    H.meaning qmapOf compText code = H.meaning qmapOf sourceText code := by
  match code with
  | .nil => rfl
  | .out text rest => rw [Host.meaning,Host.meaning,compText_eq_sourceText h.1,h.2.meaning_eq]
  | .func name args rest => rw [Host.meaning,Host.meaning,h.1.meaning_eq,h.2.meaning_eq]
  | .junk c rest => rfl

theorem CodeArgs.Intact.meaning_eq {args : CodeArgs} (h : args.Intact) :
    H.meaningArgs qmapOf compText args = H.meaningArgs qmapOf sourceText args := by
  match args with
  | .nil => rfl
  | .raw quoted text rest =>
    have hrest : rest.Intact := h
    rw [Host.meaningArgs,Host.meaningArgs,hrest.meaning_eq]
  | .code body rest =>
    rw [Host.meaningArgs,Host.meaningArgs,h.1.meaning_eq,h.2.meaning_eq]

end

end

/-! What the printing macros of `echoHost` make of a tree. -/

mutual

def Code.echo (render : List Piece → Bytes) : Code → Bytes
  | .nil => []
  | .out text rest => render text ++ rest.echo render
  | .func _ args rest => (args.echo render).flatMap Arg.text ++ rest.echo render
  | .junk _ _ => []

def CodeArgs.echo (render : List Piece → Bytes) : CodeArgs → List Arg
  | .nil => []
  | .raw quoted text rest => ⟨text,if quoted then .qstr else .str⟩::rest.echo render
  | .code body rest => ⟨body.echo render,.str⟩::rest.echo render

end

theorem CodeArgs.length_echo (render : List Piece → Bytes) (args : CodeArgs) :
    (args.echo render).length = args.length := by
  match args with
  | .nil => rfl
  | .raw _ _ rest => exact congrArg (· + 1) (rest.length_echo render)
  | .code _ rest => exact congrArg (· + 1) (rest.length_echo render)

section
variable {G : Grammar} (render : List Piece → Bytes)

mutual

theorem Code.Moded.meaning_echo (hstrict : G.strict = false) {code : Code} (h : code.Moded G) :
    (echoHost G.qmapOf).meaning G.qmapOf render code = emit (code.echo render) := by
  match code with
  | .nil => rfl
  | .out text rest =>
    have hrest : rest.Moded G := h
    rw [Host.meaning,Code.echo,hrest.meaning_echo hstrict,EmitM.emit_append]
  | .func name args rest =>
    have hmap : (echoHost G.qmapOf).getQmap name = G.qmapOf name := rfl
    have heval : (echoHost G.qmapOf).eval name (if args.length ≠ 0 then some (args.echo render) else none) =
        emit ((args.echo render).flatMap Arg.text) := by
      rw [← args.length_echo render]
      split_ifs with hlen
      · rfl
      · rw [not_not,List.length_eq_zero_iff] at hlen
        rw [hlen]
        rfl
    rw [Host.meaning]
    change (EmitM.get >>= fun _ => ite _ _ _) = _
    rw [EmitM.get_bind_const,if_pos hmap,h.2.1.meaning_echo hstrict,pure_bind,heval,EmitM.quiet_emit,
      h.2.2.meaning_echo hstrict,Code.echo,EmitM.emit_append]
  | .junk c rest => exact absurd h.1 (by simp [hstrict])

theorem CodeArgs.Moded.meaning_echo (hstrict : G.strict = false) {args : CodeArgs}
    {p : Bool × Bytes} (h : args.Moded G p) :
    (echoHost G.qmapOf).meaningArgs G.qmapOf render args = pure (args.echo render) := by
  match args with
  | .nil => rfl
  | .raw quoted text rest => rw [Host.meaningArgs,h.2.meaning_echo hstrict,pure_bind,CodeArgs.echo]
  | .code body rest =>
    rw [Host.meaningArgs,h.2.1.meaning_echo hstrict,EmitM.capture_emit,pure_bind,h.2.2.meaning_echo hstrict,
      pure_bind,CodeArgs.echo]

end

end

mutual

theorem Code.length_echo_le (code : Code) :
    (code.echo compText).length ≤ (code.echo sourceText).length := by
  match code with
  | .nil => exact le_refl _
  | .out text rest =>
    have htext := length_compText_le text
    have hrest := rest.length_echo_le
    simp only [Code.echo,List.length_append]
    omega
  | .func name args rest =>
    have hargs := args.length_echo_le
    have hrest := rest.length_echo_le
    simp only [Code.echo,List.length_append]
    omega
  | .junk c rest => exact le_refl _

theorem CodeArgs.length_echo_le (args : CodeArgs) :
    ((args.echo compText).flatMap Arg.text).length ≤
      ((args.echo sourceText).flatMap Arg.text).length := by
  match args with
  | .nil => exact le_refl _
  | .raw quoted text rest =>
    have hrest := rest.length_echo_le
    simp only [CodeArgs.echo,List.flatMap_cons,List.length_append]
    omega
  | .code body rest =>
    have hbody := body.length_echo_le
    have hrest := rest.length_echo_le
    simp only [CodeArgs.echo,List.flatMap_cons,List.length_append]
    omega

end

mutual

/-- A name that is lost shortens what is printed. -/
theorem Code.intact_of_length {code : Code}
    (h : (code.echo sourceText).length ≤ (code.echo compText).length) : code.Intact := by
  match code with
  | .nil => trivial
  | .out text rest =>
    have htext := length_compText_le text
    have hrest := rest.length_echo_le
    simp only [Code.echo,List.length_append] at h
    exact ⟨isByte_of_length (by omega),Code.intact_of_length (by omega)⟩
  | .func name args rest =>
    have hargs := args.length_echo_le
    have hrest := rest.length_echo_le
    simp only [Code.echo,List.length_append] at h
    exact ⟨CodeArgs.intact_of_length (by omega),Code.intact_of_length (by omega)⟩
  | .junk c rest => trivial

theorem CodeArgs.intact_of_length {args : CodeArgs}
    (h : ((args.echo sourceText).flatMap Arg.text).length ≤
      ((args.echo compText).flatMap Arg.text).length) : args.Intact := by
  match args with
  | .nil => trivial
  | .raw quoted text rest =>
    simp only [CodeArgs.echo,List.flatMap_cons,List.length_append] at h
    have hrest : rest.Intact := CodeArgs.intact_of_length (by omega)
    exact hrest
  | .code body rest =>
    have hbody := body.length_echo_le
    have hrest := rest.length_echo_le
    simp only [CodeArgs.echo,List.flatMap_cons,List.length_append] at h
    exact ⟨Code.intact_of_length (by omega),CodeArgs.intact_of_length (by omega)⟩

end

namespace Host
variable {σ ο : Type} (H : Host σ ο)

/-- How a text is read in a context. -/
def grammarAt (s : σ) : Grammar := ⟨fun name => (H.find s name).bind H.getQmap,H.strict s⟩

/-- What has to hold while a text runs: strictness does not change, the context is not nested too
deep, and every call resolves, with the quote map it was compiled with, and does not throw. -/
structure Settled (s : σ) (inp : Bytes) : Prop where
  strict : ∀ s', H.strict s' = H.strict s
  tooDeep : H.tooDeep s = false
  calls : ((H.meaning (H.grammarAt s).qmapOf compText ((H.grammarAt s).read inp)).run s).result ≠
    .error none

/-- The compiled text prints what the text prints, whatever keys it was compiled with. -/
def CompiledAgrees (s : σ) (inp : Bytes) : Prop :=
  ∀ keys bs, (H.compEnv s keys).compile inp = .ok bs →
    ((H.runBytes bs).run s).out = ((H.parse inp).run s).out

variable {H}

theorem runBytes_follows {s : σ} {inp : Bytes}
    (hmaps : ∀ name map, (H.grammarAt s).qmapOf name = some map → QuoteMap map)
    (hfit : ((H.grammarAt s).read inp).Fits) {keys : Option (ℕ → Byte)} {bs : Bytes}
    (hbs : (H.compEnv s keys).compile inp = .ok bs) :
    Follows (H.runBytes bs)
      (H.meaning (H.grammarAt s).qmapOf compText ((H.grammarAt s).read inp)) :=
  ((CompEnv.compile_encodes hbs).follows H hfit (Nat.lt_succ_self _)).trans
    (((H.grammarAt s).read_moded inp).matches H hmaps)

end Host

/-- Compiled text agrees with the text itself in every context it may run in, unless a call
breaks off in it. -/
theorem compiled_agrees_iff {G : Grammar} (hstrict : G.strict = false)
    (hmaps : ∀ name map, G.qmapOf name = some map → QuoteMap map) {inp : Bytes}
    (hfit : (G.read inp).Fits) :
    (∀ (σ ο : Type) (H : Host σ ο) (s : σ), H.grammarAt s = G → H.Settled s inp →
      H.CompiledAgrees s inp) ↔ (G.read inp).Intact := by
  constructor
  · intro h
    have hgrammar : (echoHost G.qmapOf).grammarAt () = G := congrArg (Grammar.mk G.qmapOf) hstrict.symm
    have hecho (render : List Piece → Bytes) : (echoHost G.qmapOf).meaning G.qmapOf render
        (G.read inp) = emit ((G.read inp).echo render) :=
      (G.read_moded inp).meaning_echo render hstrict
    have hsettled : (echoHost G.qmapOf).Settled () inp := by
      refine ⟨fun _ => rfl,rfl,?_⟩
      rw [hgrammar,hecho]
      exact nofun
    obtain ⟨bs,hbs⟩ := CompEnv.exists_compile (E := (echoHost G.qmapOf).compEnv () none) rfl inp
    have hrun := Host.runBytes_follows (H := echoHost G.qmapOf) (s := ()) (by rwa [hgrammar])
      (by rwa [hgrammar]) hbs
    have hparse := Host.parse_follows G (H := echoHost G.qmapOf) (fun _ _ => rfl) inp
    have hagree := h Unit Bytes (echoHost G.qmapOf) () hgrammar hsettled none bs hbs
    rw [hgrammar,hecho] at hrun
    rw [hecho] at hparse
    rw [Host.run_parse rfl,hrun.run_eq (.emit _) nofun,hparse.run_eq (.emit _) nofun] at hagree
    exact Code.intact_of_length (le_of_eq (congrArg List.length hagree).symm)
  · intro hintact σ ο H s hgrammar hs keys bs hbs
    subst hgrammar
    have hrun := Host.runBytes_follows hmaps hfit hbs
    have hparse := Host.parse_follows (H.grammarAt s) (fun h s' => (hs.strict s').trans h) inp
    rw [← hintact.meaning_eq] at hparse
    rw [Host.run_parse hs.tooDeep,hrun.run_eq hparse hs.calls]

theorem compiled_agrees_nested : (echoHost fun _ => none).CompiledAgrees () (str "%f(%g(b))") := by
  have htree : ((echoHost fun _ => none).grammarAt ()).read (str "%f(%g(b))") = .func (str "f")
      (.code (.func (str "g") (.code (.out (lit (str "b")) .nil) .nil) .nil) .nil) .nil := rfl
  have hfit : (((echoHost fun _ => none).grammarAt ()).read (str "%f(%g(b))")).Fits := by
    rw [htree]
    simp only [Code.Fits,CodeArgs.Fits]
    decide
  have hintact : (((echoHost fun _ => none).grammarAt ()).read (str "%f(%g(b))")).Intact := by
    rw [htree]
    simp [Code.Intact,CodeArgs.Intact,lit,str,Piece.IsByte]
  have hmaps (name map : Bytes)
      (h : ((echoHost fun _ => none).grammarAt ()).qmapOf name = some map) : QuoteMap map := by
    cases h
  exact (compiled_agrees_iff rfl hmaps hfit).mpr hintact _ _ (echoHost fun _ => none) () rfl
    ⟨fun _ => rfl,rfl,by rintro ⟨⟩⟩

/-- `%abc ` prints itself, and compiled it prints a percent sign and a blank. -/
theorem compiled_loses_name :
    ¬ ∀ (σ ο : Type) (H : Host σ ο) (s : σ) (inp : Bytes), H.strict s = false → H.Settled s inp →
      H.CompiledAgrees s inp := by
  intro h
  obtain ⟨bs,hbs⟩ : ∃ bs, bs = baseBytes BC_OUT 0 2 ++ str "% " := ⟨_,rfl⟩
  have hagree := h Unit Bytes (echoHost fun _ => none) () (str "%abc ") rfl
    ⟨fun _ => rfl,rfl,by rintro ⟨⟩⟩ none bs (by rw [hbs]; rfl)
  subst hbs
  revert hagree
  decide

end Smx
