import Mathlib.Data.List.Forall2
import Mathlib.Data.Option.Basic
import Smx.Regx.Exact

/-! Patterns that differ in the case of letters only are read to trees of one form. -/
namespace Smx.Regx

/-- One letter, in one case or the other, or one other character. -/
def SameLetter (c d : Byte) : Prop := tolower c = tolower d

instance : DecidableRel SameLetter := fun c d => inferInstanceAs (Decidable (tolower c = tolower d))

/-- Texts that differ in the case of letters only. -/
abbrev SameLetters (s t : Bytes) : Prop := List.Forall₂ SameLetter s t

namespace SameLetter
variable {c d : Byte}

/-- A test that is blind to case. -/
theorem test {f : Byte → Bool} (hf : ∀ c, f (tolower c) = f c) (h : SameLetter c d) : f c = f d := by
  rw [← hf c,← hf d,show tolower c = tolower d from h]

theorem ismult (h : SameLetter c d) : ismult c = Regx.ismult d := by
  apply h.test
  intro c
  grind [Regx.ismult,tolower,ch]

theorem ismagic (h : SameLetter c d) : ismagic c = Regx.ismagic d := by
  apply h.test
  intro c
  simp only [Regx.ismagic,List.contains_cons,ch]
  grind [tolower]

theorem isword (h : SameLetter c d) : isword c = Regx.isword d := by
  apply h.test
  intro c
  grind [Regx.isword,tolower,ch]

/-- The characters with a meaning in patterns, and zero. -/
def marks : Bytes := 0::str "^$.[]()|\n*+?\\<>-"

/-- No letter has a meaning of its own. -/
theorem tolower_mark_iff {m : Byte} (hm : m ∈ marks) (c : Byte) : tolower c = m ↔ c = m := by
  have hletter : ∀ c : Byte, tolower c = c ∨ c ∉ marks ∧ tolower c ∉ marks := forall_byte (by decide +kernel)
  obtain h | ⟨h,h'⟩ := hletter c
  · rw [h]
  · exact iff_of_false (fun hc => h' (hc ▸ hm)) fun hc => h (hc ▸ hm)

theorem mark_iff {m : Byte} (hm : m ∈ marks) (h : SameLetter c d) : c = m ↔ d = m := by
  rw [← tolower_mark_iff hm c,← tolower_mark_iff hm d,show tolower c = tolower d from h]

end SameLetter

/-- Two results that are related where both are there. -/
def BothOk {α β : Type} (Q : α → β → Prop) (x : Except Fail α) (y : Except Fail β) : Prop :=
  ∀ a b, x = .ok a → y = .ok b → Q a b

namespace BothOk
variable {α β γ δ : Type} {Q : α → β → Prop} {R : γ → δ → Prop}

theorem pure {a : α} {b : β} (h : Q a b) : BothOk Q (Pure.pure a) (Pure.pure b) := by
  intro a' b' ha hb
  cases ha
  cases hb
  exact h

theorem fail {e : Fail} {y : Except Fail β} : BothOk Q (.error e) y := by
  intro a b ha
  cases ha

theorem bind {x : Except Fail α} {y : Except Fail β} {f : α → Except Fail γ} {g : β → Except Fail δ}
    (h : BothOk Q x y) (hf : ∀ a b, Q a b → BothOk R (f a) (g b)) : BothOk R (x >>= f) (y >>= g) := by
  intro c d hc hd
  obtain ⟨a,ha,hc⟩ := ok_of_bind hc
  obtain ⟨b,hb,hd⟩ := ok_of_bind hd
  exact hf a b (h a b ha hb) c d hc hd

/-- Two branchings that go the same way. -/
theorem ite {p q : Prop} [Decidable p] [Decidable q] {x x' : Except Fail α} {y y' : Except Fail β} (hpq : p ↔ q)
    (h : p → q → BothOk Q x y) (h' : ¬p → ¬q → BothOk Q x' y') :
    BothOk Q (if p then x else x') (if q then y else y') := by
  by_cases hp : p
  · rw [if_pos hp,if_pos (hpq.mp hp)]
    exact h hp (hpq.mp hp)
  · rw [if_neg hp,if_neg fun hq => hp (hpq.mpr hq)]
    exact h' hp fun hq => hp (hpq.mpr hq)

end BothOk

/-- Nodes that differ in the case of letters, and brackets of any characters. -/
inductive Leaf.Alike : Leaf → Leaf → Prop
  | same (l : Leaf) : Alike l l
  | anyof (cs ds : Bytes) : Alike (.anyof cs) (.anyof ds)
  | anybut (cs ds : Bytes) : Alike (.anybut cs) (.anybut ds)
  | exactly {s t : Bytes} (h : SameLetters s t) : Alike (.exactly s) (.exactly t)

/-- Trees of one form. -/
inductive Rx.Alike : Rx → Rx → Prop
  | leaf {l m : Leaf} (h : l.Alike m) : Alike (.leaf l) (.leaf m)
  | seq {a b a' b' : Rx} (ha : Alike a a') (hb : Alike b b') : Alike (.seq a b) (.seq a' b')
  | last {b b' : Rx} (hb : Alike b b') : Alike (.last b) (.last b')
  | alt {a b a' b' : Rx} (hb : Alike b b') (ha : Alike a a') : Alike (.alt b a) (.alt b' a')
  | group (n : ℕ) {a a' : Rx} (ha : Alike a a') : Alike (.group n a) (.group n a')
  | rep (plus isLazy : Bool) {l m : Leaf} (h : l.Alike m) : Alike (.rep plus isLazy l) (.rep plus isLazy m)
  | loop {a a' : Rx} (ha : Alike a a') : Alike (.loop a) (.loop a')
  | loop1 {a a' : Rx} (ha : Alike a a') : Alike (.loop1 a) (.loop1 a')
  | opt {a a' : Rx} (ha : Alike a a') : Alike (.opt a) (.opt a')

/-- What is read of two texts: trees of one form, and texts that are left. -/
structure ReadAlike (x y : Rx × Flags × Bytes × ℕ) : Prop where
  tree : Rx.Alike x.1 y.1
  flags : x.2.1 = y.2.1
  left : SameLetters x.2.2.1 y.2.2.1
  next : x.2.2.2 = y.2.2.2

section
variable {sensitive : Bool} {s t : Bytes} {c d : Byte} {n : ℕ}

theorem SameLetters.headD (h : SameLetters s t) : SameLetter (s.headD 0) (t.headD 0) := by
  cases h with
  | nil => exact rfl
  | cons hc ht => exact hc

theorem SameLetters.head?_eq {m : Byte} (hm : m ∈ SameLetter.marks) (h : SameLetters s t) :
    s.head? = some m ↔ t.head? = some m := by
  cases h with
  | nil => exact Iff.rfl
  | cons hc ht =>
    rw [List.head?_cons,List.head?_cons,Option.some_inj,Option.some_inj]
    exact SameLetter.mark_iff hm hc

theorem SameLetters.tail (h : SameLetters s t) : SameLetters s.tail t.tail := by
  cases h with
  | nil => exact .nil
  | cons hc ht => exact ht

/-- A string of ordinary characters, what is left, and whether it is one character. -/
structure ExactAlike (x y : Bytes × Bytes × Bool) : Prop where
  chars : SameLetters x.1 y.1
  left : SameLetters x.2.1 y.2.1
  one : x.2.2 = y.2.2

theorem ExactAlike.cons {x y : Bytes × Bytes × Bool} (hc : SameLetter c d) (h : ExactAlike x y) :
    ExactAlike (c::x.1,x.2.1,x.2.2) (d::y.1,y.2.1,y.2.2) := ⟨.cons hc h.chars,h.left,h.one⟩

theorem exactLoop_alike {back back' : Option Bytes} (hback : Option.Rel SameLetters back back')
    (h : SameLetters s t) : ExactAlike (exactLoop back s) (exactLoop back' t) := by
  have hnone : back.isNone = back'.isNone := by
    cases hback with
    | none => rfl
    | some h => rfl
  induction hlen : s.length using Nat.strong_induction_on generalizing back back' s t with
  | _ len ih =>
    cases h with
    | nil => exact ⟨.nil,.nil,hnone⟩
    | @cons c c' s t hc h =>
      have hstop (h : SameLetters s t) : ExactAlike ([c],s,back.isNone) ([c'],t,back'.isNone) :=
        ⟨.cons hc .nil,h,hnone⟩
      cases h with
      | nil => exact hstop .nil
      | @cons d d' s t hd h =>
        rw [exactLoop_cons,exactLoop_cons,hd.ismagic,hd.ismult]
        by_cases hmagic : ismagic d' = true
        · rw [if_pos hmagic,if_pos hmagic]
          exact hstop (.cons hd h)
        rw [if_neg hmagic,if_neg hmagic]
        by_cases hmult : ismult d' = true
        · rw [if_pos hmult,if_pos hmult]
          cases hback with
          | none => exact ⟨.cons hc .nil,.cons hd h,rfl⟩
          | some hp => exact ⟨.nil,hp,rfl⟩
        rw [if_neg hmult,if_neg hmult]
        by_cases hb : d' = ch '\\'
        · rw [if_pos hb,if_pos ((SameLetter.mark_iff (by decide) hd).mpr hb)]
          cases h with
          | nil => exact hstop (.cons hd .nil)
          | @cons e e' s t he h =>
            have hiff : (e = ch '<' ∨ e = ch '>') ↔ (e' = ch '<' ∨ e' = ch '>') :=
              or_congr (SameLetter.mark_iff (by decide) he) (SameLetter.mark_iff (by decide) he)
            by_cases hword : e' = ch '<' ∨ e' = ch '>'
            · simp only [if_pos hword,if_pos (hiff.mpr hword)]
              exact hstop (.cons hd (.cons he h))
            · simp only [if_neg hword,if_neg fun h => hword (hiff.mp h)]
              refine .cons hc (ih (e::s).length ?_ (.some (.cons hd (.cons he h))) (.cons he h) rfl rfl)
              rw [← hlen]
              exact Nat.lt_succ_of_lt (Nat.lt_succ_self _)
        · rw [if_neg hb,if_neg fun h => hb ((SameLetter.mark_iff (by decide) hd).mp h)]
          refine .cons hc (ih (d::s).length ?_ (.some (.cons hd h)) (.cons hd h) rfl rfl)
          rw [← hlen]
          exact Nat.lt_succ_self _

/-- The texts left behind brackets. -/
abbrev LeftAlike (x y : Bytes × Bytes) : Prop := SameLetters x.2 y.2

theorem classLoop_alike {prev prev' : Byte} (h : SameLetters s t) :
    BothOk LeftAlike (classLoop sensitive prev s) (classLoop sensitive prev' t) := by
  induction hlen : s.length using Nat.strong_induction_on generalizing prev prev' s t with
  | _ len ih =>
    cases h with
    | nil => exact .pure .nil
    | @cons c d s t hc h =>
      rw [classLoop.eq_def sensitive prev,classLoop.eq_def sensitive prev']
      simp only
      by_cases hstop : d = ch ']'
      · rw [if_pos hstop,if_pos ((SameLetter.mark_iff (by decide) hc).mpr hstop)]
        exact .pure (.cons hc h)
      rw [if_neg hstop,if_neg fun hf => hstop ((SameLetter.mark_iff (by decide) hc).mp hf)]
      by_cases hdash : d = ch '-'
      · rw [if_pos hdash,if_pos ((SameLetter.mark_iff (by decide) hc).mpr hdash)]
        cases h with
        | nil => exact .pure .nil
        | @cons e e' s t he h =>
          simp only
          by_cases hend : e' = ch ']'
          · rw [if_pos hend,if_pos ((SameLetter.mark_iff (by decide) he).mpr hend)]
            exact .pure (.cons he h)
          rw [if_neg hend,if_neg fun hf => hend ((SameLetter.mark_iff (by decide) he).mp hf)]
          -- only the order of a range depends on the case of letters
          split_ifs
          · exact .fail
          · exact .fail
          · intro a b _ hb
            cases hb
          · refine (ih s.length ?_ h rfl).bind fun a b hab => ?_
            · rw [← hlen]
              exact Nat.lt_succ_of_lt (Nat.lt_succ_self _)
            · exact BothOk.pure hab
      · rw [if_neg hdash,if_neg fun hf => hdash ((SameLetter.mark_iff (by decide) hc).mp hf)]
        refine (ih s.length ?_ h rfl).bind fun a b hab => ?_
        · rw [← hlen]
          exact Nat.lt_succ_self _
        · exact BothOk.pure hab

theorem closeClass_alike {cs ds : Bytes} (h : SameLetters s t) :
    BothOk LeftAlike (closeClass cs s) (closeClass ds t) := by
  cases h with
  | nil => exact .fail
  | cons hc h => exact .pure h

theorem classBody_alike (h : SameLetters s t) :
    BothOk LeftAlike (classBody sensitive s) (classBody sensitive t) := by
  cases h with
  | nil => exact .fail
  | @cons c d s t hc h =>
    have hiff : (c = ch ']' ∨ c = ch '-') ↔ (d = ch ']' ∨ d = ch '-') :=
      or_congr (SameLetter.mark_iff (by decide) hc) (SameLetter.mark_iff (by decide) hc)
    rw [classBody,classBody]
    by_cases hfirst : d = ch ']' ∨ d = ch '-'
    · rw [if_pos hfirst,if_pos (hiff.mpr hfirst)]
      exact (classLoop_alike h).bind fun a b hab => closeClass_alike hab
    · rw [if_neg hfirst,if_neg fun hf => hfirst (hiff.mp hf)]
      exact (classLoop_alike (.cons hc h)).bind fun a b hab => closeClass_alike hab

theorem parseClass_alike (h : SameLetters s t) :
    BothOk (fun x y : Bool × Bytes × Bytes => x.1 = y.1 ∧ LeftAlike x.2 y.2) (parseClass sensitive s)
      (parseClass sensitive t) := by
  rw [parseClass,parseClass]
  by_cases hneg : t.head? = some (ch '^')
  · rw [if_pos hneg,if_pos ((h.head?_eq (by decide)).mpr hneg)]
    exact (classBody_alike h.tail).bind fun a b hab => .pure ⟨rfl,hab⟩
  · rw [if_neg hneg,if_neg fun hf => hneg ((h.head?_eq (by decide)).mp hf)]
    exact (classBody_alike h).bind fun a b hab => .pure ⟨rfl,hab⟩

theorem ending_alike (paren : Bool) (h : SameLetters s t) : BothOk SameLetters (ending paren s) (ending paren t) := by
  cases h with
  | nil =>
    cases paren with
    | true => exact .fail
    | false => exact .pure .nil
  | @cons c d s t hc h =>
    cases paren with
    | true =>
      rw [ending,ending]
      by_cases hd : d = ch ')'
      · rw [if_pos hd,if_pos ((SameLetter.mark_iff (by decide) hc).mpr hd)]
        exact .pure h
      · rw [if_neg hd,if_neg fun hf => hd ((SameLetter.mark_iff (by decide) hc).mp hf)]
        exact .fail
    | false => exact .fail

theorem behindMult_alike (op : Byte) (simple : Bool) (h : SameLetters s t) :
    SameLetters (behindMult op simple s) (behindMult op simple t) := by
  have hiff := h.head?_eq (m := ch '?') (by decide)
  rw [behindMult,behindMult]
  by_cases hcut : op ≠ ch '?' ∧ simple ∧ t.head? = some (ch '?')
  · rw [if_pos hcut,if_pos ⟨hcut.1,hcut.2.1,hiff.mpr hcut.2.2⟩]
    exact h.tail
  · rw [if_neg hcut,if_neg fun hf => hcut ⟨hf.1,hf.2.1,hiff.mp hf.2.2⟩]
    exact h

theorem repTree_alike (plus simple isLazy : Bool) {a b : Rx} (h : Rx.Alike a b) :
    Rx.Alike (repTree plus simple isLazy a) (repTree plus simple isLazy b) := by
  cases simple with
  | true =>
    cases h with
    | leaf h => exact .rep plus isLazy h
    | seq ha hb => exact .seq ha hb
    | last hb => exact .last hb
    | alt hb ha => exact .alt hb ha
    | group n ha => exact .group n ha
    | rep p l h => exact .rep p l h
    | loop ha => exact .loop ha
    | loop1 ha => exact .loop1 ha
    | opt ha => exact .opt ha
  | false =>
    cases plus with
    | true => exact .loop1 h
    | false => exact .loop h

theorem multTree_alike (op : Byte) (simple isLazy : Bool) {a b : Rx} (h : Rx.Alike a b) :
    Rx.Alike (multTree op simple isLazy a) (multTree op simple isLazy b) := by
  rw [multTree,multTree]
  split_ifs
  · exact repTree_alike false simple isLazy h
  · exact repTree_alike true simple isLazy h
  · exact .opt h

theorem readMult_alike (op : Byte) {a b : Rx} (h : Rx.Alike a b) (flags : Flags) (ht : SameLetters s t) (n : ℕ) :
    BothOk ReadAlike (readMult op a flags s n) (readMult op b flags t n) := by
  have hlazy : (s.head? == some (ch '?')) = (t.head? == some (ch '?')) :=
    Bool.eq_iff_iff.mpr (by rw [beq_iff_eq,beq_iff_eq]; exact ht.head?_eq (by decide))
  have hmult := (behindMult_alike op flags.simple ht).headD.ismult
  rw [readMult,readMult,hlazy,hmult]
  refine .ite Iff.rfl (fun _ _ => .fail) fun _ _ => .ite Iff.rfl (fun _ _ => .fail) fun _ _ => ?_
  exact BothOk.pure ⟨multTree_alike _ _ _ h,rfl,behindMult_alike _ _ ht,rfl⟩

variable (sensitive) (fuel : ℕ)

/-- What is read of an atom. The other functions of the parser follow in the same way. -/
def AtomAlike : Prop := ∀ s t n, SameLetters s t →
  BothOk ReadAlike (readAtom sensitive fuel s n) (readAtom sensitive fuel t n)

def PieceAlike : Prop := ∀ s t n, SameLetters s t →
  BothOk ReadAlike (readPiece sensitive fuel s n) (readPiece sensitive fuel t n)

def PiecesAlike : Prop := ∀ a b flagp s t n, Option.Rel Rx.Alike a b → SameLetters s t →
  BothOk ReadAlike (readPieces sensitive fuel a flagp s n) (readPieces sensitive fuel b flagp t n)

def BranchAlike : Prop := ∀ s t n, SameLetters s t →
  BothOk ReadAlike (readBranch sensitive fuel s n) (readBranch sensitive fuel t n)

def AltsAlike : Prop := ∀ a b flagp s t n, Rx.Alike a b → SameLetters s t →
  BothOk ReadAlike (readAlts sensitive fuel a flagp s n) (readAlts sensitive fuel b flagp t n)

def ListAlike : Prop := ∀ paren s t n, SameLetters s t →
  BothOk ReadAlike (read sensitive fuel paren s n) (read sensitive fuel paren t n)

variable {sensitive} {fuel}

theorem listAlike_succ (hbranch : BranchAlike sensitive fuel) (halts : AltsAlike sensitive fuel) :
    ListAlike sensitive (fuel+1) := by
  intro paren s t n h
  rw [read,read]
  by_cases hmany : paren ∧ MAX_SUBX ≤ n
  · rw [if_pos hmany]
    exact .fail
  rw [if_neg hmany,if_neg hmany]
  refine (hbranch s t _ h).bind fun x y hxy => ?_
  obtain ⟨b,flags,s,n⟩ := x
  obtain ⟨b',flags',t,n'⟩ := y
  obtain ⟨htree,hflags,hleft,hnext⟩ := hxy
  obtain rfl : flags = flags' := hflags
  obtain rfl : n = n' := hnext
  refine (halts b b' _ s t _ htree hleft).bind fun x y hxy => ?_
  obtain ⟨htree,hflags,hleft,hnext⟩ := hxy
  exact (ending_alike paren hleft).bind fun l l' hl => .pure ⟨htree,hflags,hl,hnext⟩

theorem altsAlike_succ (hbranch : BranchAlike sensitive fuel) (halts : AltsAlike sensitive fuel) :
    AltsAlike sensitive (fuel+1) := by
  intro a b flagp s t n hab h
  cases h with
  | nil =>
    rw [readAlts,readAlts]
    exact .pure ⟨.last hab,rfl,.nil,rfl⟩
  | @cons c d s t hc h =>
    have hiff : (c = ch '|' ∨ c = ch '\n') ↔ (d = ch '|' ∨ d = ch '\n') :=
      or_congr (SameLetter.mark_iff (by decide) hc) (SameLetter.mark_iff (by decide) hc)
    rw [readAlts,readAlts]
    refine .ite hiff (fun _ _ => ?_) fun _ _ => .pure ⟨.last hab,rfl,.cons hc h,rfl⟩
    · refine (hbranch s t n h).bind fun x y hxy => ?_
      obtain ⟨b1,flags,s,n⟩ := x
      obtain ⟨b2,flags',t,n'⟩ := y
      obtain ⟨htree,hflags,hleft,hnext⟩ := hxy
      obtain rfl : flags = flags' := hflags
      obtain rfl : n = n' := hnext
      refine (halts b1 b2 _ s t n htree hleft).bind fun x y hxy => ?_
      obtain ⟨a1,flags1,s,n⟩ := x
      obtain ⟨a2,flags2,t,n'⟩ := y
      exact BothOk.pure (Q := ReadAlike) ⟨.alt hab hxy.tree,hxy.flags,hxy.left,hxy.next⟩

theorem piecesAlike_succ (hpiece : PieceAlike sensitive fuel) (hpieces : PiecesAlike sensitive fuel) :
    PiecesAlike sensitive (fuel+1) := by
  intro a b flagp s t n hab h
  have hend : Rx.Alike (a.getD (.leaf .nothing)) (b.getD (.leaf .nothing)) := by
    cases hab with
    | none => exact .leaf (.same _)
    | some h => exact h
  cases h with
  | nil =>
    rw [readPieces,readPieces]
    exact .pure ⟨hend,rfl,.nil,rfl⟩
  | @cons c d s t hc h =>
    have hiff : (c = ch ')' ∨ c = ch '\n' ∨ c = ch '|') ↔ (d = ch ')' ∨ d = ch '\n' ∨ d = ch '|') :=
      or_congr (SameLetter.mark_iff (by decide) hc)
        (or_congr (SameLetter.mark_iff (by decide) hc) (SameLetter.mark_iff (by decide) hc))
    rw [readPieces,readPieces]
    refine .ite hiff (fun _ _ => .pure ⟨hend,rfl,.cons hc h,rfl⟩) fun _ _ => ?_
    · refine (hpiece _ _ n (.cons hc h)).bind fun x y hxy => ?_
      obtain ⟨b1,flags,s,n⟩ := x
      obtain ⟨b2,flags',t,n'⟩ := y
      obtain ⟨htree,hflags,hleft,hnext⟩ := hxy
      obtain rfl : flags = flags' := hflags
      obtain rfl : n = n' := hnext
      cases hab with
      | none => exact hpieces _ _ _ s t n (.some htree) hleft
      | some hfirst =>
        refine (hpieces _ _ _ s t n (.some htree) hleft).bind fun x y hxy => ?_
        obtain ⟨a1,flags1,s,n⟩ := x
        obtain ⟨a2,flags2,t,n'⟩ := y
        exact BothOk.pure (Q := ReadAlike) ⟨.seq hfirst hxy.tree,hxy.flags,hxy.left,hxy.next⟩

theorem pieceAlike_succ (hatom : AtomAlike sensitive fuel) : PieceAlike sensitive (fuel+1) := by
  intro s t n h
  rw [readPiece,readPiece]
  refine (hatom s t n h).bind fun x y hxy => ?_
  obtain ⟨a,flags,s,n⟩ := x
  obtain ⟨b,flags',t,n'⟩ := y
  obtain ⟨htree,hflags,hleft,hnext⟩ := hxy
  obtain rfl : flags = flags' := hflags
  obtain rfl : n = n' := hnext
  cases hleft with
  | nil => exact .pure ⟨htree,rfl,.nil,rfl⟩
  | @cons c d s t hc h =>
    refine .ite (by rw [hc.ismult]) (fun _ hmult => ?_) fun _ _ => .pure ⟨htree,rfl,.cons hc h,rfl⟩
    have hmark : ∀ c : Byte, ismult c = true → c ∈ SameLetter.marks := by
      intro c hc
      simp only [ismult,Bool.or_eq_true,beq_iff_eq] at hc
      rcases hc with (rfl | rfl) | rfl <;> decide
    obtain rfl := (SameLetter.mark_iff (hmark d hmult) hc).mpr rfl
    exact readMult_alike c htree flags h n

theorem exact_alike (hc : SameLetter c d) (h : SameLetters s t) (n : ℕ) :
    BothOk ReadAlike
      (let (cs,left,one) := exactLoop none (c::s)
      (pure (.leaf (.exactly cs),⟨true,one,false⟩,left,n) : ReadTree))
      (let (cs,left,one) := exactLoop none (d::t)
      pure (.leaf (.exactly cs),⟨true,one,false⟩,left,n)) := by
  obtain ⟨hchars,hleft,hone⟩ := exactLoop_alike (.none : Option.Rel SameLetters none none) (.cons hc h)
  exact .pure ⟨.leaf (.exactly hchars),congrArg (Flags.mk true · false) hone,hleft,rfl⟩

theorem atomAlike_succ (hlist : ListAlike sensitive fuel) : AtomAlike sensitive (fuel+1) := by
  intro s t n h
  rw [readAtom.eq_def,readAtom.eq_def]
  cases h with
  | nil => exact .fail
  | @cons c d s t hc h =>
    have hmark {m : Byte} (hm : m ∈ SameLetter.marks) : c = m ↔ d = m := SameLetter.mark_iff hm hc
    simp only
    refine .ite (hmark (by decide)) (fun _ _ => .pure ⟨.leaf (.same _),rfl,h,rfl⟩) fun _ _ => ?_
    refine .ite (hmark (by decide)) (fun _ _ => .pure ⟨.leaf (.same _),rfl,h,rfl⟩) fun _ _ => ?_
    refine .ite (hmark (by decide)) (fun _ _ => .pure ⟨.leaf (.same _),rfl,h,rfl⟩) fun _ _ => ?_
    refine .ite (hmark (by decide)) (fun _ _ => ?_) fun _ _ => ?_
    · refine (parseClass_alike h).bind fun x y hxy => ?_
      obtain ⟨neg,cs,s⟩ := x
      obtain ⟨neg',ds,t⟩ := y
      obtain ⟨rfl,hleft⟩ : neg = neg' ∧ SameLetters s t := hxy
      refine .pure ⟨?_,rfl,hleft,rfl⟩
      cases neg with
      | true => exact .leaf (.anybut cs ds)
      | false => exact .leaf (.anyof cs ds)
    refine .ite (hmark (by decide)) (fun _ _ => ?_) fun _ _ => ?_
    · refine (hlist true s t n h).bind fun x y hxy => ?_
      obtain ⟨a,flags,s,m⟩ := x
      obtain ⟨b,flags',t,m'⟩ := y
      obtain ⟨htree,hflags,hleft,hnext⟩ := hxy
      obtain rfl : flags = flags' := hflags
      exact .pure ⟨.group n htree,rfl,hleft,hnext⟩
    refine .ite (or_congr (hmark (by decide)) (or_congr (hmark (by decide)) (hmark (by decide))))
      (fun _ _ => .fail) fun _ _ => ?_
    refine .ite (by rw [hc.ismult]) (fun _ _ => .fail) fun _ _ => ?_
    refine .ite (hmark (by decide)) (fun _ _ => ?_) fun _ _ => exact_alike hc h n
    cases h with
    | nil => exact .fail
    | @cons c d s t hc h =>
      have hmark {m : Byte} (hm : m ∈ SameLetter.marks) : c = m ↔ d = m := SameLetter.mark_iff hm hc
      simp only
      refine .ite (hmark (by decide)) (fun _ _ => .pure ⟨.leaf (.same _),rfl,h,rfl⟩) fun _ _ => ?_
      refine .ite (hmark (by decide)) (fun _ _ => .pure ⟨.leaf (.same _),rfl,h,rfl⟩) fun _ _ => ?_
      exact exact_alike hc h n

theorem reads_alike (sensitive : Bool) (fuel : ℕ) : ListAlike sensitive fuel ∧ AltsAlike sensitive fuel ∧
    BranchAlike sensitive fuel ∧ PiecesAlike sensitive fuel ∧ PieceAlike sensitive fuel ∧ AtomAlike sensitive fuel := by
  induction fuel with
  | zero =>
    refine ⟨fun paren s t n _ => ?_,fun a b flagp s t n _ _ => ?_,fun s t n _ => ?_,
      fun a b flagp s t n _ _ => ?_,fun s t n _ => ?_,fun s t n _ => ?_⟩
    · rw [read.eq_def]
      exact .fail
    · rw [readAlts.eq_def]
      exact .fail
    · rw [readBranch.eq_def]
      exact .fail
    · rw [readPieces.eq_def]
      exact .fail
    · rw [readPiece.eq_def]
      exact .fail
    · rw [readAtom.eq_def]
      exact .fail
  | succ fuel ih =>
    obtain ⟨hlist,halts,hbranch,hpieces,hpiece,hatom⟩ := ih
    refine ⟨listAlike_succ hbranch halts,altsAlike_succ hbranch halts,fun s t n h => ?_,
      piecesAlike_succ hpiece hpieces,pieceAlike_succ hatom,atomAlike_succ hlist⟩
    rw [readBranch,readBranch]
    exact hpieces none none WORST s t n .none h

end
end Smx.Regx
