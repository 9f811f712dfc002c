import Smx.Regx.Means
import Smx.Regx.ReadOk

/-! The tree that is read from a pattern is searched as the pattern says. -/
namespace Smx.Regx
variable {text left : Bytes} {n m : ℕ} {r a : Rx} {flags : Flags}

theorem inClass_cons {lo hi x : Byte} {items : List (Byte × Byte)} :
    InClass ((lo,hi)::items) x ↔ (lo ≤ x ∧ x ≤ hi) ∨ InClass items x := by
  simp [InClass]

theorem inClass_one {c x : Byte} {items : List (Byte × Byte)} :
    InClass ((c,c)::items) x ↔ x = c ∨ InClass items x := by
  have h : c ≤ x ∧ x ≤ c ↔ x = c := by
    rw [UInt8.le_iff_toNat_le,UInt8.le_iff_toNat_le,← UInt8.toNat_inj]
    omega
  rw [inClass_cons,h]

theorem mem_classRange {lo hi x : Byte} :
    x ∈ classRange true (lo.toNat+1) hi.toNat ↔ lo < x ∧ x ≤ hi := by
  rw [UInt8.lt_iff_toNat_lt,UInt8.le_iff_toNat_le,classRange,List.mem_flatMap]
  have hhi := hi.toNat_lt
  constructor
  · intro ⟨k,hk,hx⟩
    rw [List.mem_range'_1] at hk
    obtain rfl := List.mem_singleton.mp hx
    rw [UInt8.toNat_ofNat',Nat.mod_eq_of_lt (by omega)]
    omega
  · intro hx
    refine ⟨x.toNat,List.mem_range'_1.mpr (by omega),List.mem_singleton.mpr ?_⟩
    exact UInt8.ofNat_toNat.symm

/-- The characters that the loop emits are those of the items, but for the one in front. -/
theorem items_of_classLoop {prev c : Byte} {cs : Bytes} (h : classLoop true prev text = .ok (cs,c::left)) :
    ∃ items, Items prev text items left ∧ ∀ x, x = prev ∨ x ∈ cs ↔ x = prev ∨ InClass items x := by
  induction prev,text using classLoop.induct generalizing cs with
  | case1 prev =>
    cases (Prod.mk.inj (Except.ok.inj h)).2
  | case2 prev rest =>
    rw [classLoop.eq_def] at h
    simp only [if_true] at h
    obtain ⟨rfl,hleft⟩ := Prod.mk.inj (Except.ok.inj h)
    cases hleft
    exact ⟨[],.stop,fun x => by simp [InClass]⟩
  | case3 prev hne =>
    rw [classLoop,if_neg hne,if_pos rfl] at h
    cases (Prod.mk.inj (Except.ok.inj h)).2
  | case4 prev rest hne =>
    rw [classLoop,if_neg hne,if_pos rfl] at h
    simp only [if_true] at h
    obtain ⟨rfl,hleft⟩ := Prod.mk.inj (Except.ok.inj h)
    cases hleft
    refine ⟨_,.dash,fun x => ?_⟩
    rw [inClass_one]
    simp [InClass]
  | case5 prev d rest hd hlt hne =>
    rw [classLoop,if_neg hne,if_pos rfl] at h
    simp only [if_neg hd,if_pos hlt] at h
    cases h
  | case6 prev d rest hd hlt hne ih =>
    rw [classLoop,if_neg hne,if_pos rfl] at h
    simp only [if_neg hd,if_neg hlt] at h
    obtain ⟨⟨cs1,left1⟩,h1,h⟩ := ok_of_bind h
    cases h
    obtain ⟨items,hitems,hmem⟩ := ih h1
    have hle : prev ≤ d := by
      rw [UInt8.le_iff_toNat_le]
      omega
    refine ⟨_,.range hd hle hitems,fun x => ?_⟩
    have hx := hmem x
    rw [inClass_cons,List.mem_append,mem_classRange]
    have hrange : x = prev ∨ prev < x ∧ x ≤ d ↔ prev ≤ x ∧ x ≤ d := by
      rw [UInt8.le_iff_toNat_le] at hle
      rw [UInt8.lt_iff_toNat_lt,UInt8.le_iff_toNat_le,UInt8.le_iff_toNat_le,← UInt8.toNat_inj]
      omega
    have hend : x = d → prev ≤ x ∧ x ≤ d := by
      intro h
      rw [h]
      exact ⟨hle,UInt8.le_refl d⟩
    grind
  | case7 prev c' rest hc hc' ih =>
    rw [classLoop.eq_def] at h
    simp only [if_neg hc,if_neg hc'] at h
    obtain ⟨⟨cs1,left1⟩,h1,h⟩ := ok_of_bind h
    cases h
    obtain ⟨items,hitems,hmem⟩ := ih h1
    refine ⟨_,.chr hc hc' hitems,fun x => ?_⟩
    rw [inClass_one,List.mem_cons,hmem x]

theorem bracket_of_classBody {cs : Bytes} (h : classBody true text = .ok (cs,left)) :
    ∃ items, Bracket text items left ∧ ∀ x, x ∈ cs ↔ InClass items x := by
  have hclose {cs' left' : Bytes} (hc : closeClass cs' left' = .ok (cs,left)) :
      ∃ c, left' = c::left ∧ cs' = cs := by
    cases left' with
    | nil => cases hc
    | cons d left' =>
      obtain ⟨rfl,rfl⟩ := Prod.mk.inj (Except.ok.inj hc)
      exact ⟨d,rfl,rfl⟩
  cases text with
  | nil => cases h
  | cons c rest =>
    rw [classBody] at h
    split_ifs at h with hc
    · obtain ⟨⟨cs1,left1⟩,h1,h⟩ := ok_of_bind h
      obtain ⟨d,rfl,rfl⟩ := hclose h
      obtain ⟨items,hitems,hmem⟩ := items_of_classLoop h1
      refine ⟨_,.first hc hitems,fun x => ?_⟩
      rw [inClass_one,List.mem_cons,hmem x]
    · obtain ⟨hend,hdash⟩ := not_or.mp hc
      obtain ⟨⟨cs1,left1⟩,h1,h⟩ := ok_of_bind h
      obtain ⟨d,rfl,rfl⟩ := hclose h
      -- the first one is a character, so that the `[` in front of it is in no range
      rw [classLoop.eq_def] at h1
      simp only [if_neg hend,if_neg hdash] at h1
      obtain ⟨⟨cs2,left2⟩,h2,h1⟩ := ok_of_bind h1
      cases h1
      obtain ⟨items,hitems,hmem⟩ := items_of_classLoop h2
      refine ⟨_,.other ⟨hend,hdash⟩ (.chr hend hdash hitems),fun x => ?_⟩
      rw [inClass_one,List.mem_cons,hmem x]

/-- A bracket is read as a set of characters or the complement of one. -/
theorem reads_of_parseClass {neg : Bool} {cs : Bytes} (h : parseClass true text = .ok (neg,cs,left)) (n : ℕ) :
    ∃ items, Reads .atom n (ch '['::text) (.cls neg items) n left ∧ ∀ x, x ∈ cs ↔ InClass items x := by
  rw [parseClass] at h
  split_ifs at h with hneg
  · obtain ⟨⟨cs1,left1⟩,h1,h⟩ := ok_of_bind h
    cases h
    obtain ⟨items,hitems,hmem⟩ := bracket_of_classBody h1
    cases text with
    | nil => cases hneg
    | cons c t =>
      obtain rfl : c = ch '^' := Option.some.inj hneg
      exact ⟨items,.but hitems,hmem⟩
  · obtain ⟨⟨cs1,left1⟩,h1,h⟩ := ok_of_bind h
    cases h
    obtain ⟨items,hitems,hmem⟩ := bracket_of_classBody h1
    exact ⟨items,.cls hneg hitems,hmem⟩

/-- No atom begins where an alternative ends. -/
theorem Lit.not_ends {c : Byte} (h : Lit text c left) : ¬Ends text := by
  intro hends
  cases h with
  | plain hc hm hb =>
    obtain hnil | ⟨d,hd,hhead⟩ := hends
    · cases hnil
    · obtain rfl : c = d := Option.some.inj hhead
      have hmagic : ∀ d ∈ [ch ')',ch '|',ch '\n'], ismagic d = true := by simp [ismagic]
      exact absurd (hmagic c hd) (Bool.eq_false_iff.mp hc)
  | quoted hl hr =>
    obtain hnil | ⟨d,hd,hhead⟩ := hends
    · cases hnil
    · obtain rfl : ch '\\' = d := Option.some.inj hhead
      exact absurd hd (by decide)

theorem not_ends_cons {c : Byte} (hc : c ∉ [ch ')',ch '|',ch '\n']) (t : Bytes) : ¬Ends (c::t) := by
  intro hends
  obtain hnil | ⟨d,hd,hhead⟩ := hends
  · cases hnil
  · obtain rfl : c = d := Option.some.inj hhead
    exact hc hd

theorem Reads.not_ends {p : Pat} (h : Reads .atom n text p m left) : ¬Ends text := by
  cases h with
  | lit h => exact h.not_ends
  | _ => exact not_ends_cons (by decide) _

theorem Reads.piece_not_ends {p : Pat} (h : Reads .piece n text p m left) : ¬Ends text := by
  cases h with
  | once h _ => exact h.not_ends
  | star h _ => exact h.not_ends
  | starLazy h _ => exact h.not_ends
  | plus h _ => exact h.not_ends
  | plusLazy h _ => exact h.not_ends
  | opt h _ => exact h.not_ends

/-- A string of ordinary characters is read as pieces of one character. -/
theorem Lits.reads {cs t : Bytes} {q : Pat} {k : ℕ} (h : Lits text cs left) (hq : Reads .branch n left q k t) :
    Reads .branch n text (chars cs q) k t := by
  induction h with
  | nil t => exact hq
  | cons h hm hs ih => exact .more h.not_ends (.once (.lit h) hm) (ih hq)

theorem Lits.noMult {cs : Bytes} (h : Lits text cs left) (hm : NoMult text) : NoMult left := by
  induction h with
  | nil t => exact hm
  | cons h hm' hs ih => exact ih hm'

theorem Lits.suffix {cs : Bytes} (h : Lits text cs left) : left <:+ text := by
  induction h with
  | nil t => exact List.suffix_refl t
  | cons h hm hs ih =>
    cases h with
    | plain _ _ _ => exact ih.trans (List.suffix_cons _ _)
    | quoted _ _ => exact (ih.trans (List.suffix_cons _ _)).trans (List.suffix_cons _ _)

theorem Lits.nul {cs : Bytes} (h : Lits text cs left) (h0 : 0 ∉ text) : 0 ∉ cs := by
  induction h with
  | nil t => exact List.not_mem_nil
  | cons h hm hs ih =>
    cases h with
    | plain _ _ _ =>
      obtain ⟨hc,ht⟩ := not_or.mp fun h => h0 (List.mem_cons.mpr h)
      exact fun hmem => (List.mem_cons.mp hmem).elim hc (ih ht)
    | quoted _ _ =>
      obtain ⟨hc,ht⟩ := not_or.mp fun h => h0 (List.mem_cons_of_mem _ (List.mem_cons.mpr h))
      exact fun hmem => (List.mem_cons.mp hmem).elim hc (ih ht)

/-- The tree is well formed, and what is left is the end of the pattern. -/
structure Fits (n : ℕ) (text : Bytes) (r : Rx) (flags : Flags) (left : Bytes) (m : ℕ) : Prop where
  ok : r.Ok
  wide : flags.hasWidth = true → r.wide = true
  suffix : left <:+ text
  le : n ≤ m

/-- An atom is an expression, or a string of ordinary characters of which none is repeated. -/
inductive AtomSays (n : ℕ) (text : Bytes) (r : Rx) (flags : Flags) (left : Bytes) (m : ℕ) : Prop
  | expr {p : Pat} (h : Reads .atom n text p m left) (ha : ∀ T, Plain T → Agrees T r p)
    (hs : flags.simple = true → ∃ l, r = .leaf l ∧ ∀ T, Plain T → TakesOne T l p)
  | lits {s : Bytes} (hr : r = .leaf (.exactly s)) (hs : (Leaf.exactly s).Ok) (h : Lits text s left)
    (hm : NoMult left) (hn : m = n)

/-- A tree that says something in front of another one. -/
def Leads (T : Subject) (r : Rx) (P : Pat → Pat) : Prop := ∀ b q, Agrees T b q → Agrees T (.seq r b) (P q)

/-- Pieces that are read in front of others. -/
def PieceSays (n : ℕ) (text : Bytes) (r : Rx) (left : Bytes) (m : ℕ) : Prop :=
  ∃ P : Pat → Pat, (∀ q k t, Reads .branch m left q k t → Reads .branch n text (P q) k t) ∧
    ∀ T, Plain T → Leads T r P

def BranchSays (n : ℕ) (text : Bytes) (r : Rx) (left : Bytes) (m : ℕ) : Prop :=
  ∃ q, Reads .branch n text q m left ∧ ∀ T, Plain T → Agrees T r q

theorem Leads.agrees {T : Subject} {P : Pat → Pat} (h : Leads T r P) : Agrees T r (P .empty) := by
  have hr := h _ _ Agrees.nothing
  exact ⟨hr.complete,hr.sound⟩

/-- Nothing may be left out behind an expression. -/
theorem Agrees.of_seq_empty {T : Subject} {p : Pat} (h : Agrees T r (.seq p .empty)) : Agrees T r p := by
  constructor
  · intro k i hi hnone ms j hpath hnine
    have hseq := Path.seq hpath (.empty hpath.le.2)
    rw [List.append_nil] at hseq
    exact h.complete k i hi hnone ms j hseq hnine
  · intro k i hi ms e hsome
    obtain ⟨ms1,j,ms2,hpath,hn,hj,heq⟩ := h.sound k i hi ms e hsome
    cases hpath with
    | seq hp hq =>
      cases hq with
      | empty _ =>
        rw [List.append_nil] at hn heq
        exact ⟨_,_,ms2,hp,hn,hj,heq⟩

theorem AtomSays.piece (h : AtomSays n text r flags left m) (hm : NoMult left) :
    PieceSays n text r left m := by
  cases h with
  | @expr p h ha hs =>
    refine ⟨.seq p,?_,?_⟩
    · intro q k t hq
      exact .more h.not_ends (.once h hm) hq
    · intro T hT b q hq
      exact (ha T hT).seq hq
  | @lits s hr hs h _ hn =>
    refine ⟨chars s,?_,?_⟩
    · intro q k t hq
      rw [hn] at hq
      exact h.reads hq
    · intro T hT b q hq
      rw [hr]
      exact .exactly_seq hT hs hq

/-- A piece in front of others. -/
theorem Reads.pieceSays {p : Pat} (h : Reads .piece n text p m left) (ha : ∀ T, Plain T → Agrees T r p) :
    PieceSays n text r left m := by
  refine ⟨.seq p,?_,?_⟩
  · intro q k t hq
    exact .more h.piece_not_ends h hq
  · intro T hT b q hq
    exact (ha T hT).seq hq

/-- What is known of the tree of an atom. -/
structure AtomRead (sensitive : Bool) (n : ℕ) (text : Bytes) (r : Rx) (flags : Flags) (left : Bytes)
    (m : ℕ) : Prop extends Fits n text r flags left m where
  shorter : left.length < text.length
  plain : r.isAlt = false
  simple : flags.simple = true → ∃ l, r = .leaf l ∧ l.single = true
  meaning : sensitive = true → AtomSays n text r flags left m

structure PieceRead (sensitive : Bool) (n : ℕ) (text : Bytes) (r : Rx) (flags : Flags) (left : Bytes)
    (m : ℕ) : Prop extends Fits n text r flags left m where
  shorter : left.length < text.length
  plain : r.isAlt = false
  meaning : sensitive = true → PieceSays n text r left m

structure BranchRead (sensitive : Bool) (n : ℕ) (text : Bytes) (r : Rx) (flags : Flags) (left : Bytes)
    (m : ℕ) : Prop extends Fits n text r flags left m where
  plain : r.isAlt = false
  meaning : sensitive = true → BranchSays n text r left m

/-- What the pieces behind `a` say, with `a` in front of them. -/
def Behind (T : Subject) (a : Option Rx) (r : Rx) (q : Pat) : Prop :=
  match a with
  | none => Agrees T r q
  | some a => ∀ P, Leads T a P → Agrees T r (P q)

/-- What is known of an alternative of which `a` has been read. -/
structure PiecesRead (sensitive : Bool) (a : Option Rx) (flagp : Flags) (n : ℕ) (text : Bytes) (r : Rx)
    (flags : Flags) (left : Bytes) (m : ℕ) : Prop where
  ok : r.Ok
  wide : flags.hasWidth = true → flagp.hasWidth = true ∨ r.wide = true
  front : ∀ b, a = some b → b.wide = true → r.wide = true
  suffix : left <:+ text
  le : n ≤ m
  plain : r.isAlt = false
  meaning : sensitive = true → ∃ q, Reads .branch n text q m left ∧ ∀ T, Plain T → Behind T a r q

/-- What is known of a list of alternatives. -/
structure AltsRead (sensitive : Bool) (n : ℕ) (text : Bytes) (r : Rx) (flags : Flags) (left : Bytes)
    (m : ℕ) : Prop extends Fits n text r flags left m where
  alts : r.isAlt = true
  meaning : sensitive = true → ∃ p, Reads .regex n text p m left ∧ ∀ T, Plain T → Agrees T r p

variable {sensitive : Bool} {fuel : ℕ}

/-- A node that is read as an atom. -/
theorem AtomRead.of_leaf {l : Leaf} {p : Pat} (hl : l.Ok) (hwide : flags.hasWidth = true → l.wide = true)
    (hsuf : left <:+ text) (hlen : left.length < text.length) (hsimple : flags.simple = true → l.single = true)
    (h : sensitive = true → Reads .atom n text p n left) (ha : sensitive = true → ∀ T, Plain T →
      Agrees T (.leaf l) p)
    (hs : sensitive = true → flags.simple = true → ∀ T, Plain T → TakesOne T l p) :
    AtomRead sensitive n text (.leaf l) flags left n where
  ok := hl
  wide := hwide
  suffix := hsuf
  le := le_rfl
  shorter := hlen
  plain := rfl
  simple := fun h => ⟨l,rfl,hsimple h⟩
  meaning := fun hsens => .expr (h hsens) (ha hsens) fun h => ⟨l,rfl,hs hsens h⟩

/-- A string of ordinary characters that begins with `c`. -/
theorem AtomRead.of_exact {c : Byte} {t cs : Bytes} {one : Bool} (hlit : Lit text c t)
    (hex : exactLoop none (c::t) = (cs,left,one)) (h0 : 0 ∉ text) (n : ℕ) :
    AtomRead sensitive n text (.leaf (.exactly cs)) ⟨true,one,false⟩ left n := by
  have hc : c ≠ 0 ∧ t <:+ text ∧ t.length < text.length := by
    cases hlit with
    | plain _ _ _ => exact ⟨fun h => h0 (h ▸ List.mem_cons_self),List.suffix_cons _ _,by simp⟩
    | quoted _ _ =>
      exact ⟨fun h => h0 (List.mem_cons_of_mem _ (h ▸ List.mem_cons_self)),
        (List.suffix_cons _ _).trans (List.suffix_cons _ _),by simp only [List.length_cons]; omega⟩
  have hone (hcs : cs = [c]) (hleft : left = t) :
      AtomRead sensitive n text (.leaf (.exactly cs)) ⟨true,one,false⟩ left n := by
    subst hcs hleft
    have hok : (Leaf.exactly [c]).Ok :=
      ⟨fun h => hc.1 (List.mem_singleton.mp h).symm,List.cons_ne_nil _ _⟩
    refine .of_leaf hok (fun _ => rfl) hc.2.1 hc.2.2 (fun _ => rfl) (fun _ => .lit hlit) (fun _ T hT => ?_)
      fun _ _ T hT => .exactly hT c
    have hl : Leads T (.leaf (.exactly [c])) (chars [c]) := fun b q hq => .exactly_seq hT hok hq
    exact hl.agrees.of_seq_empty
  obtain ⟨hmult,hno⟩ := exactLoop_spec none c t
  cases hm : ismult (t.headD 0) with
  | true =>
    rw [hmult hm,Option.elim_none] at hex
    cases hex
    exact hone rfl rfl
  | false =>
    obtain ⟨cs',left',one',hex',hlits,hsingle,-⟩ := hno hm
    rw [hex'] at hex
    cases hex
    cases one with
    | true =>
      obtain ⟨rfl,rfl⟩ := hsingle rfl
      exact hone rfl rfl
    | false =>
      have hall := Lits.cons hlit hm hlits
      have hok : (Leaf.exactly (c::cs')).Ok := ⟨hall.nul h0,List.cons_ne_nil _ _⟩
      exact {
        ok := hok
        wide := fun _ => rfl
        suffix := hall.suffix
        le := le_rfl
        shorter := hlits.suffix.length_le.trans_lt hc.2.2
        plain := rfl
        simple := nofun
        meaning := fun _ => .lits rfl hok hall (hlits.noMult hm) rfl
      }

/-- A bracket. -/
theorem AtomRead.of_class {neg : Bool} {cs : Bytes} (h : parseClass sensitive text = .ok (neg,cs,left))
    (h0 : 0 ∉ text) (n : ℕ) :
    AtomRead sensitive n (ch '['::text) (.leaf (if neg then .anybut cs else .anyof cs)) ⟨true,true,false⟩
      left n := by
  obtain ⟨hsuf,hlt,hnul⟩ := parseClass_ok h
  have hcs := hnul h0
  have hok : (if neg then Leaf.anybut cs else Leaf.anyof cs).Ok := by
    cases neg with
    | true => exact hcs
    | false => exact hcs
  have hwide : (if neg then Leaf.anybut cs else Leaf.anyof cs).wide = true := by
    cases neg with
    | true => rfl
    | false => rfl
  have hsingle : (if neg then Leaf.anybut cs else Leaf.anyof cs).single = true := by
    cases neg with
    | true => rfl
    | false => rfl
  exact {
    ok := hok
    wide := fun _ => hwide
    suffix := hsuf.trans (List.suffix_cons _ _)
    le := le_rfl
    shorter := hlt.trans (Nat.lt_succ_self _)
    plain := rfl
    simple := fun _ => ⟨_,rfl,hsingle⟩
    meaning := by
      intro hsens
      subst hsens
      obtain ⟨items,hread,hmem⟩ := reads_of_parseClass h n
      cases neg with
      | true => exact .expr hread (fun T hT => .anybut hT hmem) fun _ => ⟨_,rfl,fun T _ => .anybut hmem⟩
      | false => exact .expr hread (fun T _ => .anyof hmem hcs) fun _ => ⟨_,rfl,fun T _ => .anyof hmem⟩
  }

/-- A list of alternatives in parentheses. -/
theorem AtomRead.of_group {t : Bytes} (hn : 1 ≤ n)
    (hread : AltsRead sensitive (n+1) t a flags (ch ')'::left) m) :
    AtomRead sensitive n (ch '('::t) (.group n a) ⟨flags.hasWidth,false,flags.spStart⟩ left m where
  ok := ⟨hn,hread.ok,hread.alts⟩
  wide := hread.wide
  suffix := ((List.suffix_cons _ _).trans hread.suffix).trans (List.suffix_cons _ _)
  le := (Nat.le_succ n).trans hread.le
  shorter := by
    have hlen := hread.suffix.length_le
    simp only [List.length_cons] at hlen ⊢
    omega
  plain := rfl
  simple := nofun
  meaning := by
    intro hsens
    obtain ⟨p,hp,ha⟩ := hread.meaning hsens
    exact .expr (.group hp) (fun T hT => (ha T hT).group) nofun

/-- The functions of the parser, with fuel for them. -/
def AtomOk (sensitive : Bool) (fuel : ℕ) : Prop := ∀ text n r flags left m, 0 ∉ text → 1 ≤ n →
  readAtom sensitive fuel text n = .ok (r,flags,left,m) → AtomRead sensitive n text r flags left m

def PieceOk (sensitive : Bool) (fuel : ℕ) : Prop := ∀ text n r flags left m, 0 ∉ text → 1 ≤ n →
  readPiece sensitive fuel text n = .ok (r,flags,left,m) → PieceRead sensitive n text r flags left m

def BranchOk (sensitive : Bool) (fuel : ℕ) : Prop := ∀ text n r flags left m, 0 ∉ text → 1 ≤ n →
  readBranch sensitive fuel text n = .ok (r,flags,left,m) → BranchRead sensitive n text r flags left m

/-- The list that begins with `b`, for which `n0` and `text0` were read. -/
def AltsOk (sensitive : Bool) (fuel : ℕ) : Prop := ∀ n0 text0 b flagp text n a flags left m, 0 ∉ text0 →
  1 ≤ n0 → BranchRead sensitive n0 text0 b flagp text n →
  readAlts sensitive fuel b flagp text n = .ok (a,flags,left,m) →
    AltsRead sensitive n0 text0 a flags left m ∧ (flags.hasWidth = true → flagp.hasWidth = true)

/-- Without parentheses nothing is left, and otherwise the closing one. -/
def ListOk (sensitive : Bool) (fuel : ℕ) : Prop := ∀ paren text n a flags left m, 0 ∉ text → 1 ≤ n →
  read sensitive fuel paren text n = .ok (a,flags,left,m) →
    if paren then n < MAX_SUBX ∧ AltsRead sensitive (n+1) text a flags (ch ')'::left) m
    else left = [] ∧ AltsRead sensitive n text a flags [] m

/-- The pieces behind `a`, or all of them. -/
def PiecesOk (sensitive : Bool) (fuel : ℕ) : Prop := ∀ a flagp text n r flags left m, 0 ∉ text → 1 ≤ n →
  (∀ b, a = some b → b.Ok ∧ b.isAlt = false) → readPieces sensitive fuel a flagp text n = .ok (r,flags,left,m) →
    PiecesRead sensitive a flagp n text r flags left m

theorem atomOk_succ (hlist : ListOk sensitive fuel) : AtomOk sensitive (fuel+1) := by
  intro text n r flags left m h0 hn h
  rw [readAtom.eq_def] at h
  cases text with
  | nil => cases h
  | cons c t =>
    have ht : 0 ∉ t := fun h => h0 (List.mem_cons_of_mem _ h)
    simp only at h
    by_cases hbol : c = ch '^'
    · rw [if_pos hbol] at h
      cases h
      subst hbol
      exact .of_leaf trivial (by rintro ⟨⟩) (List.suffix_cons _ _) (by simp) (by rintro ⟨⟩) (fun _ => .bol) (fun _ _ _ => .bol) (by rintro _ ⟨⟩)
    rw [if_neg hbol] at h
    by_cases heol : c = ch '$'
    · rw [if_pos heol] at h
      cases h
      subst heol
      exact .of_leaf trivial (by rintro ⟨⟩) (List.suffix_cons _ _) (by simp) (by rintro ⟨⟩) (fun _ => .eol) (fun _ _ hT => .eol hT)
        (by rintro _ ⟨⟩)
    rw [if_neg heol] at h
    by_cases hany : c = ch '.'
    · rw [if_pos hany] at h
      cases h
      subst hany
      exact .of_leaf trivial (fun _ => rfl) (List.suffix_cons _ _) (by simp) (fun _ => rfl) (fun _ => .any)
        (fun _ _ hT => .any hT) fun _ _ _ _ => .any
    rw [if_neg hany] at h
    by_cases hcls : c = ch '['
    · rw [if_pos hcls] at h
      obtain ⟨⟨neg,cs,left1⟩,h1,h⟩ := ok_of_bind h
      cases h
      subst hcls
      exact .of_class h1 ht n
    rw [if_neg hcls] at h
    by_cases hpar : c = ch '('
    · rw [if_pos hpar] at h
      obtain ⟨⟨a,flags1,text1,n1⟩,h1,h⟩ := ok_of_bind h
      cases h
      subst hpar
      have hread := hlist true t n a flags1 _ _ ht hn h1
      rw [if_pos rfl] at hread
      exact .of_group hn hread.2
    rw [if_neg hpar] at h
    by_cases hend : c = ch '|' ∨ c = ch '\n' ∨ c = ch ')'
    · rw [if_pos hend] at h
      cases h
    rw [if_neg hend] at h
    by_cases hmult : ismult c = true
    · rw [if_pos hmult] at h
      cases h
    rw [if_neg hmult] at h
    by_cases hquote : c = ch '\\'
    · rw [if_pos hquote] at h
      subst hquote
      cases t with
      | nil => cases h
      | cons d rest =>
        simp only at h
        have hlen : rest.length < (ch '\\'::d::rest).length := by
          simp only [List.length_cons]
          omega
        have hsuf : rest <:+ ch '\\'::d::rest := (List.suffix_cons _ _).trans (List.suffix_cons _ _)
        by_cases hlt : d = ch '<'
        · rw [if_pos hlt] at h
          cases h
          subst hlt
          exact .of_leaf trivial (by rintro ⟨⟩) hsuf hlen (by rintro ⟨⟩) (fun _ => .wordStart) (fun _ _ _ => .worda) (by rintro _ ⟨⟩)
        rw [if_neg hlt] at h
        by_cases hgt : d = ch '>'
        · rw [if_pos hgt] at h
          cases h
          subst hgt
          exact .of_leaf trivial (by rintro ⟨⟩) hsuf hlen (by rintro ⟨⟩) (fun _ => .wordEnd) (fun _ _ _ => .wordz) (by rintro _ ⟨⟩)
        rw [if_neg hgt] at h
        cases h
        exact .of_exact (.quoted hlt hgt) rfl h0 n
    · rw [if_neg hquote] at h
      cases h
      have hall : ∀ c : Byte, ismagic c = true → c = ch '^' ∨ c = ch '$' ∨ c = ch '.' ∨ c = ch '[' ∨
          c = ch '(' ∨ c = ch '|' ∨ c = ch '\n' ∨ c = ch ')' := by
        intro c hc
        simp only [ismagic,List.contains_cons,List.contains_nil,Bool.or_false,Bool.or_eq_true,beq_iff_eq] at hc
        grind
      have hmagic : ismagic c = false := by
        rw [Bool.eq_false_iff]
        intro hm
        have hc := hall c hm
        grind
      exact .of_exact (.plain hmagic (Bool.eq_false_iff.mpr hmult) hquote) rfl h0 n

/-- The expression of an atom with a `*`, `+` or `?` behind it. -/
def multPat (op : Byte) (p : Pat) : Pat :=
  if op = ch '*' then .star p else if op = ch '+' then .plus p else .opt p

theorem eq_of_ismult {op : Byte} (h : ismult op = true) : op = ch '*' ∨ op = ch '+' ∨ op = ch '?' := by
  rw [ismult,Bool.or_eq_true,Bool.or_eq_true,beq_iff_eq,beq_iff_eq,beq_iff_eq] at h
  obtain (h | h) | h := h
  · exact .inl h
  · exact .inr (.inl h)
  · exact .inr (.inr h)

/-- A `?` that makes a repetition lazy is passed over. -/
theorem Reads.mult {op : Byte} {t : Bytes} {p : Pat} (h : Reads .atom n text p m (op::t)) (hop : ismult op = true)
    (simple : Bool) (hm : NoMult (behindMult op simple t)) :
    Reads .piece n text (multPat op p) m (behindMult op simple t) := by
  rw [behindMult] at hm ⊢
  split_ifs at hm ⊢ with hlazy
  · obtain ⟨hne,-,hhead⟩ := hlazy
    cases t with
    | nil => cases hhead
    | cons d t =>
      obtain rfl : d = ch '?' := Option.some.inj hhead
      obtain rfl | rfl | rfl := eq_of_ismult hop
      · exact .starLazy h hm
      · exact .plusLazy h hm
      · exact absurd rfl hne
  · obtain rfl | rfl | rfl := eq_of_ismult hop
    · exact .star h hm
    · exact .plus h hm
    · exact .opt h hm

/-- The tree of a repeated atom is well formed. -/
theorem multTree_ok {op : Byte} (hop : ismult op = true) (isLazy : Bool) (hok : r.Ok) (hplain : r.isAlt = false)
    (hwide : op ≠ ch '?' → r.wide = true) {simple : Bool}
    (hsimple : simple = true → ∃ l, r = .leaf l ∧ l.single = true) :
    (multTree op simple isLazy r).Ok ∧ (multTree op simple isLazy r).isAlt = false ∧
      (op = ch '+' → (multTree op simple isLazy r).wide = true) := by
  obtain rfl | rfl | rfl := eq_of_ismult hop
  · cases simple with
    | true =>
      obtain ⟨l,rfl,hl⟩ := hsimple rfl
      exact ⟨⟨hok,hl⟩,rfl,fun h => absurd h (by decide)⟩
    | false => exact ⟨⟨hok,hwide (by decide),hplain⟩,rfl,fun h => absurd h (by decide)⟩
  · cases simple with
    | true =>
      obtain ⟨l,rfl,hl⟩ := hsimple rfl
      exact ⟨⟨hok,hl⟩,rfl,fun _ => rfl⟩
    | false => exact ⟨⟨hok,hwide (by decide),hplain⟩,rfl,fun _ => rfl⟩
  · exact ⟨⟨hok,hplain⟩,rfl,fun h => absurd h (by decide)⟩

theorem Agrees.mult {T : Subject} {op : Byte} {p : Pat} (hop : ismult op = true) (isLazy : Bool) (hok : r.Ok)
    (hwide : op ≠ ch '?' → r.wide = true) (ha : Agrees T r p) {simple : Bool}
    (hsimple : simple = true → ∃ l, r = .leaf l ∧ TakesOne T l p) :
    Agrees T (multTree op simple isLazy r) (multPat op p) := by
  obtain rfl | rfl | rfl := eq_of_ismult hop
  · cases simple with
    | true =>
      obtain ⟨l,rfl,hl⟩ := hsimple rfl
      exact .rep_star hl isLazy
    | false => exact ha.loop hok (hwide (by decide))
  · cases simple with
    | true =>
      obtain ⟨l,rfl,hl⟩ := hsimple rfl
      exact .rep_plus hl isLazy
    | false => exact ha.loop1 hok (hwide (by decide))
  · exact ha.opt

/-- What `ISMULT` needs of the flags, and what is left. -/
theorem ok_readMult {op : Byte} {r' : Rx} {flags' : Flags} {t : Bytes}
    (h : readMult op r flags t n = .ok (r',flags',left,m)) : (op ≠ ch '?' → flags.hasWidth = true) ∧
      NoMult (behindMult op flags.simple t) ∧
      r' = multTree op flags.simple (t.head? == some (ch '?')) r ∧
      flags' = (if op = ch '+' then ⟨true,false,false⟩ else ⟨false,false,true⟩) ∧
      left = behindMult op flags.simple t ∧ m = n := by
  rw [readMult] at h
  split_ifs at h with hwidth hm
  · rename_i hplus
    cases h
    refine ⟨fun hne => ?_,Bool.eq_false_iff.mpr hm,rfl,(if_pos hplus).symm,rfl,rfl⟩
    by_contra hf
    exact hwidth ⟨Bool.eq_false_iff.mpr hf,hne⟩
  · rename_i hplus
    cases h
    refine ⟨fun hne => ?_,Bool.eq_false_iff.mpr hm,rfl,(if_neg hplus).symm,rfl,rfl⟩
    by_contra hf
    exact hwidth ⟨Bool.eq_false_iff.mpr hf,hne⟩

theorem behindMult_suffix (op : Byte) (simple : Bool) (t : Bytes) : behindMult op simple t <:+ t := by
  rw [behindMult]
  split_ifs
  · exact List.tail_suffix t
  · exact List.suffix_refl t

theorem AtomRead.mult {op : Byte} {r' : Rx} {flags' : Flags} {t : Bytes} {k : ℕ}
    (hatom : AtomRead sensitive n text r flags (op::t) m) (hop : ismult op = true)
    (h : readMult op r flags t m = .ok (r',flags',left,k)) : PieceRead sensitive n text r' flags' left k := by
  obtain ⟨hwidth,hm,rfl,rfl,rfl,rfl⟩ := ok_readMult h
  have hwide : op ≠ ch '?' → r.wide = true := fun hne => hatom.wide (hwidth hne)
  obtain ⟨hok,hplain,hplus⟩ := multTree_ok hop (t.head? == some (ch '?')) hatom.ok hatom.plain hwide
    hatom.simple
  exact {
    ok := hok
    wide := by
      intro hw
      split_ifs at hw with hplus'
      exact hplus hplus'
    suffix := ((behindMult_suffix op _ t).trans (List.suffix_cons _ _)).trans hatom.suffix
    le := hatom.le
    shorter := ((behindMult_suffix op _ t).length_le.trans_lt (Nat.lt_succ_self _)).trans hatom.shorter
    plain := hplain
    meaning := by
      intro hsens
      cases hatom.meaning hsens with
      | expr hread ha hs =>
        refine (hread.mult hop flags.simple hm).pieceSays fun T hT => ?_
        refine .mult hop _ hatom.ok hwide (ha T hT) fun hsimple => ?_
        obtain ⟨l,hl,htakes⟩ := hs hsimple
        exact ⟨l,hl,htakes T hT⟩
      | lits _ _ _ hno _ => exact absurd hop (Bool.eq_false_iff.mp hno)
  }

/-- An atom behind which no `*`, `+` or `?` stands. -/
theorem AtomRead.piece (hatom : AtomRead sensitive n text r flags left m) (hm : NoMult left) :
    PieceRead sensitive n text r flags left m where
  toFits := hatom.toFits
  shorter := hatom.shorter
  plain := hatom.plain
  meaning := fun hsens => (hatom.meaning hsens).piece hm

theorem pieceOk_succ (hatom : AtomOk sensitive fuel) : PieceOk sensitive (fuel+1) := by
  intro text n r flags left m h0 hn h
  rw [readPiece.eq_def] at h
  obtain ⟨⟨r1,flags1,text1,n1⟩,h1,h⟩ := ok_of_bind h
  have hread := hatom _ _ _ _ _ _ h0 hn h1
  cases text1 with
  | nil =>
    cases h
    exact hread.piece rfl
  | cons op t =>
    simp only at h
    split_ifs at h with hop
    · exact hread.mult hop h
    · cases h
      exact hread.piece (Bool.eq_false_iff.mpr hop)

theorem ends_of {c : Byte} (h : c = ch ')' ∨ c = ch '\n' ∨ c = ch '|') (t : Bytes) : Ends (c::t) := by
  refine .inr ⟨c,?_,rfl⟩
  obtain rfl | rfl | rfl := h
  · exact by decide
  · exact by decide
  · exact by decide

/-- The alternative ends here. -/
theorem PiecesRead.of_ends {a : Option Rx} (hok : ∀ b, a = some b → b.Ok ∧ b.isAlt = false) (h : Ends text)
    (flags : Flags) (n : ℕ) :
    PiecesRead sensitive a flags n text (a.getD (.leaf .nothing)) flags text n := by
  cases a with
  | none =>
    exact {
      ok := trivial
      wide := .inl
      front := nofun
      suffix := List.suffix_refl _
      le := le_rfl
      plain := rfl
      meaning := fun _ => ⟨.empty,.stop h,fun T _ => Agrees.nothing⟩
    }
  | some b =>
    obtain ⟨hb,hplain⟩ := hok b rfl
    exact {
      ok := hb
      wide := .inl
      front := fun _ heq hw => (Option.some.inj heq) ▸ hw
      suffix := List.suffix_refl _
      le := le_rfl
      plain := hplain
      meaning := fun _ => ⟨.empty,.stop h,fun T _ P hP => hP.agrees⟩
    }

/-- The first piece, and those behind it. -/
theorem PieceRead.first {b : Rx} {flags1 flagp flags' : Flags} {t : Bytes} {k : ℕ}
    (hpiece : PieceRead sensitive n text b flags1 t k)
    (hrest : PiecesRead sensitive (some b) flags' k t r flags left m)
    (hflags : flags'.hasWidth = (flagp.hasWidth || flags1.hasWidth)) :
    PiecesRead sensitive none flagp n text r flags left m where
  ok := hrest.ok
  wide := by
    intro hw
    obtain hw | hw := hrest.wide hw
    · rw [hflags] at hw
      exact (Bool.or_eq_true_iff.mp hw).imp_right fun hw => hrest.front b rfl (hpiece.wide hw)
    · exact .inr hw
  front := nofun
  suffix := hrest.suffix.trans hpiece.suffix
  le := hpiece.le.trans hrest.le
  plain := hrest.plain
  meaning := by
    intro hsens
    obtain ⟨q,hq,hbehind⟩ := hrest.meaning hsens
    obtain ⟨P,hP,hleads⟩ := hpiece.meaning hsens
    exact ⟨P q,hP _ _ _ hq,fun T hT => hbehind T hT P (hleads T hT)⟩

/-- Another piece, and those behind it. -/
theorem PieceRead.next {b : Rx} {flags1 flagp flags' : Flags} {t : Bytes} {k : ℕ}
    (hpiece : PieceRead sensitive n text b flags1 t k)
    (hrest : PiecesRead sensitive (some b) flags' k t r flags left m)
    (hflags : flags'.hasWidth = (flagp.hasWidth || flags1.hasWidth)) (ha : a.Ok) (hplain : a.isAlt = false) :
    PiecesRead sensitive (some a) flagp n text (.seq a r) flags left m where
  ok := ⟨ha,hrest.ok,hplain,hrest.plain⟩
  wide := by
    intro hw
    obtain hw | hw := hrest.wide hw
    · rw [hflags] at hw
      refine (Bool.or_eq_true_iff.mp hw).imp_right fun hw => ?_
      exact Bool.or_eq_true_iff.mpr (.inr (hrest.front b rfl (hpiece.wide hw)))
    · exact .inr (Bool.or_eq_true_iff.mpr (.inr hw))
  front := fun _ heq hw => Bool.or_eq_true_iff.mpr (.inl ((Option.some.inj heq) ▸ hw))
  suffix := hrest.suffix.trans hpiece.suffix
  le := hpiece.le.trans hrest.le
  plain := rfl
  meaning := by
    intro hsens
    obtain ⟨q,hq,hbehind⟩ := hrest.meaning hsens
    obtain ⟨P,hP,hleads⟩ := hpiece.meaning hsens
    exact ⟨P q,hP _ _ _ hq,fun T hT Q hQ => hQ _ _ (hbehind T hT P (hleads T hT))⟩

theorem piecesOk_succ (hpiece : PieceOk sensitive fuel) (hpieces : PiecesOk sensitive fuel) :
    PiecesOk sensitive (fuel+1) := by
  intro a flagp text n r flags left m h0 hn hok h
  rw [readPieces.eq_def] at h
  cases text with
  | nil =>
    cases h
    exact .of_ends hok (.inl rfl) _ _
  | cons c t =>
    simp only at h
    split_ifs at h with hend
    · cases h
      exact .of_ends hok (ends_of hend t) _ _
    · obtain ⟨⟨b,flags1,text1,n1⟩,h1,h⟩ := ok_of_bind h
      have hread := hpiece _ _ _ _ _ _ h0 hn h1
      have h01 := nul_of_suffix hread.suffix h0
      have hn1 := hn.trans hread.le
      have hb : ∀ b', some b = some b' → b'.Ok ∧ b'.isAlt = false :=
        fun _ heq => (Option.some.inj heq) ▸ ⟨hread.ok,hread.plain⟩
      cases a with
      | none => exact hread.first (hpieces _ _ _ _ _ _ _ _ h01 hn1 hb h) rfl
      | some a =>
        obtain ⟨⟨r1,flags2,text2,n2⟩,h2,h⟩ := ok_of_bind h
        cases h
        obtain ⟨ha,hplain⟩ := hok a rfl
        exact hread.next (hpieces _ _ _ _ _ _ _ _ h01 hn1 hb h2) rfl ha hplain

theorem branchOk_succ (hpieces : PiecesOk sensitive fuel) : BranchOk sensitive (fuel+1) := by
  intro text n r flags left m h0 hn h
  rw [readBranch.eq_def] at h
  have hread := hpieces none _ _ _ _ _ _ _ h0 hn nofun h
  exact {
    ok := hread.ok
    wide := fun hw => (hread.wide hw).resolve_left nofun
    suffix := hread.suffix
    le := hread.le
    plain := hread.plain
    meaning := hread.meaning
  }

/-- The list ends with its first alternative. -/
theorem BranchRead.last {b : Rx} (h : BranchRead sensitive n text b flags left m)
    (hnot : ∀ c, left.head? = some c → c ≠ ch '|' ∧ c ≠ ch '\n') :
    AltsRead sensitive n text (.last b) flags left m where
  ok := ⟨h.ok,h.plain⟩
  wide := h.wide
  suffix := h.suffix
  le := h.le
  alts := rfl
  meaning := by
    intro hsens
    obtain ⟨q,hq,ha⟩ := h.meaning hsens
    exact ⟨q,.last hq hnot,fun T hT => (ha T hT).last⟩

/-- Another alternative follows. -/
theorem BranchRead.alt {b : Rx} {c : Byte} {t : Bytes} {flagp : Flags} {k : ℕ}
    (h : BranchRead sensitive n text b flagp (c::t) k) (hc : c = ch '|' ∨ c = ch '\n')
    (hrest : AltsRead sensitive k t a flags left m) (hflags : flags.hasWidth = true → flagp.hasWidth = true) :
    AltsRead sensitive n text (.alt b a) flags left m where
  ok := ⟨h.ok,hrest.ok,h.plain,hrest.alts⟩
  wide := fun hw => Bool.and_eq_true_iff.mpr ⟨h.wide (hflags hw),hrest.wide hw⟩
  suffix := (hrest.suffix.trans (List.suffix_cons c t)).trans h.suffix
  le := h.le.trans hrest.le
  alts := rfl
  meaning := by
    intro hsens
    obtain ⟨p,hp,ha⟩ := h.meaning hsens
    obtain ⟨q,hq,hb⟩ := hrest.meaning hsens
    exact ⟨.alt p q,.alt hp hc hq,fun T hT => (ha T hT).alt (hb T hT)⟩

theorem altsOk_succ (hbranch : BranchOk sensitive fuel) (halts : AltsOk sensitive fuel) :
    AltsOk sensitive (fuel+1) := by
  intro n0 text0 b flagp text n a flags left m h0 hn hread h
  rw [readAlts.eq_def] at h
  cases text with
  | nil =>
    cases h
    exact ⟨hread.last nofun,fun hw => hw⟩
  | cons c t =>
    simp only at h
    split_ifs at h with hc
    · obtain ⟨⟨b1,flags1,text1,n1⟩,h1,h⟩ := ok_of_bind h
      obtain ⟨⟨a1,flags2,text2,n2⟩,h2,h⟩ := ok_of_bind h
      cases h
      have ht := nul_of_suffix ((List.suffix_cons c t).trans hread.suffix) h0
      have hn1 := hn.trans hread.le
      have hnext := hbranch _ _ _ _ _ _ ht hn1 h1
      obtain ⟨hrest,hflags⟩ := halts n t b1 _ _ _ _ _ _ _ ht hn1
        { hnext with wide := fun hw => hnext.wide (Bool.and_eq_true_iff.mp hw).2 } h2
      have hback := fun hw => (Bool.and_eq_true_iff.mp (hflags hw)).1
      exact ⟨hread.alt hc hrest hback,hback⟩
    · cases h
      obtain ⟨hbar,hnl⟩ := not_or.mp hc
      exact ⟨hread.last fun _ heq => (Option.some.inj heq) ▸ ⟨hbar,hnl⟩,fun hw => hw⟩

theorem ok_ending {paren : Bool} {t : Bytes} (h : ending paren t = .ok left) :
    if paren then t = ch ')'::left else t = [] ∧ left = [] := by
  cases paren with
  | true =>
    cases t with
    | nil => cases h
    | cons c t =>
      rw [ending] at h
      split_ifs at h with hc
      cases h
      rw [hc]
      rfl
  | false =>
    cases t with
    | nil =>
      cases h
      exact ⟨rfl,rfl⟩
    | cons c t => cases h

theorem listOk_succ (hbranch : BranchOk sensitive fuel) (halts : AltsOk sensitive fuel) :
    ListOk sensitive (fuel+1) := by
  intro paren text n a flags left m h0 hn h
  rw [read.eq_def] at h
  simp only at h
  have hmany : ¬(paren = true ∧ MAX_SUBX ≤ n) := by
    intro hmany
    rw [if_pos hmany] at h
    cases h
  rw [if_neg hmany] at h
  obtain ⟨⟨b,flags1,text1,n1⟩,h1,h⟩ := ok_of_bind h
  obtain ⟨⟨a1,flags2,text2,n2⟩,h2,h⟩ := ok_of_bind h
  obtain ⟨left1,h3,h⟩ := ok_of_bind h
  cases h
  have hend := ok_ending h3
  have hn' : 1 ≤ if paren then n+1 else n := by
    split_ifs
    · omega
    · exact hn
  have hread := hbranch _ _ _ _ _ _ h0 hn' h1
  have hfirst : BranchRead sensitive _ text b ⟨flags1.hasWidth,false,flags1.spStart⟩ text1 n1 :=
    { hread with wide := hread.wide }
  have hlist := (halts _ _ _ _ _ _ _ _ _ _ h0 hn' hfirst h2).1
  cases paren with
  | true =>
    obtain rfl : text2 = ch ')'::left := hend
    exact ⟨not_le.mp fun hle => hmany ⟨rfl,hle⟩,hlist⟩
  | false =>
    obtain ⟨rfl,rfl⟩ : text2 = [] ∧ left = [] := hend
    exact ⟨rfl,hlist⟩

/-- All of the functions of the parser. -/
theorem reads_ok (sensitive : Bool) (fuel : ℕ) : ListOk sensitive fuel ∧ AltsOk sensitive fuel ∧
    BranchOk sensitive fuel ∧ PiecesOk sensitive fuel ∧ PieceOk sensitive fuel ∧ AtomOk sensitive fuel := by
  induction fuel with
  | zero =>
    refine ⟨?_,?_,?_,?_,?_,?_⟩
    · intro _ _ _ _ _ _ _ _ _ h
      rw [read] at h
      cases h
    · intro _ _ _ _ _ _ _ _ _ _ _ _ _ h
      rw [readAlts] at h
      cases h
    · intro _ _ _ _ _ _ _ _ h
      rw [readBranch] at h
      cases h
    · intro _ _ _ _ _ _ _ _ _ _ _ h
      rw [readPieces] at h
      cases h
    · intro _ _ _ _ _ _ _ _ h
      rw [readPiece] at h
      cases h
    · intro _ _ _ _ _ _ _ _ h
      rw [readAtom] at h
      cases h
  | succ fuel ih =>
    obtain ⟨hlist,halts,hbranch,hpieces,hpiece,hatom⟩ := ih
    exact ⟨listOk_succ hbranch halts,altsOk_succ hbranch halts,branchOk_succ hpieces,
      piecesOk_succ hpiece hpieces,pieceOk_succ hatom,atomOk_succ hlist⟩

end Smx.Regx
