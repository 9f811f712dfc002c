import Smx.Regx.Buffer

/-! In memory that is large enough the accesses make the code of the pattern. -/
namespace Smx.Regx
open Logging

variable {α : Type} {sensitive : Bool} {fuel : ℕ} {t t' : Sheet} {p k : ℕ} {text : Bytes}

namespace Sheet

/-- More nodes were made. -/
def Ahead (t t' : Sheet) : Prop := t.offs <+: t'.offs

theorem Ahead.off (h : t.Ahead t') (hp : p < t.offs.length) : t'.off p = t.off p := by
  obtain ⟨new,hnew⟩ := h
  rw [Sheet.off,Sheet.off,← hnew,List.getD_append _ _ _ _ hp]

theorem Ahead.trans {t'' : Sheet} (h : t.Ahead t') (h' : t'.Ahead t'') : t.Ahead t'' := List.IsPrefix.trans h h'

theorem Ahead.le (h : t.Ahead t') : t.offs.length ≤ t'.offs.length := h.length_le

/-- The nodes that were made behind those of a sheet. -/
theorem off_made {l : List ℕ} (h : t'.offs = t.offs ++ l) (i : ℕ) : t'.off (t.offs.length+i) = l.getD i 0 := by
  rw [Sheet.off,h,List.getD_append_right _ _ _ _ (Nat.le_add_right _ _),Nat.add_sub_cancel_left]

theorem off_node (t : Sheet) (op : Op) : (t.access (.node op)).off t.offs.length = t.code.length := by
  rw [Sheet.off,Sheet.access,List.getD_append_right _ _ _ _ le_rfl,Nat.sub_self]
  rfl

theorem off_node_of_lt (op : Op) (hp : p < t.offs.length) : (t.access (.node op)).off p = t.off p :=
  Ahead.off (List.prefix_append _ _) hp

theorem length_node_offs (t : Sheet) (op : Op) : (t.access (.node op)).offs.length = t.offs.length+1 :=
  List.length_append

end Sheet

/-- The parser with the code of a sheet. -/
def Sheet.parser (t : Sheet) (text : Bytes) (k : ℕ) : Parser := ⟨t.code,text,k⟩

theorem parser_code : (t.parser text k).code = t.code := rfl

theorem parser_node {op : Op} (h : t.Fits (.node op)) :
    (t.parser text k).node op = .ok ((t.access (.node op)).parser text k) := if_pos h

theorem parser_emit {bs : Bytes} (h : t.Fits (.chars bs)) :
    (t.parser text k).emit bs = .ok ((t.access (.chars bs)).parser text k) := if_pos h

theorem parser_insert {op : Op} (h : t.Fits (.insert op p)) :
    (t.parser text k).insert op (t.off p) = .ok ((t.access (.insert op p)).parser text k) := if_pos h

theorem parser_tail {q x y : ℕ} (hp : t.off p = x) (hq : t.off q = y) :
    (t.parser text k).tail x y = (t.access (.tail p q)).parser text k := by
  rw [← hp,← hq]
  rfl

theorem parser_opTail {q x y : ℕ} (hp : t.off p = x) (hq : t.off q = y) :
    (t.parser text k).opTail x y = (t.access (.opTail p q)).parser text k := by
  rw [← hp,← hq]
  rfl

namespace Accesses

/-- What a computation of the parser gives, where its accesses fit. -/
abbrev Gives (Q : Sheet → α → Prop) (t : Sheet) (x : Listed α) : Prop := Upholds Sheet.access Sheet.Fits Q t x

theorem gives_access (t : Sheet) (a : Access) : Gives (fun t' _ => t' = t.access a ∧ t.Fits a) t (access a) :=
  .tell fun h => ⟨rfl,h⟩

theorem gives_node (t : Sheet) (text : Bytes) (k : ℕ) (op : Op) :
    Gives (fun t' r => r = (t.offs.length,⟨text,k,t.offs.length+1⟩) ∧ t' = t.access (.node op) ∧ t.Fits (.node op)) t
      (node ⟨text,k,t.offs.length⟩ op) :=
  (gives_access t (.node op)).bind fun _ _ h => .pure ⟨rfl,h⟩

/-- A function of the parser gives the same node, and the sheet is its code. -/
def Same (t : Sheet) (x : Regx.Parsed) (t' : Sheet) (r : ℕ × Flags × Scan) : Prop :=
  x = .ok (t'.off r.1,r.2.1,t'.parser r.2.2.parse r.2.2.subx_count) ∧ t.Ahead t' ∧ r.1 < t'.offs.length ∧
    r.2.2.nodes = t'.offs.length

theorem gives_leaf (t : Sheet) (k : ℕ) (op : Op) (flags : Flags) (text left : Bytes) :
    Gives (Same t (Regx.parseLeaf (t.parser text k) op flags left)) t
      (parseLeaf ⟨text,k,t.offs.length⟩ op flags left) := by
  apply (gives_node t text k op).bind
  rintro _ _ ⟨rfl,rfl,hfits⟩
  refine .pure ⟨?_,List.prefix_append _ _,?_,(t.length_node_offs op).symm⟩
  · rw [Regx.parseLeaf,parser_node hfits,Sheet.off_node]
    rfl
  · rw [Sheet.length_node_offs]
    exact Nat.lt_succ_self _

theorem gives_exact (t : Sheet) (k : ℕ) (text left : Bytes) :
    Gives (Same t (Regx.parseExact (t.parser text k) left)) t (parseExact ⟨text,k,t.offs.length⟩ left) := by
  rw [parseExact,Regx.parseExact]
  obtain ⟨cs,left,one⟩ := exactLoop none left
  apply (gives_node t text k .EXACTLY).bind
  rintro _ _ ⟨rfl,rfl,hnode⟩
  apply (gives_access _ (.chars (cs ++ [0]))).bind
  rintro _ _ ⟨rfl,hchars⟩
  refine .pure ⟨?_,List.prefix_append _ _,?_,(t.length_node_offs .EXACTLY).symm⟩
  · simp only [parser_node hnode,bind,Except.bind,parser_emit hchars]
    exact congrArg (fun off => Except.ok (off,_)) (t.off_node .EXACTLY).symm
  · exact (Nat.lt_succ_self _).trans_eq (t.length_node_offs .EXACTLY).symm

theorem gives_class (t : Sheet) (k : ℕ) (text left : Bytes) :
    Gives (Same t (Regx.parseClass sensitive left >>= fun r => do
      let ps ← (t.parser text k).node (if r.1 then .ANYBUT else .ANYOF)
      let ps ← ps.emit (r.2.1 ++ [0])
      pure (t.code.length,⟨true,true,false⟩,{ ps with parse := r.2.2 }))) t
      (parseClass sensitive ⟨text,k,t.offs.length⟩ left) := by
  rw [parseClass]
  generalize hop : (if left.head? = some (ch '^') then Op.ANYBUT else .ANYOF) = op
  apply (gives_node t text k op).bind
  rintro _ _ ⟨rfl,rfl,hnode⟩
  simp only
  cases hbody : classBody sensitive (if left.head? = some (ch '^') then left.tail else left) with
  | mk cs rest =>
    cases rest with
    | none => exact (gives_access _ (.chars cs)).bind fun _ _ _ => .fail
    | some rest =>
      apply (gives_access _ (.chars (cs ++ [0]))).bind
      rintro _ _ ⟨rfl,hchars⟩
      cases rest with
      | nil => exact .fail
      | cons c rest =>
        refine .pure ⟨?_,List.prefix_append _ _,?_,?_⟩
        · rw [parseClass_eq hbody]
          simp only [bind,Except.bind,decide_eq_true_eq,hop,parser_node hnode,parser_emit hchars]
          exact congrArg (fun off => Except.ok (off,_)) (t.off_node op).symm
        · exact (Nat.lt_succ_self _).trans_eq (t.length_node_offs op).symm
        · exact (t.length_node_offs op).symm

/-- Code was added that reads nothing. -/
def Added (t : Sheet) (x : Except Fail Parser) (text : Bytes) (t' : Sheet) (sc : Scan) : Prop :=
  x = .ok (t'.parser sc.parse sc.subx_count) ∧ t.Ahead t' ∧ sc.nodes = t'.offs.length ∧ sc.parse = text

theorem gives_insert (t : Sheet) (text : Bytes) (k : ℕ) (op : Op) (p : ℕ) :
    Gives (fun t' _ => (t.parser text k).insert op (t.off p) = .ok (t'.parser text k) ∧ t'.offs = t.offs) t
      (access (.insert op p)) := by
  apply (gives_access t (.insert op p)).mono
  rintro _ _ ⟨rfl,hfits⟩
  exact ⟨parser_insert hfits,rfl⟩

/-- The next node, with its place in the code. -/
theorem gives_next (t : Sheet) (text : Bytes) (k : ℕ) (op : Op) {n : ℕ} (hn : n = t.offs.length) :
    Gives (fun t' r => r = (n,⟨text,k,n+1⟩) ∧ (t.parser text k).node op = .ok (t'.parser text k) ∧
      t'.offs = t.offs ++ [t.code.length]) t (node ⟨text,k,n⟩ op) := by
  subst hn
  apply (gives_node t text k op).mono
  rintro _ _ ⟨rfl,rfl,hfits⟩
  exact ⟨rfl,parser_node hfits,rfl⟩

theorem gives_tail (t : Sheet) (text : Bytes) (k p q : ℕ) :
    Gives (fun t' _ => (∀ x y, t.off p = x → t.off q = y → (t.parser text k).tail x y = t'.parser text k) ∧
      t'.offs = t.offs) t (access (.tail p q)) := by
  apply (gives_access t (.tail p q)).mono
  rintro _ _ ⟨rfl,-⟩
  exact ⟨fun _ _ => parser_tail,rfl⟩

theorem gives_opTail (t : Sheet) (text : Bytes) (k p q : ℕ) :
    Gives (fun t' _ => (∀ x y, t.off p = x → t.off q = y → (t.parser text k).opTail x y = t'.parser text k) ∧
      t'.offs = t.offs) t (access (.opTail p q)) := by
  apply (gives_access t (.opTail p q)).mono
  rintro _ _ ⟨rfl,-⟩
  exact ⟨fun _ _ => parser_opTail,rfl⟩

theorem gives_star {ret : ℕ} (hret : ret < t.offs.length) :
    Gives (Added t ((t.parser text k).star (t.off ret)) text) t (star ret ⟨text,k,t.offs.length⟩) := by
  apply (gives_insert t text k .BRANCH ret).bind
  rintro t1 _ ⟨h1,ho1⟩
  apply (gives_next t1 text k .BACK (by rw [ho1])).bind
  rintro t2 _ ⟨rfl,h2,ho2⟩
  rw [ho1] at ho2
  have hret2 : t2.off ret = t.off ret := Sheet.Ahead.off ⟨_,ho2.symm⟩ hret
  apply (gives_opTail t2 text k ret t.offs.length).bind
  rintro t3 _ ⟨h3,ho3⟩
  apply (gives_opTail t3 text k ret ret).bind
  rintro t4 _ ⟨h4,ho4⟩
  rw [ho2] at ho3
  rw [ho3] at ho4
  apply (gives_next t4 text k .BRANCH (by rw [ho4,List.length_append]; rfl)).bind
  rintro t5 _ ⟨rfl,h5,ho5⟩
  rw [ho4,List.append_assoc] at ho5
  apply (gives_tail t5 text k ret (t.offs.length+1)).bind
  rintro t6 _ ⟨h6,ho6⟩
  rw [ho5] at ho6
  apply (gives_next t6 text k .NOTHING (by rw [ho6,List.length_append]; rfl)).bind
  rintro t7 _ ⟨rfl,h7,ho7⟩
  rw [ho6,List.append_assoc] at ho7
  apply (gives_tail t7 text k ret (t.offs.length+1+1)).bind
  rintro t8 _ ⟨h8,ho8⟩
  rw [ho7] at ho8
  have hret3 : t3.off ret = t.off ret := Sheet.Ahead.off ⟨_,ho3.symm⟩ hret
  have hret5 : t5.off ret = t.off ret := Sheet.Ahead.off ⟨_,ho5.symm⟩ hret
  have hret7 : t7.off ret = t.off ret := Sheet.Ahead.off ⟨_,ho7.symm⟩ hret
  have hback : t2.off t.offs.length = t1.code.length := Sheet.off_made ho2 0
  have hbr : t5.off (t.offs.length+1) = t4.code.length := Sheet.off_made ho5 1
  have hnothing : t7.off (t.offs.length+1+1) = t6.code.length := Sheet.off_made ho7 2
  refine .pure ⟨?_,⟨_,ho8.symm⟩,by rw [ho8,List.length_append]; rfl,rfl⟩
  rw [Parser.star,h1]
  simp only [bind,Except.bind,h2,parser_code,h3 _ _ hret2 hback,h4 _ _ hret3 hret3,h5,h6 _ _ hret5 hbr,h7,
    h8 _ _ hret7 hnothing]
  rfl

theorem gives_plus {ret : ℕ} (hret : ret < t.offs.length) :
    Gives (Added t ((t.parser text k).plus (t.off ret)) text) t (plus ret ⟨text,k,t.offs.length⟩) := by
  apply (gives_next t text k .BRANCH rfl).bind
  rintro t1 _ ⟨rfl,h1,ho1⟩
  apply (gives_tail t1 text k ret t.offs.length).bind
  rintro t2 _ ⟨h2,ho2⟩
  rw [ho1] at ho2
  apply (gives_next t2 text k .BACK (by rw [ho2,List.length_append]; rfl)).bind
  rintro t3 _ ⟨rfl,h3,ho3⟩
  rw [ho2,List.append_assoc] at ho3
  apply (gives_tail t3 text k (t.offs.length+1) ret).bind
  rintro t4 _ ⟨h4,ho4⟩
  rw [ho3] at ho4
  apply (gives_next t4 text k .BRANCH (by rw [ho4,List.length_append]; rfl)).bind
  rintro t5 _ ⟨rfl,h5,ho5⟩
  rw [ho4,List.append_assoc] at ho5
  apply (gives_tail t5 text k t.offs.length (t.offs.length+1+1)).bind
  rintro t6 _ ⟨h6,ho6⟩
  rw [ho5] at ho6
  apply (gives_next t6 text k .NOTHING (by rw [ho6,List.length_append]; rfl)).bind
  rintro t7 _ ⟨rfl,h7,ho7⟩
  rw [ho6,List.append_assoc] at ho7
  apply (gives_tail t7 text k ret (t.offs.length+1+1+1)).bind
  rintro t8 _ ⟨h8,ho8⟩
  rw [ho7] at ho8
  have hret1 : t1.off ret = t.off ret := Sheet.Ahead.off ⟨_,ho1.symm⟩ hret
  have hret3 : t3.off ret = t.off ret := Sheet.Ahead.off ⟨_,ho3.symm⟩ hret
  have hret7 : t7.off ret = t.off ret := Sheet.Ahead.off ⟨_,ho7.symm⟩ hret
  have hnext1 : t1.off t.offs.length = t.code.length := Sheet.off_made ho1 0
  have hback : t3.off (t.offs.length+1) = t2.code.length := Sheet.off_made ho3 1
  have hnext5 : t5.off t.offs.length = t.code.length := Sheet.off_made ho5 0
  have hbr : t5.off (t.offs.length+1+1) = t4.code.length := Sheet.off_made ho5 2
  have hnothing : t7.off (t.offs.length+1+1+1) = t6.code.length := Sheet.off_made ho7 3
  refine .pure ⟨?_,⟨_,ho8.symm⟩,by rw [ho8,List.length_append]; rfl,rfl⟩
  rw [Parser.plus,h1]
  simp only [bind,Except.bind,parser_code,h2 _ _ hret1 hnext1,h3,h4 _ _ hback hret3,h5,h6 _ _ hnext5 hbr,h7,
    h8 _ _ hret7 hnothing]
  rfl

theorem gives_quest {ret : ℕ} (hret : ret < t.offs.length) :
    Gives (Added t ((t.parser text k).quest (t.off ret)) text) t (quest ret ⟨text,k,t.offs.length⟩) := by
  apply (gives_insert t text k .BRANCH ret).bind
  rintro t1 _ ⟨h1,ho1⟩
  apply (gives_next t1 text k .BRANCH (by rw [ho1])).bind
  rintro t2 _ ⟨rfl,h2,ho2⟩
  rw [ho1] at ho2
  apply (gives_tail t2 text k ret t.offs.length).bind
  rintro t3 _ ⟨h3,ho3⟩
  rw [ho2] at ho3
  apply (gives_next t3 text k .NOTHING (by rw [ho3,List.length_append]; rfl)).bind
  rintro t4 _ ⟨rfl,h4,ho4⟩
  rw [ho3,List.append_assoc] at ho4
  apply (gives_tail t4 text k ret (t.offs.length+1)).bind
  rintro t5 _ ⟨h5,ho5⟩
  rw [ho4] at ho5
  apply (gives_opTail t5 text k ret (t.offs.length+1)).bind
  rintro t6 _ ⟨h6,ho6⟩
  rw [ho5] at ho6
  have hret2 : t2.off ret = t.off ret := Sheet.Ahead.off ⟨_,ho2.symm⟩ hret
  have hret4 : t4.off ret = t.off ret := Sheet.Ahead.off ⟨_,ho4.symm⟩ hret
  have hret5 : t5.off ret = t.off ret := Sheet.Ahead.off ⟨_,ho5.symm⟩ hret
  have hbr : t2.off t.offs.length = t1.code.length := Sheet.off_made ho2 0
  have hnext4 : t4.off (t.offs.length+1) = t3.code.length := Sheet.off_made ho4 1
  have hnext5 : t5.off (t.offs.length+1) = t3.code.length := Sheet.off_made ho5 1
  refine .pure ⟨?_,⟨_,ho6.symm⟩,by rw [ho6,List.length_append]; rfl,rfl⟩
  rw [Parser.quest,h1]
  simp only [bind,Except.bind,h2,parser_code,h3 _ _ hret2 hbr,h4,h5 _ _ hret4 hnext4,h6 _ _ hret5 hnext5]
  rfl

theorem gives_emitMult {ret : ℕ} (hret : ret < t.offs.length) (op : Byte) (simple isLazy : Bool) :
    Gives (Added t (Regx.emitMult op simple isLazy (t.off ret) (t.parser text k)) text) t
      (emitMult op simple isLazy ret ⟨text,k,t.offs.length⟩) := by
  have hinsert (op : Op) : Gives (Added t ((t.parser text k).insert op (t.off ret)) text) t
      (access (.insert op ret) >>= fun _ => pure ⟨text,k,t.offs.length⟩) := by
    apply (gives_insert t text k op ret).bind
    rintro t1 _ ⟨h1,ho1⟩
    refine .pure ⟨h1,⟨[],?_⟩,by rw [ho1],rfl⟩
    rw [List.append_nil,ho1]
  rw [emitMult,Regx.emitMult]
  by_cases hstar : op = ch '*'
  · rw [if_pos hstar,if_pos hstar]
    cases simple with
    | true => exact hinsert _
    | false => exact gives_star hret
  · rw [if_neg hstar,if_neg hstar]
    by_cases hplus : op = ch '+'
    · rw [if_pos hplus,if_pos hplus]
      cases simple with
      | true => exact hinsert _
      | false => exact gives_plus hret
    · rw [if_neg hplus,if_neg hplus]
      exact gives_quest hret

theorem gives_mult {ret : ℕ} (hret : ret < t.offs.length) (op : Byte) (flags : Flags) (left : Bytes) :
    Gives (Same t (Regx.parseMult op (t.off ret) flags (t.parser text k) left)) t
      (parseMult op ret flags ⟨text,k,t.offs.length⟩ left) := by
  rw [parseMult,Regx.parseMult]
  by_cases hwidth : flags.hasWidth = false ∧ op ≠ ch '?'
  · rw [if_pos hwidth,if_pos hwidth]
    exact .fail
  · rw [if_neg hwidth,if_neg hwidth]
    apply (gives_emitMult hret op _ _).bind
    rintro t1 sc ⟨h1,hahead,hnodes,-⟩
    by_cases hmult : ismult ((behindMult op flags.simple left).headD 0) = true
    · simp only [if_pos hmult]
      exact .fail
    · simp only [if_neg hmult]
      refine .pure ⟨?_,hahead,hret.trans_le hahead.le,hnodes⟩
      rw [h1]
      simp only [bind,Except.bind,hahead.off hret]
      rfl

theorem gives_close {ret : ℕ} (hret : ret < t.offs.length) (paren : Bool) (op : Op) (flags : Flags) :
    Gives (Same t (do
      let ps ← (t.parser text k).node op
      let left ← ending paren ps.parse
      pure (t.off ret,flags,{ ps.close (t.off ret) t.code.length with parse := left }))) t
      (close paren ret op flags ⟨text,k,t.offs.length⟩) := by
  apply (gives_next t text k op rfl).bind
  rintro t1 _ ⟨rfl,h1,ho1⟩
  have hret1 : t1.off ret = t.off ret := Sheet.Ahead.off ⟨_,ho1.symm⟩ hret
  have hender : t1.off t.offs.length = t.code.length := Sheet.off_made ho1 0
  apply (gives_access t1 (.tail ret t.offs.length)).bind
  rintro _ _ ⟨rfl,-⟩
  apply (gives_access _ (.hook ret t.offs.length)).bind
  rintro _ _ ⟨rfl,-⟩
  simp only
  cases hend : ending paren text with
  | error e => exact .fail
  | ok left =>
    refine .pure ⟨?_,⟨_,ho1.symm⟩,?_,?_⟩
    · rw [h1]
      have hparse : (t1.parser text k).parse = text := rfl
      simp only [bind,Except.bind,hparse,hend]
      have hclose : (t1.parser text k).close (t.off ret) t.code.length =
          ((t1.access (.tail ret t.offs.length)).access (.hook ret t.offs.length)).parser text k := by
        rw [← hret1,← hender]
        rfl
      rw [hclose,← hret1]
      rfl
    · change ret < t1.offs.length
      rw [ho1,List.length_append]
      omega
    · change t.offs.length+1 = t1.offs.length
      rw [ho1,List.length_append]
      rfl

/-! ### The recursion -/

def AtomGives (sensitive : Bool) (fuel : ℕ) : Prop := ∀ t text k,
  Gives (Same t (Regx.parseAtom sensitive fuel (t.parser text k))) t (parseAtom sensitive fuel ⟨text,k,t.offs.length⟩)

def PieceGives (sensitive : Bool) (fuel : ℕ) : Prop := ∀ t text k,
  Gives (Same t (Regx.parsePiece sensitive fuel (t.parser text k))) t (parsePiece sensitive fuel ⟨text,k,t.offs.length⟩)

def PiecesGive (sensitive : Bool) (fuel : ℕ) : Prop := ∀ t text k chain flagp,
  (∀ c, chain = some c → c < t.offs.length) →
  Gives (fun t' r => Regx.parsePieces sensitive fuel (chain.map t.off) flagp (t.parser text k) =
      .ok (r.1.map t'.off,r.2.1,t'.parser r.2.2.parse r.2.2.subx_count) ∧ t.Ahead t' ∧ r.2.2.nodes = t'.offs.length) t
    (parsePieces sensitive fuel chain flagp ⟨text,k,t.offs.length⟩)

def BranchGives (sensitive : Bool) (fuel : ℕ) : Prop := ∀ t text k,
  Gives (Same t (Regx.parseBranch sensitive fuel (t.parser text k))) t
    (parseBranch sensitive fuel ⟨text,k,t.offs.length⟩)

def AltsGive (sensitive : Bool) (fuel : ℕ) : Prop := ∀ t text k ret flagp, ret < t.offs.length →
  Gives (fun t' r => Regx.parseAlts sensitive fuel (t.off ret) flagp (t.parser text k) =
      .ok (r.1,t'.parser r.2.parse r.2.subx_count) ∧ t.Ahead t' ∧ r.2.nodes = t'.offs.length) t
    (parseAlts sensitive fuel ret flagp ⟨text,k,t.offs.length⟩)

def ListGives (sensitive : Bool) (fuel : ℕ) : Prop := ∀ t text k paren,
  Gives (Same t (Regx.parse sensitive fuel paren (t.parser text k))) t
    (parse sensitive fuel paren ⟨text,k,t.offs.length⟩)

theorem atomGives_succ (hlist : ListGives sensitive fuel) : AtomGives sensitive (fuel+1) := by
  intro t text k
  rw [parseAtom,Regx.parseAtom.eq_def]
  cases text with
  | nil => exact .fail
  | cons c left =>
    have hparse : (t.parser (c::left) k).parse = c::left := rfl
    simp only [hparse]
    by_cases h1 : c = ch '^'
    · rw [if_pos h1,if_pos h1]
      exact gives_leaf ..
    rw [if_neg h1,if_neg h1]
    by_cases h2 : c = ch '$'
    · rw [if_pos h2,if_pos h2]
      exact gives_leaf ..
    rw [if_neg h2,if_neg h2]
    by_cases h3 : c = ch '.'
    · rw [if_pos h3,if_pos h3]
      exact gives_leaf ..
    rw [if_neg h3,if_neg h3]
    by_cases h4 : c = ch '['
    · rw [if_pos h4,if_pos h4]
      exact gives_class ..
    rw [if_neg h4,if_neg h4]
    by_cases h5 : c = ch '('
    · rw [if_pos h5,if_pos h5]
      apply (hlist t left k true).bind
      rintro t1 ⟨ret,flags,sc⟩ ⟨h,hahead,hret,hnodes⟩
      refine .pure ⟨?_,hahead,hret,hnodes⟩
      have hps : ({ t.parser (c::left) k with parse := left } : Parser) = t.parser left k := rfl
      rw [hps,h]
      rfl
    rw [if_neg h5,if_neg h5]
    by_cases h6 : c = ch '|' ∨ c = ch '\n' ∨ c = ch ')'
    · rw [if_pos h6,if_pos h6]
      exact .fail
    rw [if_neg h6,if_neg h6]
    by_cases h7 : ismult c = true
    · rw [if_pos h7,if_pos h7]
      exact .fail
    rw [if_neg h7,if_neg h7]
    by_cases h8 : c = ch '\\'
    · rw [if_pos h8,if_pos h8]
      cases left with
      | nil => exact .fail
      | cons d rest =>
        simp only
        by_cases h9 : d = ch '<'
        · rw [if_pos h9,if_pos h9]
          exact gives_leaf ..
        rw [if_neg h9,if_neg h9]
        by_cases h10 : d = ch '>'
        · rw [if_pos h10,if_pos h10]
          exact gives_leaf ..
        rw [if_neg h10,if_neg h10]
        exact gives_exact ..
    · rw [if_neg h8,if_neg h8]
      exact gives_exact ..

theorem pieceGives_succ (hatom : AtomGives sensitive fuel) : PieceGives sensitive (fuel+1) := by
  intro t text k
  rw [parsePiece,Regx.parsePiece]
  apply (gives_access t (.grow 255)).bind
  rintro t' _ ⟨hsame,hfits⟩
  obtain rfl : t = t' := hsame.symm
  have hroom : ¬codeGrow < (t.parser text k).code.length+255 := not_lt.mpr hfits
  rw [if_neg hroom]
  apply (hatom t text k).bind
  rintro t1 ⟨ret,flags,⟨parse,k',_⟩⟩ ⟨h,hahead,hret,rfl⟩
  rw [h]
  cases parse with
  | nil => exact .pure ⟨rfl,hahead,hret,rfl⟩
  | cons op left =>
    simp only
    by_cases hop : ismult op = true
    · rw [if_pos hop]
      apply (gives_mult hret op flags left).mono
      rintro t2 r ⟨hr,hahead2,hr2,hnodes⟩
      refine ⟨?_,hahead.trans hahead2,hr2,hnodes⟩
      rw [← hr]
      exact if_pos hop
    · rw [if_neg hop]
      exact .pure ⟨if_neg hop,hahead,hret,rfl⟩

theorem piecesGive_succ (hpiece : PieceGives sensitive fuel) (hpieces : PiecesGive sensitive fuel) :
    PiecesGive sensitive (fuel+1) := by
  intro t text k chain flagp hchain
  rw [parsePieces,Regx.parsePieces.eq_def]
  cases text with
  | nil => exact .pure ⟨rfl,List.prefix_refl _,rfl⟩
  | cons c rest =>
    have hparse : (t.parser (c::rest) k).parse = c::rest := rfl
    simp only [hparse]
    by_cases hc : c = ch ')' ∨ c = ch '\n' ∨ c = ch '|'
    · rw [if_pos hc,if_pos hc]
      exact .pure ⟨rfl,List.prefix_refl _,rfl⟩
    rw [if_neg hc,if_neg hc]
    apply (hpiece t (c::rest) k).bind
    rintro t1 ⟨latest,flags,⟨parse,k',_⟩⟩ ⟨h,hahead,hret,rfl⟩
    rw [h]
    cases chain with
    | none =>
      apply (hpieces t1 parse k' (some latest) _ fun _ h => Option.some.inj h ▸ hret).mono
      rintro t2 r ⟨hr,hahead2,hnodes⟩
      exact ⟨hr,hahead.trans hahead2,hnodes⟩
    | some chain =>
      have hold : t1.off chain = t.off chain := hahead.off (hchain chain rfl)
      apply (gives_access t1 (.tail chain latest)).bind
      rintro _ _ ⟨rfl,-⟩
      apply (hpieces (t1.access (.tail chain latest)) parse k' (some latest) _
        fun _ h => Option.some.inj h ▸ hret).mono
      rintro t2 r ⟨hr,hahead2,hnodes⟩
      refine ⟨?_,hahead.trans hahead2,hnodes⟩
      simp only [bind,Except.bind,Option.map_some,← hold]
      exact hr

theorem branchGives_succ (hpieces : PiecesGive sensitive fuel) : BranchGives sensitive (fuel+1) := by
  intro t text k
  rw [parseBranch,Regx.parseBranch]
  apply (gives_next t text k .BRANCH rfl).bind
  rintro t1 _ ⟨rfl,h1,ho1⟩
  have hlen : t1.offs.length = t.offs.length+1 := by rw [ho1,List.length_append]; rfl
  have hret : t1.off t.offs.length = t.code.length := Sheet.off_made ho1 0
  rw [← hlen]
  apply (hpieces t1 text k none WORST (by rintro _ ⟨⟩)).bind
  rintro t2 ⟨chain,flags,⟨parse,k',_⟩⟩ ⟨h2,hahead,rfl⟩
  have hret2 : t2.off t.offs.length = t.code.length := (hahead.off (by omega)).trans hret
  have hle := hahead.le
  have hfront : t.Ahead t2 := Sheet.Ahead.trans ⟨_,ho1.symm⟩ hahead
  rw [h1]
  have hcode : (t.parser text k).code = t.code := rfl
  simp only [bind,Except.bind,hcode]
  rw [Option.map_none] at h2
  rw [h2]
  cases chain with
  | none =>
    apply (gives_next t2 parse k' .NOTHING rfl).bind
    rintro t3 _ ⟨rfl,h3,ho3⟩
    have hret3 : t3.off t.offs.length = t.code.length := (Sheet.Ahead.off ⟨_,ho3.symm⟩ (by omega)).trans hret2
    have hlen3 : t3.offs.length = t2.offs.length+1 := by rw [ho3,List.length_append]; rfl
    refine .pure ⟨?_,hfront.trans ⟨_,ho3.symm⟩,by dsimp only; omega,hlen3.symm⟩
    simp only [Option.map_none,if_true,h3,hret3]
    rfl
  | some c =>
    refine .pure ⟨?_,hfront,by dsimp only; omega,rfl⟩
    simp only [hret2]
    rfl

theorem altsGive_succ (hbranch : BranchGives sensitive fuel) (halts : AltsGive sensitive fuel) :
    AltsGive sensitive (fuel+1) := by
  intro t text k ret flagp hret
  rw [parseAlts,Regx.parseAlts.eq_def]
  cases text with
  | nil => exact .pure ⟨rfl,List.prefix_refl _,rfl⟩
  | cons c left =>
    have hparse : (t.parser (c::left) k).parse = c::left := rfl
    simp only [hparse]
    by_cases hc : c = ch '|' ∨ c = ch '\n'
    · rw [if_pos hc,if_pos hc]
      apply (hbranch t left k).bind
      rintro t1 ⟨br,flags,⟨parse,k',_⟩⟩ ⟨h,hahead,hbr,rfl⟩
      have hps : ({ t.parser (c::left) k with parse := left } : Parser) = t.parser left k := rfl
      have hold : t1.off ret = t.off ret := hahead.off hret
      rw [hps,h]
      apply (gives_access t1 (.tail ret br)).bind
      rintro _ _ ⟨rfl,-⟩
      apply (halts (t1.access (.tail ret br)) parse k' ret _ (hret.trans_le hahead.le)).mono
      rintro t2 r ⟨hr,hahead2,hnodes⟩
      refine ⟨?_,hahead.trans hahead2,hnodes⟩
      simp only [bind,Except.bind,← hold]
      exact hr
    · rw [if_neg hc,if_neg hc]
      exact .pure ⟨rfl,List.prefix_refl _,rfl⟩

/-- The node of a branch is the first of its code. -/
theorem parseBranch_ret {ps ps' : Parser} {br : ℕ} {flags : Flags}
    (h : Regx.parseBranch sensitive fuel ps = .ok (br,flags,ps')) : br = ps.code.length := by
  cases fuel with
  | zero =>
    rw [Regx.parseBranch] at h
    cases h
  | succ fuel =>
    rw [Regx.parseBranch] at h
    obtain ⟨ps1,-,h⟩ := ok_of_bind h
    obtain ⟨⟨chain,flags1,ps2⟩,-,h⟩ := ok_of_bind h
    simp only at h
    split_ifs at h with hchain
    · obtain ⟨ps3,-,h⟩ := ok_of_bind h
      cases h
      rfl
    · cases h
      rfl

theorem listGives_succ (hbranch : BranchGives sensitive fuel) (halts : AltsGive sensitive fuel) :
    ListGives sensitive (fuel+1) := by
  intro t text k paren
  rw [Regx.parse.eq_def]
  -- the rest behind the first branch
  have hrest {s : Sheet} {ret : ℕ} (op : Op) (flags : Flags) {sc : Scan} (hahead : t.Ahead s)
      (hret : ret < s.offs.length) (hoff : s.off ret = t.code.length) (hnodes : sc.nodes = s.offs.length)
      (hop : op = if paren then .CLOSE k else .END) {x : Regx.Parsed}
      (hx : x = (Regx.parseAlts sensitive fuel t.code.length ⟨flags.hasWidth,false,flags.spStart⟩
        (s.parser sc.parse sc.subx_count) >>= fun r => do
          let ps ← r.2.node (if paren then .CLOSE k else .END)
          let left ← ending paren ps.parse
          pure (t.code.length,r.1,{ ps.close t.code.length r.2.code.length with parse := left }))) :
      Gives (Same t x) s (parseAlts sensitive fuel ret ⟨flags.hasWidth,false,flags.spStart⟩ sc >>= fun r =>
        close paren ret op r.1 r.2) := by
    subst hop hx
    obtain ⟨parse,k',_⟩ := sc
    obtain rfl : _ = s.offs.length := hnodes
    apply (halts s parse k' ret _ hret).bind
    rintro t2 ⟨flags,⟨parse',k'',_⟩⟩ ⟨h,hahead2,rfl⟩
    rw [hoff] at h
    rw [h]
    have hold : t2.off ret = t.code.length := (hahead2.off hret).trans hoff
    apply (gives_close (hret.trans_le hahead2.le) paren _ flags).mono
    rintro t3 r ⟨hr,hahead3,hr3,hnodes⟩
    refine ⟨?_,(hahead.trans hahead2).trans hahead3,hr3,hnodes⟩
    rw [← hr,hold]
    rfl
  cases paren with
  | true =>
    rw [parse]
    have hk : (t.parser text k).subx_count = k := rfl
    simp only [hk,true_and]
    by_cases hmany : MAX_SUBX ≤ k
    · rw [if_pos hmany,if_pos hmany]
      exact .fail
    rw [if_neg hmany,if_neg hmany]
    apply (gives_next t text (k+1) (.OPEN k) rfl).bind
    rintro t1 _ ⟨rfl,h1,ho1⟩
    have hlen : t1.offs.length = t.offs.length+1 := by rw [ho1,List.length_append]; rfl
    have hret : t1.off t.offs.length = t.code.length := Sheet.off_made ho1 0
    rw [← hlen]
    apply (hbranch t1 text (k+1)).bind
    rintro t2 ⟨br,flags,sc⟩ ⟨h2,hahead,hbr,hnodes⟩
    have hle := hahead.le
    have hret2 : t2.off t.offs.length = t.code.length := (hahead.off (by omega)).trans hret
    have hfront : t.Ahead t2 := Sheet.Ahead.trans ⟨_,ho1.symm⟩ hahead
    apply (gives_access t2 (.tail t.offs.length br)).bind
    rintro _ _ ⟨rfl,-⟩
    apply hrest (.CLOSE k) flags (s := t2.access (.tail t.offs.length br)) hfront (by change _ < t2.offs.length; omega)
      hret2 hnodes rfl
    have hps : ({ t.parser text k with subx_count := k+1 } : Parser) = t.parser text (k+1) := rfl
    have hcode : (t.parser text k).code = t.code := rfl
    simp only [if_true,hps,h1]
    simp only [bind,Except.bind,h2,hcode,parser_tail hret2 rfl]
  | false =>
    rw [parse]
    apply (hbranch t text k).bind
    rintro t1 ⟨ret,flags,sc⟩ ⟨h1,hahead,hret,hnodes⟩
    have hoff : t1.off ret = t.code.length := parseBranch_ret h1
    apply hrest .END flags hahead hret hoff hnodes rfl
    have hcode : (t.parser text k).code = t.code := rfl
    simp only [Bool.false_eq_true,false_and,if_false,bind,Except.bind,pure,Except.pure,h1,hcode]

theorem gives_ok (sensitive : Bool) (fuel : ℕ) : ListGives sensitive fuel ∧ AltsGive sensitive fuel ∧
    BranchGives sensitive fuel ∧ PiecesGive sensitive fuel ∧ PieceGives sensitive fuel ∧
    AtomGives sensitive fuel := by
  induction fuel with
  | zero => exact ⟨fun _ _ _ _ => .fail,fun _ _ _ _ _ _ => .fail,fun _ _ _ => .fail,fun _ _ _ _ _ _ => .fail,
      fun _ _ _ => .fail,fun _ _ _ => .fail⟩
  | succ fuel ih =>
    obtain ⟨hlist,halts,hbranch,hpieces,hpiece,hatom⟩ := ih
    exact ⟨listGives_succ hbranch halts,altsGive_succ hbranch halts,branchGives_succ hpieces,
      piecesGive_succ hpiece hpieces,pieceGives_succ hatom,atomGives_succ hlist⟩

end Accesses
end Smx.Regx
