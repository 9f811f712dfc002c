import Smx.Regx.Patch
import Smx.Regx.Read

/-! What the parser writes is the program of the tree that it reads. -/
namespace Smx.Regx
variable {code : Bytes} {r : Rx} {p q e t v n : ℕ} {next opnd : Option ℕ} {op : Op} {ps ps' : Parser}

theorem codeGrow_lt : codeGrow < 65536 := by decide

/-- A node that has just been written. -/
theorem NodeAt.of_node (code : Bytes) (op : Op) (rest : Bytes) :
    NodeAt (code ++ (node op ++ rest)) code.length op none := by
  have hget (i : ℕ) : (code ++ (node op ++ rest))[code.length+i]? = (node op ++ rest)[i]? := by
    rw [List.getElem?_append_right (Nat.le_add_right _ _),Nat.add_sub_cancel_left]
  refine ⟨hget 0,?_,?_⟩
  · simp [node]
  · have hoff : offsetAt (code ++ (node op ++ rest)) code.length = 0 := by
      have h1 : (code ++ (node op ++ rest))[code.length+1]? = some 0 := hget 1
      have h2 : (code ++ (node op ++ rest))[code.length+2]? = some 0 := hget 2
      rw [offsetAt,List.getD_eq_getElem?_getD,List.getD_eq_getElem?_getD,h1,h2]
      rfl
    rw [if_pos hoff]

theorem LeafAt.of_leaf (code : Bytes) (l : Leaf) :
    LeafAt (code ++ (Regx.node l.op ++ l.operand)) code.length l none := by
  refine ⟨.of_node code l.op l.operand,?_,?_⟩
  · simp [Regx.node]
    omega
  · intro i _
    rw [Nat.add_assoc,List.getElem?_append_right (Nat.le_add_right _ _),Nat.add_sub_cancel_left,
      List.getElem?_append_right (by simp [Regx.node])]
    congr 1
    simp [Regx.node]

/-- The parser has written a tree at `p`, behind which its code ends. -/
structure Wrote (ps ps' : Parser) (r : Rx) (p : ℕ) : Prop where
  lay : Lay ps'.code r p none none ps'.code.length
  front : Same 0 p ps.code ps'.code
  small : ps'.code.length ≤ codeGrow

theorem Wrote.of_length {r : Rx} {n : ℕ} (hlen : ps'.code.length = n) (hlay : Lay ps'.code r p none none n)
    (hfront : Same 0 p ps.code ps'.code) (hn : n ≤ codeGrow) : Wrote ps ps' r p := by
  subst hlen
  exact ⟨hlay,hfront,hn⟩

theorem ok_emit {b : Bytes} (h : ps.emit b = .ok ps') :
    ps.code.length+b.length ≤ codeGrow ∧ ps' = { ps with code := ps.code ++ b } := by
  rw [Parser.emit] at h
  split_ifs at h with hlen
  exact ⟨hlen,(Except.ok.inj h).symm⟩

theorem ok_node (h : ps.node op = .ok ps') :
    ps.code.length+3 ≤ codeGrow ∧ ps' = { ps with code := ps.code ++ node op } := ok_emit h

theorem ok_insert (h : ps.insert op p = .ok ps') :
    ps.code.length+3 ≤ codeGrow ∧ ps' = { ps with code := parseInsert ps.code op p } := by
  rw [Parser.insert] at h
  split_ifs at h with hlen
  exact ⟨hlen,(Except.ok.inj h).symm⟩

theorem length_parseInsert (hp : p ≤ code.length) (op : Op) : (parseInsert code op p).length = code.length+3 := by
  simp [parseInsert,node]
  omega

/-- What is behind an inserted node has moved by the size of a node. -/
theorem moved_parseInsert (hp : p ≤ code.length) (op : Op) : Moved 3 p code.length code (parseInsert code op p) := by
  intro i hi _
  have hlen : (code.take p ++ node op).length = p+3 := by
    simp [node]
    omega
  rw [parseInsert,List.getElem?_append_right (by omega),hlen,List.getElem?_drop]
  congr 1
  omega

theorem same_parseInsert (hp : p ≤ code.length) (op : Op) : Same 0 p code (parseInsert code op p) := by
  intro i _ hi
  rw [parseInsert,List.append_assoc,List.getElem?_append_left (by rw [List.length_take]; omega),
    List.getElem?_take,Nat.add_zero,if_pos hi]

theorem NodeAt.of_insert (hp : p ≤ code.length) (op : Op) : NodeAt (parseInsert code op p) p op none := by
  have hlen : (code.take p).length = p := List.length_take_of_le hp
  have h := NodeAt.of_node (code.take p) op (code.drop p)
  rw [hlen,← List.append_assoc] at h
  exact h

/-- `ParseTail` on a node that leads nowhere yet. -/
theorem NodeAt.parseTail (h : NodeAt code p op none) (hop : decode op.byte ≠ .BACK) (hv : p < v)
    (hsmall : v < 65536) : NodeAt (Regx.parseTail code p v) p op (some v) ∧
      Within p (p+3) code (Regx.parseTail code p v) := by
  have hroom := h.room
  have hopAt : Regx.opAt code p ≠ .BACK := by rwa [h.opAt]
  rw [(Chain.refl p).parseTail (h.parseNext hop) (by omega) hopAt]
  exact ⟨h.patch hv hsmall,.setOffset code p _⟩

/-- `ParseTail` on a chain to a node that leads nowhere yet. -/
theorem NodeAt.parseTail_of_chain (hc : Chain code p q) (h : NodeAt code q op none)
    (hop : decode op.byte ≠ .BACK) (v : ℕ) : Regx.parseTail code p v = Regx.parseTail code q v := by
  have hroom := h.room
  have hopAt : Regx.opAt code q ≠ .BACK := by rwa [h.opAt]
  rw [(Chain.refl q).parseTail (h.parseNext hop) (by omega) hopAt,
    hc.parseTail (h.parseNext hop) (by omega) hopAt]

/-- `ParseTail` back to a node, on one that leads back. -/
theorem parseTail_back (hc : Chain code p t) (h : NodeAt code t .BACK none) (hq : q < t) (hsmall : t < 65536) :
    BackAt (parseTail code p q) t q ∧ Within t (t+3) code (parseTail code p q) := by
  have hroom := h.room
  have hop : opAt code t = .BACK := h.opAt
  have hend : parseNext code t = none := by
    have hoff : offsetAt code t = 0 := by
      by_contra hne
      have hnext := h.next
      rw [if_neg hne] at hnext
      cases hnext
    rw [parseNext,if_pos hoff]
  have htail : parseTail code p q = setOffset code t (t-q) := by
    rw [parseTail,hc.lastOf hend (by omega),if_pos hop]
  rw [htail]
  exact ⟨h.patch_back hq hsmall,.setOffset code t _⟩

/-- A node written behind the code. -/
theorem NodeAt.of_append (code : Bytes) (op : Op) : NodeAt (code ++ node op) code.length op none := by
  have h := NodeAt.of_node code op []
  rwa [List.append_nil] at h

theorem length_node (code : Bytes) (op : Op) : (code ++ node op).length = code.length+3 := List.length_append

/-- Bytes that are written behind the code leave a node alone. -/
theorem NodeAt.append (h : NodeAt code p op next) (b : Bytes) : NodeAt (code ++ b) p op next :=
  h.congr (Same.of_append p code b) le_rfl h.room

theorem Lay.append (h : Lay code r p next opnd e) (b : Bytes) : Lay (code ++ b) r p next opnd e :=
  h.congr ((Same.of_append p code b).mono le_rfl h.room.2)

theorem BackAt.append (h : BackAt code p q) (b : Bytes) : BackAt (code ++ b) p q :=
  h.congr (Same.of_append p code b) le_rfl h.room

theorem parseOpTail_branch (h : NodeAt code p .BRANCH next) (v : ℕ) :
    parseOpTail code p v = parseTail code (p+3) v := if_pos h.opAt

/-- The chain of a tree that leads to `q`. -/
theorem Lay.chain (h : Lay code r p (some q) opnd e) (he : e ≤ q) : Chain code p q := by
  obtain ⟨t,ht⟩ := h.tailAt
  have hroom := ht.room
  exact ht.chain.trans (.step ht.leads (by omega) (.refl q))

@[simp] theorem length_parseTail (code : Bytes) (p v : ℕ) : (parseTail code p v).length = code.length :=
  length_setOffset _ _ _

@[simp] theorem length_parseOpTail (code : Bytes) (p v : ℕ) :
    (parseOpTail code p v).length = code.length := by
  rw [parseOpTail]
  split_ifs
  · exact length_parseTail _ _ _
  · rfl

/-- The code of a body with a `*`. -/
theorem lay_star {a : Rx} {k : ℕ} (hl : Lay code a p none none code.length) (hk : k = code.length+3)
    (hsmall : k+9 ≤ codeGrow) {code' : Bytes}
    (hcode : code' = parseTail (parseTail (parseOpTail (parseOpTail
      (parseInsert code .BRANCH p ++ node .BACK) p k) p p ++ node .BRANCH) p (k+3) ++ node .NOTHING) p (k+6)) :
    Lay code' (.loop a) p none none (k+9) ∧ Same 0 p code code' := by
  have hroom : p+3 ≤ code.length := hl.room.1
  have hp : p ≤ code.length := by omega
  have hgrow := codeGrow_lt
  -- the node in front of the body
  have hbr := NodeAt.of_insert hp .BRANCH
  have hbody := hl.move (moved_parseInsert hp .BRANCH)
  have hfront := same_parseInsert hp .BRANCH
  have hlen := length_parseInsert hp .BRANCH
  generalize parseInsert code .BRANCH p = code1 at *
  rw [← hk] at hbody hlen
  -- `BACK`, to which the body leads
  have hback := NodeAt.of_append code1 .BACK
  have hbr2 := hbr.append (node .BACK)
  have hbody2 := hbody.append (node .BACK)
  have hfront2 := hfront.trans ((Same.of_append 0 code1 (node .BACK)).mono le_rfl (by omega))
  rw [hlen] at hback
  rw [parseOpTail_branch hbr2] at hcode
  obtain ⟨hbody3,hw3⟩ := hbody2.parseTail (v := k) le_rfl (by omega)
  have hback3 := hback.within hw3 (.inr le_rfl)
  have hbr3 := hbr2.within hw3 (.inl le_rfl)
  have hfront3 := hfront2.trans (hw3.same (.inl (by omega)))
  have hlen3 := hw3.length
  generalize parseTail (code1 ++ node .BACK) (p+3) k = code3 at *
  -- and which leads back
  rw [parseOpTail_branch hbr3] at hcode
  obtain ⟨hback4,hw4⟩ := parseTail_back (hbody3.chain le_rfl) hback3 (q := p) (by omega) (by omega)
  have hbody4 := hbody3.within hw4 (.inl le_rfl)
  have hbr4 := hbr3.within hw4 (.inl (by omega))
  have hfront4 := hfront3.trans (hw4.same (.inl (by omega)))
  have hlen4 := hw4.length.trans hlen3
  rw [length_node,hlen] at hlen4
  generalize parseTail code3 (p+3) p = code4 at *
  -- the other branch
  have hor := NodeAt.of_append code4 .BRANCH
  rw [hlen4] at hor
  obtain ⟨hbr6,hw6⟩ := (hbr4.append (node .BRANCH)).parseTail nofun (v := k+3) (by omega) (by omega)
  have hor6 := hor.within hw6 (.inr (by omega))
  have hback6 := (hback4.append (node .BRANCH)).within hw6 (.inr (by omega))
  have hbody6 := (hbody4.append (node .BRANCH)).within hw6 (.inr le_rfl)
  have hfront6 := (hfront4.trans ((Same.of_append 0 code4 (node .BRANCH)).mono le_rfl
    (by omega))).trans (hw6.same (.inl le_rfl))
  have hlen6 := hw6.length
  rw [length_node,hlen4] at hlen6
  generalize parseTail (code4 ++ node .BRANCH) p (k+3) = code6 at *
  have hnothing := NodeAt.of_append code6 .NOTHING
  rw [hlen6] at hnothing
  have hor7 := hor6.append (node .NOTHING)
  have hbr7 := hbr6.append (node .NOTHING)
  rw [hor7.parseTail_of_chain (hbr7.chain nofun (by omega)) nofun] at hcode
  obtain ⟨hor8,hw8⟩ := hor7.parseTail nofun (v := k+6) (by omega) (by omega)
  rw [← hcode] at hor8 hw8
  constructor
  · exact .loop (hbr7.within hw8 (.inl (by omega)))
      ((hbody6.append _).within hw8 (.inl (by omega)))
      ((hback6.append _).within hw8 (.inl (by omega))) hor8 (hnothing.within hw8 (.inr (by omega)))
  · exact (hfront6.trans ((Same.of_append 0 code6 (node .NOTHING)).mono le_rfl
      (by omega))).trans (hw8.same (.inl (by omega)))

theorem wrote_star {a : Rx} (hl : Lay ps.code a p none none ps.code.length) (h : ps.star p = .ok ps') :
    Wrote ps ps' (.loop a) p ∧ ps'.parse = ps.parse ∧ ps'.subx_count = ps.subx_count := by
  have hp : p ≤ ps.code.length := by
    have hroom := hl.room
    omega
  obtain ⟨ps1,h1,h⟩ := ok_of_bind h
  obtain ⟨-,rfl⟩ := ok_insert h1
  obtain ⟨ps2,h2,h⟩ := ok_of_bind h
  obtain ⟨-,rfl⟩ := ok_node h2
  obtain ⟨ps5,h5,h⟩ := ok_of_bind h
  obtain ⟨-,rfl⟩ := ok_node h5
  obtain ⟨ps7,h7,h⟩ := ok_of_bind h
  obtain ⟨hsmall,rfl⟩ := ok_node h7
  obtain rfl := Except.ok.inj h
  refine ⟨?_,by simp only [Parser.opTail,Parser.tail],by simp only [Parser.opTail,Parser.tail]⟩
  obtain ⟨k,hk⟩ : ∃ k, k = ps.code.length+3 := ⟨_,rfl⟩
  simp only [Parser.opTail,Parser.tail,length_parseTail,length_parseOpTail,length_node,
    length_parseInsert hp,← hk,Nat.reduceAdd,Nat.add_assoc k] at hsmall ⊢
  generalize hcode : parseTail _ p (k+6) = code'
  obtain ⟨hlay,hfront⟩ := lay_star hl hk (by omega) hcode.symm
  have hlen : code'.length = k+9 := by
    rw [← hcode]
    simp only [length_parseTail,length_parseOpTail,length_node,length_parseInsert hp]
    omega
  exact .of_length hlen hlay hfront (by omega)

/-- The code of a body with a `+`. -/
theorem lay_plus {a : Rx} {b : ℕ} (hl : Lay code a p none none code.length) (hb : b = code.length)
    (hsmall : b+12 ≤ codeGrow) {code' : Bytes}
    (hcode : code' = parseTail (parseTail (parseTail (parseTail (code ++ node .BRANCH) p b ++ node .BACK)
      (b+3) p ++ node .BRANCH) b (b+6) ++ node .NOTHING) p (b+9)) :
    Lay code' (.loop1 a) p none none (b+12) ∧ Same 0 p code code' := by
  have hroom : p+3 ≤ code.length := hl.room.1
  have hgrow := codeGrow_lt
  -- the branch behind the body
  have hbr := NodeAt.of_append code .BRANCH
  have hbody := hl.append (node .BRANCH)
  have hfront := (Same.of_append 0 code (node .BRANCH)).mono le_rfl (show p ≤ code.length by omega)
  rw [← hb] at hbr hbody
  obtain ⟨hbody2,hw2⟩ := hbody.parseTail (v := b) le_rfl (by omega)
  have hbr2 := hbr.within hw2 (.inr le_rfl)
  have hfront2 := hfront.trans (hw2.same (.inl le_rfl))
  have hlen2 := hw2.length
  rw [length_node,← hb] at hlen2
  generalize parseTail (code ++ node .BRANCH) p b = code2 at *
  -- `BACK`
  have hback := NodeAt.of_append code2 .BACK
  rw [hlen2] at hback
  obtain ⟨hback4,hw4⟩ := parseTail_back (.refl _) hback (q := p) (by omega) (by omega)
  have hbody4 := (hbody2.append (node .BACK)).within hw4 (.inl (by omega))
  have hbr4 := (hbr2.append (node .BACK)).within hw4 (.inl le_rfl)
  have hfront4 := (hfront2.trans ((Same.of_append 0 code2 (node .BACK)).mono le_rfl
    (by omega))).trans (hw4.same (.inl (by omega)))
  have hlen4 := hw4.length
  rw [length_node,hlen2] at hlen4
  generalize parseTail (code2 ++ node .BACK) (b+3) p = code4 at *
  -- the other branch
  have hor := NodeAt.of_append code4 .BRANCH
  rw [hlen4] at hor
  obtain ⟨hbr6,hw6⟩ := (hbr4.append (node .BRANCH)).parseTail nofun (v := b+6) (by omega) (by omega)
  have hor6 := hor.within hw6 (.inr (by omega))
  have hback6 := (hback4.append (node .BRANCH)).within hw6 (.inr (by omega))
  have hbody6 := (hbody4.append (node .BRANCH)).within hw6 (.inl le_rfl)
  have hfront6 := (hfront4.trans ((Same.of_append 0 code4 (node .BRANCH)).mono le_rfl
    (by omega))).trans (hw6.same (.inl (by omega)))
  have hlen6 := hw6.length
  rw [length_node,hlen4] at hlen6
  generalize parseTail (code4 ++ node .BRANCH) b (b+6) = code6 at *
  have hnothing := NodeAt.of_append code6 .NOTHING
  rw [hlen6] at hnothing
  have hor7 := hor6.append (node .NOTHING)
  have hbr7 := hbr6.append (node .NOTHING)
  have hbody7 := hbody6.append (node .NOTHING)
  rw [hor7.parseTail_of_chain ((hbody7.chain le_rfl).trans (hbr7.chain nofun (by omega))) nofun] at hcode
  obtain ⟨hor8,hw8⟩ := hor7.parseTail nofun (v := b+9) (by omega) (by omega)
  rw [← hcode] at hor8 hw8
  constructor
  · exact .loop1 (hbody7.within hw8 (.inl (by omega))) (hbr7.within hw8 (.inl (by omega)))
      ((hback6.append _).within hw8 (.inl (by omega))) hor8 (hnothing.within hw8 (.inr (by omega)))
  · exact (hfront6.trans ((Same.of_append 0 code6 (node .NOTHING)).mono le_rfl
      (by omega))).trans (hw8.same (.inl (by omega)))

theorem wrote_plus {a : Rx} (hl : Lay ps.code a p none none ps.code.length) (h : ps.plus p = .ok ps') :
    Wrote ps ps' (.loop1 a) p ∧ ps'.parse = ps.parse ∧ ps'.subx_count = ps.subx_count := by
  obtain ⟨ps1,h1,h⟩ := ok_of_bind h
  obtain ⟨-,rfl⟩ := ok_node h1
  obtain ⟨ps3,h3,h⟩ := ok_of_bind h
  obtain ⟨-,rfl⟩ := ok_node h3
  obtain ⟨ps5,h5,h⟩ := ok_of_bind h
  obtain ⟨-,rfl⟩ := ok_node h5
  obtain ⟨ps7,h7,h⟩ := ok_of_bind h
  obtain ⟨hsmall,rfl⟩ := ok_node h7
  obtain rfl := Except.ok.inj h
  refine ⟨?_,by simp only [Parser.tail],by simp only [Parser.tail]⟩
  obtain ⟨b,hb⟩ : ∃ b, b = ps.code.length := ⟨_,rfl⟩
  simp only [Parser.tail,length_parseTail,length_node,← hb,Nat.reduceAdd,Nat.add_assoc b] at hsmall ⊢
  generalize hcode : parseTail _ p (b+9) = code'
  obtain ⟨hlay,hfront⟩ := lay_plus hl hb (by omega) hcode.symm
  have hlen : code'.length = b+12 := by
    rw [← hcode]
    simp only [length_parseTail,length_node]
    omega
  exact .of_length hlen hlay hfront (by omega)

/-- The code of a body with a `?`. -/
theorem lay_quest {a : Rx} {k : ℕ} (hl : Lay code a p none none code.length) (hk : k = code.length+3)
    (hsmall : k+6 ≤ codeGrow) {code' : Bytes}
    (hcode : code' = parseOpTail (parseTail (parseTail (parseInsert code .BRANCH p ++ node .BRANCH) p k ++
      node .NOTHING) p (k+3)) p (k+3)) :
    Lay code' (.opt a) p none none (k+6) ∧ Same 0 p code code' := by
  have hroom : p+3 ≤ code.length := hl.room.1
  have hp : p ≤ code.length := by omega
  have hgrow := codeGrow_lt
  -- the node in front of the body
  have hbr := NodeAt.of_insert hp .BRANCH
  have hbody := hl.move (moved_parseInsert hp .BRANCH)
  have hfront := same_parseInsert hp .BRANCH
  have hlen := length_parseInsert hp .BRANCH
  generalize parseInsert code .BRANCH p = code1 at *
  rw [← hk] at hbody hlen
  -- the other branch
  have hor := NodeAt.of_append code1 .BRANCH
  rw [hlen] at hor
  obtain ⟨hbr2,hw2⟩ := (hbr.append (node .BRANCH)).parseTail nofun (v := k) (by omega) (by omega)
  have hor2 := hor.within hw2 (.inr (by omega))
  have hbody2 := (hbody.append (node .BRANCH)).within hw2 (.inr le_rfl)
  have hfront2 := (hfront.trans ((Same.of_append 0 code1 (node .BRANCH)).mono le_rfl
    (by omega))).trans (hw2.same (.inl le_rfl))
  have hlen2 := hw2.length
  rw [length_node,hlen] at hlen2
  generalize parseTail (code1 ++ node .BRANCH) p k = code2 at *
  -- `NOTHING`, to which it leads
  have hnothing := NodeAt.of_append code2 .NOTHING
  rw [hlen2] at hnothing
  have hor3 := hor2.append (node .NOTHING)
  have hbr3 := hbr2.append (node .NOTHING)
  rw [hor3.parseTail_of_chain (hbr3.chain nofun (by omega)) nofun] at hcode
  obtain ⟨hor4,hw4⟩ := hor3.parseTail nofun (v := k+3) (by omega) (by omega)
  have hbr4 := hbr3.within hw4 (.inl (by omega))
  have hnothing4 := hnothing.within hw4 (.inr le_rfl)
  have hbody4 := (hbody2.append (node .NOTHING)).within hw4 (.inl le_rfl)
  have hfront4 := (hfront2.trans ((Same.of_append 0 code2 (node .NOTHING)).mono le_rfl
    (by omega))).trans (hw4.same (.inl (by omega)))
  generalize parseTail (code2 ++ node .NOTHING) k (k+3) = code4 at *
  -- and to which the body leads as well
  rw [parseOpTail_branch hbr4] at hcode
  obtain ⟨hbody5,hw5⟩ := hbody4.parseTail (v := k+3) (by omega) (by omega)
  rw [← hcode] at hbody5 hw5
  constructor
  · exact .opt (hbr4.within hw5 (.inl le_rfl)) hbody5 (hor4.within hw5 (.inr le_rfl))
      (hnothing4.within hw5 (.inr (by omega)))
  · exact hfront4.trans (hw5.same (.inl (by omega)))

theorem wrote_quest {a : Rx} (hl : Lay ps.code a p none none ps.code.length) (h : ps.quest p = .ok ps') :
    Wrote ps ps' (.opt a) p ∧ ps'.parse = ps.parse ∧ ps'.subx_count = ps.subx_count := by
  have hp : p ≤ ps.code.length := by
    have hroom := hl.room
    omega
  obtain ⟨ps1,h1,h⟩ := ok_of_bind h
  obtain ⟨-,rfl⟩ := ok_insert h1
  obtain ⟨ps2,h2,h⟩ := ok_of_bind h
  obtain ⟨-,rfl⟩ := ok_node h2
  obtain ⟨ps4,h4,h⟩ := ok_of_bind h
  obtain ⟨hsmall,rfl⟩ := ok_node h4
  obtain rfl := Except.ok.inj h
  refine ⟨?_,by simp only [Parser.opTail,Parser.tail],by simp only [Parser.opTail,Parser.tail]⟩
  obtain ⟨k,hk⟩ : ∃ k, k = ps.code.length+3 := ⟨_,rfl⟩
  simp only [Parser.opTail,Parser.tail,length_parseTail,length_node,length_parseInsert hp,← hk,
    Nat.reduceAdd,Nat.add_assoc k] at hsmall ⊢
  generalize hcode : parseOpTail _ p (k+3) = code'
  obtain ⟨hlay,hfront⟩ := lay_quest hl hk (by omega) hcode.symm
  have hlen : code'.length = k+6 := by
    rw [← hcode]
    simp only [length_parseOpTail,length_parseTail,length_node,length_parseInsert hp]
    omega
  exact .of_length hlen hlay hfront (by omega)

/-- A simple operand with a node in front. -/
theorem wrote_rep {l : Leaf} (plus isLazy : Bool) (hl : Lay ps.code (.leaf l) p none none ps.code.length)
    (h : ps.insert (if plus then if isLazy then .PLUSX else .PLUS else if isLazy then .STARX else .STAR) p =
      .ok ps') :
    Wrote ps ps' (.rep plus isLazy l) p ∧ ps'.parse = ps.parse ∧ ps'.subx_count = ps.subx_count := by
  have hp : p ≤ ps.code.length := by
    have hroom := hl.room
    omega
  obtain ⟨hsmall,rfl⟩ := ok_insert h
  refine ⟨⟨?_,same_parseInsert hp _,?_⟩,rfl,rfl⟩
  · simp only [length_parseInsert hp]
    exact .rep (.of_insert hp _) (hl.move (moved_parseInsert hp _))
  · simp only [length_parseInsert hp]
    exact hsmall

theorem wrote_mult {op : Byte} {simple isLazy : Bool} (hl : Lay ps.code r p none none ps.code.length)
    (hsimple : simple = true → ∃ l, r = .leaf l) (h : emitMult op simple isLazy p ps = .ok ps') :
    Wrote ps ps' (multTree op simple isLazy r) p ∧ ps'.parse = ps.parse ∧ ps'.subx_count = ps.subx_count := by
  cases simple with
  | true =>
    obtain ⟨l,rfl⟩ := hsimple rfl
    by_cases hstar : op = ch '*'
    · rw [emitMult,if_pos hstar,if_pos rfl] at h
      rw [multTree,if_pos hstar]
      exact wrote_rep false isLazy hl h
    · by_cases hplus : op = ch '+'
      · rw [emitMult,if_neg hstar,if_pos hplus,if_pos rfl] at h
        rw [multTree,if_neg hstar,if_pos hplus]
        exact wrote_rep true isLazy hl h
      · rw [emitMult,if_neg hstar,if_neg hplus] at h
        rw [multTree,if_neg hstar,if_neg hplus]
        exact wrote_quest hl h
  | false =>
    by_cases hstar : op = ch '*'
    · rw [emitMult,if_pos hstar,if_neg Bool.false_ne_true] at h
      rw [multTree,if_pos hstar]
      exact wrote_star hl h
    · by_cases hplus : op = ch '+'
      · rw [emitMult,if_neg hstar,if_pos hplus,if_neg Bool.false_ne_true] at h
        rw [multTree,if_neg hstar,if_pos hplus]
        exact wrote_plus hl h
      · rw [emitMult,if_neg hstar,if_neg hplus] at h
        rw [multTree,if_neg hstar,if_neg hplus]
        exact wrote_quest hl h

end Smx.Regx
