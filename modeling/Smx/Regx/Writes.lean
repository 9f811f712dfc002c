import Smx.Regx.Emit
import Smx.Regx.ReadMeans

/-! What the functions of the parser write is the program of the tree that they read. -/
namespace Smx.Regx
variable {sensitive : Bool} {fuel : ℕ} {r : Rx} {p : ℕ} {flags : Flags} {ps ps' : Parser}

def AtomWrites (sensitive : Bool) (fuel : ℕ) : Prop := ∀ ps ret flags ps', ps.code.length ≤ codeGrow →
  1 ≤ ps.subx_count → 0 ∉ ps.parse → parseAtom sensitive fuel ps = .ok (ret,flags,ps') →
  ∃ r, readAtom sensitive fuel ps.parse ps.subx_count = .ok (r,flags,ps'.parse,ps'.subx_count) ∧
    ret = ps.code.length ∧ Wrote ps ps' r ret

def PieceWrites (sensitive : Bool) (fuel : ℕ) : Prop := ∀ ps ret flags ps', ps.code.length ≤ codeGrow →
  1 ≤ ps.subx_count → 0 ∉ ps.parse → parsePiece sensitive fuel ps = .ok (ret,flags,ps') →
  ∃ r, readPiece sensitive fuel ps.parse ps.subx_count = .ok (r,flags,ps'.parse,ps'.subx_count) ∧
    ret = ps.code.length ∧ Wrote ps ps' r ret

/-- The pieces behind one at `c`. -/
def PiecesWrites (sensitive : Bool) (fuel : ℕ) : Prop := ∀ a c flagp ps chain flags ps',
  ps.code.length ≤ codeGrow → 1 ≤ ps.subx_count → 0 ∉ ps.parse → a.Ok → a.isAlt = false →
  Lay ps.code a c none none ps.code.length →
  parsePieces sensitive fuel (some c) flagp ps = .ok (chain,flags,ps') →
  ∃ r, readPieces sensitive fuel (some a) flagp ps.parse ps.subx_count =
      .ok (r,flags,ps'.parse,ps'.subx_count) ∧ chain ≠ none ∧ Wrote ps ps' r c

def BranchWrites (sensitive : Bool) (fuel : ℕ) : Prop := ∀ ps ret flags ps', ps.code.length ≤ codeGrow →
  1 ≤ ps.subx_count → 0 ∉ ps.parse → parseBranch sensitive fuel ps = .ok (ret,flags,ps') →
  ∃ r, readBranch sensitive fuel ps.parse ps.subx_count = .ok (r,flags,ps'.parse,ps'.subx_count) ∧
    ret = ps.code.length ∧ Wrote ps ps' (.last r) ret

/-- The alternatives from the one at `c`, to which a chain leads from `ret`. -/
def AltsWrites (sensitive : Bool) (fuel : ℕ) : Prop := ∀ ret c b flagp ps flags ps',
  ps.code.length ≤ codeGrow → 1 ≤ ps.subx_count → 0 ∉ ps.parse → Chain ps.code ret c →
  Lay ps.code (.last b) c none none ps.code.length →
  parseAlts sensitive fuel ret flagp ps = .ok (flags,ps') →
  ∃ a, readAlts sensitive fuel b flagp ps.parse ps.subx_count = .ok (a,flags,ps'.parse,ps'.subx_count) ∧
    Wrote ps ps' a c

/-- The main body ends with a node `END`, and a list in parentheses is a group. -/
def ListWrites (sensitive : Bool) (fuel : ℕ) : Prop := ∀ paren ps ret flags ps', ps.code.length ≤ codeGrow →
  1 ≤ ps.subx_count → 0 ∉ ps.parse → parse sensitive fuel paren ps = .ok (ret,flags,ps') →
  ∃ a, read sensitive fuel paren ps.parse ps.subx_count = .ok (a,flags,ps'.parse,ps'.subx_count) ∧
    ret = ps.code.length ∧
    if paren then Wrote ps ps' (.group ps.subx_count a) ret
    else ∃ e, Lay ps'.code a ret (some e) (some e) e ∧ NodeAt ps'.code e .END none

/-- A node and its operand. -/
theorem wrote_operand {l : Leaf} {ps1 : Parser} (h1 : ps.node l.op = .ok ps1)
    (h2 : ps1.emit l.operand = .ok ps') : Wrote ps ps' (.leaf l) ps.code.length ∧
      ps'.subx_count = ps.subx_count := by
  obtain ⟨-,rfl⟩ := ok_node h1
  obtain ⟨hsmall,rfl⟩ := ok_emit h2
  have hl := LeafAt.of_leaf ps.code l
  have hlay : Lay _ (.leaf l) _ none none _ := .leaf hl
  have hlen : (ps.code ++ node l.op ++ l.operand).length = ps.code.length+3+l.operand.length := by
    rw [List.length_append,length_node]
  refine ⟨⟨?_,?_,?_⟩,rfl⟩
  · simp only [hlen]
    rw [List.append_assoc]
    exact hlay
  · simp only [List.append_assoc]
    exact Same.of_append 0 _ _
  · simp only [hlen]
    rw [length_node] at hsmall
    exact hsmall

theorem wrote_node {l : Leaf} (hopnd : l.operand = []) (h : ps.node l.op = .ok ps') :
    Wrote ps ps' (.leaf l) ps.code.length ∧ ps'.subx_count = ps.subx_count := by
  apply wrote_operand h
  obtain ⟨hsmall,rfl⟩ := ok_node h
  rw [hopnd,Parser.emit,List.append_nil,if_pos (by rw [List.length_nil,length_node]; exact hsmall)]

/-- A node that is read as it is written. -/
theorem writes_leaf (l : Leaf) (hopnd : l.operand = []) {flags' : Flags} {text : Bytes}
    (h : parseLeaf ps l.op flags text = .ok (p,flags',ps')) :
    ∃ r, (pure (.leaf l,flags,text,ps.subx_count) : ReadTree) = .ok (r,flags',ps'.parse,ps'.subx_count) ∧
      p = ps.code.length ∧ Wrote ps ps' r p := by
  obtain ⟨ps1,h1,h⟩ := ok_of_bind h
  cases h
  obtain ⟨hw,hcount⟩ := wrote_node hopnd h1
  refine ⟨_,?_,rfl,⟨hw.lay,hw.front,hw.small⟩⟩
  simp only [hcount]
  rfl

theorem writes_exact {text : Bytes} {flags' : Flags} (h : parseExact ps text = .ok (p,flags',ps')) :
    ∃ r, (let (cs,left,one) := exactLoop none text
      pure (.leaf (.exactly cs),⟨true,one,false⟩,left,ps.subx_count) : ReadTree) =
        .ok (r,flags',ps'.parse,ps'.subx_count) ∧ p = ps.code.length ∧ Wrote ps ps' r p := by
  rw [parseExact] at h
  obtain ⟨ps1,h1,h⟩ := ok_of_bind h
  obtain ⟨ps2,h2,h⟩ := ok_of_bind h
  cases h
  obtain ⟨hw,hcount⟩ := wrote_operand (l := .exactly (exactLoop none text).1) h1 h2
  refine ⟨_,?_,rfl,⟨hw.lay,hw.front,hw.small⟩⟩
  simp only [hcount]
  rfl

theorem wrote_class {neg : Bool} {cs : Bytes} {ps1 : Parser}
    (h1 : ps.node (if neg then .ANYBUT else .ANYOF) = .ok ps1) (h2 : ps1.emit (cs ++ [0]) = .ok ps') :
    Wrote ps ps' (.leaf (if neg then .anybut cs else .anyof cs)) ps.code.length ∧
      ps'.subx_count = ps.subx_count := by
  cases neg with
  | true => exact wrote_operand (l := .anybut cs) h1 h2
  | false => exact wrote_operand (l := .anyof cs) h1 h2

theorem atomWrites_succ (hlist : ListWrites sensitive fuel) : AtomWrites sensitive (fuel+1) := by
  intro ps ret flags ps' hlen hn h0 h
  rw [parseAtom.eq_def] at h
  rw [readAtom.eq_def]
  obtain ⟨code,text,n⟩ := ps
  cases text with
  | nil => cases h
  | cons c t =>
    have ht : 0 ∉ t := fun h => h0 (List.mem_cons_of_mem _ h)
    simp only at h ⊢
    by_cases hbol : c = ch '^'
    · rw [if_pos hbol] at h ⊢
      exact writes_leaf .bol rfl h
    rw [if_neg hbol] at h ⊢
    by_cases heol : c = ch '$'
    · rw [if_pos heol] at h ⊢
      exact writes_leaf .eol rfl h
    rw [if_neg heol] at h ⊢
    by_cases hany : c = ch '.'
    · rw [if_pos hany] at h ⊢
      exact writes_leaf .any rfl h
    rw [if_neg hany] at h ⊢
    by_cases hcls : c = ch '['
    · rw [if_pos hcls] at h ⊢
      obtain ⟨⟨neg,cs,left⟩,h1,h⟩ := ok_of_bind h
      obtain ⟨ps1,h2,h⟩ := ok_of_bind h
      obtain ⟨ps2,h3,h⟩ := ok_of_bind h
      cases h
      obtain ⟨hw,hcount⟩ := wrote_class h2 h3
      rw [h1]
      refine ⟨_,?_,rfl,⟨hw.lay,hw.front,hw.small⟩⟩
      simp only [hcount]
      rfl
    rw [if_neg hcls] at h ⊢
    by_cases hpar : c = ch '('
    · rw [if_pos hpar] at h ⊢
      obtain ⟨⟨ret1,flags1,ps1⟩,h1,h⟩ := ok_of_bind h
      cases h
      obtain ⟨a,hread,hret,hw⟩ := hlist _ _ _ _ _ (by exact hlen) (by exact hn) (by exact ht) h1
      rw [if_pos rfl] at hw
      rw [hread]
      exact ⟨_,rfl,hret,⟨hw.lay,hw.front,hw.small⟩⟩
    rw [if_neg hpar] at h ⊢
    by_cases hend : c = ch '|' ∨ c = ch '\n' ∨ c = ch ')'
    · rw [if_pos hend] at h
      cases h
    rw [if_neg hend] at h ⊢
    by_cases hmult : ismult c = true
    · rw [if_pos hmult] at h
      cases h
    rw [if_neg hmult] at h ⊢
    by_cases hquote : c = ch '\\'
    · rw [if_pos hquote] at h ⊢
      cases t with
      | nil => cases h
      | cons d rest =>
        simp only at h ⊢
        by_cases hlt : d = ch '<'
        · rw [if_pos hlt] at h ⊢
          exact writes_leaf .worda rfl h
        rw [if_neg hlt] at h ⊢
        by_cases hgt : d = ch '>'
        · rw [if_pos hgt] at h ⊢
          exact writes_leaf .wordz rfl h
        rw [if_neg hgt] at h ⊢
        exact writes_exact h
    · rw [if_neg hquote] at h ⊢
      exact writes_exact h

theorem writes_mult {op : Byte} {flags' : Flags} {t : Bytes} {ret : ℕ}
    (hl : Lay ps.code r p none none ps.code.length) (hsimple : flags.simple = true → ∃ l, r = .leaf l)
    (h : parseMult op p flags ps t = .ok (ret,flags',ps')) :
    ∃ r', readMult op r flags t ps.subx_count = .ok (r',flags',ps'.parse,ps'.subx_count) ∧ ret = p ∧
      Wrote ps ps' r' p := by
  rw [parseMult] at h
  have hwidth : ¬(flags.hasWidth = false ∧ op ≠ ch '?') := by
    intro hf
    rw [if_pos hf] at h
    cases h
  rw [if_neg hwidth] at h
  obtain ⟨ps1,h1,h⟩ := ok_of_bind h
  have hmult : ¬ismult ((behindMult op flags.simple t).headD 0) = true := by
    intro hf
    rw [if_pos hf] at h
    cases h
  rw [if_neg hmult] at h
  cases h
  obtain ⟨hw,-,hcount⟩ := wrote_mult hl hsimple h1
  refine ⟨_,?_,rfl,⟨hw.lay,hw.front,hw.small⟩⟩
  rw [readMult,if_neg hwidth,if_neg hmult]
  simp only [hcount]
  rfl

theorem pieceWrites_succ (hatom : AtomWrites sensitive fuel) : PieceWrites sensitive (fuel+1) := by
  intro ps ret flags ps' hlen hn h0 h
  rw [parsePiece.eq_def] at h
  rw [readPiece.eq_def]
  simp only at h ⊢
  have hmoved : ¬codeGrow < ps.code.length+255 := by
    intro hf
    rw [if_pos hf] at h
    cases h
  rw [if_neg hmoved] at h
  obtain ⟨⟨ret1,flags1,ps1⟩,h1,h⟩ := ok_of_bind h
  obtain ⟨r,hread,rfl,hw⟩ := hatom _ _ _ _ hlen hn h0 h1
  have hfits := (reads_ok sensitive fuel).2.2.2.2.2 _ _ _ _ _ _ h0 hn hread
  rw [hread]
  obtain ⟨code1,text1,n1⟩ := ps1
  cases text1 with
  | nil =>
    cases h
    exact ⟨r,rfl,rfl,hw⟩
  | cons op t =>
    simp only at h
    by_cases hop : ismult op = true
    · rw [if_pos hop] at h
      obtain ⟨r',hread',rfl,hw'⟩ := writes_mult hw.lay (fun hs => (hfits.simple hs).imp fun _ h => h.1) h
      exact ⟨r',(if_pos hop).trans hread',rfl,⟨hw'.lay,hw.front.trans hw'.front,hw'.small⟩⟩
    · rw [if_neg hop] at h
      cases h
      exact ⟨r,if_neg hop,rfl,hw⟩

/-- A tree, and one written behind it to which it is led. -/
theorem Lay.lead {a : Rx} {c p0 : ℕ} (h : Lay ps.code a c none none ps.code.length)
    (hw : Wrote ps ps' r ps.code.length) (hc : Chain ps.code p0 c) :
    Lay (ps'.tail p0 ps.code.length).code a c (some ps.code.length) none ps.code.length ∧
      Lay (ps'.tail p0 ps.code.length).code r ps.code.length none none ps'.code.length ∧
      Within c ps.code.length ps'.code (ps'.tail p0 ps.code.length).code := by
  have hroom := h.room
  have hroom' := hw.lay.room
  have hsmall := hw.small
  have hgrow := codeGrow_lt
  have hmid := h.congr (hw.front.mono (Nat.zero_le c) le_rfl)
  have hchain := hc.congr (hw.front.mono (Nat.zero_le p0) (by omega))
  obtain ⟨hlead,hin⟩ := hmid.parseTail le_rfl (show ps.code.length < 65536 by omega)
  rw [Parser.tail,hmid.parseTail_of_chain hchain]
  exact ⟨hlead,hw.lay.within hin (.inr le_rfl),hin⟩

/-- What the rest writes leaves the piece in front of it alone. -/
theorem piecesWrites_succ (hpiece : PieceWrites sensitive fuel) (hpieces : PiecesWrites sensitive fuel) :
    PiecesWrites sensitive (fuel+1) := by
  intro a c flagp ps chain flags ps' hlen hn h0 hok hplain hlay h
  rw [parsePieces.eq_def] at h
  rw [readPieces.eq_def]
  obtain ⟨code,text,n⟩ := ps
  cases text with
  | nil =>
    cases h
    exact ⟨a,rfl,nofun,⟨hlay,fun _ _ _ => rfl,hlen⟩⟩
  | cons d t =>
    simp only at h ⊢
    by_cases hend : d = ch ')' ∨ d = ch '\n' ∨ d = ch '|'
    · rw [if_pos hend] at h ⊢
      cases h
      exact ⟨a,rfl,nofun,⟨hlay,fun _ _ _ => rfl,hlen⟩⟩
    · rw [if_neg hend] at h ⊢
      obtain ⟨⟨latest,flags1,ps1⟩,h1,h⟩ := ok_of_bind h
      obtain ⟨b,hread,rfl,hw⟩ := hpiece _ _ _ _ hlen hn h0 h1
      have hfits := (reads_ok sensitive fuel).2.2.2.2.1 _ _ _ _ _ _ h0 hn hread
      obtain ⟨hlead,hb,hin⟩ := hlay.lead hw (.refl c)
      have hlen1 : (ps1.tail c code.length).code.length = ps1.code.length := length_parseTail _ _ _
      have hroom : c+3 ≤ code.length := hlay.room.1
      obtain ⟨r,hrest,hne,hw2⟩ := hpieces b code.length _ (ps1.tail c code.length) _ _ _
        (by rw [hlen1]; exact hw.small) (hn.trans hfits.le) (nul_of_suffix hfits.suffix h0) hfits.ok
        hfits.plain (by rw [hlen1]; exact hb) h
      rw [hread]
      refine ⟨.seq a r,?_,hne,?_,?_,hw2.small⟩
      · exact congrArg (fun x : ReadTree => x >>= fun x => pure (Rx.seq a x.1,x.2.1,x.2.2.1,x.2.2.2)) hrest
      · exact .seq (hlead.congr (hw2.front.mono (Nat.zero_le c) le_rfl)) hw2.lay
      · exact ((hw.front.mono le_rfl (show c ≤ code.length by omega)).trans (hin.same (.inl le_rfl))).trans
          (hw2.front.mono le_rfl (show c ≤ code.length by omega))

/-- The first piece of an alternative, or none. -/
theorem pieces_first (hpiece : PieceWrites sensitive fuel) (hpieces : PiecesWrites sensitive fuel)
    {chain : Option ℕ} {flagp : Flags} (hlen : ps.code.length ≤ codeGrow) (hn : 1 ≤ ps.subx_count)
    (h0 : 0 ∉ ps.parse) (h : parsePieces sensitive (fuel+1) none flagp ps = .ok (chain,flags,ps')) :
    ∃ r, readPieces sensitive (fuel+1) none flagp ps.parse ps.subx_count =
        .ok (r,flags,ps'.parse,ps'.subx_count) ∧
      (chain = none ∧ r = .leaf .nothing ∧ ps' = ps ∨ chain ≠ none ∧ Wrote ps ps' r ps.code.length) := by
  rw [parsePieces.eq_def] at h
  rw [readPieces.eq_def]
  obtain ⟨code,text,n⟩ := ps
  cases text with
  | nil =>
    cases h
    exact ⟨_,rfl,.inl ⟨rfl,rfl,rfl⟩⟩
  | cons d t =>
    simp only at h ⊢
    by_cases hend : d = ch ')' ∨ d = ch '\n' ∨ d = ch '|'
    · rw [if_pos hend] at h ⊢
      cases h
      exact ⟨_,rfl,.inl ⟨rfl,rfl,rfl⟩⟩
    · rw [if_neg hend] at h ⊢
      obtain ⟨⟨latest,flags1,ps1⟩,h1,h⟩ := ok_of_bind h
      obtain ⟨b,hread,rfl,hw⟩ := hpiece _ _ _ _ hlen hn h0 h1
      have hfits := (reads_ok sensitive fuel).2.2.2.2.1 _ _ _ _ _ _ h0 hn hread
      obtain ⟨r,hrest,hne,hw2⟩ := hpieces b code.length _ ps1 _ _ _ hw.small (hn.trans hfits.le)
        (nul_of_suffix hfits.suffix h0) hfits.ok hfits.plain hw.lay h
      rw [hread]
      exact ⟨r,hrest,.inr ⟨hne,hw2.lay,hw.front.trans hw2.front,hw2.small⟩⟩

theorem branchWrites_succ (hpiece : PieceWrites sensitive fuel) (hpieces : PiecesWrites sensitive fuel) :
    BranchWrites sensitive (fuel+2) := by
  intro ps ret flags ps' hlen hn h0 h
  rw [parseBranch.eq_def] at h
  rw [readBranch.eq_def]
  simp only at h ⊢
  obtain ⟨ps1,h1,h⟩ := ok_of_bind h
  obtain ⟨hsmall,rfl⟩ := ok_node h1
  obtain ⟨⟨chain,flags2,ps2⟩,h2,h⟩ := ok_of_bind h
  have hnode := NodeAt.of_append ps.code .BRANCH
  have hfront := Same.of_append 0 ps.code (node .BRANCH)
  have hlen1 := length_node ps.code .BRANCH
  have hgrow : (ps.code ++ node .BRANCH).length ≤ codeGrow := hlen1.trans_le hsmall
  -- a branch, and the tree behind it
  have hbranch {r : Rx} {ps3 : Parser} (hw : Wrote { ps with code := ps.code ++ node .BRANCH } ps3 r
      (ps.code ++ node .BRANCH).length) : Wrote ps ps3 (.last r) ps.code.length := by
    have hw1 := hw.front
    have hw2 := hw.lay
    simp only [hlen1] at hw1 hw2
    exact ⟨.last (hnode.congr hw1 (Nat.zero_le _) le_rfl) hw2,
      hfront.trans (hw1.mono le_rfl (Nat.le_add_right _ _)),hw.small⟩
  obtain ⟨r,hread,hr⟩ := pieces_first hpiece hpieces (by exact hgrow) (by exact hn) (by exact h0) h2
  obtain ⟨rfl,rfl,rfl⟩ | ⟨hne,hw⟩ := hr
  · rw [if_pos rfl] at h
    obtain ⟨ps3,h3,h⟩ := ok_of_bind h
    cases h
    obtain ⟨hw,hcount⟩ := wrote_node (l := .nothing) rfl h3
    obtain ⟨-,rfl⟩ := ok_node h3
    exact ⟨_,hread,rfl,hbranch hw⟩
  · rw [if_neg hne] at h
    cases h
    exact ⟨r,hread,rfl,hbranch hw⟩

/-- The next alternative is led to from the one in front. -/
theorem altsWrites_succ (hbranch : BranchWrites sensitive fuel) (halts : AltsWrites sensitive fuel) :
    AltsWrites sensitive (fuel+1) := by
  intro ret c b flagp ps flags ps' hlen hn h0 hc hlay h
  rw [parseAlts.eq_def] at h
  rw [readAlts.eq_def]
  obtain ⟨code,text,n⟩ := ps
  cases text with
  | nil =>
    cases h
    exact ⟨_,rfl,hlay,fun _ _ _ => rfl,hlen⟩
  | cons d t =>
    simp only at h ⊢
    by_cases hbar : d = ch '|' ∨ d = ch '\n'
    · rw [if_pos hbar] at h ⊢
      have ht : 0 ∉ t := fun h => h0 (List.mem_cons_of_mem _ h)
      obtain ⟨⟨br,flags1,ps1⟩,h1,h⟩ := ok_of_bind h
      obtain ⟨b1,hread,rfl,hw⟩ := hbranch _ _ _ _ (by exact hlen) (by exact hn) (by exact ht) h1
      have hfits := (reads_ok sensitive fuel).2.2.1 _ _ _ _ _ _ (by exact ht) (by exact hn) hread
      have hroom : c+3 ≤ code.length := hlay.room.1
      have hlay' : Lay (⟨code,t,n⟩ : Parser).code (.last b) c none none code.length := hlay
      obtain ⟨hlead,hb,hin⟩ := hlay'.lead hw hc
      have hlen1 : (ps1.tail ret code.length).code.length = ps1.code.length := length_parseTail _ _ _
      have hfront := (hw.front.mono le_rfl (show c ≤ code.length by omega)).trans (hin.same (.inl le_rfl))
      have hchain := (hc.congr (hfront.mono (Nat.zero_le _) le_rfl)).trans (hlead.chain le_rfl)
      obtain ⟨a,hrest,hw2⟩ := halts ret code.length b1 _ (ps1.tail ret code.length) _ _
        (by rw [hlen1]; exact hw.small) (hn.trans hfits.le) (nul_of_suffix hfits.suffix ht) hchain
        (by rw [hlen1]; exact hb) h
      rw [hread]
      refine ⟨.alt b a,?_,?_,hfront.trans (hw2.front.mono le_rfl (show c ≤ code.length by omega)),hw2.small⟩
      · exact congrArg (fun x : ReadTree => x >>= fun x => pure (Rx.alt b x.1,x.2.1,x.2.2.1,x.2.2.2)) hrest
      · have hfirst := hlead.congr (hw2.front.mono (Nat.zero_le c) le_rfl)
        cases hfirst with
        | last hnode hbody => exact .alt hnode hbody hw2.lay
    · rw [if_neg hbar] at h ⊢
      cases h
      exact ⟨_,rfl,hlay,fun _ _ _ => rfl,hlen⟩

theorem opAt_congr {code code' : Bytes} (h : Same p (p+3) code code') : opAt code' p = opAt code p := by
  have hop := Moved.opAt (p := p) h le_rfl (by omega)
  rwa [Nat.add_zero] at hop

theorem parseNext_congr {code code' : Bytes} (h : Same p (p+3) code code') :
    parseNext code' p = parseNext code p := by
  have hoff := Moved.offsetAt (p := p) h le_rfl le_rfl
  rw [Nat.add_zero] at hoff
  rw [parseNext,parseNext,hoff,opAt_congr h]

/-- The ending of a list of alternatives at `a`, to which a chain leads from `ret`: a node to which all of
them lead. -/
theorem lay_close {a : Rx} {c ret : ℕ} {op : Op} (hlay : Lay ps.code a c none none ps.code.length)
    (hret : ret = c ∨ ret+3 = c ∧ parseNext ps.code ret = some c ∧ opAt ps.code ret ≠ .BRANCH) (ha : a.Ok)
    (halt : a.isAlt = true) (hop : decode op.byte ≠ .BRANCH) (hop' : decode op.byte ≠ .BACK)
    (h : ps.node op = .ok ps') :
    Lay (ps'.close ret ps.code.length).code a c (some ps.code.length) (some ps.code.length) ps.code.length ∧
      NodeAt (ps'.close ret ps.code.length).code ps.code.length op none ∧
      Within c ps.code.length ps'.code (ps'.close ret ps.code.length).code := by
  obtain ⟨hsmall,rfl⟩ := ok_node h
  have hgrow := codeGrow_lt
  have hroom := hlay.room
  have hnode := NodeAt.of_append ps.code op
  have hlay1 := hlay.append (node op)
  have hfront := Same.of_append 0 ps.code (node op)
  have hlen := length_node ps.code op
  have hchain : Chain (ps.code ++ node op) ret c := by
    obtain rfl | ⟨hc,hnext,-⟩ := hret
    · exact .refl ret
    · exact (Chain.step hnext hc.le (.refl c)).congr (hfront.mono (Nat.zero_le _) (by omega))
  obtain ⟨hlay2,hin⟩ := hlay1.parseTail le_rfl (show ps.code.length < 65536 by omega)
  rw [← hlay1.parseTail_of_chain hchain] at hlay2 hin
  have hnode2 := hnode.within hin (.inr le_rfl)
  have hlen2 := hin.length.trans hlen
  have hret2 : ret = c ∨ ret+3 = c ∧ parseNext (parseTail (ps.code ++ node op) ret ps.code.length) ret = some c ∧
      opAt (parseTail (ps.code ++ node op) ret ps.code.length) ret ≠ .BRANCH := by
    refine hret.imp_right fun ⟨hc,hnext,hbr⟩ => ⟨hc,?_,?_⟩
    · rw [hin.parseNext (.inl hc.le),← hnext]
      exact parseNext_congr (hfront.mono (Nat.zero_le ret) (by omega))
    · rw [hin.opAt (.inl (by omega)),opAt_congr (hfront.mono (Nat.zero_le ret) (by omega))]
      exact hbr
  have hopAt : opAt (parseTail (ps.code ++ node op) ret ps.code.length) ps.code.length ≠ .BRANCH := by
    rw [hnode2.opAt]
    exact hop
  have hclose := hlay2.closeBranches halt ha le_rfl (by omega) hopAt (hnode2.parseNext hop')
  rw [Parser.close]
  simp only
  generalize parseTail (ps.code ++ node op) ret ps.code.length = code2 at *
  obtain ⟨hlay3,hin3⟩ : Lay (closeBranches ps.code.length code2.length ret code2) a c (some ps.code.length)
      (some ps.code.length) ps.code.length ∧
        Within c ps.code.length code2 (closeBranches ps.code.length code2.length ret code2) := by
    obtain rfl | ⟨hc,hnext,hbr⟩ := hret2
    · exact hclose _ (by omega)
    · obtain ⟨n,hn⟩ : ∃ n, code2.length = n+1 := ⟨code2.length-1,by omega⟩
      have hstep : closeBranches ps.code.length code2.length ret code2 =
          closeBranches ps.code.length n c code2 := by
        simp only [hn,closeBranches,parseOpTail,if_neg hbr,hnext]
      rw [hstep]
      exact hclose n (by omega)
  exact ⟨hlay3,hnode2.within hin3 (.inr le_rfl),hin.trans hin3⟩

/-- The parts of a list that is read. -/
theorem read_list {paren : Bool} {text text1 text2 left : Bytes} {n n1 n2 : ℕ} {a b : Rx}
    {flags1 flags2 : Flags} (hmany : ¬(paren = true ∧ MAX_SUBX ≤ n))
    (hb : readBranch sensitive fuel text (if paren then n+1 else n) = .ok (b,flags1,text1,n1))
    (ha : readAlts sensitive fuel b ⟨flags1.hasWidth,false,flags1.spStart⟩ text1 n1 = .ok (a,flags2,text2,n2))
    (he : ending paren text2 = .ok left) : read sensitive (fuel+1) paren text n = .ok (a,flags2,left,n2) := by
  rw [read.eq_def]
  simp only [if_neg hmany]
  rw [hb]
  refine (congrArg (fun x : ReadTree => x >>= fun x => ending paren x.2.2.1 >>= fun left =>
    pure (x.1,x.2.1,left,x.2.2.2)) ha).trans ?_
  exact congrArg (fun x : Except Fail Bytes => x >>= fun left =>
    (pure (a,flags2,left,n2) : ReadTree)) he

/-- The main body, at whose end there is a node `END`. -/
theorem body_writes (hbranch : BranchWrites sensitive fuel) (halts : AltsWrites sensitive fuel) {ret : ℕ}
    (hlen : ps.code.length ≤ codeGrow) (hn : 1 ≤ ps.subx_count) (h0 : 0 ∉ ps.parse)
    (h : parse sensitive (fuel+1) false ps = .ok (ret,flags,ps')) :
    ∃ a, read sensitive (fuel+1) false ps.parse ps.subx_count = .ok (a,flags,ps'.parse,ps'.subx_count) ∧
      ret = ps.code.length ∧
      ∃ e, Lay ps'.code a ret (some e) (some e) e ∧ NodeAt ps'.code e .END none ∧ ps'.code.length = e+3 := by
  rw [parse.eq_def] at h
  simp only [Bool.false_eq_true,false_and,if_false] at h
  obtain ⟨ps0,hps0,h⟩ := ok_of_bind h
  cases hps0
  obtain ⟨⟨br,flags1,ps1⟩,h1,h⟩ := ok_of_bind h
  obtain ⟨⟨flags2,ps2⟩,h2,h⟩ := ok_of_bind h
  obtain ⟨ps3,h3,h⟩ := ok_of_bind h
  obtain ⟨left,h4,h⟩ := ok_of_bind h
  cases h
  obtain ⟨b,hread,rfl,hw⟩ := hbranch _ _ _ _ hlen hn h0 h1
  have hfits := (reads_ok sensitive fuel).2.2.1 _ _ _ _ _ _ h0 hn hread
  obtain ⟨a,hrest,hw2⟩ := halts _ _ b _ ps1 _ _ hw.small (hn.trans hfits.le)
    (nul_of_suffix hfits.suffix h0) (.refl _) hw.lay h2
  have halt := ((reads_ok sensitive fuel).2.1 _ _ _ ⟨flags1.hasWidth,false,flags1.spStart⟩ _ _ _ _ _ _ h0 hn
    { hfits with wide := hfits.wide } hrest).1
  obtain ⟨hlay,hnode,hin⟩ := lay_close hw2.lay (.inl rfl) halt.ok halt.alts (by decide) (by decide) h3
  obtain ⟨-,rfl⟩ := ok_node h3
  exact ⟨a,read_list (by simp) hread hrest h4,rfl,_,hlay,hnode,hin.length.trans (length_node _ _)⟩

theorem listWrites_body (hbranch : BranchWrites sensitive fuel) (halts : AltsWrites sensitive fuel) {ret : ℕ}
    (hlen : ps.code.length ≤ codeGrow) (hn : 1 ≤ ps.subx_count) (h0 : 0 ∉ ps.parse)
    (h : parse sensitive (fuel+1) false ps = .ok (ret,flags,ps')) :
    ∃ a, read sensitive (fuel+1) false ps.parse ps.subx_count = .ok (a,flags,ps'.parse,ps'.subx_count) ∧
      ret = ps.code.length ∧
      ∃ e, Lay ps'.code a ret (some e) (some e) e ∧ NodeAt ps'.code e .END none := by
  obtain ⟨a,hread,hret,e,hlay,hnode,-⟩ := body_writes hbranch halts hlen hn h0 h
  exact ⟨a,hread,hret,e,hlay,hnode⟩

theorem decode_open_ne_branch {n : ℕ} (hpos : 1 ≤ n) (hn : n < MAX_SUBX) : decode (Op.OPEN n).byte ≠ .BRANCH := by
  rw [decode_open hpos hn]
  split_ifs
  · exact nofun
  · exact nofun

theorem decode_close_ne_branch {n : ℕ} (hpos : 1 ≤ n) (hn : n < MAX_SUBX) :
    decode (Op.CLOSE n).byte ≠ .BRANCH := by
  rw [decode_close hpos hn]
  split_ifs
  · exact nofun
  · exact nofun

/-- A list in parentheses. -/
theorem listWrites_group (hbranch : BranchWrites sensitive fuel) (halts : AltsWrites sensitive fuel) {ret : ℕ}
    (hn : 1 ≤ ps.subx_count) (h0 : 0 ∉ ps.parse)
    (h : parse sensitive (fuel+1) true ps = .ok (ret,flags,ps')) :
    ∃ a, read sensitive (fuel+1) true ps.parse ps.subx_count = .ok (a,flags,ps'.parse,ps'.subx_count) ∧
      ret = ps.code.length ∧ Wrote ps ps' (.group ps.subx_count a) ret := by
  rw [parse.eq_def] at h
  simp only [true_and,if_true] at h
  have hmany : ¬MAX_SUBX ≤ ps.subx_count := by
    intro hf
    rw [if_pos hf] at h
    cases h
  rw [if_neg hmany] at h
  obtain ⟨ps0,hopen,h⟩ := ok_of_bind h
  obtain ⟨⟨br,flags1,ps1⟩,h1,h⟩ := ok_of_bind h
  obtain ⟨⟨flags2,ps2⟩,h2,h⟩ := ok_of_bind h
  obtain ⟨ps3,h3,h⟩ := ok_of_bind h
  obtain ⟨left,h4,h⟩ := ok_of_bind h
  cases h
  obtain ⟨hsmall,rfl⟩ := ok_node hopen
  have hno : ps.subx_count < MAX_SUBX := not_le.mp hmany
  have hnode := NodeAt.of_append ps.code (.OPEN ps.subx_count)
  have hfront := Same.of_append 0 ps.code (node (.OPEN ps.subx_count))
  have hlen0 := length_node ps.code (.OPEN ps.subx_count)
  have hgrow := codeGrow_lt
  obtain ⟨b,hread,rfl,hw⟩ := hbranch _ _ _ _ (by exact hlen0.trans_le hsmall) (by exact Nat.le_succ_of_le hn)
    (by exact h0) h1
  have hfits := (reads_ok sensitive fuel).2.2.1 _ _ _ _ _ _ (by exact h0) (by exact Nat.le_succ_of_le hn) hread
  have hlay1 := hw.lay
  have hfront1 := hw.front
  simp only [hlen0] at hlay1 hfront1 h2
  -- `OPEN` leads to the first alternative
  have hnode1 := hnode.congr hfront1 (Nat.zero_le _) le_rfl
  have hroom1 := hlay1.room
  have hsmall1 := hw.small
  obtain ⟨hnode2,hin⟩ := hnode1.parseTail (v := ps.code.length+3) (decode_open_ne_back hno) (by omega) (by omega)
  have hlay2 := hlay1.within hin (.inr le_rfl)
  have hlen2 : (ps1.tail ps.code.length (ps.code.length+3)).code.length = ps1.code.length :=
    length_parseTail _ _ _
  obtain ⟨a,hrest,hw2⟩ := halts _ _ b _ (ps1.tail ps.code.length (ps.code.length+3)) _ _
    (by rw [hlen2]; exact hsmall1) ((Nat.le_succ_of_le hn).trans hfits.le) (nul_of_suffix hfits.suffix h0)
    (hnode2.chain (decode_open_ne_back hno) le_rfl) (by rw [hlen2]; exact hlay2) h2
  have halt := ((reads_ok sensitive fuel).2.1 _ _ _ ⟨flags1.hasWidth,false,flags1.spStart⟩ _ _ _ _ _ _ h0
    (Nat.le_succ_of_le hn) { hfits with wide := hfits.wide } hrest).1
  have hnode3 := hnode2.congr hw2.front (Nat.zero_le _) le_rfl
  -- all of the alternatives lead to `CLOSE`
  have hopen : opAt ps2.code ps.code.length ≠ .BRANCH := by
    rw [hnode3.opAt]
    exact decode_open_ne_branch hn hno
  obtain ⟨hlay4,hclose,hin4⟩ := lay_close hw2.lay (.inr ⟨rfl,hnode3.parseNext (decode_open_ne_back hno),hopen⟩)
    halt.ok halt.alts (decode_close_ne_branch hn hno) (decode_close_ne_back hno) h3
  obtain ⟨hsmall3,rfl⟩ := ok_node h3
  have hroom2 := hw2.lay.room
  have hnode4 := (hnode3.append (node (.CLOSE ps.subx_count))).within hin4 (.inl le_rfl)
  have hlen4 := hin4.length
  rw [length_node] at hlen4
  refine ⟨a,read_list (by simpa using hno) hread hrest h4,rfl,?_,?_,?_⟩
  · have hgroup : Lay _ _ _ none none _ := .group hno hnode4 hlay4 hclose
    rw [← hlen4] at hgroup
    exact hgroup
  · have hle : ps.code.length ≤ ps.code.length+3 := Nat.le_add_right _ _
    exact ((((hfront.trans (hfront1.mono le_rfl hle)).trans (hin.same (.inl le_rfl))).trans
      (hw2.front.mono le_rfl hle)).trans ((Same.of_append 0 ps2.code _).mono le_rfl (by omega))).trans
        (hin4.same (.inl hle))
  · exact hlen4.trans_le hsmall3

theorem listWrites_succ (hbranch : BranchWrites sensitive fuel) (halts : AltsWrites sensitive fuel) :
    ListWrites sensitive (fuel+1) := by
  intro paren ps ret flags ps' hlen hn h0 h
  cases paren with
  | true => exact listWrites_group hbranch halts hn h0 h
  | false => exact listWrites_body hbranch halts hlen hn h0 h

/-- All of the functions of the parser. -/
theorem writes_ok (sensitive : Bool) (fuel : ℕ) : ListWrites sensitive fuel ∧ AltsWrites sensitive fuel ∧
    BranchWrites sensitive fuel ∧ BranchWrites sensitive (fuel+1) ∧ PiecesWrites sensitive fuel ∧
    PieceWrites sensitive fuel ∧ AtomWrites sensitive fuel := by
  induction fuel with
  | zero =>
    refine ⟨?_,?_,?_,?_,?_,?_,?_⟩
    · intro _ _ _ _ _ _ _ _ h
      rw [parse] at h
      cases h
    · intro _ _ _ _ _ _ _ _ _ _ _ _ h
      rw [parseAlts] at h
      cases h
    · intro _ _ _ _ _ _ _ h
      rw [parseBranch] at h
      cases h
    · intro ps _ _ _ _ _ _ h
      rw [parseBranch] at h
      obtain ⟨ps1,-,h⟩ := ok_of_bind h
      obtain ⟨_,h2,-⟩ := ok_of_bind h
      rw [parsePieces] at h2
      cases h2
    · intro _ _ _ _ _ _ _ _ _ _ _ _ _ h
      rw [parsePieces] at h
      cases h
    · intro _ _ _ _ _ _ _ h
      rw [parsePiece] at h
      cases h
    · intro _ _ _ _ _ _ _ h
      rw [parseAtom] at h
      cases h
  | succ fuel ih =>
    obtain ⟨hlist,halts,hbranch,hbranch',hpieces,hpiece,hatom⟩ := ih
    exact ⟨listWrites_succ hbranch halts,altsWrites_succ hbranch halts,hbranch',
      branchWrites_succ hpiece hpieces,piecesWrites_succ hpiece hpieces,pieceWrites_succ hatom,
      atomWrites_succ hlist⟩

end Smx.Regx
