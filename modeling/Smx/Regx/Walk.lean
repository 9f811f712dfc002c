import Smx.Regx.Accesses
import Smx.Regx.ReadMeans

/-! What the parser does with any pattern: its fuel lasts, it goes forward, and it uses nodes that it has made. -/
namespace Smx.Regx
open Logging

namespace Access

def nodes : Access → ℕ
  | .node _ => 1
  | _ => 0

/-- With so many nodes made, the nodes of an access are among them. -/
def Named (n : ℕ) : Access → Prop
  | .insert _ p => p < n
  | .tail p q => p < n ∧ q < n
  | .opTail p q => p < n ∧ q < n
  | .hook p q => p < n ∧ q < n
  | _ => True

end Access

/-- How many nodes there are behind an access. -/
def addNodes (n : ℕ) (a : Access) : ℕ := n+a.nodes

namespace Accesses
variable {α : Type} {sensitive : Bool} {fuel n : ℕ} {sc : Scan} {x : Listed α} {Q : ℕ → α → Prop}

/-! ### Brackets and strings -/

/-- The loop over a bracket, with what was emitted in front of an invalid range. -/
theorem classLoop_eq (prev : Byte) (text : Bytes) : classLoop sensitive prev text =
    match classChars sensitive prev text with
    | (cs,some left) => .ok (cs,left)
    | (_,none) => .error (.error (str "invalid [] range")) := by
  induction prev,text using classLoop.induct with
  | case1 prev => rfl
  | case2 prev rest =>
    rw [classLoop.eq_def,classChars.eq_def]
    simp only [if_true]
  | case3 prev hc =>
    rw [classLoop.eq_def,classChars.eq_def]
    simp only [hc,if_false,if_true]
  | case4 prev rest hc =>
    rw [classLoop.eq_def,classChars.eq_def]
    simp only [hc,if_false,if_true]
  | case5 prev d rest hd hlt hc =>
    rw [classLoop.eq_def,classChars.eq_def]
    simp only [hc,hd,hlt,if_false,if_true]
  | case6 prev d rest hd hlt hc ih =>
    rw [classLoop.eq_def,classChars.eq_def]
    simp only [hc,hd,hlt,ih,if_false,if_true]
    obtain ⟨cs,left⟩ := classChars sensitive d rest
    cases left <;> rfl
  | case7 prev c rest hc hd ih =>
    rw [classLoop.eq_def,classChars.eq_def]
    simp only [hc,hd,ih,if_false]
    obtain ⟨cs,left⟩ := classChars sensitive c rest
    cases left <;> rfl

theorem classBody_eq (text : Bytes) : Regx.classBody sensitive text =
    match classBody sensitive text with
    | (cs,some left) => closeClass cs left
    | (_,none) => .error (.error (str "invalid [] range")) := by
  cases text with
  | nil => rfl
  | cons c rest =>
    rw [Regx.classBody,classBody]
    split_ifs with hc
    · rw [classLoop_eq]
      obtain ⟨cs,left⟩ := classChars sensitive c rest
      cases left <;> rfl
    · rw [classLoop_eq]
      obtain ⟨cs,left⟩ := classChars sensitive (ch '[') (c::rest)
      cases left <;> rfl

/-- A bracket that ends is read as such. -/
theorem parseClass_eq {text cs left : Bytes} {c : Byte}
    (h : classBody sensitive (if text.head? = some (ch '^') then text.tail else text) = (cs,some (c::left))) :
    Regx.parseClass sensitive text = .ok (decide (text.head? = some (ch '^')),cs,left) := by
  rw [Regx.parseClass]
  split_ifs at h ⊢ with hneg
  · rw [classBody_eq,h,decide_eq_true hneg]
    rfl
  · rw [classBody_eq,h,decide_eq_false hneg]
    rfl

theorem exactLoop_length (c : Byte) (t : Bytes) : (exactLoop none (c::t)).2.1.length ≤ t.length := by
  obtain ⟨hmult,hno⟩ := exactLoop_spec none c t
  cases hm : ismult (t.headD 0) with
  | true => rw [hmult hm,Option.elim_none]
  | false =>
    obtain ⟨cs,left,one,hex,hlits,-⟩ := hno hm
    rw [hex]
    exact hlits.suffix.length_le

/-! ### The functions of the parser -/

/-- The accesses are to nodes that were made, and the fuel lasts. -/
abbrev Walks (Q : ℕ → α → Prop) (n : ℕ) (x : Listed α) : Prop :=
  Does addNodes (fun n a => a.Named n) (· ≠ .fuel) Q n x

/-- A node was made, and less than so much of the pattern is left. -/
def Went (n len : ℕ) (m : ℕ) (r : ℕ × Flags × Scan) : Prop :=
  r.1 < m ∧ n ≤ m ∧ r.2.2.nodes = m ∧ r.2.2.parse.length < len

theorem walks_error (msg : String) : Walks Q n (error msg) := .fail nofun

theorem walks_access {a : Access} (ha : a.Named n) (hnew : a.nodes = 0) : Walks (fun m _ => n = m) n (access a) :=
  .tell ha (by rw [addNodes,hnew,Nat.add_zero])

theorem walks_node (parse : Bytes) (k n : ℕ) (op : Op) :
    Walks (fun m r => r = (n,⟨parse,k,n+1⟩) ∧ m = n+1) n (node ⟨parse,k,n⟩ op) :=
  Does.bind (Q := fun m _ => m = n+1) (.tell trivial rfl) fun _ _ hm => .pure ⟨rfl,hm⟩

theorem walks_leaf {parse : Bytes} {k : ℕ} (op : Op) (flags : Flags) {text : Bytes} {len : ℕ} (ht : text.length < len) :
    Walks (Went n len) n (parseLeaf ⟨parse,k,n⟩ op flags text) := by
  apply (walks_node parse k n op).bind
  rintro _ _ ⟨rfl,rfl⟩
  exact .pure ⟨Nat.lt_succ_self n,Nat.le_succ n,rfl,ht⟩

theorem walks_exact {parse : Bytes} {k : ℕ} (c : Byte) {text : Bytes} {len : ℕ} (ht : text.length < len) :
    Walks (Went n len) n (parseExact ⟨parse,k,n⟩ (c::text)) := by
  have hleft := exactLoop_length c text
  rw [parseExact]
  generalize exactLoop none (c::text) = r at hleft
  obtain ⟨cs,left,one⟩ := r
  apply (walks_node parse k n .EXACTLY).bind
  rintro _ _ ⟨rfl,rfl⟩
  apply (walks_access (a := .chars (cs ++ [0])) trivial rfl).bind
  rintro _ _ rfl
  exact .pure ⟨Nat.lt_succ_self n,Nat.le_succ n,rfl,hleft.trans_lt ht⟩

theorem walks_class {parse : Bytes} {k : ℕ} {text : Bytes} {len : ℕ} (ht : text.length < len) :
    Walks (Went n len) n (parseClass sensitive ⟨parse,k,n⟩ text) := by
  rw [parseClass]
  apply (walks_node parse k n _).bind
  rintro _ _ ⟨rfl,rfl⟩
  simp only
  cases hbody : classBody sensitive (if text.head? = some (ch '^') then text.tail else text) with
  | mk cs left =>
    cases left with
    | none => exact (walks_access (a := .chars cs) trivial rfl).bind fun _ _ _ => walks_error _
    | some left =>
      apply (walks_access (a := .chars (cs ++ [0])) trivial rfl).bind
      rintro _ _ rfl
      cases left with
      | nil => exact walks_error _
      | cons c left =>
        have hlt := (parseClass_ok (parseClass_eq hbody)).2.1
        exact .pure ⟨Nat.lt_succ_self n,Nat.le_succ n,rfl,hlt.trans ht⟩

/-- More nodes were made, and nothing was read. -/
def Stayed (n : ℕ) (parse : Bytes) (m : ℕ) (sc : Scan) : Prop := n ≤ m ∧ sc.nodes = m ∧ sc.parse = parse

theorem walks_star {parse : Bytes} {k : ℕ} {ret : ℕ} (hret : ret < n) :
    Walks (Stayed n parse) n (star ret ⟨parse,k,n⟩) := by
  apply (walks_access (a := .insert .BRANCH ret) hret rfl).bind
  rintro _ _ rfl
  apply (walks_node parse k n .BACK).bind
  rintro _ _ ⟨rfl,rfl⟩
  apply (walks_access (a := .opTail ret n) ⟨by omega,by omega⟩ rfl).bind
  rintro _ _ rfl
  apply (walks_access (a := .opTail ret ret) ⟨by omega,by omega⟩ rfl).bind
  rintro _ _ rfl
  apply (walks_node parse k _ .BRANCH).bind
  rintro _ _ ⟨rfl,rfl⟩
  apply (walks_access (a := .tail ret (n+1)) ⟨by omega,by omega⟩ rfl).bind
  rintro _ _ rfl
  apply (walks_node parse k _ .NOTHING).bind
  rintro _ _ ⟨rfl,rfl⟩
  apply (walks_access (a := .tail ret (n+1+1)) ⟨by omega,by omega⟩ rfl).bind
  rintro _ _ rfl
  exact .pure ⟨by omega,rfl,rfl⟩

theorem walks_plus {parse : Bytes} {k : ℕ} {ret : ℕ} (hret : ret < n) :
    Walks (Stayed n parse) n (plus ret ⟨parse,k,n⟩) := by
  apply (walks_node parse k n .BRANCH).bind
  rintro _ _ ⟨rfl,rfl⟩
  apply (walks_access (a := .tail ret n) ⟨by omega,by omega⟩ rfl).bind
  rintro _ _ rfl
  apply (walks_node parse k _ .BACK).bind
  rintro _ _ ⟨rfl,rfl⟩
  apply (walks_access (a := .tail (n+1) ret) ⟨by omega,by omega⟩ rfl).bind
  rintro _ _ rfl
  apply (walks_node parse k _ .BRANCH).bind
  rintro _ _ ⟨rfl,rfl⟩
  apply (walks_access (a := .tail n (n+1+1)) ⟨by omega,by omega⟩ rfl).bind
  rintro _ _ rfl
  apply (walks_node parse k _ .NOTHING).bind
  rintro _ _ ⟨rfl,rfl⟩
  apply (walks_access (a := .tail ret (n+1+1+1)) ⟨by omega,by omega⟩ rfl).bind
  rintro _ _ rfl
  exact .pure ⟨by omega,rfl,rfl⟩

theorem walks_quest {parse : Bytes} {k : ℕ} {ret : ℕ} (hret : ret < n) :
    Walks (Stayed n parse) n (quest ret ⟨parse,k,n⟩) := by
  apply (walks_access (a := .insert .BRANCH ret) hret rfl).bind
  rintro _ _ rfl
  apply (walks_node parse k n .BRANCH).bind
  rintro _ _ ⟨rfl,rfl⟩
  apply (walks_access (a := .tail ret n) ⟨by omega,by omega⟩ rfl).bind
  rintro _ _ rfl
  apply (walks_node parse k _ .NOTHING).bind
  rintro _ _ ⟨rfl,rfl⟩
  apply (walks_access (a := .tail ret (n+1)) ⟨by omega,by omega⟩ rfl).bind
  rintro _ _ rfl
  apply (walks_access (a := .opTail ret (n+1)) ⟨by omega,by omega⟩ rfl).bind
  rintro _ _ rfl
  exact .pure ⟨by omega,rfl,rfl⟩

theorem walks_emitMult {parse : Bytes} {k ret : ℕ} (hret : ret < n) (op : Byte) (simple isLazy : Bool) :
    Walks (Stayed n parse) n (emitMult op simple isLazy ret ⟨parse,k,n⟩) := by
  have hinsert (op : Op) : Walks (Stayed n parse) n (access (.insert op ret) >>= fun _ => pure ⟨parse,k,n⟩) := by
    apply (walks_access (a := .insert op ret) hret rfl).bind
    rintro _ _ rfl
    exact .pure ⟨le_rfl,rfl,rfl⟩
  rw [emitMult]
  by_cases hstar : op = ch '*'
  · rw [if_pos hstar]
    cases simple with
    | true => exact hinsert _
    | false => exact walks_star hret
  · rw [if_neg hstar]
    by_cases hplus : op = ch '+'
    · rw [if_pos hplus]
      cases simple with
      | true => exact hinsert _
      | false => exact walks_plus hret
    · rw [if_neg hplus]
      exact walks_quest hret

theorem behindMult_length (op : Byte) (simple : Bool) (text : Bytes) :
    (behindMult op simple text).length ≤ text.length := by
  rw [behindMult]
  split_ifs
  · exact (List.tail_suffix text).length_le
  · exact le_rfl

theorem walks_mult {parse : Bytes} {k ret : ℕ} (hret : ret < n) (op : Byte) (flags : Flags) {text : Bytes} {len : ℕ}
    (ht : text.length < len) : Walks (Went n len) n (parseMult op ret flags ⟨parse,k,n⟩ text) := by
  rw [parseMult]
  by_cases hwidth : flags.hasWidth = false ∧ op ≠ ch '?'
  · rw [if_pos hwidth]
    exact walks_error _
  · rw [if_neg hwidth]
    apply (walks_emitMult hret op _ _).bind
    rintro m ⟨_,k',_⟩ ⟨hm,rfl,rfl⟩
    have hleft := behindMult_length op flags.simple text
    by_cases hmult : ismult ((behindMult op flags.simple text).headD 0) = true
    · simp only [if_pos hmult]
      exact walks_error _
    · simp only [if_neg hmult]
      exact .pure ⟨hret.trans_le hm,hm,rfl,hleft.trans_lt ht⟩

theorem walks_close {parse : Bytes} {k ret : ℕ} (hret : ret < n) (paren : Bool) (op : Op) (flags : Flags) {len : ℕ}
    (ht : parse.length < len) : Walks (Went n len) n (close paren ret op flags ⟨parse,k,n⟩) := by
  apply (walks_node parse k n op).bind
  rintro _ _ ⟨rfl,rfl⟩
  apply (walks_access (a := .tail ret n) ⟨by omega,by omega⟩ rfl).bind
  rintro _ _ rfl
  apply (walks_access (a := .hook ret n) ⟨by omega,by omega⟩ rfl).bind
  rintro _ _ rfl
  simp only
  cases paren with
  | true =>
    cases parse with
    | nil => exact .fail (by rintro ⟨⟩)
    | cons c left =>
      rw [ending]
      split_ifs with hc
      · exact .pure ⟨by dsimp only; omega,Nat.le_succ n,rfl,lt_of_le_of_lt (by simp) ht⟩
      · exact .fail (by rintro ⟨⟩)
  | false =>
    cases parse with
    | nil => exact .pure ⟨by dsimp only; omega,Nat.le_succ n,rfl,ht⟩
    | cons c left => exact .fail (by rintro ⟨⟩)

/-! ### The recursion -/

def AtomWalks (sensitive : Bool) (fuel : ℕ) : Prop := ∀ text k n, 5*text.length+1 ≤ fuel →
  Walks (Went n text.length) n (parseAtom sensitive fuel ⟨text,k,n⟩)

def PieceWalks (sensitive : Bool) (fuel : ℕ) : Prop := ∀ text k n, 5*text.length+2 ≤ fuel →
  Walks (Went n text.length) n (parsePiece sensitive fuel ⟨text,k,n⟩)

def PiecesWalk (sensitive : Bool) (fuel : ℕ) : Prop := ∀ chain flagp text k n, 5*text.length+3 ≤ fuel →
  (∀ c, chain = some c → c < n) →
  Walks (fun m r => n ≤ m ∧ r.2.2.nodes = m ∧ r.2.2.parse.length ≤ text.length) n
    (parsePieces sensitive fuel chain flagp ⟨text,k,n⟩)

def BranchWalks (sensitive : Bool) (fuel : ℕ) : Prop := ∀ text k n, 5*text.length+4 ≤ fuel →
  Walks (Went n (text.length+1)) n (parseBranch sensitive fuel ⟨text,k,n⟩)

def AltsWalk (sensitive : Bool) (fuel : ℕ) : Prop := ∀ ret flagp text k n, 5*text.length+1 ≤ fuel → ret < n →
  Walks (fun m r => n ≤ m ∧ r.2.nodes = m ∧ r.2.parse.length ≤ text.length) n
    (parseAlts sensitive fuel ret flagp ⟨text,k,n⟩)

def ListWalks (sensitive : Bool) (fuel : ℕ) : Prop := ∀ paren text k n, 5*text.length+5 ≤ fuel →
  Walks (Went n (text.length+1)) n (parse sensitive fuel paren ⟨text,k,n⟩)

theorem atomWalks_succ (hlist : ListWalks sensitive fuel) : AtomWalks sensitive (fuel+1) := by
  intro text k n hfuel
  rw [parseAtom]
  cases text with
  | nil => exact walks_error _
  | cons c left =>
    have hlt : left.length < (c::left).length := Nat.lt_succ_self _
    rw [List.length_cons] at hfuel
    simp only
    by_cases h1 : c = ch '^'
    · rw [if_pos h1]
      exact walks_leaf _ _ hlt
    rw [if_neg h1]
    by_cases h2 : c = ch '$'
    · rw [if_pos h2]
      exact walks_leaf _ _ hlt
    rw [if_neg h2]
    by_cases h3 : c = ch '.'
    · rw [if_pos h3]
      exact walks_leaf _ _ hlt
    rw [if_neg h3]
    by_cases h4 : c = ch '['
    · rw [if_pos h4]
      exact walks_class hlt
    rw [if_neg h4]
    by_cases h5 : c = ch '('
    · rw [if_pos h5]
      apply (hlist true left k n (by omega)).bind
      rintro m ⟨ret,flags,sc⟩ ⟨hret,hm,hnodes,hlen⟩
      exact .pure ⟨hret,hm,hnodes,hlen⟩
    rw [if_neg h5]
    by_cases h6 : c = ch '|' ∨ c = ch '\n' ∨ c = ch ')'
    · rw [if_pos h6]
      exact walks_error _
    rw [if_neg h6]
    by_cases h7 : ismult c = true
    · rw [if_pos h7]
      exact walks_error _
    rw [if_neg h7]
    by_cases h8 : c = ch '\\'
    · rw [if_pos h8]
      cases left with
      | nil => exact walks_error _
      | cons d rest =>
        have hlt' : rest.length < (c::d::rest).length := by
          simp only [List.length_cons]
          omega
        simp only
        by_cases h9 : d = ch '<'
        · rw [if_pos h9]
          exact walks_leaf _ _ hlt'
        rw [if_neg h9]
        by_cases h10 : d = ch '>'
        · rw [if_pos h10]
          exact walks_leaf _ _ hlt'
        rw [if_neg h10]
        exact walks_exact d hlt'
    · rw [if_neg h8]
      exact walks_exact c hlt

theorem pieceWalks_succ (hatom : AtomWalks sensitive fuel) : PieceWalks sensitive (fuel+1) := by
  intro text k n hfuel
  rw [parsePiece]
  apply (walks_access (a := .grow 255) trivial rfl).bind
  rintro _ _ rfl
  apply (hatom text k n (by omega)).bind
  rintro _ ⟨ret,flags,⟨parse,k',m⟩⟩ ⟨hret,hm,rfl,hlen⟩
  cases parse with
  | nil => exact .pure ⟨hret,hm,rfl,hlen⟩
  | cons op left =>
    simp only
    by_cases hop : ismult op = true
    · rw [if_pos hop]
      apply (walks_mult hret op flags (lt_of_le_of_lt (by simp) hlen)).mono
      rintro m' r ⟨hr,hm',hnodes,hleft⟩
      exact ⟨hr,hm.trans hm',hnodes,hleft⟩
    · rw [if_neg hop]
      exact .pure ⟨hret,hm,rfl,hlen⟩

theorem piecesWalk_succ (hpiece : PieceWalks sensitive fuel) (hpieces : PiecesWalk sensitive fuel) :
    PiecesWalk sensitive (fuel+1) := by
  intro chain flagp text k n hfuel hchain
  rw [parsePieces]
  cases text with
  | nil => exact .pure ⟨le_rfl,rfl,le_rfl⟩
  | cons c rest =>
    simp only
    by_cases hc : c = ch ')' ∨ c = ch '\n' ∨ c = ch '|'
    · rw [if_pos hc]
      exact .pure ⟨le_rfl,rfl,le_rfl⟩
    rw [if_neg hc]
    apply (hpiece (c::rest) k n (by omega)).bind
    rintro _ ⟨latest,flags,⟨parse,k',m⟩⟩ ⟨hret,hm,rfl,hlen⟩
    have hgo (flagp : Flags) : Walks (fun m r => n ≤ m ∧ r.2.2.nodes = m ∧ r.2.2.parse.length ≤ (c::rest).length) m
        (parsePieces sensitive fuel (some latest) flagp ⟨parse,k',m⟩) :=
      (hpieces (some latest) flagp parse k' m (by dsimp only at hlen; omega) fun _ h => Option.some.inj h ▸ hret).mono
        fun m' r ⟨hm',hnodes,hleft⟩ => ⟨hm.trans hm',hnodes,hleft.trans hlen.le⟩
    cases chain with
    | none => exact hgo _
    | some chain =>
      apply (walks_access (a := .tail chain latest) ⟨(hchain chain rfl).trans_le hm,hret⟩ rfl).bind
      rintro _ _ rfl
      exact hgo _

theorem branchWalks_succ (hpieces : PiecesWalk sensitive fuel) : BranchWalks sensitive (fuel+1) := by
  intro text k n hfuel
  rw [parseBranch]
  apply (walks_node text k n .BRANCH).bind
  rintro _ _ ⟨rfl,rfl⟩
  apply (hpieces none WORST text k (n+1) (by omega) nofun).bind
  rintro _ ⟨chain,flags,⟨parse,k',m⟩⟩ ⟨hm,rfl,hlen⟩
  simp only
  by_cases hchain : chain = none
  · rw [if_pos hchain]
    apply (walks_node parse k' m .NOTHING).bind
    rintro _ _ ⟨rfl,rfl⟩
    exact .pure ⟨by dsimp only at hm ⊢; omega,by dsimp only at hm; omega,rfl,Nat.lt_succ_of_le hlen⟩
  · rw [if_neg hchain]
    exact .pure ⟨by dsimp only at hm ⊢; omega,by dsimp only at hm; omega,rfl,Nat.lt_succ_of_le hlen⟩

theorem altsWalk_succ (hbranch : BranchWalks sensitive fuel) (halts : AltsWalk sensitive fuel) :
    AltsWalk sensitive (fuel+1) := by
  intro ret flagp text k n hfuel hret
  rw [parseAlts]
  cases text with
  | nil => exact .pure ⟨le_rfl,rfl,le_rfl⟩
  | cons c left =>
    simp only
    by_cases hc : c = ch '|' ∨ c = ch '\n'
    · rw [if_pos hc]
      rw [List.length_cons] at hfuel
      apply (hbranch left k n (by omega)).bind
      rintro _ ⟨br,flags,⟨parse,k',m⟩⟩ ⟨hbr,hm,rfl,hlen⟩
      apply (walks_access (a := .tail ret br) ⟨hret.trans_le hm,hbr⟩ rfl).bind
      rintro _ _ rfl
      apply (halts ret _ parse k' m (by dsimp only at hlen; omega) (hret.trans_le hm)).mono
      rintro m' r ⟨hm',hnodes,hleft⟩
      refine ⟨hm.trans hm',hnodes,?_⟩
      dsimp only at hlen
      rw [List.length_cons]
      omega
    · rw [if_neg hc]
      exact .pure ⟨le_rfl,rfl,le_rfl⟩

theorem listWalks_succ (hbranch : BranchWalks sensitive fuel) (halts : AltsWalk sensitive fuel) :
    ListWalks sensitive (fuel+1) := by
  intro paren text k n hfuel
  -- the rest behind the first branch
  have hrest {ret m : ℕ} (op : Op) (flags : Flags) {sc : Scan} (hret : ret < m) (hm : n ≤ m) (hnodes : sc.nodes = m)
      (hlen : sc.parse.length < text.length+1) : Walks (Went n (text.length+1)) m
        (parseAlts sensitive fuel ret ⟨flags.hasWidth,false,flags.spStart⟩ sc >>= fun r =>
          close paren ret op r.1 r.2) := by
    obtain ⟨parse,k',_⟩ := sc
    subst hnodes
    dsimp only at hlen hret hm
    apply (halts ret _ parse k' _ (by omega) hret).bind
    rintro _ ⟨flags,⟨parse',k'',m'⟩⟩ ⟨hm',rfl,hleft⟩
    dsimp only at hleft hm' ⊢
    apply (walks_close (hret.trans_le hm') paren op flags (hleft.trans_lt hlen)).mono
    rintro m'' r ⟨hr,hm'',hlast⟩
    exact ⟨hr,(hm.trans hm').trans hm'',hlast⟩
  cases paren with
  | true =>
    rw [parse]
    simp only
    by_cases hmany : MAX_SUBX ≤ k
    · rw [if_pos hmany]
      exact walks_error _
    rw [if_neg hmany]
    apply (walks_node text (k+1) n (.OPEN k)).bind
    rintro _ _ ⟨rfl,rfl⟩
    apply (hbranch text (k+1) (n+1) (by omega)).bind
    rintro m ⟨br,flags,sc⟩ ⟨hbr,hm,hnodes,hlen⟩
    apply (walks_access (a := .tail n br) ⟨by omega,hbr⟩ rfl).bind
    rintro _ _ rfl
    exact hrest _ flags (by omega) (by omega) hnodes hlen
  | false =>
    rw [parse]
    apply (hbranch text k n (by omega)).bind
    rintro m ⟨ret,flags,sc⟩ ⟨hret,hm,hnodes,hlen⟩
    exact hrest _ flags hret hm hnodes hlen

theorem walks_ok (sensitive : Bool) (fuel : ℕ) : ListWalks sensitive fuel ∧ AltsWalk sensitive fuel ∧
    BranchWalks sensitive fuel ∧ PiecesWalk sensitive fuel ∧ PieceWalks sensitive fuel ∧
    AtomWalks sensitive fuel := by
  induction fuel with
  | zero =>
    refine ⟨?_,?_,?_,?_,?_,?_⟩
    · exact fun _ _ _ _ h => absurd h (by omega)
    · exact fun _ _ _ _ _ h => absurd h (by omega)
    · exact fun _ _ _ h => absurd h (by omega)
    · exact fun _ _ _ _ _ h => absurd h (by omega)
    · exact fun _ _ _ h => absurd h (by omega)
    · exact fun _ _ _ h => absurd h (by omega)
  | succ fuel ih =>
    obtain ⟨hlist,halts,hbranch,hpieces,hpiece,hatom⟩ := ih
    exact ⟨listWalks_succ hbranch halts,altsWalk_succ hbranch halts,branchWalks_succ hpieces,
      piecesWalk_succ hpiece hpieces,pieceWalks_succ hatom,atomWalks_succ hlist⟩

end Accesses
end Smx.Regx
