import Smx.Regx.Tree

/-! How a tree lies in a program, and that the matcher makes the search over the tree. -/
namespace Smx.Regx

/-- A node at `p` whose next node is `q`. -/
structure NodeAt (code : Bytes) (p : ℕ) (op : Op) (q : Option ℕ) : Prop where
  byte : code[p]? = some op.byte
  room : p+3 ≤ code.length
  next : q = if offsetAt code p = 0 then none else some (p+offsetAt code p)

/-- A node at `k` that leads back to `p`. -/
structure BackAt (code : Bytes) (k p : ℕ) : Prop where
  byte : code[k]? = some Op.BACK.byte
  room : k+3 ≤ code.length
  back : p+offsetAt code k = k
  pos : offsetAt code k ≠ 0

/-- A node with its operand. -/
structure LeafAt (code : Bytes) (p : ℕ) (l : Leaf) (q : Option ℕ) : Prop where
  node : NodeAt code p l.op q
  room : p+3+l.operand.length ≤ code.length
  operand : ∀ i, i < l.operand.length → code[p+3+i]? = l.operand[i]?

/-- The tree lies between `p` and `e`. Its last node leads to `next`, and the alternatives of a list of
alternatives lead to `opnd`. -/
inductive Lay (code : Bytes) : Rx → ℕ → Option ℕ → Option ℕ → ℕ → Prop
  | leaf {l p next opnd} (h : LeafAt code p l next) : Lay code (.leaf l) p next opnd (p+3+l.operand.length)
  | seq {a b p m next opnd e} (ha : Lay code a p (some m) none m) (hb : Lay code b m next none e) :
    Lay code (.seq a b) p next opnd e
  | last {b p next opnd e} (h : NodeAt code p .BRANCH next) (hb : Lay code b (p+3) opnd none e) :
    Lay code (.last b) p next opnd e
  | alt {b a p m next opnd e} (h : NodeAt code p .BRANCH (some m)) (hb : Lay code b (p+3) opnd none m)
    (ha : Lay code a m next opnd e) : Lay code (.alt b a) p next opnd e
  | group {n a p c next opnd} (hn : n < MAX_SUBX) (ho : NodeAt code p (.OPEN n) (some (p+3)))
    (ha : Lay code a (p+3) (some c) (some c) c) (hc : NodeAt code c (.CLOSE n) next) :
    Lay code (.group n a) p next opnd (c+3)
  | rep {plus isLazy l p next opnd e}
    (h : NodeAt code p (if plus then if isLazy then .PLUSX else .PLUS else if isLazy then .STARX else .STAR)
      next) (hl : Lay code (.leaf l) (p+3) none none e) : Lay code (.rep plus isLazy l) p next opnd e
  | loop {a p k next opnd} (h : NodeAt code p .BRANCH (some (k+3)))
    (ha : Lay code a (p+3) (some k) none k) (hk : BackAt code k p)
    (hb : NodeAt code (k+3) .BRANCH (some (k+6))) (hn : NodeAt code (k+6) .NOTHING next) :
    Lay code (.loop a) p next opnd (k+9)
  | loop1 {a p b next opnd} (ha : Lay code a p (some b) none b)
    (h : NodeAt code b .BRANCH (some (b+6))) (hk : BackAt code (b+3) p)
    (hb : NodeAt code (b+6) .BRANCH (some (b+9))) (hn : NodeAt code (b+9) .NOTHING next) :
    Lay code (.loop1 a) p next opnd (b+12)
  | opt {a p b next opnd} (h : NodeAt code p .BRANCH (some b))
    (ha : Lay code a (p+3) (some (b+3)) none b) (hb : NodeAt code b .BRANCH (some (b+3)))
    (hn : NodeAt code (b+3) .NOTHING next) : Lay code (.opt a) p next opnd (b+6)

variable {code : Bytes} {r : Rx} {p q e : ℕ} {next opnd : Option ℕ} {op : Op}

namespace NodeAt

theorem opAt (h : NodeAt code p op next) : opAt code p = decode op.byte := by
  rw [Regx.opAt,List.getD_eq_getElem?_getD,h.byte]
  rfl

theorem parseNext (h : NodeAt code p op next) (hop : decode op.byte ≠ .BACK) :
    parseNext code p = next := by
  rw [Regx.parseNext,h.opAt,if_neg hop,h.next]

end NodeAt

theorem BackAt.parseNext {k : ℕ} (h : BackAt code k p) : parseNext code k = some p := by
  have hop : Regx.opAt code k = .BACK := by
    rw [Regx.opAt,List.getD_eq_getElem?_getD,h.byte]
    rfl
  have hback := h.back
  rw [Regx.parseNext,if_neg h.pos,if_pos hop]
  congr 1
  omega

theorem BackAt.opAt {k : ℕ} (h : BackAt code k p) : Regx.opAt code k = .BACK := by
  rw [Regx.opAt,List.getD_eq_getElem?_getD,h.byte]
  rfl

/-- A group that `MatchX` knows, and one that it does not. -/
theorem decode_open {n : ℕ} (hpos : 1 ≤ n) (hn : n < MAX_SUBX) :
    decode (Op.OPEN n).byte = if n ≤ 9 then .OPEN n else .invalid := by
  have h : ∀ n : Fin 35, 1 ≤ n.val → decode (Op.OPEN n).byte = if n.val ≤ 9 then .OPEN n else .invalid := by
    decide
  exact h ⟨n,hn⟩ hpos

theorem decode_close {n : ℕ} (hpos : 1 ≤ n) (hn : n < MAX_SUBX) :
    decode (Op.CLOSE n).byte = if n ≤ 9 then .CLOSE n else .invalid := by
  have h : ∀ n : Fin 35, 1 ≤ n.val → decode (Op.CLOSE n).byte = if n.val ≤ 9 then .CLOSE n else .invalid := by
    decide
  exact h ⟨n,hn⟩ hpos

theorem decode_leaf (l : Leaf) : decode l.op.byte = l.op := by
  cases l with
  | _ => rfl

/-- A C string is what stands in front of the zero byte. -/
theorem cstr_append_zero {s : Bytes} (h : 0 ∉ s) (rest : Bytes) : cstr (s ++ 0::rest) = s := by
  rw [cstr,List.takeWhile_append_of_pos]
  · simp
  · intro c hc
    simpa using ne_of_mem_of_not_mem hc h

/-- The operand that `MatchX` reads is the string of the node. -/
theorem LeafAt.operand_eq {l : Leaf} (h : LeafAt code p l next) (hl : l.Ok) (htext : l.operand = l.text ++ [0]) :
    Regx.operand code p = l.text := by
  have hnul : 0 ∉ l.text := by
    cases l with
    | exactly s => exact hl.1
    | anyof cs => exact hl
    | anybut cs => exact hl
    | _ => exact List.not_mem_nil
  have hpre : l.operand <+: code.drop (p+3) := by
    rw [List.prefix_iff_eq_take]
    apply List.ext_getElem?
    intro i
    rw [List.getElem?_take]
    split_ifs with hi
    · rw [List.getElem?_drop,h.operand i hi]
    · exact List.getElem?_eq_none (not_lt.mp hi)
  obtain ⟨rest,hrest⟩ := hpre
  rw [Regx.operand,← hrest,htext,List.append_assoc]
  exact cstr_append_zero hnul rest

/-- A tree takes at least one node, inside of the program. -/
theorem Lay.room (h : Lay code r p next opnd e) : p+3 ≤ e ∧ e ≤ code.length := by
  induction h with
  | leaf h =>
    have hroom := h.room
    omega
  | seq ha hb iha ihb => omega
  | last h hb ih => omega
  | alt h hb ha ihb iha => omega
  | group hn ho ha hc ih =>
    have hroom := hc.room
    omega
  | rep h hl ih => omega
  | loop h ha hk hb hn ih =>
    have hroom := hn.room
    omega
  | loop1 ha h hk hb hn ih =>
    have hroom := hn.room
    omega
  | opt h ha hb hn ih =>
    have hroom := hn.room
    omega

theorem Rx.opAt_of_isAlt (h : Lay code r p next opnd e) (hr : r.isAlt = true) : opAt code p = .BRANCH := by
  cases h with
  | last h hb => exact h.opAt
  | alt h hb ha => exact h.opAt
  | _ => cases hr

end Smx.Regx
