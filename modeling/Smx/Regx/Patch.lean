import Smx.Regx.Layout

/-! What the writing of offsets does to the trees that lie in a program. -/
namespace Smx.Regx
variable {code code' : Bytes} {r : Rx} {p q e t v k : ℕ} {next opnd : Option ℕ} {op : Op}

section Same
variable {lo hi : ℕ}

/-- From `lo` to `hi` the bytes of `code` stand in `code'`, `k` further on. -/
def Moved (k lo hi : ℕ) (code code' : Bytes) : Prop := ∀ i, lo ≤ i → i < hi → code'[i+k]? = code[i]?

theorem Moved.mono {lo' hi' : ℕ} (h : Moved k lo hi code code') (hlo : lo ≤ lo') (hhi : hi' ≤ hi) :
    Moved k lo' hi' code code' := fun i hi hlt => h i (hlo.trans hi) (hlt.trans_le hhi)

theorem Moved.byte (h : Moved k lo hi code code') {b : Byte} (hlo : lo ≤ p) (hhi : p < hi)
    (hb : code[p]? = some b) : code'[p+k]? = some b := by
  rw [h p hlo hhi,hb]

/-- What was inside of the one program is inside of the other. -/
theorem Moved.room (h : Moved k lo hi code code') (hlo : lo ≤ p) (hhi : p < hi) (hroom : p < code.length) :
    p+k < code'.length := by
  have hb := h p hlo hhi
  rw [List.getElem?_eq_getElem hroom] at hb
  exact (List.getElem?_eq_some_iff.mp hb).1

theorem Moved.offsetAt (h : Moved k lo hi code code') (hlo : lo ≤ p) (hhi : p+3 ≤ hi) :
    offsetAt code' (p+k) = offsetAt code p := by
  have h1 := h (p+1) (by omega) (by omega)
  have h2 := h (p+2) (by omega) (by omega)
  have e1 : p+k+1 = p+1+k := by omega
  have e2 : p+k+2 = p+2+k := by omega
  simp only [Regx.offsetAt,List.getD_eq_getElem?_getD,e1,e2,h1,h2]

theorem Moved.opAt (h : Moved k lo hi code code') (hlo : lo ≤ p) (hhi : p < hi) :
    opAt code' (p+k) = opAt code p := by
  simp only [Regx.opAt,List.getD_eq_getElem?_getD,h p hlo hhi]

theorem NodeAt.move (hm : Moved k lo hi code code') (hlo : lo ≤ p) (hhi : p+3 ≤ hi)
    (h : NodeAt code p op next) : NodeAt code' (p+k) op (next.map (·+k)) := by
  have hroom := h.room
  refine ⟨hm.byte hlo (by omega) h.byte,?_,?_⟩
  · have hlast := hm.room (p := p+2) (by omega) (by omega) (by omega)
    omega
  · rw [hm.offsetAt hlo hhi,h.next]
    split_ifs
    · rfl
    · rw [Option.map_some,Nat.add_right_comm]

theorem BackAt.move {c : ℕ} (hm : Moved k lo hi code code') (hlo : lo ≤ c) (hhi : c+3 ≤ hi)
    (h : BackAt code c p) : BackAt code' (c+k) (p+k) := by
  have hroom := h.room
  have hback := h.back
  refine ⟨hm.byte hlo (by omega) h.byte,?_,?_,?_⟩
  · have hlast := hm.room (p := c+2) (by omega) (by omega) (by omega)
    omega
  · rw [hm.offsetAt hlo hhi]
    omega
  · rw [hm.offsetAt hlo hhi]
    exact h.pos

theorem LeafAt.move {l : Leaf} (hm : Moved k lo hi code code') (hlo : lo ≤ p)
    (hhi : p+3+l.operand.length ≤ hi) (h : LeafAt code p l next) :
    LeafAt code' (p+k) l (next.map (·+k)) := by
  have hnode := h.node.move hm hlo (by omega)
  have hroom := h.room
  have hroom' := hnode.room
  refine ⟨hnode,?_,?_⟩
  · by_cases hlen : l.operand.length = 0
    · omega
    · have hlast := hm.room (p := p+3+l.operand.length-1) (by omega) (by omega) (by omega)
      omega
  · intro i hi
    have hbyte := hm (p+3+i) (by omega) (by omega)
    rw [← h.operand i hi,← hbyte]
    congr 1
    omega

/-- Offsets are relative, so a tree may be moved as a whole. -/
theorem Lay.move (h : Lay code r p next opnd e) (hm : Moved k p e code code') :
    Lay code' r (p+k) (next.map (·+k)) (opnd.map (·+k)) (e+k) := by
  induction h with
  | @leaf l p next opnd h =>
    have hend : p+3+l.operand.length+k = p+k+3+l.operand.length := by omega
    rw [hend]
    exact .leaf (h.move hm le_rfl le_rfl)
  | @seq a b p m next opnd e ha hb iha ihb =>
    have hra := ha.room
    have hrb := hb.room
    exact .seq (iha (hm.mono le_rfl (by omega))) (ihb (hm.mono (by omega) le_rfl))
  | @last b p next opnd e h hb ih =>
    have hrb := hb.room
    refine .last (h.move hm le_rfl (by omega)) ?_
    rw [Nat.add_right_comm]
    exact ih (hm.mono (by omega) le_rfl)
  | @alt b a p m next opnd e h hb ha ihb iha =>
    have hrb := hb.room
    have hra := ha.room
    refine .alt (h.move hm le_rfl (by omega)) ?_ (iha (hm.mono (by omega) le_rfl))
    rw [Nat.add_right_comm]
    exact ihb (hm.mono (by omega) (by omega))
  | @group n a p c next opnd hn ho ha hc ih =>
    have hra := ha.room
    have ho' := ho.move hm le_rfl (by omega)
    have ha' := ih (hm.mono (by omega) (by omega))
    rw [Option.map_some,Nat.add_right_comm] at ho'
    rw [Option.map_some,Nat.add_right_comm p 3 k] at ha'
    rw [Nat.add_right_comm c 3 k]
    exact .group hn ho' ha' (hc.move hm (by omega) (by omega))
  | @rep plus isLazy l p next opnd e h hl ih =>
    have hrl := hl.room
    refine .rep (h.move hm le_rfl (by omega)) ?_
    rw [Nat.add_right_comm]
    exact ih (hm.mono (by omega) le_rfl)
  | @loop a p c next opnd h ha hc hb hn ih =>
    have hra := ha.room
    have h' := h.move hm le_rfl (by omega)
    have ha' := ih (hm.mono (by omega) (by omega))
    have hb' := hb.move hm (by omega) (by omega)
    have hn' := hn.move hm (by omega) (by omega)
    rw [Option.map_some,Nat.add_right_comm] at h'
    rw [Nat.add_right_comm p 3 k] at ha'
    rw [Option.map_some,Nat.add_right_comm c 3 k,Nat.add_right_comm c 6 k] at hb'
    rw [Nat.add_right_comm c 6 k] at hn'
    rw [Nat.add_right_comm c 9 k]
    exact .loop h' ha' (hc.move hm (by omega) (by omega)) hb' hn'
  | @loop1 a p b next opnd ha h hc hb hn ih =>
    have hra := ha.room
    have ha' := ih (hm.mono (by omega) (by omega))
    have h' := h.move hm (by omega) (by omega)
    have hc' := hc.move hm (by omega) (by omega)
    have hb' := hb.move hm (by omega) (by omega)
    have hn' := hn.move hm (by omega) (by omega)
    rw [Option.map_some,Nat.add_right_comm b 6 k] at h'
    rw [Nat.add_right_comm b 3 k] at hc'
    rw [Option.map_some,Nat.add_right_comm b 6 k,Nat.add_right_comm b 9 k] at hb'
    rw [Nat.add_right_comm b 9 k] at hn'
    rw [Nat.add_right_comm b 12 k]
    exact .loop1 ha' h' hc' hb' hn'
  | @opt a p b next opnd h ha hb hn ih =>
    have hra := ha.room
    have h' := h.move hm le_rfl (by omega)
    have ha' := ih (hm.mono (by omega) (by omega))
    have hb' := hb.move hm (by omega) (by omega)
    have hn' := hn.move hm (by omega) (by omega)
    rw [Option.map_some,Nat.add_right_comm p 3 k,Nat.add_right_comm b 3 k] at ha'
    rw [Option.map_some,Nat.add_right_comm b 3 k] at hb'
    rw [Nat.add_right_comm b 3 k] at hn'
    rw [Nat.add_right_comm b 6 k]
    exact .opt h' ha' hb' hn'

/-- The bytes from `lo` to `hi` are the same. -/
def Same (lo hi : ℕ) (code code' : Bytes) : Prop := Moved 0 lo hi code code'

theorem Same.mono {lo' hi' : ℕ} (h : Same lo hi code code') (hlo : lo ≤ lo') (hhi : hi' ≤ hi) :
    Same lo' hi' code code' := Moved.mono h hlo hhi

theorem Same.trans {code'' : Bytes} (h : Same lo hi code code') (h' : Same lo hi code' code'') :
    Same lo hi code code'' := fun i hi hlt => (h' i hi hlt).trans (h i hi hlt)

theorem Same.of_append (lo : ℕ) (code new : Bytes) : Same lo code.length code (code ++ new) := by
  intro i _ hi
  exact List.getElem?_append_left hi

theorem NodeAt.congr (hm : Same lo hi code code') (hlo : lo ≤ p) (hhi : p+3 ≤ hi)
    (h : NodeAt code p op next) : NodeAt code' p op next := by
  simpa using h.move hm hlo hhi

theorem BackAt.congr {c : ℕ} (hm : Same lo hi code code') (hlo : lo ≤ c) (hhi : c+3 ≤ hi)
    (h : BackAt code c p) : BackAt code' c p := h.move hm hlo hhi

theorem Lay.congr (h : Lay code r p next opnd e) (hm : Same p e code code') :
    Lay code' r p next opnd e := by
  simpa using h.move hm

end Same

section SetOffset
variable {d : ℕ}

@[simp] theorem length_setOffset (code : Bytes) (t d : ℕ) : (setOffset code t d).length = code.length := by
  rw [setOffset,List.length_set,List.length_set]

theorem setOffset_getElem? {i : ℕ} (h1 : i ≠ t+1) (h2 : i ≠ t+2) :
    (setOffset code t d)[i]? = code[i]? := by
  rw [setOffset,List.getElem?_set_ne h2.symm,List.getElem?_set_ne h1.symm]

/-- Only the two bytes behind `t` change. -/
theorem same_setOffset {lo hi : ℕ} (h : hi ≤ t+1 ∨ t+3 ≤ lo) : Same lo hi code (setOffset code t d) := by
  intro i hlo hhi
  exact setOffset_getElem? (by omega) (by omega)

theorem offsetAt_setOffset (ht : t+3 ≤ code.length) (hd : d < 65536) :
    offsetAt (setOffset code t d) t = d := by
  have h1 : t+1 < code.length := by omega
  have h2 : t+2 < code.length := by omega
  have hne : t+2 ≠ t+1 := by omega
  simp only [offsetAt,setOffset,List.getD_eq_getElem?_getD]
  rw [List.getElem?_set_ne hne,List.getElem?_set_self h1,
    List.getElem?_set_self (by rw [List.length_set]; exact h2)]
  simp only [Option.getD_some,UInt8.toNat_ofNat']
  omega

theorem NodeAt.patch (h : NodeAt code t op none) (hv : t < v) (hsmall : v < 65536) :
    NodeAt (setOffset code t (v-t)) t op (some v) := by
  refine ⟨?_,?_,?_⟩
  · rw [setOffset_getElem? (by omega) (by omega),h.byte]
  · rw [length_setOffset]
    exact h.room
  · rw [offsetAt_setOffset h.room (by omega),if_neg (by omega)]
    congr 1
    omega

/-- A node that is given the offset back to `p`. -/
theorem NodeAt.patch_back (h : NodeAt code t .BACK none) (hp : p < t) (hsmall : t < 65536) :
    BackAt (setOffset code t (t-p)) t p := by
  have hoff := offsetAt_setOffset (d := t-p) h.room (by omega)
  refine ⟨?_,?_,?_,?_⟩
  · rw [setOffset_getElem? (by omega) (by omega),h.byte]
  · rw [length_setOffset]
    exact h.room
  · omega
  · omega

theorem LeafAt.patch {l : Leaf} (h : LeafAt code t l none) (hv : t < v) (hsmall : v < 65536) :
    LeafAt (setOffset code t (v-t)) t l (some v) := by
  refine ⟨h.node.patch hv hsmall,?_,?_⟩
  · rw [length_setOffset]
    exact h.room
  · intro i hi
    rw [setOffset_getElem? (by omega) (by omega)]
    exact h.operand i hi

end SetOffset

/-- Bytes change between `lo` and `hi` only. -/
structure Within (lo hi : ℕ) (code code' : Bytes) : Prop where
  length : code'.length = code.length
  outside : ∀ i, i < lo ∨ hi ≤ i → code'[i]? = code[i]?

namespace Within
variable {lo hi lo' hi' : ℕ}

theorem refl (lo hi : ℕ) (code : Bytes) : Within lo hi code code := ⟨rfl,fun _ _ => rfl⟩

theorem trans {code'' : Bytes} (h : Within lo hi code code') (h' : Within lo hi code' code'') :
    Within lo hi code code'' :=
  ⟨h'.length.trans h.length,fun i hi => (h'.outside i hi).trans (h.outside i hi)⟩

theorem mono (h : Within lo hi code code') (hlo : lo' ≤ lo) (hhi : hi ≤ hi') : Within lo' hi' code code' :=
  ⟨h.length,fun i hi => h.outside i (by omega)⟩

theorem same (h : Within lo hi code code') (hd : hi' ≤ lo ∨ hi ≤ lo') : Same lo' hi' code code' :=
  fun i hlo hhi => h.outside i (by omega)

theorem parseNext (h : Within lo hi code code') (hp : p+3 ≤ lo ∨ hi ≤ p) :
    parseNext code' p = parseNext code p := by
  have hm : Same p (p+3) code code' := h.same (by omega)
  have hoff := Moved.offsetAt (p := p) hm le_rfl le_rfl
  have hop := Moved.opAt (p := p) hm le_rfl (by omega)
  rw [Nat.add_zero] at hoff hop
  rw [Regx.parseNext,Regx.parseNext,hoff,hop]

theorem opAt (h : Within lo hi code code') (hp : p < lo ∨ hi ≤ p) : opAt code' p = opAt code p := by
  simp only [Regx.opAt,List.getD_eq_getElem?_getD,h.outside p hp]

theorem setOffset (code : Bytes) (t d : ℕ) : Within t (t+3) code (setOffset code t d) :=
  ⟨length_setOffset code t d,fun i hi => setOffset_getElem? (by omega) (by omega)⟩

theorem take (h : Within lo hi code code') {m : ℕ} (hm : m ≤ lo) : code'.take m = code.take m := by
  apply List.ext_getElem?
  intro i
  rw [List.getElem?_take,List.getElem?_take]
  split_ifs
  · exact h.outside i (by omega)
  · rfl

end Within

/-- Changes elsewhere leave a node alone. -/
theorem NodeAt.within {lo hi : ℕ} (h : NodeAt code p op next) (hw : Within lo hi code code')
    (hd : p+3 ≤ lo ∨ hi ≤ p) : NodeAt code' p op next :=
  h.congr (show Same p (p+3) code code' from hw.same hd) le_rfl le_rfl

theorem Lay.within {lo hi : ℕ} (h : Lay code r p next opnd e) (hw : Within lo hi code code')
    (hd : e ≤ lo ∨ hi ≤ p) : Lay code' r p next opnd e := h.congr (hw.same hd)

theorem BackAt.within {lo hi : ℕ} (h : BackAt code p q) (hw : Within lo hi code code')
    (hd : p+3 ≤ lo ∨ hi ≤ p) : BackAt code' p q :=
  h.congr (show Same p (p+3) code code' from hw.same hd) le_rfl le_rfl

/-- Next pointers lead forward from `p` to `t`. -/
inductive Chain (code : Bytes) : ℕ → ℕ → Prop
  | refl (p : ℕ) : Chain code p p
  | step {p n t : ℕ} (h : parseNext code p = some n) (hp : p+3 ≤ n) (ht : Chain code n t) : Chain code p t

namespace Chain

theorem le (h : Chain code p t) : p ≤ t := by
  induction h with
  | refl p => exact le_rfl
  | step h hp ht ih => omega

theorem trans (h : Chain code p q) (h' : Chain code q t) : Chain code p t := by
  induction h with
  | refl p => exact h'
  | step h hp ht ih => exact .step h hp (ih h')

theorem congr (h : Chain code p t) (hm : Same p t code code') : Chain code' p t := by
  induction h with
  | refl p => exact .refl p
  | @step p n t h hp ht ih =>
    have hle := ht.le
    have hnext : parseNext code' p = some n := by
      have hoff := Moved.offsetAt (p := p) hm le_rfl (by omega)
      have hop := Moved.opAt (p := p) hm le_rfl (by omega)
      rw [Nat.add_zero] at hoff hop
      rw [parseNext,hoff,hop]
      exact h
    exact .step hnext hp (ih (hm.mono (by omega) le_rfl))

theorem lastOf (h : Chain code p t) (hend : parseNext code t = none) {fuel : ℕ} (hfuel : t ≤ p+fuel) :
    lastOf code fuel p = t := by
  induction h generalizing fuel with
  | refl p =>
    cases fuel with
    | zero => rfl
    | succ fuel => rw [Regx.lastOf,hend]
  | @step p n t h hp ht ih =>
    have hle := ht.le
    obtain ⟨m,rfl⟩ : ∃ m, fuel = m+1 := ⟨fuel-1,by omega⟩
    rw [Regx.lastOf,h]
    exact ih hend (by omega)

/-- `ParseTail` writes to the node at the end of the chain. -/
theorem parseTail (h : Chain code p t) (hend : parseNext code t = none) (ht : t ≤ code.length)
    (hop : opAt code t ≠ .BACK) : parseTail code p v = setOffset code t (v-t) := by
  rw [Regx.parseTail,h.lastOf hend (by omega),if_neg hop]

end Chain

theorem NodeAt.chain (h : NodeAt code p op (some q)) (hop : decode op.byte ≠ .BACK) (hp : p+3 ≤ q) :
    Chain code p q := .step (h.parseNext hop) hp (.refl q)

theorem decode_open_ne_back {n : ℕ} (hn : n < MAX_SUBX) : decode (Op.OPEN n).byte ≠ .BACK := by
  have h : ∀ n : Fin 35, decode (Op.OPEN n).byte ≠ .BACK := by decide
  exact h ⟨n,hn⟩

theorem decode_close_ne_back {n : ℕ} (hn : n < MAX_SUBX) : decode (Op.CLOSE n).byte ≠ .BACK := by
  have h : ∀ n : Fin 35, decode (Op.CLOSE n).byte ≠ .BACK := by decide
  exact h ⟨n,hn⟩

/-- The last node of a tree, and what becomes of the tree when it is led on. -/
structure TailAt (code : Bytes) (r : Rx) (p : ℕ) (next opnd : Option ℕ) (e t : ℕ) : Prop where
  chain : Chain code p t
  leads : parseNext code t = next
  room : t+3 ≤ e
  op : opAt code t ≠ .BACK
  patch : next = none → ∀ v, t < v → v < 65536 → Lay (setOffset code t (v-t)) r p (some v) opnd e

/-- The ending of a tree that ends with a node. -/
theorem TailAt.of_node {op : Op} (hc : Chain code p t) (h : NodeAt code t op next) (hop : decode op.byte ≠ .BACK)
    (hroom : t+3 ≤ e) (hpatch : next = none → ∀ v, t < v → v < 65536 →
      Lay (setOffset code t (v-t)) r p (some v) opnd e) : TailAt code r p next opnd e t :=
  ⟨hc,h.parseNext hop,hroom,by rw [h.opAt]; exact hop,hpatch⟩

theorem Lay.tailAt (h : Lay code r p next opnd e) : ∃ t, TailAt code r p next opnd e t := by
  induction h with
  | @leaf l p next opnd h =>
    have hop : decode l.op.byte ≠ .BACK := by
      cases l with
      | _ => exact nofun
    refine ⟨p,.of_node (.refl p) h.node hop (by omega) ?_⟩
    rintro rfl v hv hsmall
    exact .leaf (h.patch hv hsmall)
  | @seq a b p m next opnd e ha hb iha ihb =>
    obtain ⟨ta,hta⟩ := iha
    obtain ⟨tb,htb⟩ := ihb
    have hroom := hta.room
    refine ⟨tb,hta.chain.trans (.step hta.leads hroom htb.chain),htb.leads,htb.room,htb.op,?_⟩
    intro hnone v hv hsmall
    have hle := htb.chain.le
    exact .seq (ha.congr (same_setOffset (.inl (by omega)))) (htb.patch hnone v hv hsmall)
  | @last b p next opnd e h hb ih =>
    have hrb := hb.room
    refine ⟨p,.of_node (.refl p) h nofun (by omega) ?_⟩
    rintro rfl v hv hsmall
    exact .last (h.patch hv hsmall) (hb.congr (same_setOffset (.inr le_rfl)))
  | @alt b a p m next opnd e h hb ha ihb iha =>
    have hrb := hb.room
    obtain ⟨t,ht⟩ := iha
    have hle := ht.chain.le
    refine ⟨t,(h.chain nofun (by omega)).trans ht.chain,ht.leads,ht.room,ht.op,?_⟩
    intro hnone v hv hsmall
    exact .alt (h.within ((Within.setOffset code t _).mono hle le_rfl) (.inl (by omega)))
      (hb.congr (same_setOffset (.inl (by omega)))) (ht.patch hnone v hv hsmall)
  | @group n a p c next opnd hn ho ha hc ih =>
    have hra := ha.room
    obtain ⟨t,ht⟩ := ih
    have hroom := ht.room
    have hchain := (ho.chain (decode_open_ne_back hn) le_rfl).trans (ht.chain.trans
      (.step ht.leads hroom (.refl c)))
    refine ⟨c,.of_node hchain hc (decode_close_ne_back hn) le_rfl ?_⟩
    rintro rfl v hv hsmall
    exact .group hn (ho.within (.setOffset code c _) (.inl (by omega)))
      (ha.congr (same_setOffset (.inl (by omega)))) (hc.patch hv hsmall)
  | @rep plus isLazy l p next opnd e h hl ih =>
    have hrl := hl.room
    refine ⟨p,.of_node (.refl p) h ?_ (by omega) ?_⟩
    · split_ifs
      · exact nofun
      · exact nofun
      · exact nofun
      · exact nofun
    · rintro rfl v hv hsmall
      exact .rep (h.patch hv hsmall) (hl.congr (same_setOffset (.inr le_rfl)))
  | @loop a p c next opnd h ha hc hb hn ih =>
    have hra := ha.room
    have hchain := (h.chain nofun (by omega)).trans (hb.chain nofun (by omega))
    refine ⟨c+6,.of_node hchain hn nofun (by omega) ?_⟩
    rintro rfl v hv hsmall
    have hsame : Same p (c+6) code (setOffset code (c+6) (v-(c+6))) := same_setOffset (.inl (by omega))
    exact .loop (h.congr hsame le_rfl (by omega)) (ha.congr (hsame.mono (by omega) (by omega)))
      (hc.congr hsame (by omega) (by omega)) (hb.congr hsame (by omega) (by omega)) (hn.patch hv hsmall)
  | @loop1 a p b next opnd ha h hc hb hn ih =>
    have hra := ha.room
    obtain ⟨t,ht⟩ := ih
    have hroom := ht.room
    have hchain := (ht.chain.trans (.step ht.leads hroom (.refl b))).trans
      ((h.chain nofun (by omega)).trans (hb.chain nofun (by omega)))
    refine ⟨b+9,.of_node hchain hn nofun (by omega) ?_⟩
    rintro rfl v hv hsmall
    have hsame : Same p (b+9) code (setOffset code (b+9) (v-(b+9))) := same_setOffset (.inl (by omega))
    exact .loop1 (ha.congr (hsame.mono le_rfl (by omega))) (h.congr hsame (by omega) (by omega))
      (hc.congr hsame (by omega) (by omega)) (hb.congr hsame (by omega) (by omega)) (hn.patch hv hsmall)
  | @opt a p b next opnd h ha hb hn ih =>
    have hra := ha.room
    have hchain := (h.chain nofun (by omega)).trans (hb.chain nofun (by omega))
    refine ⟨b+3,.of_node hchain hn nofun (by omega) ?_⟩
    rintro rfl v hv hsmall
    have hsame : Same p (b+3) code (setOffset code (b+3) (v-(b+3))) := same_setOffset (.inl (by omega))
    exact .opt (h.congr hsame le_rfl (by omega)) (ha.congr (hsame.mono (by omega) (by omega)))
      (hb.congr hsame (by omega) (by omega)) (hn.patch hv hsmall)

/-- `ParseTail` on a tree leads it on. -/
theorem Lay.parseTail (h : Lay code r p none opnd e) (hv : e ≤ v) (hsmall : v < 65536) :
    Lay (parseTail code p v) r p (some v) opnd e ∧ Within p e code (parseTail code p v) := by
  obtain ⟨t,ht⟩ := h.tailAt
  have hroom := h.room
  have hend := ht.room
  have hle := ht.chain.le
  rw [ht.chain.parseTail ht.leads (by omega) ht.op]
  exact ⟨ht.patch rfl v (by omega) hsmall,(Within.setOffset code t _).mono hle hend⟩

/-- It may start at a node in front. -/
theorem Lay.parseTail_of_chain {p0 : ℕ} (hc : Chain code p0 p) (h : Lay code r p none opnd e) (v : ℕ) :
    Regx.parseTail code p0 v = Regx.parseTail code p v := by
  obtain ⟨t,ht⟩ := h.tailAt
  have hroom := h.room
  have hend := ht.room
  rw [ht.chain.parseTail ht.leads (by omega) ht.op,
    (hc.trans ht.chain).parseTail ht.leads (by omega) ht.op]

theorem closeBranches_end (hop : opAt code v ≠ .BRANCH) (hend : parseNext code v = none) (fuel : ℕ) :
    closeBranches q fuel v code = code := by
  cases fuel with
  | zero => rfl
  | succ fuel =>
    rw [closeBranches,parseOpTail,if_neg hop]
    simp only [hend]

/-- The loop of `ParseOpTail` leads the alternatives on. -/
theorem Lay.closeBranches (h : Lay code r p (some v) none e) (halt : r.isAlt = true) (hr : r.Ok)
    (hv : e ≤ v) (hsmall : v < 65536) (hop : opAt code v ≠ .BRANCH) (hend : parseNext code v = none)
    (fuel : ℕ) (hfuel : e ≤ p+fuel) : Lay (closeBranches v fuel p code) r p (some v) (some v) e ∧
      Within p e code (closeBranches v fuel p code) := by
  induction r generalizing code p fuel with
  | last b ih =>
    cases h with
    | last h hb =>
      have hroom := hb.room
      obtain ⟨n,rfl⟩ : ∃ n, fuel = n+1 := ⟨fuel-1,by omega⟩
      obtain ⟨hb',hw⟩ := hb.parseTail hv hsmall
      have hnode := h.within hw (.inl le_rfl)
      have hop' : opAt (Regx.parseTail code (p+3) v) v ≠ .BRANCH := by rwa [hw.opAt (.inr hv)]
      have hend' : parseNext (Regx.parseTail code (p+3) v) v = none := by rwa [hw.parseNext (.inr hv)]
      have hclose : Regx.closeBranches v (n+1) p code = Regx.parseTail code (p+3) v := by
        have hbr : opAt code p = .BRANCH := h.opAt
        simp only [Regx.closeBranches,parseOpTail,if_pos hbr,hnode.parseNext nofun]
        exact closeBranches_end hop' hend' n
      rw [hclose]
      exact ⟨.last hnode hb',hw.mono (by omega) le_rfl⟩
  | alt b a ihb iha =>
    cases h with
    | @alt _ _ _ m _ _ _ h hb ha =>
      have hroom := hb.room
      have hroom' := ha.room
      obtain ⟨n,rfl⟩ : ∃ n, fuel = n+1 := ⟨fuel-1,by omega⟩
      obtain ⟨hb',hw⟩ := hb.parseTail (v := v) (by omega) hsmall
      have hnode := h.within hw (.inl le_rfl)
      have hop' : opAt (Regx.parseTail code (p+3) v) v ≠ .BRANCH := by rwa [hw.opAt (.inr (by omega))]
      have hend' : parseNext (Regx.parseTail code (p+3) v) v = none := by
        rwa [hw.parseNext (.inr (by omega))]
      have ha' := ha.congr (hw.same (.inr le_rfl))
      obtain ⟨ha'',hw'⟩ := iha ha' hr.2.2.2 hr.2.1 hop' hend' n (by omega)
      have hclose : Regx.closeBranches v (n+1) p code =
          Regx.closeBranches v n m (Regx.parseTail code (p+3) v) := by
        have hbr : opAt code p = .BRANCH := h.opAt
        simp only [Regx.closeBranches,parseOpTail,if_pos hbr,hnode.parseNext nofun]
      rw [hclose]
      constructor
      · exact .alt (hnode.within hw' (.inl (by omega)))
          (hb'.congr (hw'.same (.inl le_rfl))) ha''
      · exact (hw.mono (by omega) (by omega)).trans (hw'.mono (by omega) le_rfl)
  | _ => cases halt

end Smx.Regx
