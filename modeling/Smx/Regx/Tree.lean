import Mathlib.Data.List.GetD
import Smx.Regx.Match

/-! The syntax tree of a program, and the search over the tree that the program stands for. -/
namespace Smx.Regx

/-- A node by itself. -/
inductive Leaf
  | bol
  | eol
  | worda
  | wordz
  | any
  | anyof (cs : Bytes)
  | anybut (cs : Bytes)
  | exactly (s : Bytes)
  | nothing
  deriving DecidableEq

def Leaf.op : Leaf → Op
  | bol => .BOL
  | eol => .EOL
  | worda => .WORDA
  | wordz => .WORDZ
  | any => .ANY
  | anyof _ => .ANYOF
  | anybut _ => .ANYBUT
  | exactly _ => .EXACTLY
  | nothing => .NOTHING

/-- The string of an operand. -/
def Leaf.text : Leaf → Bytes
  | anyof cs => cs
  | anybut cs => cs
  | exactly s => s
  | _ => []

/-- The bytes of an operand. -/
def Leaf.operand : Leaf → Bytes
  | anyof cs => cs ++ [0]
  | anybut cs => cs ++ [0]
  | exactly s => s ++ [0]
  | _ => []

/-- A node that takes at least one character. -/
def Leaf.wide : Leaf → Bool
  | any => true
  | anyof _ => true
  | anybut _ => true
  | exactly _ => true
  | _ => false

/-- A node that takes one character. -/
def Leaf.single : Leaf → Bool
  | exactly s => s.length == 1
  | l => l.wide

/-- Strings are C strings, and those to be matched exactly are not empty. -/
def Leaf.Ok : Leaf → Prop
  | anyof cs => 0 ∉ cs
  | anybut cs => 0 ∉ cs
  | exactly s => 0 ∉ s ∧ s ≠ []
  | _ => True

/-- A tree. The alternatives of a group are a list, that `last` ends. -/
inductive Rx
  | leaf (l : Leaf)
  | seq (a b : Rx)
  | last (b : Rx)
  | alt (b a : Rx)
  | group (n : ℕ) (a : Rx)
  /-- one character repeated, at least once for `+`, and as often as possible unless lazy -/
  | rep (plus isLazy : Bool) (l : Leaf)
  | loop (a : Rx)
  | loop1 (a : Rx)
  | opt (a : Rx)
  deriving DecidableEq

namespace Rx

/-- Known never to match the empty string. -/
def wide : Rx → Bool
  | leaf l => l.wide
  | seq a b => a.wide || b.wide
  | last b => b.wide
  | alt b a => b.wide && a.wide
  | group _ a => a.wide
  | rep plus _ _ => plus
  | loop _ => false
  | loop1 _ => true
  | opt _ => false

def isAlt : Rx → Bool
  | last _ => true
  | alt _ _ => true
  | _ => false

/-- What is true of the trees of all patterns: a repeated body never matches the empty string. -/
def Ok : Rx → Prop
  | leaf l => l.Ok
  | seq a b => a.Ok ∧ b.Ok ∧ a.isAlt = false ∧ b.isAlt = false
  | last b => b.Ok ∧ b.isAlt = false
  | alt b a => b.Ok ∧ a.Ok ∧ b.isAlt = false ∧ a.isAlt = true
  | group n a => 1 ≤ n ∧ a.Ok ∧ a.isAlt = true
  | rep _ _ l => l.Ok ∧ l.single = true
  | loop a => a.Ok ∧ a.wide = true ∧ a.isAlt = false
  | loop1 a => a.Ok ∧ a.wide = true ∧ a.isAlt = false
  | opt a => a.Ok ∧ a.isAlt = false

end Rx

/-- A point where a group starts or ends. -/
inductive Mark
  | start (n i : ℕ)
  | stop (n i : ℕ)
  deriving DecidableEq

/-- What a search does: the groups it meets, and the marks and the end of the match it finds. -/
@[ext] structure Out where
  met : List ℕ
  found : Option (List Mark × ℕ)

namespace Out

def fail : Out := ⟨[],none⟩

def orElse (a b : Out) : Out :=
  match a.found with
  | some _ => a
  | none => ⟨a.met ++ b.met,b.found⟩

def meet (n : ℕ) (o : Out) : Out := ⟨n::o.met,o.found⟩

def mark (m : Mark) (o : Out) : Out := ⟨o.met,o.found.map fun r => (m::r.1,r.2)⟩

theorem orElse_of_some {a : Out} {r : List Mark × ℕ} (h : a.found = some r) (b : Out) :
    a.orElse b = a := by
  rw [orElse,h]

theorem orElse_of_none {a : Out} (h : a.found = none) (b : Out) :
    a.orElse b = ⟨a.met ++ b.met,b.found⟩ := by
  rw [orElse,h]

@[simp] theorem fail_orElse (b : Out) : fail.orElse b = b := rfl

@[simp] theorem orElse_fail (a : Out) : a.orElse fail = a := by
  cases h : a.found with
  | some r => exact orElse_of_some h _
  | none =>
    rw [orElse_of_none h]
    exact Out.ext (List.append_nil _) h.symm

end Out

/-- The first of the attempts at some positions that finds something. -/
def firstOf (k : ℕ → Out) : List ℕ → Out
  | [] => .fail
  | j::js => (k j).orElse (firstOf k js)

/-- Go through the body as often as it can be, then on. -/
def loopFrom (body : (ℕ → Out) → ℕ → Out) (k : ℕ → Out) : ℕ → ℕ → Out
  | 0,i => k i
  | n+1,i => (body (loopFrom body k n) i).orElse (k i)

namespace Subject
variable (T : Subject)

/-- Where a node leads. -/
def step (i : ℕ) : Leaf → Option ℕ
  | .bol => if i ≠ 0 then none else some i
  | .eol => if T.at_ i ≠ 0 then none else some i
  | .worda =>
    if ¬isword (T.at_ i) then none else if 0 < i ∧ isword (T.at_ (i-1)) then none else some i
  | .wordz => if isword (T.at_ i) then none else some i
  | .any => if T.at_ i = 0 then none else some (i+1)
  | .anyof cs => if T.at_ i = 0 ∨ T.at_ i ∉ cs then none else some (i+1)
  | .anybut cs => if T.at_ i = 0 ∨ T.at_ i ∈ cs then none else some (i+1)
  | .exactly s =>
    if s.headD 0 ≠ T.at_ i then none
    else if 1 < s.length ∧ ¬beginsWith T.sensitive s (T.subj.drop i) then none
    else some (i+s.length)
  | .nothing => some i

/-- A character that a repeated node takes. -/
def takes (l : Leaf) (c : Byte) : Bool :=
  match l with
  | .any => true
  | .anyof cs => cs.contains c
  | .anybut cs => !cs.contains c
  | .exactly s => sameChar T.sensitive (s.headD 0) c
  | _ => false

/-- How many characters a repeated node takes. -/
def repeats (l : Leaf) (i : ℕ) : ℕ := ((T.subj.drop i).takeWhile (T.takes l)).length

/-- The positions behind a repeated node, in the order in which they are tried. -/
def stops (plus isLazy : Bool) (l : Leaf) (i : ℕ) : List ℕ :=
  let min := if plus then 1 else 0
  let up := (List.range' min (T.repeats l i+1-min)).map (i+·)
  if isLazy then up else up.reverse

/-- The search over a tree, which goes on with `k`. Only nine groups are known. -/
def search : Rx → (ℕ → Out) → ℕ → Out
  | .leaf l,k,i =>
    match T.step i l with
    | some j => k j
    | none => .fail
  | .seq a b,k,i => search a (search b k) i
  | .last b,k,i => search b k i
  | .alt b a,k,i => (search b k i).orElse (search a k i)
  | .group n a,k,i =>
    if n ≤ 9 then .meet n (.mark (.start n i) (search a (fun j => .mark (.stop n j) (k j)) i)) else .fail
  | .rep plus isLazy l,k,i => firstOf k (T.stops plus isLazy l i)
  | .loop a,k,i => loopFrom (search a) k (T.subj.length+1-i) i
  | .loop1 a,k,i => search a (loopFrom (search a) k (T.subj.length+1-i)) i
  | .opt a,k,i => (search a k i).orElse (k i)

theorem lt_of_at {i : ℕ} (h : T.at_ i ≠ 0) : i < T.subj.length := by
  by_contra hi
  exact h (List.getD_eq_default _ _ (not_lt.mp hi))

theorem beginsWith_length {sensitive : Bool} {opnd text : Bytes}
    (h : beginsWith sensitive opnd text = true) : opnd.length ≤ text.length := by
  induction opnd generalizing text with
  | nil => exact Nat.zero_le _
  | cons a opnd ih =>
    cases text with
    | nil => cases h
    | cons b text => exact Nat.succ_le_succ (ih (Bool.and_eq_true_iff.mp h).2)

variable {T}

theorem headD_ne_zero {s : Bytes} (h : 0 ∉ s) (hne : s ≠ []) : s.headD 0 ≠ 0 := by
  cases s with
  | nil => exact absurd rfl hne
  | cons c s =>
    intro hc
    apply h
    rw [← (show c = 0 from hc)]
    exact List.mem_cons_self

/-- A node leads forward, inside of the text. -/
theorem step_le {l : Leaf} {i j : ℕ} (hl : l.Ok) (hi : i ≤ T.subj.length) (h : T.step i l = some j) :
    i ≤ j ∧ j ≤ T.subj.length ∧ (l.wide = true → i < j) := by
  have hone (hat : T.at_ i ≠ 0) (hj : i+1 = j) : i ≤ j ∧ j ≤ T.subj.length ∧ (l.wide = true → i < j) := by
    have hlt := T.lt_of_at hat
    omega
  have hsame (hw : l.wide = false) (hj : i = j) : i ≤ j ∧ j ≤ T.subj.length ∧ (l.wide = true → i < j) := by
    rw [hw]
    exact ⟨hj.le,hj ▸ hi,fun hf => by cases hf⟩
  cases l with
  | bol =>
    simp only [step] at h
    split_ifs at h
    exact hsame rfl (Option.some.inj h)
  | eol =>
    simp only [step] at h
    split_ifs at h
    exact hsame rfl (Option.some.inj h)
  | worda =>
    simp only [step] at h
    split_ifs at h
    exact hsame rfl (Option.some.inj h)
  | wordz =>
    simp only [step] at h
    split_ifs at h
    exact hsame rfl (Option.some.inj h)
  | nothing => exact hsame rfl (Option.some.inj h)
  | any =>
    simp only [step] at h
    split_ifs at h with hat
    exact hone hat (Option.some.inj h)
  | anyof cs =>
    simp only [step] at h
    split_ifs at h with hat
    exact hone (fun h0 => hat (.inl h0)) (Option.some.inj h)
  | anybut cs =>
    simp only [step] at h
    split_ifs at h with hat
    exact hone (fun h0 => hat (.inl h0)) (Option.some.inj h)
  | exactly s =>
    simp only [step] at h
    split_ifs at h with hhead htext
    · have hj : i+s.length = j := Option.some.inj h
      have hlt : i < T.subj.length := by
        apply T.lt_of_at
        rw [← not_not.mp hhead]
        exact headD_ne_zero hl.1 hl.2
      have hpos : 0 < s.length := List.length_pos_iff.mpr hl.2
      have hlen : i+s.length ≤ T.subj.length := by
        by_cases hone : 1 < s.length
        · have hb := beginsWith_length (not_not.mp fun hb => htext ⟨hone,hb⟩)
          rw [List.length_drop] at hb
          omega
        · omega
      omega

theorem repeats_le (l : Leaf) (i : ℕ) : T.repeats l i ≤ T.subj.length-i := by
  rw [← List.length_drop]
  exact (List.takeWhile_prefix _).length_le

/-- The stops of a repeated node lie forward, inside of the text. -/
theorem stops_le {plus isLazy : Bool} {l : Leaf} {i j : ℕ} (hi : i ≤ T.subj.length)
    (h : j ∈ T.stops plus isLazy l i) : i ≤ j ∧ j ≤ T.subj.length ∧ (plus = true → i < j) := by
  have hmem : j ∈ (List.range' (if plus then 1 else 0)
      (T.repeats l i+1-if plus then 1 else 0)).map (i+·) := by
    cases isLazy with
    | true => exact h
    | false => exact List.mem_reverse.mp h
  obtain ⟨m,hm,rfl⟩ := List.mem_map.mp hmem
  rw [List.mem_range'_1] at hm
  have hle := T.repeats_le l i
  cases plus with
  | true =>
    simp only [if_true] at hm
    omega
  | false =>
    simp only [Bool.false_eq_true,if_false] at hm
    exact ⟨by omega,by omega,fun hf => by cases hf⟩

theorem firstOf_congr {k k' : ℕ → Out} {js : List ℕ} (h : ∀ j ∈ js, k j = k' j) :
    firstOf k js = firstOf k' js := by
  induction js with
  | nil => rfl
  | cons j js ih =>
    rw [firstOf,firstOf,h j List.mem_cons_self,ih fun j hj => h j (List.mem_cons_of_mem _ hj)]

/-- The search goes on forward only, and behind a tree that has width further on. -/
theorem search_congr {r : Rx} (hr : r.Ok) {k k' : ℕ → Out} {i : ℕ} (hi : i ≤ T.subj.length)
    (hk : ∀ j, i ≤ j → j ≤ T.subj.length → (r.wide = true → i < j) → k j = k' j) :
    T.search r k i = T.search r k' i := by
  induction r generalizing k k' i with
  | leaf l =>
    simp only [search]
    cases hstep : T.step i l with
    | none => rfl
    | some j =>
      obtain ⟨hij,hj,hw⟩ := step_le hr hi hstep
      exact hk j hij hj hw
  | seq a b iha ihb =>
    apply iha hr.1 hi
    intro j hij hj hwa
    apply ihb hr.2.1 hj
    intro m hjm hm hwb
    apply hk m (hij.trans hjm) hm
    intro hw
    obtain hw | hw := Bool.or_eq_true_iff.mp hw
    · exact (hwa hw).trans_le hjm
    · exact hij.trans_lt (hwb hw)
  | last b ih => exact ih hr.1 hi hk
  | alt b a ihb iha =>
    have hb : T.search b k i = T.search b k' i := by
      apply ihb hr.1 hi
      intro j hij hj hw
      exact hk j hij hj fun h => hw (Bool.and_eq_true_iff.mp h).1
    have ha : T.search a k i = T.search a k' i := by
      apply iha hr.2.1 hi
      intro j hij hj hw
      exact hk j hij hj fun h => hw (Bool.and_eq_true_iff.mp h).2
    rw [search,search,hb,ha]
  | group n a ih =>
    have ha : T.search a (fun j => .mark (.stop n j) (k j)) i =
        T.search a (fun j => .mark (.stop n j) (k' j)) i := by
      apply ih hr.2.1 hi
      intro j hij hj hw
      rw [hk j hij hj hw]
    rw [search,search,ha]
  | rep plus isLazy l =>
    apply firstOf_congr
    intro j hj
    obtain ⟨hij,hj,hw⟩ := stops_le hi hj
    exact hk j hij hj hw
  | loop a ih =>
    rw [search,search]
    generalize T.subj.length+1-i = n
    induction n generalizing i with
    | zero => exact hk i le_rfl hi fun h => by cases h
    | succ n ihn =>
      have hbody : T.search a (loopFrom (T.search a) k n) i =
          T.search a (loopFrom (T.search a) k' n) i := by
        apply ih hr.1 hi
        intro j hij hj _
        exact ihn hj fun m hjm hm _ => hk m (hij.trans hjm) hm fun h => by cases h
      rw [loopFrom,loopFrom,hbody,hk i le_rfl hi fun h => by cases h]
  | loop1 a ih =>
    rw [search,search]
    apply ih hr.1 hi
    intro j hij hj hw
    have hlt := hw hr.2.1
    generalize T.subj.length+1-i = n
    clear hw
    induction n generalizing j with
    | zero => exact hk j hij hj fun _ => hlt
    | succ n ihn =>
      have hbody : T.search a (loopFrom (T.search a) k n) j =
          T.search a (loopFrom (T.search a) k' n) j := by
        apply ih hr.1 hj
        intro m hjm hm _
        exact ihn m (hij.trans hjm) hm (hlt.trans_le hjm)
      rw [loopFrom,loopFrom,hbody,hk j hij hj fun _ => hlt]
  | opt a ih =>
    have ha : T.search a k i = T.search a k' i := by
      apply ih hr.1 hi
      intro j hij hj _
      exact hk j hij hj fun h => by cases h
    rw [search,search,ha,hk i le_rfl hi fun h => by cases h]

/-- More rounds than there are characters left make no difference. -/
theorem loopFrom_eq {a : Rx} (ha : a.Ok) (hw : a.wide = true) (k : ℕ → Out) {i n m : ℕ}
    (hi : i ≤ T.subj.length) (hn : T.subj.length < i+n) (hm : T.subj.length < i+m) :
    loopFrom (T.search a) k n i = loopFrom (T.search a) k m i := by
  induction n generalizing i m with
  | zero => omega
  | succ n ih =>
    obtain _ | m := m
    · omega
    · rw [loopFrom,loopFrom]
      congr 1
      apply search_congr ha hi
      intro j _ hj hlt
      have hij := hlt hw
      exact ih hj (by omega) (by omega)

/-- One round, then the loop again, or on. -/
theorem search_loop {a : Rx} (ha : a.Ok) (hw : a.wide = true) (k : ℕ → Out) {i : ℕ}
    (hi : i ≤ T.subj.length) :
    T.search (.loop a) k i = (T.search a (T.search (.loop a) k) i).orElse (k i) := by
  have hn : T.subj.length+1-i = (T.subj.length-i)+1 := by omega
  rw [search,hn,loopFrom]
  congr 1
  apply search_congr ha hi
  intro j _ hj hlt
  have hij := hlt hw
  exact loopFrom_eq ha hw k hj (by omega) (by omega)

theorem search_loop1 {a : Rx} (ha : a.Ok) (hw : a.wide = true) (k : ℕ → Out) {i : ℕ}
    (hi : i ≤ T.subj.length) :
    T.search (.loop1 a) k i = T.search a (T.search (.loop a) k) i := by
  rw [search]
  apply search_congr ha hi
  intro j _ hj hlt
  have hij := hlt hw
  exact loopFrom_eq ha hw k hj (by omega) (by omega)

end Subject
end Smx.Regx
