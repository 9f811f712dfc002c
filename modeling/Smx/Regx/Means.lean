import Smx.Regx.Pattern

/-! The search over a tree finds what an expression matches, as far as the groups go that are known. -/
namespace Smx.Regx

def Mark.no : Mark → ℕ
  | .start n _ => n
  | .stop n _ => n

/-- No group above nine is gone through. -/
def Nine (ms : List Mark) : Prop := ∀ m ∈ ms, m.no ≤ 9

theorem nine_append {ms ms' : List Mark} : Nine (ms ++ ms') ↔ Nine ms ∧ Nine ms' := by
  constructor
  · intro h
    exact ⟨fun m hm => h m (List.mem_append_left _ hm),fun m hm => h m (List.mem_append_right _ hm)⟩
  · intro h m hm
    obtain hm | hm := List.mem_append.mp hm
    · exact h.1 m hm
    · exact h.2 m hm

theorem nine_nil : Nine [] := fun _ h => by cases h

namespace Out

theorem orElse_found_none {a b : Out} : (a.orElse b).found = none ↔ a.found = none ∧ b.found = none := by
  cases h : a.found with
  | some r =>
    rw [orElse_of_some h,h]
    exact ⟨nofun,fun h => h.1⟩
  | none =>
    rw [orElse_of_none h]
    exact ⟨fun hb => ⟨rfl,hb⟩,fun h => h.2⟩

theorem orElse_found_some {a b : Out} {r : List Mark × ℕ} (h : (a.orElse b).found = some r) :
    a.found = some r ∨ b.found = some r := by
  cases ha : a.found with
  | some r' =>
    rw [orElse_of_some ha,ha] at h
    exact .inl h
  | none =>
    rw [orElse_of_none ha] at h
    exact .inr h

theorem mark_found_none {o : Out} {m : Mark} : (o.mark m).found = none ↔ o.found = none := Option.map_eq_none_iff

theorem mark_found_some {o : Out} {m : Mark} {ms : List Mark} {e : ℕ} (h : (o.mark m).found = some (ms,e)) :
    ∃ ms', o.found = some (ms',e) ∧ ms = m::ms' := by
  obtain ⟨r,hr,heq⟩ := Option.map_eq_some_iff.mp h
  cases heq
  exact ⟨r.1,hr,rfl⟩

end Out

theorem firstOf_found_none {k : ℕ → Out} {js : List ℕ} (h : (firstOf k js).found = none) :
    ∀ j ∈ js, (k j).found = none := by
  induction js with
  | nil => exact fun j hj => by cases hj
  | cons j js ih =>
    obtain ⟨hj,hjs⟩ := Out.orElse_found_none.mp h
    intro j' hj'
    obtain rfl | hj' := List.mem_cons.mp hj'
    · exact hj
    · exact ih hjs j' hj'

theorem firstOf_found_some {k : ℕ → Out} {js : List ℕ} {r : List Mark × ℕ}
    (h : (firstOf k js).found = some r) : ∃ j ∈ js, (k j).found = some r := by
  induction js with
  | nil => cases h
  | cons j js ih =>
    obtain h | h := Out.orElse_found_some h
    · exact ⟨j,List.mem_cons_self,h⟩
    · obtain ⟨j',hj',h⟩ := ih h
      exact ⟨j',List.mem_cons_of_mem _ hj',h⟩

theorem lt_of_isword {s : Bytes} {i : ℕ} (h : isword (s.getD i 0) = true) : i < s.length := by
  by_contra hi
  rw [List.getD_eq_default _ _ (not_lt.mp hi)] at h
  cases h

/-- What matches lies in the text. -/
theorem Path.le {s : Bytes} {p : Pat} {i j : ℕ} {ms : List Mark} (h : Path s p i ms j) :
    i ≤ j ∧ j ≤ s.length := by
  induction h with
  | bol => exact ⟨le_rfl,Nat.zero_le _⟩
  | eol => exact ⟨le_rfl,le_rfl⟩
  | wordStart h hprev => exact ⟨le_rfl,(lt_of_isword h).le⟩
  | wordEnd hi h => exact ⟨le_rfl,hi⟩
  | any hi => exact ⟨Nat.le_succ _,hi⟩
  | chr h =>
    have hi := (List.getElem?_eq_some_iff.mp h).1
    omega
  | cls h hc =>
    have hi := (List.getElem?_eq_some_iff.mp h).1
    omega
  | empty hi => exact ⟨le_rfl,hi⟩
  | seq hp hq ihp ihq => omega
  | altLeft hp ih => exact ih
  | altRight hq ih => exact ih
  | group hp ih => exact ih
  | starNil hi => exact ⟨le_rfl,hi⟩
  | starCons hp hq ihp ihq => omega
  | plus hp hq ihp ihq => omega
  | optNone hi => exact ⟨le_rfl,hi⟩
  | optSome hp ih => exact ih

/-- The search over the tree goes on exactly where the expression has matched. -/
structure Agrees (T : Subject) (r : Rx) (p : Pat) : Prop where
  complete : ∀ k i, i ≤ T.subj.length → (T.search r k i).found = none → ∀ ms j, Path T.subj p i ms j →
    Nine ms → (k j).found = none
  sound : ∀ k i, i ≤ T.subj.length → ∀ ms e, (T.search r k i).found = some (ms,e) →
    ∃ ms1 j ms2, Path T.subj p i ms1 j ∧ Nine ms1 ∧ (k j).found = some (ms2,e) ∧ ms = ms1 ++ ms2

namespace Agrees
variable {T : Subject} {a b : Rx} {p q : Pat}

/-- A node that leads where the expression does. -/
theorem leaf {l : Leaf} (h : ∀ i ms j, i ≤ T.subj.length →
    (Path T.subj p i ms j ↔ ms = [] ∧ T.step i l = some j)) : Agrees T (.leaf l) p := by
  constructor
  · intro k i hi hnone ms j hpath _
    obtain ⟨-,hstep⟩ := (h i ms j hi).mp hpath
    rw [Subject.search,hstep] at hnone
    exact hnone
  · intro k i hi ms e hsome
    cases hstep : T.step i l with
    | none =>
      rw [Subject.search,hstep] at hsome
      cases hsome
    | some j =>
      rw [Subject.search,hstep] at hsome
      exact ⟨[],j,ms,(h i [] j hi).mpr ⟨rfl,hstep⟩,nine_nil,hsome,rfl⟩

theorem seq (ha : Agrees T a p) (hb : Agrees T b q) : Agrees T (.seq a b) (.seq p q) := by
  constructor
  · intro k i hi hnone ms j hpath hnine
    cases hpath with
    | seq hp hq =>
      obtain ⟨hn,hn'⟩ := nine_append.mp hnine
      exact hb.complete k _ hp.le.2 (ha.complete _ i hi hnone _ _ hp hn) _ _ hq hn'
  · intro k i hi ms e hsome
    obtain ⟨ms1,j,ms2,hp,hn,hj,rfl⟩ := ha.sound _ i hi ms e hsome
    obtain ⟨ms3,l,ms4,hq,hn',hl,rfl⟩ := hb.sound k j hp.le.2 ms2 e hj
    exact ⟨ms1 ++ ms3,l,ms4,.seq hp hq,nine_append.mpr ⟨hn,hn'⟩,hl,(List.append_assoc _ _ _).symm⟩

theorem last (ha : Agrees T a p) : Agrees T (.last a) p := ⟨ha.complete,ha.sound⟩

theorem alt (ha : Agrees T a p) (hb : Agrees T b q) : Agrees T (.alt a b) (.alt p q) := by
  constructor
  · intro k i hi hnone ms j hpath hnine
    obtain ⟨hna,hnb⟩ := Out.orElse_found_none.mp hnone
    cases hpath with
    | altLeft hp => exact ha.complete k i hi hna _ _ hp hnine
    | altRight hq => exact hb.complete k i hi hnb _ _ hq hnine
  · intro k i hi ms e hsome
    obtain hsome | hsome := Out.orElse_found_some hsome
    · obtain ⟨ms1,j,ms2,hp,hn,hj,heq⟩ := ha.sound k i hi ms e hsome
      exact ⟨ms1,j,ms2,.altLeft hp,hn,hj,heq⟩
    · obtain ⟨ms1,j,ms2,hq,hn,hj,heq⟩ := hb.sound k i hi ms e hsome
      exact ⟨ms1,j,ms2,.altRight hq,hn,hj,heq⟩

theorem opt (ha : Agrees T a p) : Agrees T (.opt a) (.opt p) := by
  constructor
  · intro k i hi hnone ms j hpath hnine
    obtain ⟨hna,hnk⟩ := Out.orElse_found_none.mp hnone
    cases hpath with
    | optNone _ => exact hnk
    | optSome hp => exact ha.complete k i hi hna _ _ hp hnine
  · intro k i hi ms e hsome
    obtain hsome | hsome := Out.orElse_found_some hsome
    · obtain ⟨ms1,j,ms2,hp,hn,hj,heq⟩ := ha.sound k i hi ms e hsome
      exact ⟨ms1,j,ms2,.optSome hp,hn,hj,heq⟩
    · exact ⟨[],i,ms,.optNone hi,nine_nil,hsome,rfl⟩

/-- A group above nine is never gone through. -/
theorem group {n : ℕ} (ha : Agrees T a p) : Agrees T (.group n a) (.group n p) := by
  constructor
  · intro k i hi hnone ms j hpath hnine
    cases hpath with
    | group hp =>
      have hn : n ≤ 9 := hnine (.start n i) List.mem_cons_self
      rw [Subject.search,if_pos hn] at hnone
      have hin := ha.complete _ i hi (Out.mark_found_none.mp hnone) _ _ hp
        fun m hm => hnine m (List.mem_cons_of_mem _ (List.mem_append_left _ hm))
      exact Out.mark_found_none.mp hin
  · intro k i hi ms e hsome
    rw [Subject.search] at hsome
    split_ifs at hsome with hn
    · obtain ⟨ms',hfound,rfl⟩ := Out.mark_found_some (show (Out.mark _ _).found = _ from hsome)
      obtain ⟨ms1,j,ms2,hp,hnine,hj,rfl⟩ := ha.sound _ i hi ms' e hfound
      obtain ⟨ms3,hk,rfl⟩ := Out.mark_found_some hj
      refine ⟨.start n i::ms1 ++ [.stop n j],j,ms3,.group hp,?_,hk,by simp⟩
      intro m hm
      obtain hm | hm := List.mem_cons.mp hm
      · exact hm ▸ hn
      · obtain hm | hm := List.mem_append.mp hm
        · exact hnine m hm
        · exact List.mem_singleton.mp hm ▸ hn
    · cases hsome

/-- A tree with width takes at least one character. -/
theorem lt (ha : Agrees T a p) (hok : a.Ok) (hw : a.wide = true) {i j : ℕ} {ms : List Mark}
    (hp : Path T.subj p i ms j) (hn : Nine ms) : i < j := by
  have hi : i ≤ T.subj.length := hp.le.1.trans hp.le.2
  obtain hlt | rfl := lt_or_eq_of_le hp.le.1
  · exact hlt
  · -- a search that goes on at `i` only finds nothing
    let k : ℕ → Out := fun l => if l = i then ⟨[],some ([],0)⟩ else .fail
    have heq : T.search a k i = T.search a (fun _ => .fail) i := by
      apply Subject.search_congr hok hi
      intro l _ _ hlt
      exact if_neg (hlt hw).ne'
    have hnone : (T.search a k i).found = none := by
      rw [heq]
      cases hfound : (T.search a (fun _ => .fail) i).found with
      | none => rfl
      | some r =>
        obtain ⟨_,_,_,_,_,hf,_⟩ := ha.sound _ i hi r.1 r.2 hfound
        cases hf
    have hk := ha.complete k i hi hnone ms i hp hn
    simp [k] at hk

theorem loop (ha : Agrees T a p) (hok : a.Ok) (hw : a.wide = true) : Agrees T (.loop a) (.star p) := by
  constructor
  · intro k i hi hnone ms j hpath hnine
    induction hleft : T.subj.length-i using Nat.strong_induction_on generalizing i ms with
    | _ left ih =>
      rw [Subject.search_loop hok hw k hi] at hnone
      obtain ⟨hna,hnk⟩ := Out.orElse_found_none.mp hnone
      cases hpath with
      | starNil _ => exact hnk
      | @starCons _ _ m _ ms1 ms2 hp hq =>
        obtain ⟨hn1,hn2⟩ := nine_append.mp hnine
        have hlt := ha.lt hok hw hp hn1
        have hm := hp.le.2
        exact ih (T.subj.length-m) (by omega) m hm (ha.complete _ i hi hna _ _ hp hn1) ms2 hq hn2 rfl
  · intro k i hi ms e hsome
    induction hleft : T.subj.length-i using Nat.strong_induction_on generalizing i ms with
    | _ left ih =>
      rw [Subject.search_loop hok hw k hi] at hsome
      obtain hsome | hsome := Out.orElse_found_some hsome
      · obtain ⟨ms1,m,ms2,hp,hn,hm,rfl⟩ := ha.sound _ i hi ms e hsome
        have hlt := ha.lt hok hw hp hn
        have hle := hp.le.2
        obtain ⟨ms3,l,ms4,hq,hn',hl,rfl⟩ := ih (T.subj.length-m) (by omega) m hle ms2 hm rfl
        exact ⟨ms1 ++ ms3,l,ms4,.starCons hp hq,nine_append.mpr ⟨hn,hn'⟩,hl,(List.append_assoc _ _ _).symm⟩
      · exact ⟨[],i,ms,.starNil hi,nine_nil,hsome,rfl⟩

theorem loop1 (ha : Agrees T a p) (hok : a.Ok) (hw : a.wide = true) : Agrees T (.loop1 a) (.plus p) := by
  have hl := ha.loop hok hw
  constructor
  · intro k i hi hnone ms j hpath hnine
    rw [Subject.search_loop1 hok hw k hi] at hnone
    cases hpath with
    | plus hp hq =>
      obtain ⟨hn,hn'⟩ := nine_append.mp hnine
      exact hl.complete k _ hp.le.2 (ha.complete _ i hi hnone _ _ hp hn) _ _ hq hn'
  · intro k i hi ms e hsome
    rw [Subject.search_loop1 hok hw k hi] at hsome
    obtain ⟨ms1,j,ms2,hp,hn,hj,rfl⟩ := ha.sound _ i hi ms e hsome
    obtain ⟨ms3,l,ms4,hq,hn',hl',rfl⟩ := hl.sound k j hp.le.2 ms2 e hj
    exact ⟨ms1 ++ ms3,l,ms4,.plus hp hq,nine_append.mpr ⟨hn,hn'⟩,hl',(List.append_assoc _ _ _).symm⟩

end Agrees

/-- Texts without a zero byte, searched with regard to case. -/
structure Plain (T : Subject) : Prop where
  sensitive : T.sensitive = true
  nul : 0 ∉ T.subj

variable {T : Subject}

theorem Plain.at_eq_zero (h : Plain T) {i : ℕ} : T.at_ i = 0 ↔ T.subj.length ≤ i := by
  constructor
  · intro hat
    by_contra hi
    have hlt := not_le.mp hi
    apply h.nul
    rw [← hat,Subject.at_,List.getD_eq_getElem _ _ hlt]
    exact List.getElem_mem hlt
  · exact fun hi => List.getD_eq_default _ _ hi

/-- The node and the expression take one character, and the same. -/
def TakesOne (T : Subject) (l : Leaf) (p : Pat) : Prop :=
  ∀ i ms j, Path T.subj p i ms j ↔ ms = [] ∧ j = i+1 ∧ ∃ c, T.subj[i]? = some c ∧ T.takes l c = true

theorem drop_eq_cons {s : Bytes} {i : ℕ} {c : Byte} (h : s[i]? = some c) : s.drop i = c::s.drop (i+1) := by
  obtain ⟨hi,rfl⟩ := List.getElem?_eq_some_iff.mp h
  exact List.drop_eq_getElem_cons hi

theorem repeats_of_takes {l : Leaf} {i : ℕ} {c : Byte} (h : T.subj[i]? = some c) (ht : T.takes l c = true) :
    T.repeats l i = T.repeats l (i+1)+1 := by
  rw [Subject.repeats,drop_eq_cons h,List.takeWhile_cons_of_pos ht]
  rfl

/-- Where a node is repeated, it takes a character. -/
theorem takes_of_repeats {l : Leaf} {i : ℕ} (h : T.repeats l i ≠ 0) :
    ∃ c, T.subj[i]? = some c ∧ T.takes l c = true := by
  have hi : i < T.subj.length := by
    have hle := T.repeats_le l i
    omega
  have hget := List.getElem?_eq_getElem hi
  refine ⟨_,hget,?_⟩
  by_contra ht
  rw [Subject.repeats,drop_eq_cons hget,List.takeWhile_cons_of_neg ht] at h
  exact h rfl

theorem mem_stops {plus isLazy : Bool} {l : Leaf} {i j : ℕ} : j ∈ T.stops plus isLazy l i ↔
    ∃ m, (plus = true → 1 ≤ m) ∧ m ≤ T.repeats l i ∧ j = i+m := by
  have hmem : j ∈ T.stops plus isLazy l i ↔ j ∈ (List.range' (if plus then 1 else 0)
      (T.repeats l i+1-if plus then 1 else 0)).map (i+·) := by
    cases isLazy with
    | true => exact Iff.rfl
    | false => exact List.mem_reverse
  rw [hmem,List.mem_map]
  cases plus with
  | true =>
    simp only [List.mem_range'_1,if_true,forall_const]
    constructor
    · rintro ⟨m,hm,heq⟩
      exact ⟨m,hm.1,by omega,heq.symm⟩
    · rintro ⟨m,hpos,hm,heq⟩
      exact ⟨m,⟨hpos,by omega⟩,heq.symm⟩
  | false =>
    simp only [List.mem_range'_1,Bool.false_eq_true,if_false,false_implies,true_and]
    constructor
    · rintro ⟨m,hm,heq⟩
      exact ⟨m,by omega,heq.symm⟩
    · rintro ⟨m,hm,heq⟩
      exact ⟨m,⟨Nat.zero_le _,by omega⟩,heq.symm⟩

namespace TakesOne
variable {l : Leaf} {p : Pat}

/-- A star goes as far as the node can be repeated. -/
theorem of_star (h : TakesOne T l p) {i j : ℕ} {ms : List Mark} (hpath : Path T.subj (.star p) i ms j) :
    ms = [] ∧ i ≤ j ∧ j ≤ i+T.repeats l i := by
  generalize hq : Pat.star p = q at hpath
  induction hpath with
  | starNil hi => exact ⟨rfl,le_rfl,by omega⟩
  | starCons hp _ _ ih =>
    cases hq
    obtain ⟨rfl,rfl,c,hc,ht⟩ := (h _ _ _).mp hp
    obtain ⟨rfl,hle,hj⟩ := ih rfl
    rw [repeats_of_takes hc ht]
    exact ⟨rfl,by omega,by omega⟩
  | _ => cases hq

theorem star (h : TakesOne T l p) {i m : ℕ} (hi : i ≤ T.subj.length) (hm : m ≤ T.repeats l i) :
    Path T.subj (.star p) i [] (i+m) := by
  induction m generalizing i with
  | zero => exact .starNil hi
  | succ m ih =>
    obtain ⟨c,hc,ht⟩ := takes_of_repeats (show T.repeats l i ≠ 0 by omega)
    have hone := (h i [] (i+1)).mpr ⟨rfl,rfl,c,hc,ht⟩
    rw [repeats_of_takes hc ht] at hm
    have hrest := ih hone.le.2 (by omega)
    rw [Nat.add_assoc,Nat.add_comm 1 m] at hrest
    exact .starCons hone hrest

end TakesOne

namespace Agrees
variable {l : Leaf} {p q : Pat} {a b : Rx}

theorem rep_star (h : TakesOne T l p) (isLazy : Bool) : Agrees T (.rep false isLazy l) (.star p) := by
  constructor
  · intro k i hi hnone ms j hpath _
    obtain ⟨-,hle,hj⟩ := h.of_star hpath
    apply firstOf_found_none hnone
    exact mem_stops.mpr ⟨j-i,nofun,by omega,by omega⟩
  · intro k i hi ms e hsome
    obtain ⟨j,hj,hsome⟩ := firstOf_found_some hsome
    obtain ⟨m,-,hm,rfl⟩ := mem_stops.mp hj
    exact ⟨[],i+m,ms,h.star hi hm,nine_nil,hsome,rfl⟩

theorem rep_plus (h : TakesOne T l p) (isLazy : Bool) : Agrees T (.rep true isLazy l) (.plus p) := by
  constructor
  · intro k i hi hnone ms j hpath _
    cases hpath with
    | plus hp hq =>
      obtain ⟨rfl,rfl,c,hc,ht⟩ := (h _ _ _).mp hp
      obtain ⟨-,hle,hj⟩ := h.of_star hq
      have hrep := repeats_of_takes hc ht
      apply firstOf_found_none hnone
      exact mem_stops.mpr ⟨j-i,fun _ => by omega,by omega,by omega⟩
  · intro k i hi ms e hsome
    obtain ⟨j,hj,hsome⟩ := firstOf_found_some hsome
    obtain ⟨m,hpos,hm,rfl⟩ := mem_stops.mp hj
    obtain ⟨n,rfl⟩ : ∃ n, m = n+1 := ⟨m-1,by have hp := hpos rfl; omega⟩
    obtain ⟨c,hc,ht⟩ := takes_of_repeats (show T.repeats l i ≠ 0 by omega)
    rw [repeats_of_takes hc ht] at hm
    have hone := (h i [] (i+1)).mpr ⟨rfl,rfl,c,hc,ht⟩
    have hrest := h.star hone.le.2 (show n ≤ T.repeats l (i+1) by omega)
    rw [Nat.add_assoc,Nat.add_comm 1 n] at hrest
    exact ⟨[],i+(n+1),ms,.plus hone hrest,nine_nil,hsome,rfl⟩

end Agrees

theorem sameChar_eq (h : Plain T) (a b : Byte) : sameChar T.sensitive a b = (a == b) := by
  rw [sameChar,h.sensitive,if_pos rfl]

theorem beginsWith_iff (h : Plain T) {s t : Bytes} : beginsWith T.sensitive s t = true ↔ s <+: t := by
  induction s generalizing t with
  | nil => exact iff_of_true rfl (List.nil_prefix)
  | cons a s ih =>
    cases t with
    | nil =>
      constructor
      · intro hf
        cases hf
      · intro hpre
        cases List.prefix_nil.mp hpre
    | cons b t =>
      rw [beginsWith,sameChar_eq h,Bool.and_eq_true,beq_iff_eq,ih,List.cons_prefix_cons]

/-- The first character decides alone where the string is no longer than that. -/
theorem step_exactly_eq (T : Subject) (c : Byte) (cs : Bytes) (i : ℕ) : T.step i (.exactly (c::cs)) =
    if c = T.at_ i ∧ (cs = [] ∨ beginsWith T.sensitive (c::cs) (T.subj.drop i) = true) then
      some (i+(c::cs).length)
    else none := by
  unfold Subject.step
  have hlen : 1 < (c::cs).length ↔ cs ≠ [] := by
    rw [List.length_cons,← List.length_pos_iff]
    omega
  simp only [List.headD_cons,hlen]
  by_cases hc : c = T.at_ i
  · simp only [hc,ne_eq,not_true_eq_false,if_false,true_and]
    by_cases hcs : cs = []
    · simp [hcs]
    · cases beginsWith T.sensitive (T.at_ i::cs) (T.subj.drop i) with
      | true => simp [hcs]
      | false => simp [hcs]
  · simp [hc]

/-- A string is matched where the text goes on with it. -/
theorem step_exactly (h : Plain T) {s : Bytes} (hs : (Leaf.exactly s).Ok) (i : ℕ) :
    T.step i (.exactly s) = if s <+: T.subj.drop i then some (i+s.length) else none := by
  obtain ⟨hnul,hne⟩ := hs
  cases s with
  | nil => exact absurd rfl hne
  | cons c cs =>
    rw [step_exactly_eq]
    congr 1
    apply propext
    rw [beginsWith_iff h]
    constructor
    · rintro ⟨hc,hcs⟩
      obtain rfl | hpre := hcs
      · have hi : i < T.subj.length := by
          apply T.lt_of_at
          rw [← hc]
          exact Subject.headD_ne_zero hnul hne
        rw [hc,Subject.at_,List.getD_eq_getElem _ _ hi,List.drop_eq_getElem_cons hi]
        exact ⟨_,rfl⟩
      · exact hpre
    · intro hpre
      obtain ⟨t,ht⟩ := hpre
      have hget : T.subj[i]? = some c := by
        rw [← Nat.add_zero i,← List.getElem?_drop,← ht]
        rfl
      exact ⟨by rw [Subject.at_,List.getD_eq_getElem?_getD,hget]; rfl,.inr ⟨t,ht⟩⟩

/-- The characters of a string, one by one. -/
def chars (cs : Bytes) (q : Pat) : Pat := cs.foldr (fun c q => .seq (.chr c) q) q

/-- The characters match where the text goes on with them. -/
theorem path_chars {s cs : Bytes} {q : Pat} {i j : ℕ} {ms : List Mark} :
    Path s (chars cs q) i ms j ↔ cs <+: s.drop i ∧ Path s q (i+cs.length) ms j := by
  induction cs generalizing i ms with
  | nil => exact ⟨fun h => ⟨List.nil_prefix,h⟩,fun h => h.2⟩
  | cons c cs ih =>
    have hidx : i+1+cs.length = i+(c::cs).length := by
      rw [List.length_cons]
      omega
    constructor
    · intro h
      cases h with
      | seq hp hq =>
        cases hp with
        | chr hc =>
          obtain ⟨hpre,hq⟩ := ih.mp hq
          rw [hidx] at hq
          exact ⟨by rw [drop_eq_cons hc]; exact List.cons_prefix_cons.mpr ⟨rfl,hpre⟩,hq⟩
    · rintro ⟨⟨t,ht⟩,hq⟩
      have hc : s[i]? = some c := by
        rw [← Nat.add_zero i,← List.getElem?_drop,← ht]
        rfl
      rw [drop_eq_cons hc,List.cons_append] at ht
      rw [← hidx] at hq
      exact .seq (.chr hc) (ih.mpr ⟨⟨t,(List.cons.inj ht).2⟩,hq⟩)

namespace TakesOne

theorem exactly (h : Plain T) (c : Byte) : TakesOne T (.exactly [c]) (.chr c) := by
  intro i ms j
  constructor
  · intro hpath
    cases hpath with
    | chr hc => exact ⟨rfl,rfl,c,hc,by rw [Subject.takes,List.headD_cons,sameChar_eq h,beq_self_eq_true]⟩
  · rintro ⟨hms,hj,d,hd,ht⟩
    rw [Subject.takes,List.headD_cons,sameChar_eq h,beq_iff_eq] at ht
    rw [hms,hj]
    exact .chr (ht ▸ hd)

theorem any : TakesOne T .any .any := by
  intro i ms j
  constructor
  · intro hpath
    cases hpath with
    | any hi => exact ⟨rfl,rfl,_,List.getElem?_eq_getElem hi,rfl⟩
  · rintro ⟨hms,hj,d,hd,_⟩
    rw [hms,hj]
    exact .any (List.getElem?_eq_some_iff.mp hd).1

theorem anyof {cs : Bytes} {items : List (Byte × Byte)} (h : ∀ c, c ∈ cs ↔ InClass items c) :
    TakesOne T (.anyof cs) (.cls false items) := by
  intro i ms j
  constructor
  · intro hpath
    cases hpath with
    | cls hc hin => exact ⟨rfl,rfl,_,hc,List.contains_iff_mem.mpr ((h _).mpr (hin.mpr rfl))⟩
  · rintro ⟨hms,hj,d,hd,ht⟩
    rw [hms,hj]
    exact .cls hd (iff_of_true ((h d).mp (List.contains_iff_mem.mp ht)) rfl)

theorem anybut {cs : Bytes} {items : List (Byte × Byte)} (h : ∀ c, c ∈ cs ↔ InClass items c) :
    TakesOne T (.anybut cs) (.cls true items) := by
  intro i ms j
  constructor
  · intro hpath
    cases hpath with
    | @cls _ _ c _ hc hin =>
      refine ⟨rfl,rfl,c,hc,?_⟩
      rw [Subject.takes,Bool.not_eq_true',Bool.eq_false_iff]
      intro hmem
      have hf := hin.mp ((h c).mp (List.contains_iff_mem.mp hmem))
      cases hf
  · rintro ⟨hms,hj,d,hd,ht⟩
    rw [Subject.takes,Bool.not_eq_true'] at ht
    rw [hms,hj]
    refine .cls hd (iff_of_false ?_ (by rintro ⟨⟩))
    intro hin
    rw [List.contains_iff_mem.mpr ((h d).mpr hin)] at ht
    cases ht

/-- The node leads one character on. -/
theorem agrees {l : Leaf} {p : Pat} (h : TakesOne T l p) (hstep : ∀ i j, T.step i l = some j ↔
    j = i+1 ∧ ∃ c, T.subj[i]? = some c ∧ T.takes l c = true) : Agrees T (.leaf l) p :=
  .leaf fun i ms j _ => by rw [h,hstep]

end TakesOne

theorem at_of_getElem? {i : ℕ} {c : Byte} (h : T.subj[i]? = some c) : T.at_ i = c := by
  rw [Subject.at_,List.getD_eq_getElem?_getD,h]
  rfl

namespace Agrees

theorem any (h : Plain T) : Agrees T (.leaf .any) .any := by
  apply TakesOne.any.agrees
  intro i j
  rw [Subject.step]
  split_ifs with hat
  · constructor
    · intro hf
      cases hf
    · rintro ⟨_,c,hc,_⟩
      have hi := h.at_eq_zero.mp hat
      rw [List.getElem?_eq_none hi] at hc
      cases hc
  · have hi := T.lt_of_at hat
    constructor
    · intro hj
      exact ⟨(Option.some.inj hj).symm,_,List.getElem?_eq_getElem hi,rfl⟩
    · rintro ⟨hj,_⟩
      rw [hj]

theorem anyof {cs : Bytes} {items : List (Byte × Byte)} (hcs : ∀ c, c ∈ cs ↔ InClass items c)
    (hnul : 0 ∉ cs) : Agrees T (.leaf (.anyof cs)) (.cls false items) := by
  apply (TakesOne.anyof hcs).agrees
  intro i j
  rw [Subject.step]
  split_ifs with hat
  · constructor
    · intro hf
      cases hf
    · rintro ⟨_,c,hc,ht⟩
      have hac := at_of_getElem? hc
      rw [hac] at hat
      have hmem := List.contains_iff_mem.mp ht
      obtain rfl | hnot := hat
      · exact absurd hmem hnul
      · exact absurd hmem hnot
  · obtain ⟨hne,hmem⟩ := not_or.mp hat
    have hi := T.lt_of_at hne
    rw [Subject.at_,List.getD_eq_getElem _ _ hi,not_not] at hmem
    constructor
    · intro hj
      exact ⟨(Option.some.inj hj).symm,_,List.getElem?_eq_getElem hi,List.contains_iff_mem.mpr hmem⟩
    · rintro ⟨hj,_⟩
      rw [hj]

theorem anybut (h : Plain T) {cs : Bytes} {items : List (Byte × Byte)}
    (hcs : ∀ c, c ∈ cs ↔ InClass items c) : Agrees T (.leaf (.anybut cs)) (.cls true items) := by
  apply (TakesOne.anybut hcs).agrees
  intro i j
  rw [Subject.step]
  split_ifs with hat
  · constructor
    · intro hf
      cases hf
    · rintro ⟨_,c,hc,ht⟩
      have hac := at_of_getElem? hc
      obtain h0 | hmem := hat
      · have hi := h.at_eq_zero.mp h0
        rw [List.getElem?_eq_none hi] at hc
        cases hc
      · rw [hac] at hmem
        rw [Subject.takes,Bool.not_eq_true',List.contains_iff_mem.mpr hmem] at ht
        cases ht
  · obtain ⟨hne,hmem⟩ := not_or.mp hat
    have hi := T.lt_of_at hne
    rw [Subject.at_,List.getD_eq_getElem _ _ hi] at hmem
    constructor
    · intro hj
      refine ⟨(Option.some.inj hj).symm,_,List.getElem?_eq_getElem hi,?_⟩
      rw [Subject.takes,Bool.not_eq_true',Bool.eq_false_iff]
      exact fun hc => hmem (List.contains_iff_mem.mp hc)
    · rintro ⟨hj,_⟩
      rw [hj]

theorem bol : Agrees T (.leaf .bol) .bol := by
  apply leaf
  intro i ms j _
  rw [Subject.step]
  constructor
  · intro hp
    cases hp with
    | bol => exact ⟨rfl,rfl⟩
  · rintro ⟨hms,hj⟩
    split_ifs at hj with hi
    rw [hms,← Option.some.inj hj,not_not.mp hi]
    exact .bol

theorem eol (h : Plain T) : Agrees T (.leaf .eol) .eol := by
  apply leaf
  intro i ms j hi
  rw [Subject.step]
  constructor
  · intro hp
    cases hp with
    | eol => exact ⟨rfl,if_neg (not_not.mpr (h.at_eq_zero.mpr le_rfl))⟩
  · rintro ⟨hms,hj⟩
    split_ifs at hj with hat
    have heq : i = T.subj.length := le_antisymm hi (h.at_eq_zero.mp (not_not.mp hat))
    rw [hms,← Option.some.inj hj,heq]
    exact .eol

theorem worda : Agrees T (.leaf .worda) .wordStart := by
  apply leaf
  intro i ms j _
  rw [Subject.step]
  constructor
  · intro hp
    cases hp with
    | wordStart h hprev =>
      refine ⟨rfl,?_⟩
      change isword (T.at_ i) = true at h
      rw [if_neg (not_not.mpr h),if_neg]
      rintro ⟨hpos,hword⟩
      obtain rfl | hprev := hprev
      · exact absurd hpos (lt_irrefl 0)
      · exact absurd (hprev.symm.trans hword) Bool.false_ne_true
  · rintro ⟨hms,hj⟩
    split_ifs at hj with hword hprev
    rw [hms,← Option.some.inj hj]
    refine .wordStart hword ?_
    obtain rfl | hpos := Nat.eq_zero_or_pos i
    · exact .inl rfl
    · exact .inr (Bool.eq_false_iff.mpr fun hw => hprev ⟨hpos,hw⟩)

theorem wordz : Agrees T (.leaf .wordz) .wordEnd := by
  apply leaf
  intro i ms j hi
  rw [Subject.step]
  constructor
  · intro hp
    cases hp with
    | wordEnd _ h => exact ⟨rfl,if_neg (Bool.eq_false_iff.mp h)⟩
  · rintro ⟨hms,hj⟩
    split_ifs at hj with hword
    rw [hms,← Option.some.inj hj]
    exact .wordEnd hi (Bool.eq_false_iff.mpr hword)

theorem nothing : Agrees T (.leaf .nothing) .empty := by
  apply leaf
  intro i ms j hi
  rw [Subject.step]
  constructor
  · intro hp
    cases hp with
    | empty _ => exact ⟨rfl,rfl⟩
  · rintro ⟨hms,hj⟩
    rw [hms,← Option.some.inj hj]
    exact .empty hi

/-- A string in front of what a tree means. -/
theorem exactly_seq (h : Plain T) {s : Bytes} (hs : (Leaf.exactly s).Ok) {b : Rx} {q : Pat}
    (hb : Agrees T b q) : Agrees T (.seq (.leaf (.exactly s)) b) (chars s q) := by
  constructor
  · intro k i hi hnone ms j hpath hnine
    obtain ⟨hpre,hq⟩ := path_chars.mp hpath
    rw [Subject.search,Subject.search,step_exactly h hs,if_pos hpre] at hnone
    exact hb.complete k _ (hq.le.1.trans hq.le.2) hnone _ _ hq hnine
  · intro k i hi ms e hsome
    rw [Subject.search,Subject.search,step_exactly h hs] at hsome
    split_ifs at hsome with hpre
    · have hlen := hpre.length_le
      rw [List.length_drop] at hlen
      obtain ⟨ms1,j,ms2,hq,hn,hj,heq⟩ := hb.sound k (i+s.length) (by omega) ms e hsome
      exact ⟨ms1,j,ms2,path_chars.mpr ⟨hpre,hq⟩,hn,hj,heq⟩
    · cases hsome

end Agrees
end Smx.Regx
