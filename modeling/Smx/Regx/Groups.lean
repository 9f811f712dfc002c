import Smx.Regx.Exact

/-! What is reported of the groups: those of the match, unless a slot has been left from before. -/
namespace Smx.Regx
open Subject CRegX
variable {T : Subject} {a b r : Rx} {i j e n : ℕ} {ms ms' : List Mark}

def Mark.pos : Mark → ℕ
  | .start _ i => i
  | .stop _ i => i

/-- Marks between `i` and `j`, in order; each start of a group is followed by a stop, and where a group
stops it has started. -/
structure Span (i : ℕ) (ms : List Mark) (j : ℕ) : Prop where
  le : i ≤ j
  within : ∀ m ∈ ms, i ≤ m.pos ∧ m.pos ≤ j
  sorted : ms.Pairwise fun m m' => m.pos ≤ m'.pos
  followed : ∀ l1 n k l2, ms = l1 ++ .start n k::l2 → ∃ k', .stop n k' ∈ l2
  started : ∀ n k, .stop n k ∈ ms → ∃ k', .start n k' ∈ ms

namespace Span

theorem refl (i : ℕ) : Span i [] i :=
  ⟨le_rfl,nofun,.nil,fun l1 n k l2 h => absurd h (by simp),nofun⟩

theorem nil (h : i ≤ j) : Span i [] j :=
  ⟨h,nofun,.nil,fun l1 n k l2 h => absurd h (by simp),nofun⟩

theorem trans (h : Span i ms j) (h' : Span j ms' e) : Span i (ms ++ ms') e where
  le := h.le.trans h'.le
  within := by
    intro m hm
    obtain hm | hm := List.mem_append.mp hm
    · exact ⟨(h.within m hm).1,(h.within m hm).2.trans h'.le⟩
    · exact ⟨h.le.trans (h'.within m hm).1,(h'.within m hm).2⟩
  sorted := by
    refine List.pairwise_append.mpr ⟨h.sorted,h'.sorted,?_⟩
    intro m hm m' hm'
    exact (h.within m hm).2.trans (h'.within m' hm').1
  followed := by
    intro l1 n k l2 heq
    obtain ⟨l,rfl,hl⟩ | ⟨l,rfl,hl⟩ := List.append_eq_append_iff.mp heq
    · obtain ⟨k',hk'⟩ := h'.followed l n k l2 hl
      exact ⟨k',hk'⟩
    · cases l with
      | nil =>
        obtain ⟨k',hk'⟩ := h'.followed [] n k l2 hl.symm
        exact ⟨k',hk'⟩
      | cons m l =>
        obtain ⟨rfl,rfl⟩ := List.cons.inj hl
        obtain ⟨k',hk'⟩ := h.followed l1 n k l rfl
        exact ⟨k',List.mem_append_left _ hk'⟩
  started := by
    intro n k hm
    obtain hm | hm := List.mem_append.mp hm
    · exact (h.started n k hm).imp fun _ => List.mem_append_left _
    · exact (h'.started n k hm).imp fun _ => List.mem_append_right _

theorem group (h : Span i ms j) (n : ℕ) : Span i (.start n i::ms ++ [.stop n j]) j where
  le := h.le
  within := by
    intro m hm
    obtain rfl | hm := List.mem_cons.mp hm
    · exact ⟨le_rfl,h.le⟩
    · obtain hm | hm := List.mem_append.mp hm
      · exact h.within m hm
      · obtain rfl := List.mem_singleton.mp hm
        exact ⟨h.le,le_rfl⟩
  sorted := by
    refine List.pairwise_append.mpr ⟨List.pairwise_cons.mpr ⟨fun m hm => (h.within m hm).1,h.sorted⟩,
      List.pairwise_singleton _ _,?_⟩
    intro m hm m' hm'
    obtain rfl := List.mem_singleton.mp hm'
    obtain rfl | hm := List.mem_cons.mp hm
    · exact h.le
    · exact (h.within m hm).2
  followed := by
    intro l1 n' k l2 heq
    cases l1 with
    | nil =>
      obtain ⟨hhead,rfl⟩ := List.cons.inj heq
      cases hhead
      exact ⟨j,List.mem_append_right _ (List.mem_singleton.mpr rfl)⟩
    | cons m l1 =>
      obtain ⟨-,hrest⟩ := List.cons.inj heq
      obtain ⟨l,rfl,hl⟩ | ⟨l,rfl,hl⟩ := List.append_eq_append_iff.mp hrest
      · cases l with
        | nil => cases (List.cons.inj hl).1
        | cons m' l => exact absurd (List.cons.inj hl).2 (by simp)
      · cases l with
        | nil => cases (List.cons.inj hl).1
        | cons m' l =>
          obtain ⟨rfl,rfl⟩ := List.cons.inj hl
          obtain ⟨k',hk'⟩ := h.followed l1 n' k l rfl
          exact ⟨k',List.mem_append_left _ hk'⟩
  started := by
    intro n' k hm
    obtain hm | hm := List.mem_cons.mp hm
    · cases hm
    · obtain hm | hm := List.mem_append.mp hm
      · exact (h.started n' k hm).imp fun _ hk => List.mem_cons_of_mem _ (List.mem_append_left _ hk)
      · cases List.mem_singleton.mp hm
        exact ⟨i,List.mem_cons_self⟩

end Span

/-- What is found of a tree is a span, behind which the search goes on. -/
def Spans (T : Subject) (r : Rx) : Prop := ∀ k i, i ≤ T.subj.length → ∀ ms e,
  (T.search r k i).found = some (ms,e) → ∃ ms1 j ms2, Span i ms1 j ∧ j ≤ T.subj.length ∧
    (k j).found = some (ms2,e) ∧ ms = ms1 ++ ms2

theorem Spans.loop (ha : Spans T a) : Spans T (.loop a) := by
  intro k i hi ms e hsome
  rw [search] at hsome
  generalize T.subj.length+1-i = n at hsome
  induction n generalizing i ms with
  | zero => exact ⟨[],i,ms,.refl i,hi,hsome,rfl⟩
  | succ n ih =>
    obtain hsome | hsome := Out.orElse_found_some hsome
    · obtain ⟨ms1,m,ms2,hspan,hm,hrest,rfl⟩ := ha _ i hi ms e hsome
      obtain ⟨ms3,l,ms4,hspan',hl,hrest',rfl⟩ := ih m hm ms2 hrest
      exact ⟨ms1 ++ ms3,l,ms4,hspan.trans hspan',hl,hrest',(List.append_assoc _ _ _).symm⟩
    · exact ⟨[],i,ms,.refl i,hi,hsome,rfl⟩

theorem spans (hr : r.Ok) : Spans T r := by
  induction r with
  | leaf l =>
    intro k i hi ms e hsome
    cases hstep : T.step i l with
    | none =>
      rw [search,hstep] at hsome
      cases hsome
    | some j =>
      rw [search,hstep] at hsome
      obtain ⟨hij,hj,-⟩ := step_le hr hi hstep
      exact ⟨[],j,ms,.nil hij,hj,hsome,rfl⟩
  | seq a b iha ihb =>
    intro k i hi ms e hsome
    obtain ⟨ms1,m,ms2,hspan,hm,hrest,rfl⟩ := iha hr.1 _ i hi ms e hsome
    obtain ⟨ms3,l,ms4,hspan',hl,hrest',rfl⟩ := ihb hr.2.1 k m hm ms2 e hrest
    exact ⟨ms1 ++ ms3,l,ms4,hspan.trans hspan',hl,hrest',(List.append_assoc _ _ _).symm⟩
  | last b ih => exact ih hr.1
  | alt b a ihb iha =>
    intro k i hi ms e hsome
    obtain hsome | hsome := Out.orElse_found_some hsome
    · exact ihb hr.1 k i hi ms e hsome
    · exact iha hr.2.1 k i hi ms e hsome
  | group n a ih =>
    intro k i hi ms e hsome
    rw [search] at hsome
    split_ifs at hsome with hn
    · obtain ⟨ms',hfound,rfl⟩ := Out.mark_found_some (show (Out.mark _ _).found = _ from hsome)
      obtain ⟨ms1,j,ms2,hspan,hj,hrest,rfl⟩ := ih hr.2.1 _ i hi ms' e hfound
      obtain ⟨ms3,hk,rfl⟩ := Out.mark_found_some hrest
      exact ⟨_,j,ms3,hspan.group n,hj,hk,by simp⟩
    · cases hsome
  | rep plus isLazy l =>
    intro k i hi ms e hsome
    obtain ⟨j,hj,hsome⟩ := firstOf_found_some hsome
    obtain ⟨hij,hj,-⟩ := stops_le hi hj
    exact ⟨[],j,ms,.nil hij,hj,hsome,rfl⟩
  | loop a ih => exact (ih hr.1).loop
  | loop1 a ih =>
    intro k i hi ms e hsome
    rw [search_loop1 hr.1 hr.2.1 k hi] at hsome
    obtain ⟨ms1,m,ms2,hspan,hm,hrest,rfl⟩ := ih hr.1 _ i hi ms e hsome
    obtain ⟨ms3,l,ms4,hspan',hl,hrest',rfl⟩ := (ih hr.1).loop k m hm ms2 e hrest
    exact ⟨ms1 ++ ms3,l,ms4,hspan.trans hspan',hl,hrest',(List.append_assoc _ _ _).symm⟩
  | opt a ih =>
    intro k i hi ms e hsome
    obtain hsome | hsome := Out.orElse_found_some hsome
    · exact ih hr.1 k i hi ms e hsome
    · exact ⟨[],i,ms,.refl i,hi,hsome,rfl⟩

/-- The marks of a match lie in it. -/
theorem span_of_found (hr : r.Ok) (hi : i ≤ T.subj.length) (h : (T.search r done i).found = some (ms,e)) :
    Span i ms e ∧ e ≤ T.subj.length := by
  obtain ⟨ms1,j,ms2,hspan,hj,hrest,rfl⟩ := spans hr done i hi ms e h
  cases hrest
  rw [List.append_nil]
  exact ⟨hspan,hj⟩

/-- A group that is reported has been recorded, at its first start, or its slot was left from before. -/
theorem record_startp (input : ℕ) (ms : List Mark) (sl : Slots) (n : ℕ) :
    (∃ l1 k l2, ms = l1 ++ .start n k::l2 ∧
      (ms.foldr (Mark.record input) sl).startp n = some (input+k)) ∨
    (∀ k, .start n k ∉ ms) ∧ (ms.foldr (Mark.record input) sl).startp n = sl.startp n := by
  induction ms with
  | nil => exact .inr ⟨fun _ => List.not_mem_nil,rfl⟩
  | cons m ms ih =>
    rw [List.foldr_cons]
    cases m with
    | start n' k =>
      by_cases hn : n' = n
      · subst hn
        exact .inl ⟨[],k,ms,rfl,by rw [Mark.record,Slots.setStart]; simp⟩
      · have hsame : ((Mark.start n' k).record input (ms.foldr (Mark.record input) sl)).startp n =
            (ms.foldr (Mark.record input) sl).startp n := by
          rw [Mark.record,Slots.setStart]
          exact Function.update_of_ne (Ne.symm hn) _ _
        rw [hsame]
        obtain ⟨l1,k',l2,rfl,hk⟩ | ⟨hnot,hk⟩ := ih
        · exact .inl ⟨_::l1,k',l2,rfl,hk⟩
        · refine .inr ⟨fun k' hk' => ?_,hk⟩
          obtain heq | hk' := List.mem_cons.mp hk'
          · cases heq
            exact hn rfl
          · exact hnot k' hk'
    | stop n' k =>
      have hsame : ((Mark.stop n' k).record input (ms.foldr (Mark.record input) sl)).startp n =
          (ms.foldr (Mark.record input) sl).startp n := by
        rw [Mark.record,Slots.setEnd]
        split_ifs
        · rfl
        · rfl
      rw [hsame]
      obtain ⟨l1,k',l2,rfl,hk⟩ | ⟨hnot,hk⟩ := ih
      · exact .inl ⟨_::l1,k',l2,rfl,hk⟩
      · refine .inr ⟨fun k' hk' => ?_,hk⟩
        obtain heq | hk' := List.mem_cons.mp hk'
        · cases heq
        · exact hnot k' hk'

/-- The end of a group is that of its last stop, where the slot is free. -/
theorem record_endp (input : ℕ) (ms : List Mark) {sl : Slots} {n : ℕ} (h : sl.endp n = none) :
    (∃ l1 k l2, ms = l1 ++ .stop n k::l2 ∧ (∀ k', .stop n k' ∉ l2) ∧
      (ms.foldr (Mark.record input) sl).endp n = some (input+k)) ∨
    (∀ k, .stop n k ∉ ms) ∧ (ms.foldr (Mark.record input) sl).endp n = none := by
  induction ms with
  | nil => exact .inr ⟨fun _ => List.not_mem_nil,h⟩
  | cons m ms ih =>
    rw [List.foldr_cons]
    cases m with
    | start n' k =>
      obtain ⟨l1,k',l2,rfl,hlast,hk⟩ | ⟨hnot,hk⟩ := ih
      · exact .inl ⟨_::l1,k',l2,rfl,hlast,hk⟩
      · refine .inr ⟨fun k' hk' => ?_,hk⟩
        obtain heq | hk' := List.mem_cons.mp hk'
        · cases heq
        · exact hnot k' hk'
    | stop n' k =>
      by_cases hn : n' = n
      · subst hn
        obtain ⟨l1,k',l2,rfl,hlast,hk⟩ | ⟨hnot,hk⟩ := ih
        · refine .inl ⟨_::l1,k',l2,rfl,hlast,?_⟩
          rw [Mark.record,Slots.setEnd,if_neg (by rw [hk]; rintro ⟨⟩)]
          exact hk
        · refine .inl ⟨[],k,ms,rfl,hnot,?_⟩
          rw [Mark.record,Slots.setEnd,if_pos hk]
          simp
      · have hsame : ((Mark.stop n' k).record input (ms.foldr (Mark.record input) sl)).endp n =
            (ms.foldr (Mark.record input) sl).endp n := by
          rw [Mark.record,Slots.setEnd]
          split_ifs
          · exact Function.update_of_ne (Ne.symm hn) _ _
          · rfl
        rw [hsame]
        obtain ⟨l1,k',l2,rfl,hlast,hk⟩ | ⟨hnot,hk⟩ := ih
        · exact .inl ⟨_::l1,k',l2,rfl,hlast,hk⟩
        · refine .inr ⟨fun k' hk' => ?_,hk⟩
          obtain heq | hk' := List.mem_cons.mp hk'
          · cases heq
            exact hn rfl
          · exact hnot k' hk'

/-- A group that starts in a span stops there, and not before. -/
theorem Span.recorded (h : Span i ms e) {input : ℕ} {sl : Slots} (hend : sl.endp n = none)
    (hstart : ∃ k, .start n k ∈ ms) : ∃ k k', (ms.foldr (Mark.record input) sl).startp n = some (input+k) ∧
      (ms.foldr (Mark.record input) sl).endp n = some (input+k') ∧ i ≤ k ∧ k ≤ k' ∧ k' ≤ e := by
  obtain ⟨l1,k,l2,hms,hs⟩ | ⟨hnot,-⟩ := record_startp input ms sl n
  · obtain ⟨k1,hk1⟩ := h.followed l1 n k l2 hms
    have hsorted := h.sorted
    have hmem : .start n k ∈ ms := hms ▸ List.mem_append_right _ List.mem_cons_self
    have hle : k ≤ k1 := by
      rw [hms] at hsorted
      exact (List.pairwise_cons.mp (List.pairwise_append.mp hsorted).2.1).1 _ hk1
    obtain ⟨l3,k',l4,hms',hlast,he⟩ | ⟨hnot,-⟩ := record_endp input ms hend
    · have hmem' : Mark.stop n k' ∈ ms := hms' ▸ List.mem_append_right _ List.mem_cons_self
      have hk1' : .stop n k1 ∈ ms := hms ▸ List.mem_append_right _ (List.mem_cons_of_mem _ hk1)
      -- the stop behind the start comes no later than the last one
      have hle' : k1 ≤ k' := by
        rw [hms'] at hk1' hsorted
        obtain hk1' | hk1' := List.mem_append.mp hk1'
        · exact (List.pairwise_append.mp hsorted).2.2 _ hk1' _ List.mem_cons_self
        · obtain heq | hk1' := List.mem_cons.mp hk1'
          · cases heq
            exact le_rfl
          · exact absurd hk1' (hlast k1)
      exact ⟨k,k',hs,he,(h.within _ hmem).1,hle.trans hle',(h.within _ hmem').2⟩
    · exact absurd (hms ▸ List.mem_append_right _ (List.mem_cons_of_mem _ hk1)) (hnot k1)
  · exact absurd hstart.choose_spec (hnot _)

/-- A call of `Match` on an object. -/
structure Call where
  before : CRegX
  input : ℕ
  subj : Bytes
  result : ℕ
  after : CRegX

def Call.subject (c : Call) : Subject := ⟨c.before.sensitive,c.input,c.subj⟩

/-- Calls on one object, one behind the other. -/
def Calls : CRegX → List Call → Prop
  | _,[] => True
  | x,c::cs => c.before = x ∧ x.Returns c.input c.subj (c.result,c.after) ∧ Calls c.after cs

/-- The slots of the groups that a match passes over are free: wherever the search meets a group, those with
a lower number that have not been reset by this call are not in use any more, or hold no end where the match
enters them. -/
def Fresh (a : Rx) (c : Call) : Prop := ∀ i ms e, i ≤ c.subj.length →
  (c.subject.search a done i).found = some (ms,e) →
  (∀ i', i' < i → (c.subject.search a done i').found = none) →
  ∀ n m, 1 ≤ n → n ≤ m → m ∈ (c.subject.search a done i).met →
  (∀ j, j ≤ i → n ∉ resets 0 (c.subject.search a done j).met) →
    ((∃ k, .start n k ∈ ms) → c.before.slots.endp n = none) ∧
    ((∀ k, .start n k ∉ ms) → c.before.slots.startp n = none)

/-- A match has been found in the subject, and what is reported of a group lies in it and comes from it. -/
def Sound (a : Rx) (c : Call) : Prop := ∃ i ms e, c.result = i+1 ∧ e ≤ c.subj.length ∧
  (c.subject.search a done i).found = some (ms,e) ∧
  c.after.getMatchInfo 0 = some (c.input+i,some (c.input+e)) ∧
  ∀ n s t, 1 ≤ n → c.after.getMatchInfo n = some (s,t) → (∃ k, .start n k ∈ ms) ∧
    ∃ t', t = some t' ∧ c.input+i ≤ s ∧ s ≤ t' ∧ t' ≤ c.input+e

theorem exists_met_of_le {ns : List ℕ} {sl : Slots} {n : ℕ} (h0 : sl.subx_count = 0) (hn : 1 ≤ n)
    (h : n ≤ (ns.foldl Slots.open sl).subx_count) : ∃ m ∈ ns, n ≤ m := by
  have hmax (ns : List ℕ) (sl : Slots) : (ns.foldl Slots.open sl).subx_count = sl.subx_count ∨
      ∃ m ∈ ns, (ns.foldl Slots.open sl).subx_count = m := by
    induction ns generalizing sl with
    | nil => exact .inl rfl
    | cons m ns ih =>
      rw [List.foldl_cons]
      obtain heq | ⟨m',hm',heq⟩ := ih (sl.open m)
      · rw [heq,Slots.open]
        split_ifs
        · exact .inr ⟨m,List.mem_cons_self,rfl⟩
        · exact .inl rfl
      · exact .inr ⟨m',List.mem_cons_of_mem _ hm',heq⟩
  obtain heq | ⟨m,hm,heq⟩ := hmax ns sl
  · omega
  · exact ⟨m,hm,by omega⟩

/-- The state that a call leaves which finds a match: `sl` is what the groups were before it was recorded. -/
structure Left (a : Rx) (c : Call) (i : ℕ) (ms : List Mark) (e : ℕ) (sl : Slots) : Prop where
  result : c.result = i+1
  bound : i ≤ c.subj.length
  found : (c.subject.search a done i).found = some (ms,e)
  before : ∀ i', i' < i → (c.subject.search a done i').found = none
  slots : c.after.slots = (ms.foldr (Mark.record c.input) sl).setMatch (c.input+i) (c.input+e)
  count : 0 ≤ sl.subx_count
  met : ∀ n : ℕ, 1 ≤ n → n ≤ sl.subx_count → ∃ m ∈ (c.subject.search a done i).met, n ≤ m
  reset : Reset (fun n => ∃ j, j ≤ i ∧ n ∈ resets 0 (c.subject.search a done j).met) c.before.slots sl

theorem exists_left {sensitive : Bool} {exp : Bytes} {c : Call} (hc : Compiled sensitive exp c.before.prog a)
    (hret : c.before.Returns c.input c.subj (c.result,c.after)) (hr : c.result ≠ 0) :
    ∃ i ms e sl, Left a c i ms e sl := by
  have heq := hret.unique (runMatch_eventually hc.holds (hc.prefilters ⟨c.before.sensitive,c.input,c.subj⟩))
  rw [CRegX.searched] at heq
  split_ifs at heq
  · obtain ⟨hres,hafter⟩ := Prod.mk.inj heq
    obtain ⟨hzero,-⟩ | ⟨i,ms,e,sl,-,hi,hfound,hbefore,hcount,hreset,hrun⟩ := searches_spec c.subject a
      (c.subj.length+1) 0 { c.before.slots with subx_count := -1 }
    · exact absurd (hres.trans hzero) hr
    · refine ⟨i,ms,e,(c.subject.search a done i).met.foldl Slots.open sl,hres.trans (congrArg Prod.fst hrun),
        by omega,hfound,fun i' hi' => hbefore i' (Nat.zero_le i') hi',?_,?_,?_,?_⟩
      · rw [hafter]
        refine (congrArg Prod.snd hrun).trans ?_
        rw [Out.apply_of_some hfound]
        rfl
      · exact hcount ▸ open_subx_count_le _ sl
      · exact fun n hn hle => exists_met_of_le hcount hn hle
      · refine (hreset.trans (Reset.of_foldl (c.subject.search a done i).met sl)).congr fun n => ?_
        rw [hcount]
        constructor
        · intro hn
          obtain ⟨j,-,hj,hn⟩ | hn := hn
          · exact ⟨j,hj.le,hn⟩
          · exact ⟨i,le_rfl,hn⟩
        · rintro ⟨j,hj,hn⟩
          obtain rfl | hlt := eq_or_lt_of_le hj
          · exact .inr hn
          · exact .inl ⟨j,Nat.zero_le j,hlt,hn⟩
  · exact absurd (Prod.mk.inj heq).1 hr

namespace Left
variable {c : Call} {sl : Slots}

theorem subx_count (h : Left a c i ms e sl) : c.after.slots.subx_count = sl.subx_count := by
  rw [h.slots]
  exact record_subx_count c.input ms sl

/-- What is reported of a group has been recorded, or was there before. -/
theorem reported (h : Left a c i ms e sl) {s : ℕ} {t : Option ℕ} (hn : 1 ≤ n)
    (hinfo : c.after.getMatchInfo n = some (s,t)) : n ≤ sl.subx_count ∧
      (ms.foldr (Mark.record c.input) sl).startp n = some s ∧
      (ms.foldr (Mark.record c.input) sl).endp n = t := by
  rw [getMatchInfo] at hinfo
  split_ifs at hinfo with hno
  rw [h.subx_count] at hno
  obtain ⟨s',hs,heq⟩ := Option.map_eq_some_iff.mp hinfo
  cases heq
  rw [h.slots] at hs ⊢
  have hne : n ≠ 0 := by omega
  exact ⟨hno,(Function.update_of_ne hne _ _).symm.trans hs,(Function.update_of_ne hne _ _).symm⟩

/-- The slot of a group is free where the match enters it, and elsewhere nothing is left in it. -/
theorem free (h : Left a c i ms e sl) (hfresh : Fresh a c) (hn : 1 ≤ n) (hno : n ≤ sl.subx_count) :
    ((∃ k, .start n k ∈ ms) → sl.endp n = none) ∧ ((∀ k, .start n k ∉ ms) → sl.startp n = none) := by
  by_cases hp : ∃ j, j ≤ i ∧ n ∈ resets 0 (c.subject.search a done j).met
  · obtain ⟨hs,he⟩ := (h.reset n).1 hp
    exact ⟨fun _ => he,fun _ => hs⟩
  · obtain ⟨hs,he⟩ := (h.reset n).2 hp
    rw [hs,he]
    obtain ⟨m,hm,hnm⟩ := h.met n hn hno
    exact hfresh i ms e h.bound h.found h.before n m hn hnm hm fun j hj hmem => hp ⟨j,hj,hmem⟩

theorem sound (h : Left a c i ms e sl) (hok : a.Ok) (hfresh : Fresh a c) : Sound a c := by
  obtain ⟨hspan,he⟩ := span_of_found (T := c.subject) hok h.bound h.found
  refine ⟨i,ms,e,h.result,he,h.found,?_,?_⟩
  · rw [getMatchInfo,h.subx_count,if_pos (by exact h.count),h.slots]
    simp [Slots.setMatch]
  · intro n s t hn hinfo
    obtain ⟨hno,hs,ht⟩ := h.reported hn hinfo
    obtain ⟨hend,hstart⟩ := h.free hfresh hn hno
    by_cases hentered : ∃ k, .start n k ∈ ms
    · obtain ⟨k,k',hk,hk',hik,hkk',hke⟩ := hspan.recorded (hend hentered) hentered
      rw [hk] at hs
      rw [hk'] at ht
      cases hs
      exact ⟨hentered,_,ht.symm,by omega,by omega,by omega⟩
    · have hnot : ∀ k, .start n k ∉ ms := not_exists.mp hentered
      obtain ⟨l1,k,l2,hms,-⟩ | ⟨-,hsame⟩ := record_startp c.input ms sl n
      · exact absurd (hms ▸ List.mem_append_right _ List.mem_cons_self) (hnot k)
      · rw [hsame,hstart hnot] at hs
        cases hs

end Left

theorem prog_of_returns {sensitive : Bool} {exp : Bytes} {c : Call} (hc : Compiled sensitive exp c.before.prog a)
    (hret : c.before.Returns c.input c.subj (c.result,c.after)) : c.after.prog = c.before.prog := by
  have heq := hret.unique (runMatch_eventually hc.holds (hc.prefilters ⟨c.before.sensitive,c.input,c.subj⟩))
  rw [show c.after = _ from congrArg Prod.snd heq]
  exact searched_prog _ _ _ _

/-- In a run of calls on an object, whatever it held at first, the reports are sound as long as no match passes
over a group whose slot is in use. -/
theorem reports_sound {sensitive : Bool} {exp : Bytes} {prog : Program} (h0 : 0 ∉ exp)
    (h : compile sensitive exp = .ok prog) : ∃ a, treeOf sensitive exp = some a ∧ ∀ (x : CRegX) (cs : List Call),
      x.prog = prog → Calls x cs → (∀ c ∈ cs, Fresh a c) → ∀ c ∈ cs, c.result ≠ 0 → Sound a c := by
  obtain ⟨a,hc⟩ := ok_compile h0 h
  refine ⟨a,hc.tree,fun x cs hx hcalls hfresh => ?_⟩
  induction cs generalizing x with
  | nil => exact fun c hmem => absurd hmem List.not_mem_nil
  | cons c cs ih =>
    obtain ⟨rfl,hret,hcalls⟩ := hcalls
    rw [← hx] at hc
    intro c' hmem hr
    obtain rfl | hmem := List.mem_cons.mp hmem
    · obtain ⟨i,ms,e,sl,hleft⟩ := exists_left hc hret hr
      exact hleft.sound hc.holds.ok (hfresh c' List.mem_cons_self)
    · exact ih c.after ((prog_of_returns hc hret).trans hx) hcalls
        (fun d hd => hfresh d (List.mem_cons_of_mem _ hd)) c' hmem hr

/-- The call of `Match` that the search makes. -/
def CRegX.call (x : CRegX) (a : Rx) (input : ℕ) (subj : Bytes) : Call :=
  ⟨x,input,subj,(x.searched a input subj).1,(x.searched a input subj).2⟩

/-- The calls with some subjects, at their addresses. -/
def callsOf (a : Rx) : CRegX → List (ℕ × Bytes) → List Call
  | _,[] => []
  | x,s::rest =>
    x.call a s.1 s.2::callsOf a (x.call a s.1 s.2).after rest

theorem calls_callsOf {sensitive : Bool} {exp : Bytes} {x : CRegX} (hc : Compiled sensitive exp x.prog a)
    (subjs : List (ℕ × Bytes)) : Calls x (callsOf a x subjs) := by
  induction subjs generalizing x with
  | nil => trivial
  | cons s rest ih =>
    refine ⟨rfl,runMatch_eventually hc.holds (hc.prefilters _),ih ?_⟩
    rw [CRegX.call,searched_prog]
    exact hc

/-- The tree that a pattern is compiled to. -/
theorem compiled_of {sensitive : Bool} {exp : Bytes} {prog : Program} (h0 : 0 ∉ exp)
    (h : compile sensitive exp = .ok prog) (htree : treeOf sensitive exp = some a) :
    Compiled sensitive exp prog a := by
  obtain ⟨a',hc⟩ := ok_compile h0 h
  obtain rfl := Option.some.inj (htree.symm.trans hc.tree)
  exact hc

/-- An object as it is constructed, were its slots zero, with a pattern that has been compiled. -/
def objectOf (exp : Bytes) : CRegX :=
  ⟨(compile true exp).toOption.getD ⟨[],0,false,none⟩,true,⟨-1,fun _ => none,fun _ => none⟩⟩

/-- The tree of `x(a)|(b)`. -/
def eitherGroup : Rx := .alt (.seq (.leaf (.exactly (str "x"))) (.group 1 (.last (.leaf (.exactly (str "a"))))))
  (.last (.group 2 (.last (.leaf (.exactly (str "b"))))))

theorem reports_sound_group : ∃ a c, compile true (str "x(a)|(b)") = .ok (objectOf (str "x(a)|(b)")).prog ∧
    treeOf true (str "x(a)|(b)") = some a ∧ Calls (objectOf (str "x(a)|(b)")) [c] ∧ c.subj = str "xa" ∧
    c.result = 1 ∧ Sound a c := by
  have h : compile true (str "x(a)|(b)") = .ok (objectOf (str "x(a)|(b)")).prog := by decide +kernel
  obtain ⟨a,htree,hall⟩ := reports_sound (by decide) h
  have ha : a = eitherGroup := by
    apply Option.some.inj
    rw [← htree]
    decide +kernel
  have hresult : ((objectOf (str "x(a)|(b)")).call a 100 (str "xa")).result = 1 := by
    rw [ha]
    decide +kernel
  have hcalls : Calls (objectOf (str "x(a)|(b)")) [(objectOf (str "x(a)|(b)")).call a 100 (str "xa")] :=
    calls_callsOf (compiled_of (by decide) h htree) [(100,str "xa")]
  have hfresh : Fresh a ((objectOf (str "x(a)|(b)")).call a 100 (str "xa")) :=
    fun i ms e _ _ _ n m _ _ _ _ => ⟨fun _ => rfl,fun _ => rfl⟩
  have hsound := hall _ _ rfl hcalls (fun c hc => List.mem_singleton.mp hc ▸ hfresh) _ List.mem_cons_self
    (by rw [hresult]; exact Nat.one_ne_zero)
  exact ⟨a,_,h,htree,hcalls,rfl,hresult,hsound⟩

/-- A group of the match before is reported: the first alternative matches, then the second. -/
theorem stale_group : ∃ cs c, compile true (str "x(a)|(b)") = .ok (objectOf (str "x(a)|(b)")).prog ∧
    treeOf true (str "x(a)|(b)") = some eitherGroup ∧ Calls (objectOf (str "x(a)|(b)")) cs ∧ c ∈ cs ∧
    c.subj = str "b" ∧ c.result ≠ 0 ∧ ¬Sound eitherGroup c := by
  have h : compile true (str "x(a)|(b)") = .ok (objectOf (str "x(a)|(b)")).prog := by decide +kernel
  have htree : treeOf true (str "x(a)|(b)") = some eitherGroup := by decide +kernel
  have hresult : ((((objectOf (str "x(a)|(b)")).call eitherGroup 100 (str "xa")).after).call eitherGroup 200
      (str "b")).result ≠ 0 := by decide +kernel
  have hinfo : ((((objectOf (str "x(a)|(b)")).call eitherGroup 100 (str "xa")).after).call eitherGroup 200
      (str "b")).after.getMatchInfo 1 = some (101,some 102) := by decide +kernel
  have hcalls : Calls (objectOf (str "x(a)|(b)")) [(objectOf (str "x(a)|(b)")).call eitherGroup 100 (str "xa"),
      (((objectOf (str "x(a)|(b)")).call eitherGroup 100 (str "xa")).after).call eitherGroup 200 (str "b")] :=
    calls_callsOf (compiled_of (by decide) h htree) [(100,str "xa"),(200,str "b")]
  refine ⟨_,_,h,htree,hcalls,List.mem_cons_of_mem _ List.mem_cons_self,rfl,hresult,?_⟩
  intro ⟨i,ms,e,_,_,_,_,hgroups⟩
  obtain ⟨-,t',-,hle,-⟩ := hgroups 1 101 (some 102) le_rfl hinfo
  exact absurd hle (show ¬200+i ≤ 101 by omega)

end Smx.Regx
