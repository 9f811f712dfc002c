import Smx.Lib.Chain
import Mathlib.Data.Finset.Card
import Mathlib.Data.Set.Insert

/-! Arrays of chains. Each node hangs on the chain of the cell that is its place; the lemmas say what
the loops of `Chain` make of such an array. -/
namespace Chain
variable {κ : Type} [DecidableEq κ]

/-- Each of the cells `I` is the head of a chain of just those `nodes` that have their place there. -/
def Buckets (m : Mem κ) (t : List (Option κ)) (I : Set ℕ) (place : κ → ℕ) (nodes : Finset κ) : Prop :=
  ∀ i ∈ I, ∃ s cs, t[i]? = some s ∧ m.Holds s cs ∧ ∀ a, a ∈ cs ↔ a ∈ nodes ∧ place a = i

namespace Buckets
variable {m m' : Mem κ} {t : List (Option κ)} {I J : Set ℕ} {place place' : κ → ℕ} {nodes : Finset κ}
  {i j n : ℕ} {s s' v : Option κ} {c : κ} {cs : List κ} {test hi : κ → Bool}

omit [DecidableEq κ] in
theorem cell (h : Buckets m t I place nodes) (hi : i ∈ I) : ∃ s, t[i]? = some s := by
  obtain ⟨s,cs,hs,-⟩ := h i hi
  exact ⟨s,hs⟩

omit [DecidableEq κ] in
theorem lt_length (h : Buckets m t I place nodes) (hi : i ∈ I) : i < t.length := by
  obtain ⟨s,hs⟩ := h.cell hi
  exact (List.getElem?_eq_some_iff.mp hs).1

omit [DecidableEq κ] in
/-- The chain of a cell that has been read. -/
theorem chain (h : Buckets m t I place nodes) (hi : i ∈ I) (hs : t[i]? = some s) :
    ∃ cs, m.Holds s cs ∧ ∀ a, a ∈ cs ↔ a ∈ nodes ∧ place a = i := by
  obtain ⟨s',cs,hs',hcs⟩ := h i hi
  obtain rfl := Option.some.inj (hs.symm.trans hs')
  exact ⟨cs,hcs⟩

omit [DecidableEq κ] in
theorem mem_live (h : Buckets m t I place nodes) (hc : c ∈ nodes) (hp : place c ∈ I) : c ∈ m.live := by
  obtain ⟨s,cs,-,hcs,hmem⟩ := h (place c) hp
  exact hcs.2 c ((hmem c).mpr ⟨hc,rfl⟩)

omit [DecidableEq κ] in
/-- Only the places of the nodes matter, and some cells may be left aside. -/
theorem congr (h : Buckets m t I place nodes) (hJ : J ⊆ I) (hplace : ∀ a ∈ nodes, place' a = place a) :
    Buckets m t J place' nodes := by
  intro i hi
  obtain ⟨s,cs,hs,hcs,hmem⟩ := h i (hJ hi)
  refine ⟨s,cs,hs,hcs,fun a => (hmem a).trans (and_congr_right fun ha => ?_)⟩
  rw [hplace a ha]

omit [DecidableEq κ] in
/-- Another array with the same cells. -/
theorem congr_cells {t' : List (Option κ)} (h : Buckets m t I place nodes) (ht : ∀ i ∈ I, t'[i]? = t[i]?) :
    Buckets m t' I place nodes := by
  intro i hi
  obtain ⟨s,cs,hs,hcs⟩ := h i hi
  exact ⟨s,cs,(ht i hi).trans hs,hcs⟩

omit [DecidableEq κ] in
/-- Another memory with the same nodes. -/
theorem congr_mem (h : Buckets m t I place nodes) (hlive : ∀ a ∈ nodes, a ∈ m'.live)
    (hnext : ∀ a ∈ nodes, m'.next a = m.next a) : Buckets m' t I place nodes := by
  intro i hi
  obtain ⟨s,cs,hs,hcs,hmem⟩ := h i hi
  exact ⟨s,cs,hs,hcs.congr (fun a ha => hlive a ((hmem a).mp ha).1) fun a ha => hnext a ((hmem a).mp ha).1,hmem⟩

omit [DecidableEq κ] in
theorem empty (ht : ∀ i ∈ I, t[i]? = some none) : Buckets m t I place ∅ :=
  fun i hi => ⟨none,[],ht i hi,Mem.Holds.nil_iff.mpr rfl,by simp⟩

/-- As many nodes hang on a chain as have their place there. -/
theorem length_eq (hcs : m.Holds s cs) (hmem : ∀ a, a ∈ cs ↔ a ∈ nodes ∧ place a = i) :
    cs.length = (nodes.filter fun a => place a = i).card := by
  have hset : cs.toFinset = nodes.filter fun a => place a = i := by
    ext a
    rw [List.mem_toFinset,hmem,Finset.mem_filter]
  rw [← hset,List.toFinset_card_of_nodup hcs.nodup]

/-- What a search on one chain finds. -/
theorem find_spec (h : Buckets m t I place nodes) (hi : i ∈ I) (hs : t[i]? = some s) (test : κ → Bool) :
    ∃ r, find m test m.live.length s = some r ∧ (∀ a, r = some a → a ∈ nodes ∧ place a = i ∧ test a = true) ∧
      (r = none → ∀ a ∈ nodes, place a = i → test a = false) := by
  obtain ⟨cs,hcs,hmem⟩ := h.chain hi hs
  refine ⟨cs.find? test,find_eq hcs hcs.length_le,fun a ha => ?_,fun hnone a ha hp => ?_⟩
  · obtain ⟨hn,hp⟩ := (hmem a).mp (List.mem_of_find?_eq_some ha)
    exact ⟨hn,hp,List.find?_some ha⟩
  · exact Bool.not_eq_true _ ▸ List.find?_eq_none.mp hnone a ((hmem a).mpr ⟨ha,hp⟩)

/-- `node->next = table[chain]; table[chain] = node;` -/
theorem push (h : Buckets m t I place nodes) (hi : place c ∈ I) (hc : c ∉ nodes) (hlive : c ∈ m.live)
    (hs : t[place c]? = some s) : Buckets (m.put c s) (t.set (place c) (some c)) I place (insert c nodes) := by
  intro i hi'
  by_cases hic : i = place c
  · obtain ⟨cs,hcs,hmem⟩ := h.chain hi hs
    have hccs : c ∉ cs := fun hin => hc ((hmem c).mp hin).1
    refine ⟨some c,c::cs,?_,hcs.push hccs hlive,fun a => ?_⟩
    · rw [hic,List.getElem?_set_self (h.lt_length hi)]
    · rw [List.mem_cons,hmem,Finset.mem_insert,hic]
      constructor
      · rintro (rfl | ⟨ha,hp⟩)
        · exact ⟨Or.inl rfl,rfl⟩
        · exact ⟨Or.inr ha,hp⟩
      · rintro ⟨rfl | ha,hp⟩
        · exact Or.inl rfl
        · exact Or.inr ⟨ha,hp⟩
  · obtain ⟨s',cs,hs',hcs,hmem⟩ := h i hi'
    have hccs : c ∉ cs := fun hin => hc ((hmem c).mp hin).1
    refine ⟨s',cs,?_,hcs.set_of_not_mem hccs s,fun a => ?_⟩
    · rw [List.getElem?_set_ne (Ne.symm hic),hs']
    · rw [hmem,Finset.mem_insert]
      constructor
      · rintro ⟨ha,hp⟩
        exact ⟨Or.inr ha,hp⟩
      · rintro ⟨rfl | ha,hp⟩
        · exact absurd hp.symm hic
        · exact ⟨ha,hp⟩

/-- A node outside of the array is written to. -/
theorem put_of_not_mem (h : Buckets m t I place nodes) (hc : c ∉ nodes) (v : Option κ) :
    Buckets (m.put c v) t I place nodes := by
  intro i hi
  obtain ⟨s,cs,hs,hcs,hmem⟩ := h i hi
  exact ⟨s,cs,hs,hcs.set_of_not_mem (fun hin => hc ((hmem c).mp hin).1) v,hmem⟩

/-- The chain of a node that is taken off has all of its other nodes. -/
theorem mem_erase_iff (hmem : ∀ a, a ∈ cs ↔ a ∈ nodes ∧ place a = i) {cs' : List κ} (hcs' : ∀ a, a ∈ cs' ↔ a ∈ cs ∧ a ≠ c)
    (a : κ) : a ∈ cs' ↔ a ∈ nodes.erase c ∧ place a = i := by
  rw [hcs',hmem,Finset.mem_erase]
  tauto

/-- The chains that a node is not on do not change when it is taken off. -/
theorem erase_elsewhere (hmem : ∀ a, a ∈ cs ↔ a ∈ nodes ∧ place a = i) (hi : i ≠ place c) (a : κ) :
    a ∈ cs ↔ a ∈ nodes.erase c ∧ place a = i := by
  apply mem_erase_iff hmem
  intro a
  refine ⟨fun ha => ⟨ha,?_⟩,And.left⟩
  rintro rfl
  exact hi ((hmem a).mp ha).2.symm

/-- `table[chain] = node->next;` where `node` is the first of its chain. -/
theorem erase_head (h : Buckets m t I place nodes) (hi : place c ∈ I) (hs : t[place c]? = some (some c)) :
    Buckets m (t.set (place c) (m.next c)) I place (nodes.erase c) := by
  intro i hi'
  by_cases hic : i = place c
  · obtain ⟨cs,hcs,hmem⟩ := h.chain hi hs
    cases cs with
    | nil => exact absurd (Mem.Holds.nil_iff.mp hcs) (by simp)
    | cons d cs =>
      obtain ⟨hd,-,hrest⟩ := Mem.Holds.cons_iff.mp hcs
      obtain rfl := Option.some.inj hd
      refine ⟨m.next c,cs,?_,hrest,?_⟩
      · rw [hic,List.getElem?_set_self (h.lt_length hi)]
      · rw [hic]
        apply mem_erase_iff hmem
        intro a
        have hccs := (List.nodup_cons.mp hcs.nodup).1
        constructor
        · intro ha
          exact ⟨List.mem_cons_of_mem c ha,ne_of_mem_of_not_mem ha hccs⟩
        · rintro ⟨ha,hne⟩
          exact (List.mem_cons.mp ha).resolve_left hne
  · obtain ⟨s,cs,hs,hcs,hmem⟩ := h i hi'
    exact ⟨s,cs,(List.getElem?_set_ne (Ne.symm hic)).trans hs,hcs,erase_elsewhere hmem hic⟩

/-- `while (hptr->next != node) hptr = hptr->next; hptr->next = node->next;` -/
theorem erase_behind (h : Buckets m t I place nodes) (hi : place c ∈ I) (hc : c ∈ nodes)
    (hs : t[place c]? = some s) (hne : s ≠ some c) :
    ∃ p ∈ nodes, p ∈ m.live ∧ m.next p = some c ∧ s.bind (before m c m.live.length) = some p ∧
      Buckets (m.put p (m.next c)) t I place (nodes.erase c) := by
  obtain ⟨cs,hcs,hmem⟩ := h.chain hi hs
  obtain ⟨pre,post,hsplit⟩ := List.append_of_mem ((hmem c).mpr ⟨hc,rfl⟩)
  have hpre : pre ≠ [] := by
    rintro rfl
    rw [hsplit] at hcs
    exact hne (Mem.Holds.cons_iff.mp hcs).1
  obtain ⟨pre,p,rfl⟩ : ∃ l p, pre = l ++ [p] := ⟨_,_,(List.dropLast_append_getLast hpre).symm⟩
  have hcs' : m.Holds s (pre ++ p::c::post) := by
    rw [hsplit,List.append_assoc] at hcs
    exact hcs
  have hhead : s = (pre ++ [p]).head? := by
    cases pre with
    | nil => exact (Mem.Holds.cons_iff.mp hcs').1
    | cons d pre => exact (Mem.Holds.cons_iff.mp hcs').1
  have hlen := hcs'.length_le
  rw [List.length_append,List.length_cons] at hlen
  have hpmem : p ∈ cs := by
    rw [hsplit]
    simp
  have hnext : m.next p = some c :=
    (Mem.Holds.cons_iff.mp (Mem.Holds.cons_iff.mp hcs'.suffix).2.2).1
  refine ⟨p,((hmem p).mp hpmem).1,hcs.2 p hpmem,hnext,before_eq hcs' hhead (by omega),fun i hi' => ?_⟩
  by_cases hic : i = place c
  · refine ⟨s,pre ++ p::post,hic ▸ hs,hcs'.unlink,?_⟩
    rw [hic]
    apply mem_erase_iff hmem
    intro a
    have hnd := hcs'.nodup
    rw [hsplit]
    simp only [List.mem_append,List.mem_cons,List.not_mem_nil,or_false]
    have hcpre : c ∉ pre ∧ c ≠ p ∧ c ∉ post := by
      have hperm : (pre ++ p::c::post).Perm (c::(pre ++ p::post)) := by
        have hmid : ((pre ++ [p]) ++ c::post).Perm (c::((pre ++ [p]) ++ post)) := List.perm_middle
        simpa using hmid
      simpa using (List.nodup_cons.mp (hperm.nodup_iff.mp hnd)).1
    constructor
    · rintro (ha | rfl | ha)
      · exact ⟨Or.inl (Or.inl ha),ne_of_mem_of_not_mem ha hcpre.1⟩
      · exact ⟨Or.inl (Or.inr rfl),hcpre.2.1.symm⟩
      · exact ⟨Or.inr (Or.inr ha),ne_of_mem_of_not_mem ha hcpre.2.2⟩
    · tauto
  · obtain ⟨s',cs',hs',hcs',hmem'⟩ := h i hi'
    have hpcs : p ∉ cs' := by
      intro hin
      exact hic (((hmem' p).mp hin).2.symm.trans ((hmem p).mp hpmem).2)
    exact ⟨s',cs',hs',hcs'.set_of_not_mem hpcs _,erase_elsewhere hmem' hic⟩

/-- A chain is split in two, of which one goes to a cell that was not in use. -/
theorem split (h : Buckets m t I place nodes) (hall : ∀ a ∈ nodes, place a ∈ I) (hI : i ∈ I) (hJ : j ∉ I)
    (hj : j < t.length) (hs : t[i]? = some s) (hi : κ → Bool) :
    ∃ m' low high, Chain.split hi m.live.length m s none none = some (m',low,high) ∧ m'.live = m.live ∧
      (∀ a ∉ nodes, m'.next a = m.next a) ∧ Buckets m' ((t.set i low).set j high) (insert j I)
        (fun a => if place a = i ∧ hi a = true then j else place a) nodes := by
  have hij : j ≠ i := (ne_of_mem_of_not_mem hI hJ).symm
  have hpj (a : κ) (ha : a ∈ nodes) : place a ≠ j := ne_of_mem_of_not_mem (hall a ha) hJ
  obtain ⟨cs,hcs,hmem⟩ := h.chain hI hs
  obtain ⟨m',low,high,hrun,hlive,hsame,hlow,hhigh⟩ := split_spec hi hcs (Mem.Holds.nil_iff.mpr rfl)
    (Mem.Holds.nil_iff.mpr rfl) (List.disjoint_nil_right _) (List.disjoint_nil_right _) (List.disjoint_nil_right _)
    hcs.length_le
  rw [List.append_nil] at hlow hhigh
  refine ⟨m',low,high,hrun,hlive,fun a ha => hsame a fun hin => ha ((hmem a).mp hin).1,fun k hk => ?_⟩
  by_cases hkj : k = j
  · refine ⟨high,_,?_,hhigh,fun a => ?_⟩
    · rw [hkj,List.getElem?_set_self (by simpa using hj)]
    · rw [List.mem_reverse,List.mem_filter,hmem,hkj]
      have hplace : (if place a = i ∧ hi a = true then j else place a) = j ↔
          (place a = i ∧ hi a = true) ∨ place a = j := by
        split_ifs with hcond
        · exact iff_of_true rfl (Or.inl hcond)
        · simp [hcond]
      rw [hplace]
      have := hpj a
      tauto
  · have hkI : k ∈ I := Set.mem_of_mem_insert_of_ne hk hkj
    have hplace (a : κ) : (if place a = i ∧ hi a = true then j else place a) = k ↔
        place a = k ∧ ¬(place a = i ∧ hi a = true) := by
      split_ifs with hcond
      · simp [hcond,Ne.symm hkj]
      · simp [hcond]
    rw [List.getElem?_set_ne (Ne.symm hkj)]
    simp only [hplace]
    by_cases hki : k = i
    · refine ⟨low,_,?_,hlow,fun a => ?_⟩
      · rw [hki,List.getElem?_set_self (h.lt_length hI)]
      · rw [List.mem_reverse,List.mem_filter,hmem,hki,Bool.not_eq_true']
        cases hi a <;> simp
    · obtain ⟨s',cs',hs',hcs',hmem'⟩ := h k hkI
      refine ⟨s',cs',?_,hcs'.congr (fun a ha => hlive ▸ hcs'.2 a ha) fun a ha => hsame a fun hin => ?_,fun a => ?_⟩
      · rw [List.getElem?_set_ne (Ne.symm hki),hs']
      · exact hki (((hmem' a).mp ha).2.symm.trans ((hmem a).mp hin).2)
      · rw [hmem']
        refine and_congr_right fun _ => ⟨fun hp => ⟨hp,fun hcond => hki (hp.symm.trans hcond.1)⟩,And.left⟩

omit [DecidableEq κ] in
/-- One cell now has the nodes of two, and the other one is left aside. -/
theorem joined (h : Buckets m t I place nodes) {t' : List (Option κ)} {cs₁ cs₂ : List κ} (hcs₁ : ∀ a, a ∈ cs₁ ↔ a ∈ nodes ∧ place a = i)
    (hcs₂ : ∀ a, a ∈ cs₂ ↔ a ∈ nodes ∧ place a = j) (hs : t'[i]? = some s) (hjoin : m'.Holds s (cs₁ ++ cs₂))
    (hcells : ∀ k ∈ I, k ≠ i → t'[k]? = t[k]?) (hlive : m'.live = m.live)
    (hsame : ∀ a, a ∉ cs₁ → m'.next a = m.next a) :
    Buckets m' t' (I \ {j}) (fun a => if place a = j then i else place a) nodes := by
  rintro k ⟨hk,hkj⟩
  have hplace (a : κ) : (if place a = j then i else place a) = k ↔ place a = k ∨ place a = j ∧ k = i := by
    split_ifs with hcond
    · have hjk : j ≠ k := Ne.symm hkj
      simp [hcond,hjk,eq_comm]
    · simp [hcond]
  simp only [hplace]
  by_cases hki : k = i
  · refine ⟨s,cs₁ ++ cs₂,hki ▸ hs,hjoin,fun a => ?_⟩
    rw [List.mem_append,hcs₁,hcs₂,hki]
    tauto
  · obtain ⟨s',cs,hs',hcs,hmem⟩ := h k hk
    refine ⟨s',cs,(hcells k hk hki).trans hs',hcs.congr (fun a ha => hlive ▸ hcs.2 a ha) fun a ha => hsame a ?_,fun a => ?_⟩
    · intro hin
      exact hki (((hmem a).mp ha).2.symm.trans ((hcs₁ a).mp hin).2)
    · rw [hmem]
      tauto

omit [DecidableEq κ] in
/-- `table[i] = table[j]` where the first chain is empty. -/
theorem join_empty (h : Buckets m t I place nodes) (hi : i ∈ I) (hj : j ∈ I) (hs : t[i]? = some none)
    (hs' : t[j]? = some s) : Buckets m (t.set i s) (I \ {j}) (fun a => if place a = j then i else place a) nodes := by
  obtain ⟨cs₁,hcs₁,hmem₁⟩ := h.chain hi hs
  obtain ⟨cs₂,hcs₂,hmem₂⟩ := h.chain hj hs'
  obtain rfl : cs₁ = [] := by simpa using hcs₁.1
  refine h.joined hmem₁ hmem₂ (List.getElem?_set_self (h.lt_length hi)) hcs₂ (fun k _ hk => ?_) rfl
    fun _ _ => rfl
  exact List.getElem?_set_ne (Ne.symm hk)

/-- The last node of the first chain gets the second one as its successor. -/
theorem join (h : Buckets m t I place nodes) (hi : i ∈ I) (hj : j ∈ I) (hij : i ≠ j) (hs : t[i]? = some (some c))
    (hs' : t[j]? = some s) :
    ∃ p ∈ nodes, p ∈ m.live ∧ last m m.live.length c = some p ∧
      Buckets (m.put p s) t (I \ {j}) (fun a => if place a = j then i else place a) nodes := by
  obtain ⟨cs₁,hcs₁,hmem₁⟩ := h.chain hi hs
  obtain ⟨cs₂,hcs₂,hmem₂⟩ := h.chain hj hs'
  have hne : cs₁ ≠ [] := by
    rintro rfl
    exact absurd (Mem.Holds.nil_iff.mp hcs₁) (by simp)
  obtain ⟨pre,p,rfl⟩ : ∃ l p, cs₁ = l ++ [p] := ⟨_,_,(List.dropLast_append_getLast hne).symm⟩
  have hlen := hcs₁.length_le
  rw [List.length_append,List.length_singleton] at hlen
  have hp : p ∈ pre ++ [p] := List.mem_append_right pre List.mem_cons_self
  refine ⟨p,((hmem₁ p).mp hp).1,hcs₁.2 p hp,last_eq hcs₁ (by omega),?_⟩
  refine h.joined hmem₁ hmem₂ hs (hcs₁.append hcs₂ ?_) (fun _ _ _ => rfl) rfl fun a ha => ?_
  · intro a ha ha'
    exact hij (((hmem₁ a).mp ha).2.symm.trans ((hmem₂ a).mp ha').2)
  · exact Mem.put_next_of_ne (ne_of_mem_of_not_mem hp ha).symm s

end Buckets

end Chain
