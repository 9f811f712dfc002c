import Mathlib.Data.Nat.Find
import Smx.Regx.Shortcuts
import Smx.Regx.Unique

/-! What `Match` returns is the first match, as far as its groups are known. -/
namespace Smx.Regx
open Subject CRegX

/-- The groups whose slots `OPEN` resets: those above all that have been met. -/
def resets : ℤ → List ℕ → List ℕ
  | _,[] => []
  | c,n::ns => if c < n then n::resets n ns else resets c ns

/-- The slots of the groups in `P` have been reset, and no others. -/
def Reset (P : ℕ → Prop) (sl sl' : Slots) : Prop := ∀ n,
  (P n → sl'.startp n = none ∧ sl'.endp n = none) ∧
    (¬P n → sl'.startp n = sl.startp n ∧ sl'.endp n = sl.endp n)

namespace Reset
variable {P Q : ℕ → Prop} {sl sl' sl'' : Slots}

theorem trans (h : Reset P sl sl') (h' : Reset Q sl' sl'') : Reset (fun n => P n ∨ Q n) sl sl'' := by
  intro n
  by_cases hq : Q n
  · exact ⟨fun _ => (h' n).1 hq,fun hf => absurd (.inr hq) hf⟩
  · obtain ⟨hs,he⟩ := (h' n).2 hq
    rw [hs,he]
    exact ⟨fun hpq => (h n).1 (hpq.resolve_right hq),fun hf => (h n).2 fun hp => hf (.inl hp)⟩

theorem congr (h : Reset P sl sl') (hiff : ∀ n, P n ↔ Q n) : Reset Q sl sl' :=
  fun n => ⟨fun hq => (h n).1 ((hiff n).mpr hq),fun hq => (h n).2 fun hp => hq ((hiff n).mp hp)⟩

theorem of_foldl (ns : List ℕ) (sl : Slots) :
    Reset (fun n => n ∈ resets sl.subx_count ns) sl (ns.foldl Slots.open sl) := by
  induction ns generalizing sl with
  | nil => exact fun n => ⟨fun h => absurd h List.not_mem_nil,fun _ => ⟨rfl,rfl⟩⟩
  | cons m ns ih =>
    have hrest := ih (sl.open m)
    rw [List.foldl_cons,resets]
    by_cases hm : sl.subx_count < m
    · have hopen : sl.open m = ⟨m,Function.update sl.startp m none,Function.update sl.endp m none⟩ := if_pos hm
      have hfirst : Reset (· = m) sl (sl.open m) := by
        intro n
        rw [hopen]
        constructor
        · intro hn
          rw [hn]
          simp
        · intro hn
          simp [Function.update_of_ne hn]
      rw [if_pos hm]
      rw [hopen] at hrest hfirst ⊢
      exact (hfirst.trans hrest).congr fun n => List.mem_cons.symm
    · have hopen : sl.open m = sl := if_neg hm
      rw [if_neg hm,hopen]
      rw [hopen] at hrest
      exact hrest

end Reset

theorem open_subx_count_le (ms : List ℕ) (sl : Slots) : sl.subx_count ≤ (ms.foldl Slots.open sl).subx_count := by
  induction ms generalizing sl with
  | nil => exact Int.le_refl _
  | cons n ms ih =>
    refine Int.le_trans ?_ (ih (sl.open n))
    rw [Slots.open]
    split_ifs with h
    · exact Int.le_of_lt h
    · exact Int.le_refl _

theorem record_subx_count (input : ℕ) (ms : List Mark) (sl : Slots) :
    (ms.foldr (Mark.record input) sl).subx_count = sl.subx_count := by
  induction ms with
  | nil => rfl
  | cons m ms ih =>
    rw [List.foldr_cons,← ih]
    cases m with
    | start n i => rfl
    | stop n i =>
      rw [Mark.record,Slots.setEnd]
      split_ifs
      · rfl
      · rfl

theorem apply_subx_count_le (input : ℕ) (o : Out) (sl : Slots) : sl.subx_count ≤ (o.apply input sl).subx_count := by
  rw [Out.apply]
  cases o.found with
  | none => exact open_subx_count_le o.met sl
  | some r =>
    have hcount := record_subx_count input r.1 (o.met.foldl Slots.open sl)
    exact hcount ▸ open_subx_count_le o.met sl

section
variable {x : CRegX} {a : Rx} {input : ℕ} {subj : Bytes} {T : Subject}

/-- The attempts find the first match, or there is none. -/
theorem searches_spec (T : Subject) (a : Rx) (left i : ℕ) (sl : Slots) :
    ((T.searches a left i sl).1 = 0 ∧ ∀ j, i ≤ j → j < i+left → (T.search a done j).found = none) ∨
    ∃ j ms e sl', i ≤ j ∧ j < i+left ∧ (T.search a done j).found = some (ms,e) ∧
      (∀ j', i ≤ j' → j' < j → (T.search a done j').found = none) ∧ sl'.subx_count = 0 ∧
      Reset (fun n => ∃ j', i ≤ j' ∧ j' < j ∧ n ∈ resets 0 (T.search a done j').met) sl sl' ∧
      T.searches a left i sl = (j+1,((T.search a done j).apply T.input sl').setMatch (T.input+j) (T.input+e)) := by
  induction left generalizing i sl with
  | zero => exact .inl ⟨rfl,fun j hij hj => absurd hj (by omega)⟩
  | succ left ih =>
    cases hfound : (T.search a done i).found with
    | some r =>
      refine .inr ⟨i,r.1,r.2,{ sl with subx_count := 0 },le_rfl,by omega,hfound,
        fun j' hij hj => absurd hij (by omega),rfl,?_,?_⟩
      · intro n
        refine ⟨?_,fun _ => ⟨rfl,rfl⟩⟩
        rintro ⟨j',hij,hj,_⟩
        omega
      · rw [searches,tried_of_some hfound]
        rfl
    | none =>
      have hfront {j : ℕ} (hij : i ≤ j) (hrest : i+1 ≤ j → (T.search a done j).found = none) :
          (T.search a done j).found = none := by
        obtain rfl | hlt := eq_or_lt_of_le hij
        · exact hfound
        · exact hrest hlt
      rw [searches,tried_of_none hfound]
      obtain ⟨hzero,hall⟩ | ⟨j,ms,e,sl2,hij,hj,hfound2,hbefore,hcount,hreset,heq⟩ := ih (i+1)
        { (T.search a done i).met.foldl Slots.open { sl with subx_count := 0 } with subx_count := -1 }
      · exact .inl ⟨hzero,fun j hij hj => hfront hij fun hlt => hall j hlt (by omega)⟩
      · refine .inr ⟨j,ms,e,sl2,by omega,by omega,hfound2,
          fun j' hij' hj' => hfront hij' fun hlt => hbefore j' hlt hj',hcount,?_,heq⟩
        have hfirst : Reset (fun n => n ∈ resets 0 (T.search a done i).met) sl
            { (T.search a done i).met.foldl Slots.open { sl with subx_count := 0 } with subx_count := -1 } :=
          Reset.of_foldl (T.search a done i).met { sl with subx_count := 0 }
        refine (hfirst.trans hreset).congr fun n => ?_
        constructor
        · intro hn
          obtain hn | ⟨j',hij',hj',hn⟩ := hn
          · exact ⟨i,le_rfl,by omega,hn⟩
          · exact ⟨j',by omega,hj',hn⟩
        · rintro ⟨j',hij',hj',hn⟩
          obtain rfl | hlt := eq_or_lt_of_le hij'
          · exact .inl hn
          · exact .inr ⟨j',hlt,hj',hn⟩

/-- `Match` finds the first match, or there is none. -/
theorem searched_first (input : ℕ)
    (hmay : ∀ i, ((⟨x.sensitive,input,subj⟩ : Subject).search a done i).found ≠ none → x.mayMatch subj = true) :
    ((x.searched a input subj).1 = 0 ∧
      ∀ j, j ≤ subj.length → ((⟨x.sensitive,input,subj⟩ : Subject).search a done j).found = none) ∨
    ∃ j ms e, j ≤ subj.length ∧ ((⟨x.sensitive,input,subj⟩ : Subject).search a done j).found = some (ms,e) ∧
      (∀ j', j' < j → ((⟨x.sensitive,input,subj⟩ : Subject).search a done j').found = none) ∧
      (x.searched a input subj).1 = j+1 ∧
      (x.searched a input subj).2.getMatchInfo 0 = some (input+j,some (input+e)) := by
  rw [CRegX.searched]
  cases hm : x.mayMatch subj with
  | false =>
    refine .inl ⟨rfl,fun j _ => ?_⟩
    by_contra hfound
    cases hm.symm.trans (hmay j hfound)
  | true =>
    simp only [if_true]
    obtain ⟨hzero,hall⟩ | ⟨j,ms,e,sl,-,hj,hfound,hbefore,hcount,-,heq⟩ :=
      searches_spec ⟨x.sensitive,input,subj⟩ a (subj.length+1) 0 { x.slots with subx_count := -1 }
    · exact .inl ⟨hzero,fun j hj => hall j (Nat.zero_le j) (by omega)⟩
    · refine .inr ⟨j,ms,e,by omega,hfound,fun j' hj' => hbefore j' (Nat.zero_le j') hj',by rw [heq],?_⟩
      have hle := apply_subx_count_le input ((⟨x.sensitive,input,subj⟩ : Subject).search a done j) sl
      rw [hcount] at hle
      rw [heq,CRegX.getMatchInfo,if_pos (by exact hle)]
      simp [Slots.setMatch]

/-- The string that must appear does no harm where the texts found have it as it is. -/
theorem mayMatch_of_found {exp : Bytes} {sensitive : Bool} (hc : Compiled sensitive exp x.prog a)
    (hmust : ∀ m, x.prog.must = some m → m ≠ [] → (∃ j, beginsWith x.sensitive m (subj.drop j) = true) →
      present m subj = true) (i : ℕ)
    (h : ((⟨x.sensitive,input,subj⟩ : Subject).search a done i).found ≠ none) : x.mayMatch subj = true := by
  rw [CRegX.mayMatch]
  cases hm : x.prog.must with
  | none => rfl
  | some m =>
    obtain ⟨hne,hex⟩ := hc.appears h hm
    exact hmust m hm hne hex

/-- With regard to case, `Match` finds the first match, or there is none. -/
theorem searched_spec {exp : Bytes} (input : ℕ) (subj : Bytes) (hc : Compiled true exp x.prog a) (hsens : x.sensitive = true) :
    ((x.searched a input subj).1 = 0 ∧
      ∀ j, j ≤ subj.length → ((⟨true,input,subj⟩ : Subject).search a done j).found = none) ∨
    ∃ j ms e, j ≤ subj.length ∧ ((⟨true,input,subj⟩ : Subject).search a done j).found = some (ms,e) ∧
      (∀ j', j' < j → ((⟨true,input,subj⟩ : Subject).search a done j').found = none) ∧
      (x.searched a input subj).1 = j+1 ∧
      (x.searched a input subj).2.getMatchInfo 0 = some (input+j,some (input+e)) := by
  rw [← hsens]
  refine searched_first input (mayMatch_of_found hc fun m _ hne hex => ?_)
  obtain ⟨j,hj⟩ := hex
  rw [hsens] at hj
  exact present_of_beginsWith hne hj

/-- `Match` ends, returns one more than the start of the first match, and reports such a match; or nothing
matches. -/
def Exact (p : Pat) (x : CRegX) (input : ℕ) (subj : Bytes) : Prop :=
  ∃ r x', x.Returns input subj (r,x') ∧ x'.prog = x.prog ∧ x'.sensitive = x.sensitive ∧
    (r = 0 → ∀ i j, ¬Matches subj p i j) ∧
    (r ≠ 0 → ∃ i j, r = i+1 ∧ Matches subj p i j ∧ x'.getMatchInfo 0 = some (input+i,some (input+j)) ∧
      ∀ i' j', Matches subj p i' j' → i ≤ i')

/-- Where a match begins first, one of those that begin there goes through no group above nine. -/
def NineFirst (p : Pat) (subj : Bytes) : Prop := ∀ i, (∃ j, Matches subj p i j) →
  (∀ i', i' < i → ∀ j, ¬Matches subj p i' j) → ∃ ms j, Path subj p i ms j ∧ Nine ms

theorem exists_first {p : Pat} {i j : ℕ} (h : Matches subj p i j) :
    ∃ i0, i0 ≤ i ∧ (∃ j, Matches subj p i0 j) ∧ ∀ i', i' < i0 → ∀ j, ¬Matches subj p i' j := by
  classical
  have hex : ∃ i, ∃ j, Matches subj p i j := ⟨i,j,h⟩
  exact ⟨Nat.find hex,Nat.find_min' hex ⟨j,h⟩,Nat.find_spec hex,fun i' hi' j hj => Nat.find_min hex hi' ⟨j,hj⟩⟩

/-- Where nothing is found, nothing begins that goes through no group above nine. -/
theorem not_path_of_none {p : Pat} (ha : Agrees T a p) {i j : ℕ} {ms : List Mark}
    (hnone : (T.search a done i).found = none) (hpath : Path T.subj p i ms j) (hnine : Nine ms) : False := by
  cases ha.complete done i (hpath.le.1.trans hpath.le.2) hnone ms j hpath hnine

/-- What is found is a match. -/
theorem path_of_some {p : Pat} (ha : Agrees T a p) {i e : ℕ} {ms : List Mark} (hi : i ≤ T.subj.length)
    (hsome : (T.search a done i).found = some (ms,e)) : ∃ ms, Path T.subj p i ms e ∧ Nine ms := by
  obtain ⟨ms1,j,ms2,hpath,hnine,hj,-⟩ := ha.sound done i hi ms e hsome
  cases hj
  exact ⟨ms1,hpath,hnine⟩

theorem exact_of_nineFirst {exp : Bytes} {p : Pat} (hc : Compiled true exp x.prog a)
    (ha : ∀ T, Plain T → Agrees T a p) (hsens : x.sensitive = true) (hnul : 0 ∉ subj)
    (hnine : NineFirst p subj) : Exact p x input subj := by
  have ha' := ha ⟨true,input,subj⟩ ⟨rfl,hnul⟩
  -- the first match that there is would be found where it begins
  have hfirst {i j : ℕ} (h : Matches subj p i j) : ∃ i0, i0 ≤ i ∧ i0 ≤ subj.length ∧
      ((⟨true,input,subj⟩ : Subject).search a done i0).found ≠ none := by
    obtain ⟨i0,hle,hex,hmin⟩ := exists_first h
    obtain ⟨ms,j0,hpath,hn⟩ := hnine i0 hex hmin
    exact ⟨i0,hle,hpath.le.1.trans hpath.le.2,fun hnone => not_path_of_none ha' hnone hpath hn⟩
  refine ⟨(x.searched a input subj).1,(x.searched a input subj).2,
    runMatch_eventually hc.holds (hc.prefilters _),x.searched_prog a input subj,
    x.searched_sensitive a input subj,?_,?_⟩
  · intro hzero i j hm
    obtain ⟨i0,-,hi0,hne⟩ := hfirst hm
    obtain ⟨-,hall⟩ | ⟨j,ms,e,-,-,-,hone,-⟩ := searched_spec input subj hc hsens
    · exact hne (hall i0 hi0)
    · rw [hzero] at hone
      cases hone
  · intro hone
    obtain ⟨hzero,-⟩ | ⟨j,ms,e,hj,hfound,hbefore,hr,hinfo⟩ := searched_spec input subj hc hsens
    · exact absurd hzero hone
    · obtain ⟨ms',hpath,-⟩ := path_of_some ha' hj hfound
      refine ⟨j,e,hr,⟨ms',hpath⟩,hinfo,fun i' j' hm => ?_⟩
      obtain ⟨i0,hle,-,hne⟩ := hfirst hm
      by_contra hlt
      exact hne (hbefore i0 (by omega))

theorem nineFirst_of_exact {exp : Bytes} {p : Pat} (hc : Compiled true exp x.prog a)
    (ha : ∀ T, Plain T → Agrees T a p) (hsens : x.sensitive = true) (hnul : 0 ∉ subj)
    (h : Exact p x input subj) : NineFirst p subj := by
  intro i ⟨j,hm⟩ hmin
  obtain ⟨r,x',hret,-,-,hzero,hone⟩ := h
  have heq := hret.unique (runMatch_eventually hc.holds (hc.prefilters ⟨x.sensitive,input,subj⟩))
  have hr : r ≠ 0 := fun h => hzero h i j hm
  obtain ⟨i0,j0,hri,hm0,-,hfirst⟩ := hone hr
  have hi0 : i0 = i := by
    apply le_antisymm (hfirst i j hm)
    by_contra hlt
    exact hmin i0 (not_le.mp hlt) j0 hm0
  obtain ⟨hzero,-⟩ | ⟨j,ms,e,hj,hfound,-,hr',-⟩ := searched_spec input subj hc hsens
  · rw [← heq] at hzero
    exact absurd hzero hr
  · rw [← heq] at hr'
    obtain rfl : j = i := by omega
    obtain ⟨ms',hpath,hn⟩ := path_of_some (ha ⟨true,input,subj⟩ ⟨rfl,hnul⟩) hj hfound
    exact ⟨ms',e,hpath,hn⟩

/-- `Match` is exact where a first match goes through no group above nine, and nowhere else. -/
theorem exact_iff {exp : Bytes} {prog : Program} (h0 : 0 ∉ exp) (h : compile true exp = .ok prog) :
    (∃ p, Says exp p) ∧ ∀ p, Says exp p → ∀ (x : CRegX) (input : ℕ) (subj : Bytes), x.prog = prog →
      x.sensitive = true → 0 ∉ subj → (Exact p x input subj ↔ NineFirst p subj) := by
  obtain ⟨a,hc⟩ := ok_compile h0 h
  obtain ⟨q,hq,ha⟩ := hc.meaning rfl
  refine ⟨⟨q,hq⟩,fun p hp x input subj hx hsens hnul => ?_⟩
  obtain rfl := hq.unique hp
  obtain rfl := hx
  exact ⟨nineFirst_of_exact hc ha hsens hnul,exact_of_nineFirst hc ha hsens hnul⟩

end

theorem ok_of_isOk {ε α : Type} {x : Except ε α} (h : x.isOk = true) : ∃ a, x = .ok a := by
  cases x with
  | ok a => exact ⟨a,rfl⟩
  | error e => cases h

theorem exact_iff_letter : ∃ prog, compile true (str "a+") = .ok prog ∧
    ∀ p, Says (str "a+") p → ∀ (x : CRegX) (input : ℕ) (subj : Bytes), x.prog = prog → x.sensitive = true →
      0 ∉ subj → (Exact p x input subj ↔ NineFirst p subj) := by
  obtain ⟨prog,h⟩ := ok_of_isOk (show (compile true (str "a+")).isOk = true by decide +kernel)
  exact ⟨prog,h,(exact_iff (by decide) h).2⟩

/-- Characters in parentheses, one behind the other. -/
def groups : ℕ → Bytes → Pat
  | _,[] => .empty
  | n,c::cs => .seq (.group n (.seq (.chr c) .empty)) (groups (n+1) cs)

def inParens (cs : Bytes) : Bytes := cs.flatMap fun c => [ch '(',c,ch ')']

theorem reads_inParens (cs : Bytes) (hcs : ∀ c ∈ cs, ismagic c = false ∧ ismult c = false ∧ c ≠ ch '\\') (n : ℕ) :
    Reads .branch n (inParens cs) (groups n cs) (n+cs.length) [] := by
  induction cs generalizing n with
  | nil => exact .stop (.inl rfl)
  | cons c cs ih =>
    obtain ⟨hmagic,hmult,hb⟩ := hcs c List.mem_cons_self
    have hrest := ih (fun d hd => hcs d (List.mem_cons_of_mem _ hd)) (n+1)
    have hno : NoMult (inParens cs) := by
      cases cs with
      | nil => exact show ismult 0 = false by decide
      | cons d cs => exact show ismult (ch '(') = false by decide
    have hlit : Reads .branch (n+1) (c::ch ')'::inParens cs) (.seq (.chr c) .empty) (n+1)
        (ch ')'::inParens cs) :=
      .more (Lit.not_ends (.plain hmagic hmult hb)) (.once (.lit (.plain hmagic hmult hb)) (by
        exact show ismult (ch ')') = false by decide)) (.stop (.inr ⟨ch ')',by decide,rfl⟩))
    have hgroup : Reads .piece n (inParens (c::cs)) (.group n (.seq (.chr c) .empty)) (n+1) (inParens cs) :=
      .once (.group (.last hlit fun d hd => by cases hd; decide)) hno
    have hlen : n+1+cs.length = n+(c::cs).length := by
      rw [List.length_cons]
      omega
    rw [hlen] at hrest
    exact .more hgroup.piece_not_ends hgroup hrest

/-- Each of the groups is gone through. -/
theorem mem_of_groups {s cs : Bytes} {n i j k : ℕ} {ms : List Mark} (h : Path s (groups n cs) i ms j)
    (hk : k < cs.length) : ∃ l, Mark.start (n+k) l ∈ ms := by
  induction cs generalizing n i ms k with
  | nil => exact absurd hk (Nat.not_lt_zero k)
  | cons c cs ih =>
    cases h with
    | seq hp hq =>
      cases k with
      | zero =>
        cases hp with
        | group hp => exact ⟨_,List.mem_append_left _ List.mem_cons_self⟩
      | succ k =>
        obtain ⟨l,hl⟩ := ih hq (Nat.lt_of_succ_lt_succ hk)
        refine ⟨l,List.mem_append_right _ ?_⟩
        rwa [Nat.add_assoc,Nat.add_comm 1 k] at hl

theorem path_groups {s cs t : Bytes} {i : ℕ} (h : s.drop i = cs ++ t) (hi : i ≤ s.length) (n : ℕ) :
    ∃ ms, Path s (groups n cs) i ms (i+cs.length) := by
  induction cs generalizing n i with
  | nil => exact ⟨[],.empty hi⟩
  | cons c cs ih =>
    have hc : s[i]? = some c := by
      rw [← Nat.add_zero i,← List.getElem?_drop,h]
      rfl
    have hdrop := drop_eq_cons hc
    rw [h,List.cons_append] at hdrop
    have hlt := (List.getElem?_eq_some_iff.mp hc).1
    obtain ⟨ms,hms⟩ := ih (List.cons.inj hdrop).2.symm hlt (n+1)
    rw [Nat.add_assoc,Nat.add_comm 1] at hms
    exact ⟨_,.seq (.group (.seq (.chr hc) (.empty hlt))) hms⟩

/-- A pattern with ten groups is compiled and never matches. -/
theorem ten_groups : ∃ prog p, compile true (str "(a)(b)(c)(d)(e)(f)(g)(h)(i)(j)") = .ok prog ∧
    Says (str "(a)(b)(c)(d)(e)(f)(g)(h)(i)(j)") p ∧ Matches (str "abcdefghij") p 0 10 ∧
    ∀ (x : CRegX) (input : ℕ), x.prog = prog → x.sensitive = true → ¬Exact p x input (str "abcdefghij") := by
  obtain ⟨prog,h⟩ := ok_of_isOk (show (compile true (str "(a)(b)(c)(d)(e)(f)(g)(h)(i)(j)")).isOk = true by
    decide +kernel)
  have hsay : Says (str "(a)(b)(c)(d)(e)(f)(g)(h)(i)(j)") (groups 1 (str "abcdefghij")) :=
    ⟨_,.last (reads_inParens (str "abcdefghij") (by decide +kernel) 1) nofun⟩
  have hmatch : Matches (str "abcdefghij") (groups 1 (str "abcdefghij")) 0 10 :=
    path_groups (t := []) (by decide) (Nat.zero_le _) 1
  refine ⟨prog,groups 1 (str "abcdefghij"),h,hsay,hmatch,fun x input hx hsens hexact => ?_⟩
  obtain ⟨a,hc⟩ := ok_compile (by decide) h
  obtain ⟨q,hq,ha⟩ := hc.meaning rfl
  obtain rfl := hq.unique hsay
  obtain rfl := hx
  have hnine := nineFirst_of_exact hc ha hsens (by decide) hexact
  obtain ⟨ms,j,hpath,hn⟩ := hnine 0 ⟨10,hmatch⟩ fun i' hi' => absurd hi' (Nat.not_lt_zero i')
  obtain ⟨l,hl⟩ := mem_of_groups hpath (k := 9) (by decide)
  exact absurd (hn _ hl) (show ¬10 ≤ 9 by decide)

end Smx.Regx
