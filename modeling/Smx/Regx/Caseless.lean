import Smx.Regx.Alike
import Smx.Regx.Groups

/-! Without regard to case: what `Match` finds when the case of letters changes. -/
namespace Smx.Regx
open Subject CRegX

/-- The nodes of a tree, and whether they are repeated ones. -/
def Rx.leaves : Rx → List (Bool × Leaf)
  | .leaf l => [(false,l)]
  | .seq a b => a.leaves ++ b.leaves
  | .last b => b.leaves
  | .alt b a => b.leaves ++ a.leaves
  | .group _ a => a.leaves
  | .rep _ _ l => [(true,l)]
  | .loop a => a.leaves
  | .loop1 a => a.leaves
  | .opt a => a.leaves

/-- Two nodes take or refuse two characters together: brackets, and the first character of a string that is not
repeated. -/
def Leaf.SameTest (repeated : Bool) (c d : Byte) : Leaf → Leaf → Prop
  | .anyof cs,.anyof ds => c ∈ cs ↔ d ∈ ds
  | .anybut cs,.anybut ds => c ∈ cs ↔ d ∈ ds
  | .exactly s,.exactly t => repeated = false → (s.headD 0 = c ↔ t.headD 0 = d)
  | _,_ => True

/-- The nodes of two trees make the same tests of the characters of two texts. -/
def SameTests (a b : Rx) (s t : Bytes) : Prop :=
  ∀ l ∈ a.leaves.zip b.leaves, ∀ c ∈ s.zip t, l.1.2.SameTest l.1.1 c.1 c.2 l.2.2

/-- If the string that must appear is there in some case, it is there as it is. -/
def MustShown (prog : Program) (s : Bytes) : Prop :=
  ∀ m ∈ prog.must, (∃ j, beginsWith false m (s.drop j) = true) → present m s = true

/-- Two calls of `Match` return one number, and if that is a match, it has one start and end. -/
def SameMatch (x y : CRegX) (input : ℕ) (s t : Bytes) : Prop :=
  ∃ r x' y', x.Returns input s (r,x') ∧ y.Returns input t (r,y') ∧
    (r ≠ 0 → x'.getMatchInfo 0 = y'.getMatchInfo 0)

section
variable {s t : Bytes} {input i : ℕ}

theorem SameLetters.at_ (h : SameLetters s t) (i : ℕ) : SameLetter (s.getD i 0) (t.getD i 0) := by
  induction h generalizing i with
  | nil => exact rfl
  | cons hc h ih =>
    cases i with
    | zero => exact hc
    | succ i => exact ih i

theorem SameLetters.zero_mem_iff (h : SameLetters s t) : 0 ∈ s ↔ 0 ∈ t := by
  induction h with
  | nil => exact Iff.rfl
  | cons hc h ih =>
    have hzero := SameLetter.mark_iff (m := 0) (by decide) hc
    rw [List.mem_cons,List.mem_cons,eq_comm,hzero,eq_comm,ih]

/-- The trees of two patterns that differ in the case of letters. -/
theorem treeOf_alike {sensitive : Bool} {a b : Rx} (h : SameLetters s t) (ha : treeOf sensitive s = some a)
    (hb : treeOf sensitive t = some b) : a.Alike b := by
  have hread := (reads_alike sensitive (5*s.length+5)).1 false s t 1 h
  rw [treeOf] at ha hb
  rw [← h.length_eq] at hb
  split at ha
  next a' rest hreadA =>
    split at hb
    next b' rest' hreadB =>
      obtain rfl := Option.some.inj ha
      obtain rfl := Option.some.inj hb
      exact (hread _ _ hreadA hreadB).tree
    next => cases hb
  next => cases ha

theorem sameChar_alike {a b c d : Byte} (hab : SameLetter a b) (hcd : SameLetter c d) :
    sameChar false a c = sameChar false b d := by
  rw [sameChar,sameChar,if_neg Bool.false_ne_true,if_neg Bool.false_ne_true,show tolower a = tolower b from hab,
    show tolower c = tolower d from hcd]

theorem beginsWith_alike {a b : Bytes} (hab : SameLetters a b) (h : SameLetters s t) :
    beginsWith false a s = beginsWith false b t := by
  induction hab generalizing s t with
  | nil => rw [beginsWith,beginsWith]
  | cons hc hab ih =>
    cases h with
    | nil => rfl
    | cons hd h => rw [beginsWith,beginsWith,sameChar_alike hc hd,ih h]

/-- A test of the characters at one place. -/
theorem test_at {P : Byte → Byte → Prop} (h : SameLetters s t) (hP : ∀ c ∈ s.zip t, P c.1 c.2)
    (hi : s.getD i 0 ≠ 0) : P (s.getD i 0) (t.getD i 0) := by
  induction h generalizing i with
  | nil => exact absurd rfl hi
  | cons hc h ih =>
    rw [List.zip_cons_cons,List.forall_mem_cons] at hP
    cases i with
    | zero => exact hP.1
    | succ i => exact ih hP.2 hi

theorem takeWhile_length {p q : Byte → Bool} (h : List.Forall₂ (fun c d => p c = q d) s t) :
    (s.takeWhile p).length = (t.takeWhile q).length := by
  induction h with
  | nil => rfl
  | @cons c d s t hc h ih =>
    rw [List.takeWhile_cons,List.takeWhile_cons,hc]
    cases q d with
    | true => exact congrArg (·+1) ih
    | false => rfl

variable {l m : Leaf}

theorem step_anyof (h : SameLetters s t) {cs ds : Bytes} (htest : ∀ c ∈ s.zip t, c.1 ∈ cs ↔ c.2 ∈ ds) (i : ℕ) :
    (⟨false,input,s⟩ : Subject).step i (.anyof cs) = (⟨false,input,t⟩ : Subject).step i (.anyof ds) := by
  have hzero : s.getD i 0 = 0 ↔ t.getD i 0 = 0 := SameLetter.mark_iff (by decide) (h.at_ i)
  refine if_congr ?_ rfl rfl
  by_cases h0 : s.getD i 0 = 0
  · exact iff_of_true (.inl h0) (.inl (hzero.mp h0))
  · exact or_congr hzero (not_congr (test_at (P := fun c d => c ∈ cs ↔ d ∈ ds) h htest h0))

theorem step_anybut (h : SameLetters s t) {cs ds : Bytes} (htest : ∀ c ∈ s.zip t, c.1 ∈ cs ↔ c.2 ∈ ds) (i : ℕ) :
    (⟨false,input,s⟩ : Subject).step i (.anybut cs) = (⟨false,input,t⟩ : Subject).step i (.anybut ds) := by
  have hzero : s.getD i 0 = 0 ↔ t.getD i 0 = 0 := SameLetter.mark_iff (by decide) (h.at_ i)
  refine if_congr ?_ rfl rfl
  by_cases h0 : s.getD i 0 = 0
  · exact iff_of_true (.inl h0) (.inl (hzero.mp h0))
  · exact or_congr hzero (test_at (P := fun c d => c ∈ cs ↔ d ∈ ds) h htest h0)

theorem step_exactly_alike (h : SameLetters s t) {cs ds : Bytes} (hcs : SameLetters cs ds) (hl : (Leaf.exactly cs).Ok)
    (hm : (Leaf.exactly ds).Ok) (htest : ∀ c ∈ s.zip t, cs.headD 0 = c.1 ↔ ds.headD 0 = c.2) (i : ℕ) :
    (⟨false,input,s⟩ : Subject).step i (.exactly cs) = (⟨false,input,t⟩ : Subject).step i (.exactly ds) := by
  have hzero : s.getD i 0 = 0 ↔ t.getD i 0 = 0 := SameLetter.mark_iff (by decide) (h.at_ i)
  have hhead : cs.headD 0 = s.getD i 0 ↔ ds.headD 0 = t.getD i 0 := by
    by_cases h0 : s.getD i 0 = 0
    · have h0' := hzero.mp h0
      rw [h0,h0']
      exact iff_of_false (headD_ne_zero hl.1 hl.2) (headD_ne_zero hm.1 hm.2)
    · exact test_at (P := fun c d => cs.headD 0 = c ↔ ds.headD 0 = d) h htest h0
  simp only [Subject.step,Subject.at_]
  rw [beginsWith_alike hcs (List.forall₂_drop i h),hcs.length_eq]
  exact if_congr (not_congr hhead) rfl rfl

theorem step_alike (hlm : l.Alike m) (h : SameLetters s t) (hl : l.Ok) (hm : m.Ok)
    (htest : ∀ c ∈ s.zip t, l.SameTest false c.1 c.2 m) (i : ℕ) :
    (⟨false,input,s⟩ : Subject).step i l = (⟨false,input,t⟩ : Subject).step i m := by
  have hzero : s.getD i 0 = 0 ↔ t.getD i 0 = 0 := SameLetter.mark_iff (by decide) (h.at_ i)
  have hword : isword (s.getD i 0) = true ↔ isword (t.getD i 0) = true := by rw [(h.at_ i).isword]
  have hbefore : isword (s.getD (i-1) 0) = true ↔ isword (t.getD (i-1) 0) = true := by rw [(h.at_ (i-1)).isword]
  cases hlm with
  | anyof cs ds => exact step_anyof h htest i
  | anybut cs ds => exact step_anybut h htest i
  | exactly hcs => exact step_exactly_alike h hcs hl hm (fun c hc => htest c hc rfl) i
  | same l =>
    cases l with
    | bol => rfl
    | eol => exact if_congr (not_congr hzero) rfl rfl
    | worda =>
      exact if_congr (not_congr hword) rfl (if_congr (and_congr_right fun _ => hbefore) rfl rfl)
    | wordz => exact if_congr hword rfl rfl
    | any => exact if_congr hzero rfl rfl
    | anyof cs => exact step_anyof h htest i
    | anybut cs => exact step_anybut h htest i
    | exactly cs =>
      exact step_exactly_alike h (List.forall₂_same.mpr fun _ _ => rfl) hl hm (fun c hc => htest c hc rfl) i
    | nothing => rfl

theorem repeats_alike (hlm : l.Alike m) (h : SameLetters s t)
    (htest : ∀ c ∈ s.zip t, l.SameTest true c.1 c.2 m) (i : ℕ) :
    (⟨false,input,s⟩ : Subject).repeats l i = (⟨false,input,t⟩ : Subject).repeats m i := by
  have htakes {c d : Byte} (hcd : SameLetter c d) (ht : l.SameTest true c d m) :
      (⟨false,input,s⟩ : Subject).takes l c = (⟨false,input,t⟩ : Subject).takes m d := by
    have hclass {cs ds : Bytes} (hiff : c ∈ cs ↔ d ∈ ds) : cs.contains c = ds.contains d := by
      rw [Bool.eq_iff_iff,List.contains_iff_mem,List.contains_iff_mem]
      exact hiff
    cases hlm with
    | anyof cs ds => exact hclass ht
    | anybut cs ds => exact congrArg (!·) (hclass ht)
    | exactly hcs => exact sameChar_alike hcs.headD hcd
    | same l =>
      cases l with
      | anyof cs => exact hclass ht
      | anybut cs => exact congrArg (!·) (hclass ht)
      | exactly cs => exact sameChar_alike (show SameLetter _ _ from rfl) hcd
      | _ => rfl
  refine takeWhile_length (List.forall₂_drop i (List.forall₂_iff_zip.mpr ⟨h.length_eq,fun hmem => ?_⟩))
  exact htakes (List.forall₂_zip h hmem) (htest _ hmem)

variable {a b : Rx}

theorem Rx.Alike.leaves_length (h : a.Alike b) : a.leaves.length = b.leaves.length := by
  induction h with
  | leaf h => rfl
  | seq ha hb iha ihb => rw [Rx.leaves,Rx.leaves,List.length_append,List.length_append,iha,ihb]
  | last hb ih => exact ih
  | alt hb ha ihb iha => rw [Rx.leaves,Rx.leaves,List.length_append,List.length_append,ihb,iha]
  | group n ha ih => exact ih
  | rep plus isLazy h => rfl
  | loop ha ih => exact ih
  | loop1 ha ih => exact ih
  | opt ha ih => exact ih

/-- The tests of two parts of a tree. -/
theorem sameTests_append {ls ls' ms ms' : List (Bool × Leaf)} (hlen : ls.length = ms.length)
    (h : ∀ l ∈ (ls ++ ls').zip (ms ++ ms'), ∀ c ∈ s.zip t, l.1.2.SameTest l.1.1 c.1 c.2 l.2.2) :
    (∀ l ∈ ls.zip ms, ∀ c ∈ s.zip t, l.1.2.SameTest l.1.1 c.1 c.2 l.2.2) ∧
      ∀ l ∈ ls'.zip ms', ∀ c ∈ s.zip t, l.1.2.SameTest l.1.1 c.1 c.2 l.2.2 := by
  rw [List.zip_append hlen] at h
  exact ⟨fun l hl => h l (List.mem_append_left _ hl),fun l hl => h l (List.mem_append_right _ hl)⟩

/-- Where the nodes make the same tests, the search does the same. -/
theorem search_alike (hab : a.Alike b) (ha : a.Ok) (hb : b.Ok) (h : SameLetters s t) (htests : SameTests a b s t) :
    (⟨false,input,s⟩ : Subject).search a = (⟨false,input,t⟩ : Subject).search b := by
  have hlen := h.length_eq
  induction hab with
  | @leaf l m hlm =>
    funext k i
    have htest := htests ((false,l),(false,m)) (List.mem_singleton_self _)
    rw [Subject.search,Subject.search,step_alike hlm h ha hb htest]
  | seq h1 h2 ih1 ih2 =>
    obtain ⟨htest1,htest2⟩ := sameTests_append h1.leaves_length htests
    funext k i
    rw [Subject.search,Subject.search,ih1 ha.1 hb.1 htest1,ih2 ha.2.1 hb.2.1 htest2]
  | last h1 ih =>
    funext k i
    rw [Subject.search,Subject.search,ih ha.1 hb.1 htests]
  | alt h1 h2 ih1 ih2 =>
    obtain ⟨htest1,htest2⟩ := sameTests_append h1.leaves_length htests
    funext k i
    rw [Subject.search,Subject.search,ih1 ha.1 hb.1 htest1,ih2 ha.2.1 hb.2.1 htest2]
  | group n h1 ih =>
    funext k i
    rw [Subject.search,Subject.search,ih ha.2.1 hb.2.1 htests]
  | @rep plus isLazy l m hlm =>
    funext k i
    have htest := htests ((true,l),(true,m)) (List.mem_singleton_self _)
    rw [Subject.search,Subject.search,stops,stops,repeats_alike hlm h htest]
  | loop h1 ih =>
    funext k i
    rw [Subject.search,Subject.search,ih ha.1 hb.1 htests,hlen]
  | loop1 h1 ih =>
    funext k i
    rw [Subject.search,Subject.search,ih ha.1 hb.1 htests,hlen]
  | opt h1 ih =>
    funext k i
    rw [Subject.search,Subject.search,ih ha.1 hb.1 htests]

/-- Searches that do the same find the same. -/
theorem sameMatch_of_search {sensitive : Bool} {exp exp' : Bytes} {x y : CRegX}
    (hc : Compiled sensitive exp x.prog a) (hc' : Compiled sensitive exp' y.prog b) (hx : x.sensitive = false)
    (hy : y.sensitive = false) (h : SameLetters s t) (hshown : MustShown x.prog s) (hshown' : MustShown y.prog t)
    (hsearch : (⟨false,input,s⟩ : Subject).search a = (⟨false,input,t⟩ : Subject).search b) :
    SameMatch x y input s t := by
  have hlen := h.length_eq
  have hfirst := searched_first input (mayMatch_of_found hc fun m hm _ hex => hshown m hm (hx ▸ hex))
  have hfirst' := searched_first input (mayMatch_of_found hc' fun m hm _ hex => hshown' m hm (hy ▸ hex))
  rw [hx,hsearch] at hfirst
  rw [hy] at hfirst'
  have hret := runMatch_eventually hc.holds (hc.prefilters ⟨x.sensitive,input,s⟩)
  have hret' := runMatch_eventually hc'.holds (hc'.prefilters ⟨y.sensitive,input,t⟩)
  suffices hsame : (x.searched a input s).1 = (y.searched b input t).1 ∧ ((x.searched a input s).1 ≠ 0 →
      (x.searched a input s).2.getMatchInfo 0 = (y.searched b input t).2.getMatchInfo 0) by
    refine ⟨(x.searched a input s).1,(x.searched a input s).2,(y.searched b input t).2,hret,?_,hsame.2⟩
    rw [hsame.1]
    exact hret'
  obtain ⟨hzero,hall⟩ | ⟨j,ms,e,hj,hfound,hbefore,hone,hinfo⟩ := hfirst
  · obtain ⟨hzero',-⟩ | ⟨j',ms',e',hj',hfound',-⟩ := hfirst'
    · exact ⟨hzero.trans hzero'.symm,fun hne => absurd hzero hne⟩
    · cases (hall j' (hlen ▸ hj')).symm.trans hfound'
  · obtain ⟨-,hall'⟩ | ⟨j',ms',e',hj',hfound',hbefore',hone',hinfo'⟩ := hfirst'
    · cases (hall' j (hlen ▸ hj)).symm.trans hfound
    · obtain rfl : j = j' := by
        by_contra hne
        obtain hlt | hlt := Nat.lt_or_gt_of_ne hne
        · cases (hbefore' j hlt).symm.trans hfound
        · cases (hbefore j' hlt).symm.trans hfound'
      obtain ⟨rfl,rfl⟩ := Prod.mk.inj (Option.some.inj (hfound.symm.trans hfound'))
      exact ⟨hone.trans hone'.symm,fun _ => hinfo.trans hinfo'.symm⟩

end

/-- An object with a pattern, set to disregard case. -/
def caselessOf (exp : Bytes) : CRegX := { objectOf exp with sensitive := false }

end Smx.Regx
