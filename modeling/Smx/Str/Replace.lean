import Mathlib.Data.List.Lex
import Smx.Base.Bytes
import Smx.Lib.Replace

/-! `ReplaceStr`. -/
namespace Smx
open Replace

/-- `strstr`: what stands before the place and what behind it. -/
def strstr (f : Bytes) : Bytes → Option (Bytes × Bytes)
  | [] => if f = [] then some ([],[]) else none
  | c::s =>
    if f <+: c::s then some ([],(c::s).drop f.length)
    else if c = 0 then none
    else (strstr f s).map fun r => (c::r.1,r.2)

/-- The loop for a string of the same length, which is put into the place found; `none` when the fuel does
not last. -/
def replaceEqual (from_ to_ : Bytes) : ℕ → Bytes → Option Bytes
  | 0,_ => none
  | n+1,s =>
    match strstr from_ s with
    | none => some s
    | some (before,rest) => replaceEqual from_ to_ n (before ++ to_ ++ rest)

/-- The loop for a string of another length: what has been copied, and what is left. There are not more
rounds than bytes. -/
def replaceCopy (from_ to_ : Bytes) : ℕ → Bytes → Bytes × Bytes
  | 0,s => ([],s)
  | n+1,s =>
    match strstr from_ s with
    | none => ([],s)
    | some (before,rest) =>
      (before ++ to_ ++ (replaceCopy from_ to_ n rest).1,(replaceCopy from_ to_ n rest).2)

/-- `ReplaceStr`. When nothing is left behind the last place, the old string is returned. -/
def replaceStrTo (s from_ to_ : Bytes) (fuel : ℕ) : Option Bytes :=
  if from_ = [] ∨ s.length < from_.length then some s
  else if from_.length = to_.length then replaceEqual from_ to_ fuel s
  else
    let r := replaceCopy from_ to_ s.length s
    some (if r.2.length < s.length ∧ r.2 ≠ [] then r.1 ++ r.2 else s)

/-- `ReplaceStr` ends, with each occurrence replaced once. -/
def ReplacesAll (s from_ to_ : Bytes) : Prop :=
  ∃ r, Becomes (· = from_) to_ s r ∧ ∃ f, ∀ n, f ≤ n → replaceStrTo s from_ to_ n = some r

/-- Behind no place does the string begin in what has been put out. -/
def NotAgain (s from_ to_ : Bytes) : Prop := ∀ done rest, Stage (· = from_) to_ s done rest →
  ∀ u v, done ++ rest = u ++ from_ ++ v → done.length ≤ u.length

/-- Behind each place something is left. -/
def LeavesSome (s from_ to_ : Bytes) : Prop := ∀ done, ¬Stage (· = from_) to_ s done []

section
variable {from_ to_ s u v r : Bytes}

theorem strstr_of_first (hs : 0 ∉ s) (h : First (· = from_) s u v) : strstr from_ s = some (u,v) := by
  induction s generalizing u with
  | nil =>
    obtain ⟨m,rfl,heq⟩ := h.hit
    obtain ⟨hum,rfl⟩ := List.append_eq_nil_iff.mp heq.symm
    obtain ⟨rfl,rfl⟩ := List.append_eq_nil_iff.mp hum
    rfl
  | cons c s ih =>
    obtain ⟨m,rfl,heq⟩ := h.hit
    rw [strstr]
    by_cases hpre : m <+: c::s
    · obtain ⟨w,hw⟩ := hpre
      have hnil := h.least [] m w hw.symm rfl
      obtain rfl := List.eq_nil_of_length_eq_zero (Nat.le_zero.mp hnil)
      rw [List.nil_append] at heq
      rw [heq,if_pos (List.prefix_append m v),List.drop_left]
    · rw [if_neg hpre,if_neg (fun h0 => hs (by rw [h0]; exact List.mem_cons_self))]
      cases u with
      | nil => exact absurd ⟨v,heq.symm⟩ hpre
      | cons d u =>
        obtain ⟨rfl,htail⟩ := List.cons.inj heq
        have hfirst : First (· = m) s u v := by
          refine ⟨⟨m,rfl,htail⟩,fun u' m' v' hs' hm' => ?_⟩
          have hle := h.least (c::u') m' v' (congrArg (List.cons c) hs') hm'
          exact Nat.le_of_succ_le_succ hle
        rw [ih (fun h0 => hs (List.mem_cons_of_mem _ h0)) hfirst]
        rfl

theorem strstr_of_free (h : Free (· = from_) s) : strstr from_ s = none := by
  have hpre (s : Bytes) (h : Free (· = from_) s) : ¬from_ <+: s := fun ⟨w,hw⟩ => h [] from_ w hw.symm rfl
  induction s with
  | nil =>
    refine if_neg fun hnil => hpre [] h ?_
    exact hnil ▸ List.nil_prefix
  | cons c s ih =>
    rw [strstr,if_neg (hpre _ h),ih h.tail]
    split_ifs
    · rfl
    · rfl

theorem first_of_strstr (hs : 0 ∉ s) (h : strstr from_ s = some (u,v)) : First (· = from_) s u v := by
  obtain ⟨u',v',hfirst⟩ | hfree := first_or_free (· = from_) s
  · obtain ⟨rfl,rfl⟩ := Prod.mk.inj (Option.some.inj ((strstr_of_first hs hfirst).symm.trans h))
    exact hfirst
  · cases (strstr_of_free hfree).symm.trans h

theorem length_from : ∀ m, m = from_ → m.length = from_.length := fun _ h => congrArg List.length h

theorem nul_free_of_first (h : First (· = from_) s u v) (hs : 0 ∉ s) : 0 ∉ u ∧ 0 ∉ v := by
  obtain ⟨m,-,rfl⟩ := h.hit
  rw [List.mem_append,List.mem_append,not_or,not_or] at hs
  exact ⟨hs.1.1,hs.2⟩

/-- The copying loop puts out each piece, and leaves what is behind the last place. -/
theorem replaceCopy_spec (to_ : Bytes) (hfrom : from_ ≠ []) (hs : 0 ∉ s) {n : ℕ} (hn : s.length ≤ n) :
    Becomes (· = from_) to_ s ((replaceCopy from_ to_ n s).1 ++ (replaceCopy from_ to_ n s).2) ∧
      ((Free (· = from_) s ∧ replaceCopy from_ to_ n s = ([],s)) ∨
        (replaceCopy from_ to_ n s).2.length < s.length ∧
          Stage (· = from_) to_ s (replaceCopy from_ to_ n s).1 (replaceCopy from_ to_ n s).2) := by
  induction n generalizing s with
  | zero =>
    obtain rfl := List.eq_nil_of_length_eq_zero (Nat.le_zero.mp hn)
    have hfree : Free (· = from_) [] := by
      intro u m v hs hm
      obtain ⟨hum,-⟩ := List.append_eq_nil_iff.mp hs.symm
      exact hfrom (hm.symm.trans (List.append_eq_nil_iff.mp hum).2)
    exact ⟨.none hfree,.inl ⟨hfree,rfl⟩⟩
  | succ n ih =>
    obtain ⟨u,v,h⟩ | hfree := first_or_free (· = from_) s
    · have hlen := h.length length_from
      have hpos : 0 < from_.length := List.length_pos_iff.mpr hfrom
      obtain ⟨-,hv⟩ := nul_free_of_first h hs
      obtain ⟨hrep,hcase⟩ := ih hv (by omega)
      rw [replaceCopy,strstr_of_first hs h]
      simp only
      refine ⟨?_,.inr ?_⟩
      · rw [List.append_assoc]
        exact .some h hrep
      · obtain ⟨-,heq⟩ | ⟨hlt,hstage⟩ := hcase
        · rw [heq,List.append_nil]
          exact ⟨by simp only; omega,.hit h⟩
        · exact ⟨by omega,.next h hstage⟩
    · rw [replaceCopy,strstr_of_free hfree]
      exact ⟨.none hfree,.inl ⟨hfree,rfl⟩⟩

theorem replaceCopy_suffix (hs : 0 ∉ s) (n : ℕ) : (replaceCopy from_ to_ n s).2 <:+ s := by
  induction n generalizing s with
  | zero => exact List.suffix_rfl
  | succ n ih =>
    obtain ⟨u,v,h⟩ | hfree := first_or_free (· = from_) s
    · obtain ⟨m,-,hsplit⟩ := h.hit
      rw [replaceCopy,strstr_of_first hs h]
      exact (ih (nul_free_of_first h hs).2).trans ⟨u ++ m,hsplit.symm⟩
    · have heq : replaceCopy from_ to_ (n+1) s = ([],s) := by rw [replaceCopy,strstr_of_free hfree]
      exact heq ▸ List.suffix_rfl

/-- Behind any place there is still what is left in the end. -/
theorem left_of_stage {done rest : Bytes} (h : Stage (· = from_) to_ s done rest) (hs : 0 ∉ s) {n : ℕ}
    (hn : s.length ≤ n) (hfrom : from_ ≠ []) : (replaceCopy from_ to_ n s).2 <:+ rest := by
  induction h generalizing n with
  | @hit s u v h =>
    have hlen := h.length length_from
    have hpos : 0 < from_.length := List.length_pos_iff.mpr hfrom
    obtain ⟨n,rfl⟩ : ∃ m, n = m+1 := ⟨n-1,by omega⟩
    rw [replaceCopy,strstr_of_first hs h]
    exact replaceCopy_suffix (nul_free_of_first h hs).2 n
  | @next s u v done rest h hv ih =>
    have hlen := h.length length_from
    have hpos : 0 < from_.length := List.length_pos_iff.mpr hfrom
    obtain ⟨n,rfl⟩ : ∃ m, n = m+1 := ⟨n-1,by omega⟩
    rw [replaceCopy,strstr_of_first hs h]
    exact ih (nul_free_of_first h hs).2 (by omega)

/-- With a string of another length the result is right unless a place is at the end. -/
theorem replacesAll_copy (hfrom : from_ ≠ []) (hs : 0 ∉ s) (hle : from_.length ≤ s.length)
    (hne : from_.length ≠ to_.length) : ReplacesAll s from_ to_ ↔ LeavesSome s from_ to_ := by
  obtain ⟨hrep,hcase⟩ := replaceCopy_spec to_ hfrom hs (le_refl s.length)
  have hdef (n : ℕ) : replaceStrTo s from_ to_ n = some
      (if (replaceCopy from_ to_ s.length s).2.length < s.length ∧ (replaceCopy from_ to_ s.length s).2 ≠ []
        then (replaceCopy from_ to_ s.length s).1 ++ (replaceCopy from_ to_ s.length s).2 else s) := by
    rw [replaceStrTo,if_neg (not_or.mpr ⟨hfrom,Nat.not_lt.mpr hle⟩),if_neg hne]
  obtain ⟨hfree,heq⟩ | ⟨hlt,hstage⟩ := hcase
  · rw [heq] at hdef
    refine ⟨fun _ done hdone => hdone.not_free hfree,fun _ => ⟨s,.none hfree,0,fun n _ => ?_⟩⟩
    rw [hdef,if_neg fun h => Nat.lt_irrefl _ h.1]
  · constructor
    · intro ⟨r,hr,f,hf⟩ done hdone
      have hnil : (replaceCopy from_ to_ s.length s).2 = [] :=
        List.suffix_nil.mp (left_of_stage hdone hs (le_refl _) hfrom)
      have heq := hf f le_rfl
      rw [hdef,if_neg fun h => h.2 hnil] at heq
      exact hr.ne length_from hne hdone.not_free (Option.some.inj heq).symm
    · intro hleaves
      refine ⟨_,hrep,0,fun n _ => ?_⟩
      rw [hdef,if_pos ⟨hlt,fun hnil => hleaves _ (hnil ▸ hstage)⟩]

/-- One list comes before another in a strict order of their first different bytes. -/
theorem lex_trans {R : Byte → Byte → Prop} (hR : ∀ a b c, R a b → R b c → R a c) {a b c : Bytes}
    (h : List.Lex R a b) (h' : List.Lex R b c) : List.Lex R a c := by
  induction h generalizing c with
  | nil =>
    cases h' with
    | cons _ => exact .nil
    | rel _ => exact .nil
  | cons _ ih =>
    cases h' with
    | cons h' => exact .cons (ih h')
    | rel h' => exact .rel h'
  | rel h =>
    cases h' with
    | cons _ => exact .rel h
    | rel h' => exact .rel (hR _ _ _ h h')

theorem lex_irrefl {R : Byte → Byte → Prop} (hR : ∀ a, ¬R a a) (a : Bytes) : ¬List.Lex R a a := by
  induction a with
  | nil => exact nofun
  | cons c a ih =>
    intro h
    cases h with
    | cons h => exact ih h
    | rel h => exact hR c h

/-- Two strings of one length that differ have a first byte where they do. -/
theorem exists_first_ne {a b : Bytes} (hlen : a.length = b.length) (hne : a ≠ b) :
    ∃ p x y a' b', a = p ++ x::a' ∧ b = p ++ y::b' ∧ x ≠ y := by
  induction a generalizing b with
  | nil => exact absurd (List.eq_nil_of_length_eq_zero hlen.symm).symm hne
  | cons x a ih =>
    cases b with
    | nil => cases hlen
    | cons y b =>
      by_cases hxy : x = y
      · obtain ⟨p,x',y',a',b',rfl,rfl,h⟩ := ih (Nat.succ.inj hlen) fun hab => hne (by rw [hxy,hab])
        exact ⟨x::p,x',y',a',b',rfl,by rw [hxy]; rfl,h⟩
      · exact ⟨[],x,y,a,b,rfl,rfl,hxy⟩

/-- A strict order that puts one byte before another one. -/
theorem exists_order {x y : Byte} (h : x ≠ y) : ∃ R : Byte → Byte → Prop, (∀ a, ¬R a a) ∧
    (∀ a b c, R a b → R b c → R a c) ∧ R y x := by
  have hne : x.toNat ≠ y.toNat := fun heq => h (UInt8.toNat_inj.mp heq)
  obtain hlt | hlt := Nat.lt_or_gt_of_ne hne
  · exact ⟨fun a b => b.toNat < a.toNat,fun a => Nat.lt_irrefl _,fun a b c h h' => Nat.lt_trans h' h,hlt⟩
  · exact ⟨fun a b => a.toNat < b.toNat,fun a => Nat.lt_irrefl _,fun a b c h h' => Nat.lt_trans h h',hlt⟩

/-- What is put in begins like what was there. -/
theorem head_of_replaced {p x' y' : Bytes} (h : Becomes (· = p ++ x') (p ++ y') s r) :
    s.take p.length = r.take p.length := by
  cases h with
  | none _ => rfl
  | @some _ u v v' h _ =>
    obtain ⟨m,rfl,rfl⟩ := h.hit
    have hfront (w : Bytes) : (u ++ p ++ w).take p.length = (u ++ p).take p.length :=
      List.take_append_of_le_length (by rw [List.length_append]; omega)
    have hold := hfront (x' ++ v)
    have hnew := hfront (y' ++ v')
    simp only [List.append_assoc] at hold hnew ⊢
    rw [hold,hnew]

/-- A list that is before the result stays before it. -/
theorem replaceEqual_ne {R : Byte → Byte → Prop} (hirr : ∀ a, ¬R a a) (htrans : ∀ a b c, R a b → R b c → R a c)
    {p a b : Bytes} {x y : Byte} (hfrom : from_ = p ++ x::a) (hto : to_ = p ++ y::b) (hR : R y x) {n : ℕ}
    (hs : 0 ∉ s) (hto0 : 0 ∉ to_) (h : List.Lex R s r) : replaceEqual from_ to_ n s ≠ some r := by
  induction n generalizing s with
  | zero => exact nofun
  | succ n ih =>
    rw [replaceEqual]
    obtain ⟨u,v,hfirst⟩ | hfree := first_or_free (· = from_) s
    · rw [strstr_of_first hs hfirst]
      obtain ⟨m,rfl,hsplit⟩ := hfirst.hit
      obtain ⟨hu,hv⟩ := nul_free_of_first hfirst hs
      apply ih
      · rw [List.mem_append,List.mem_append]
        exact fun h0 => h0.elim (fun h0 => h0.elim hu hto0) hv
      · apply lex_trans htrans _ h
        rw [hsplit,hfrom,hto]
        have hlex : List.Lex R (y::(b ++ v)) (x::(a ++ v)) := .rel hR
        have hlex := List.Lex.append_left R hlex (u ++ p)
        simp only [List.append_assoc,List.cons_append] at hlex ⊢
        exact hlex
    · rw [strstr_of_free hfree]
      intro heq
      rw [Option.some.inj heq] at h
      exact lex_irrefl hirr r h

/-- A string that replaces itself does so for ever. -/
theorem replaceEqual_self (hs : 0 ∉ s) (h : First (· = from_) s u v) (n : ℕ) :
    replaceEqual from_ from_ n s = none := by
  induction n with
  | zero => rfl
  | succ n ih =>
    obtain ⟨m,rfl,hsplit⟩ := h.hit
    rw [replaceEqual,strstr_of_first hs h]
    simp only
    rw [← hsplit,ih]

/-- Where the string begins in what has been put out, the result is not reached any more. -/
theorem replaceEqual_again {done rest rest' : Bytes} (hlen : from_.length = to_.length) (hfrom : from_ ≠ [])
    (hs : 0 ∉ done ++ rest) (hto : 0 ∉ to_) (hrest : Becomes (· = from_) to_ rest rest')
    (h : First (· = from_) (done ++ rest) u v) (hu : u.length < done.length) (n : ℕ) :
    replaceEqual from_ to_ n (done ++ rest) ≠ some (done ++ rest') := by
  by_cases hself : from_ = to_
  · rw [← hself,replaceEqual_self hs h]
    exact nofun
  · obtain ⟨p,x,y,a,b,rfl,rfl,hxy⟩ := exists_first_ne hlen hself
    obtain ⟨R,hirr,htrans,hR⟩ := exists_order hxy
    cases n with
    | zero => exact nofun
    | succ n =>
      rw [replaceEqual,strstr_of_first hs h]
      obtain ⟨hu0,hv0⟩ := nul_free_of_first h hs
      obtain ⟨m,rfl,hsplit⟩ := h.hit
      apply replaceEqual_ne hirr htrans rfl rfl hR _ hto
      · -- up to the place, and as far as both strings agree, the text is that of the result
        obtain ⟨w,hw⟩ : u ++ p ++ [x] <+: done ++ rest' := by
          have hpre : u ++ p ++ [x] <+: (done ++ rest).take (done.length+p.length) := by
            apply List.prefix_take_iff.mpr
            refine ⟨⟨a ++ v,by rw [hsplit]; simp⟩,?_⟩
            rw [List.length_append,List.length_append,List.length_singleton]
            omega
          rw [List.take_length_add_append,head_of_replaced hrest,← List.take_length_add_append] at hpre
          exact hpre.trans (List.take_prefix _ _)
        rw [← hw]
        have hlex : List.Lex R (y::(b ++ v)) (x::w) := .rel hR
        have hlex := List.Lex.append_left R hlex (u ++ p)
        simp only [List.append_assoc,List.cons_append,List.nil_append] at hlex ⊢
        exact hlex
      · rw [List.mem_append,List.mem_append]
        exact fun h0 => h0.elim (fun h0 => h0.elim hu0 hto) hv0

/-- The string does not begin in the text that has been put out. -/
def Clear (from_ done rest : Bytes) : Prop := ∀ u v, done ++ rest = u ++ from_ ++ v → done.length ≤ u.length

/-- Where the result is reached, the string has not begun in front. -/
theorem clear_of_result {done rest rest' : Bytes} (hlen : from_.length = to_.length) (hfrom : from_ ≠ [])
    (hs : 0 ∉ done ++ rest) (hto : 0 ∉ to_) (hrest : Becomes (· = from_) to_ rest rest') {n : ℕ}
    (h : replaceEqual from_ to_ n (done ++ rest) = some (done ++ rest')) : Clear from_ done rest := by
  intro u v hsplit
  by_contra hu
  obtain ⟨u',v',hfirst⟩ | hfree := first_or_free (· = from_) (done ++ rest)
  · have hle := hfirst.least u from_ v hsplit rfl
    exact replaceEqual_again hlen hfrom hs hto hrest hfirst (hle.trans_lt (Nat.not_le.mp hu)) n h
  · exact hfree u from_ v hsplit rfl

theorem Clear.first {done rest : Bytes} (h : Clear from_ done rest) (hfirst : First (· = from_) rest u v) :
    First (· = from_) (done ++ rest) (done ++ u) v :=
  hfirst.append fun u' _ v' hsplit hm => h u' v' (hm ▸ hsplit)

theorem Clear.free {done rest : Bytes} (h : Clear from_ done rest) (hfree : Free (· = from_) rest) :
    Free (· = from_) (done ++ rest) :=
  hfree.append fun u' _ v' hsplit hm => h u' v' (hm ▸ hsplit)

/-- Where the result is reached, the next round goes on behind the first place. -/
theorem exists_next_round {pre : Bytes} (hlen : from_.length = to_.length) (hfrom : from_ ≠ [])
    (hs : 0 ∉ pre ++ s) (hto : 0 ∉ to_) (hr : Becomes (· = from_) to_ s r) {n : ℕ}
    (h : replaceEqual from_ to_ n (pre ++ s) = some (pre ++ r)) (hfirst : First (· = from_) s u v) :
    ∃ v' n, Becomes (· = from_) to_ v v' ∧ 0 ∉ pre ++ (u ++ to_) ++ v ∧
      replaceEqual from_ to_ n (pre ++ (u ++ to_) ++ v) = some (pre ++ (u ++ to_) ++ v') := by
  have hfirst' := (clear_of_result hlen hfrom hs hto hr h).first hfirst
  cases n with
  | zero => cases h
  | succ n =>
    rw [replaceEqual,strstr_of_first hs hfirst'] at h
    cases hr with
    | none hfree => exact absurd hfree hfirst.not_free
    | some hfirst2 hv =>
      obtain ⟨rfl,rfl⟩ := hfirst.unique length_from hfirst2
      refine ⟨_,n,hv,?_,?_⟩
      · obtain ⟨hu0,hv0⟩ := nul_free_of_first hfirst' hs
        rw [List.mem_append,not_or] at hu0
        simp only [List.mem_append,not_or]
        exact ⟨⟨hu0.1,hu0.2,hto⟩,hv0⟩
      · simp only [List.append_assoc] at h ⊢
        exact h

/-- Where the result is reached, the string has not begun in front, behind whichever place. -/
theorem clear_of_stage {pre done rest : Bytes} (hlen : from_.length = to_.length) (hfrom : from_ ≠ [])
    (hs : 0 ∉ pre ++ s) (hto : 0 ∉ to_) (hr : Becomes (· = from_) to_ s r) {n : ℕ}
    (h : replaceEqual from_ to_ n (pre ++ s) = some (pre ++ r)) (hstage : Stage (· = from_) to_ s done rest) :
    Clear from_ (pre ++ done) rest := by
  induction hstage generalizing pre r n with
  | hit hfirst =>
    obtain ⟨v',n,hv,h0,hn⟩ := exists_next_round hlen hfrom hs hto hr h hfirst
    exact clear_of_result hlen hfrom h0 hto hv hn
  | next hfirst hstage ih =>
    obtain ⟨v',n,hv,h0,hn⟩ := exists_next_round hlen hfrom hs hto hr h hfirst
    rw [← List.append_assoc]
    exact ih h0 hv hn

/-- Where the string never begins in front, the loop replaces each place once. -/
theorem replaceEqual_of_clear {pre : Bytes} (hfrom : from_ ≠ []) (hs : 0 ∉ pre ++ s) (hto : 0 ∉ to_)
    (hpre : Clear from_ pre s)
    (hclear : ∀ done rest, Stage (· = from_) to_ s done rest → Clear from_ (pre ++ done) rest) {n : ℕ}
    (hn : s.length < n) : ∃ r, Becomes (· = from_) to_ s r ∧
      ∀ m, n ≤ m → replaceEqual from_ to_ m (pre ++ s) = some (pre ++ r) := by
  induction n generalizing pre s with
  | zero => exact absurd hn (Nat.not_lt_zero _)
  | succ n ih =>
    obtain ⟨u,v,hfirst⟩ | hfree := first_or_free (· = from_) s
    · have hlen := hfirst.length length_from
      have hpos : 0 < from_.length := List.length_pos_iff.mpr hfrom
      have hfirst' := hpre.first hfirst
      obtain ⟨hu0,hv0⟩ := nul_free_of_first hfirst' hs
      have h0 : 0 ∉ pre ++ (u ++ to_) ++ v := by
        rw [List.mem_append,not_or] at hu0
        simp only [List.mem_append,not_or]
        exact ⟨⟨hu0.1,hu0.2,hto⟩,hv0⟩
      obtain ⟨r,hr,hrun⟩ := ih h0 (hclear _ _ (.hit hfirst)) (fun done rest hstage => by
        rw [List.append_assoc]
        exact hclear _ _ (.next hfirst hstage)) (by omega)
      refine ⟨u ++ to_ ++ r,.some hfirst hr,fun m hm => ?_⟩
      obtain ⟨m,rfl⟩ : ∃ k, m = k+1 := ⟨m-1,by omega⟩
      have hm := hrun m (by omega)
      rw [replaceEqual,strstr_of_first hs hfirst']
      simp only [List.append_assoc] at hm ⊢
      exact hm
    · refine ⟨s,.none hfree,fun m hm => ?_⟩
      obtain ⟨m,rfl⟩ : ∃ k, m = k+1 := ⟨m-1,by omega⟩
      rw [replaceEqual,strstr_of_free (hpre.free hfree)]

/-- With a string of the same length the result is right where it never begins in front. -/
theorem replacesAll_equal (hfrom : from_ ≠ []) (hs : 0 ∉ s) (hto : 0 ∉ to_) (hle : from_.length ≤ s.length)
    (hlen : from_.length = to_.length) : ReplacesAll s from_ to_ ↔ NotAgain s from_ to_ := by
  have hdef (n : ℕ) : replaceStrTo s from_ to_ n = replaceEqual from_ to_ n s := by
    rw [replaceStrTo,if_neg (not_or.mpr ⟨hfrom,Nat.not_lt.mpr hle⟩),if_pos hlen]
  constructor
  · intro ⟨r,hr,f,hf⟩ done rest hstage
    have hrun := hf f (Nat.le_refl f)
    rw [hdef] at hrun
    exact clear_of_stage hlen hfrom (show 0 ∉ [] ++ s from hs) hto hr hrun hstage
  · intro h
    obtain ⟨r,hr,hrun⟩ := replaceEqual_of_clear hfrom (show 0 ∉ [] ++ s from hs) hto (fun _ _ _ => Nat.zero_le _) h
      (Nat.lt_succ_self s.length)
    refine ⟨r,hr,s.length+1,fun n hn => ?_⟩
    rw [hdef]
    exact hrun n hn

/-- In a shorter text the string does not occur. -/
theorem free_of_shorter (h : s.length < from_.length) : Free (· = from_) s := by
  intro u m v hs hm
  rw [hs,hm,List.length_append,List.length_append] at h
  omega

/-- `ReplaceStr` is right where a string of the same length never begins in what has been put out, and one
of another length leaves something behind each place. -/
theorem replacesAll_iff (s from_ to_ : Bytes) (hfrom : from_ ≠ []) (hs : 0 ∉ s) (hto : 0 ∉ to_) :
    ReplacesAll s from_ to_ ↔
      (from_.length = to_.length → NotAgain s from_ to_) ∧ (from_.length ≠ to_.length → LeavesSome s from_ to_) := by
  by_cases hle : from_.length ≤ s.length
  · by_cases hlen : from_.length = to_.length
    · rw [replacesAll_equal hfrom hs hto hle hlen]
      exact ⟨fun h => ⟨fun _ => h,fun hne => absurd hlen hne⟩,fun h => h.1 hlen⟩
    · rw [replacesAll_copy hfrom hs hle hlen]
      exact ⟨fun h => ⟨fun heq => absurd heq hlen,fun _ => h⟩,fun h => h.2 hlen⟩
  · have hfree := free_of_shorter (Nat.not_le.mp hle)
    refine ⟨fun _ => ⟨fun _ _ _ hstage => absurd hfree hstage.not_free,
      fun _ _ hstage => hstage.not_free hfree⟩,fun _ => ⟨s,.none hfree,0,fun n _ => ?_⟩⟩
    rw [replaceStrTo,if_pos (.inr (Nat.not_le.mp hle))]

theorem replacesAll_iff_dash : ReplacesAll (str "a-b") (str "-") [] ↔
    ((str "-").length = ([] : Bytes).length → NotAgain (str "a-b") (str "-") []) ∧
      ((str "-").length ≠ ([] : Bytes).length → LeavesSome (str "a-b") (str "-") []) :=
  replacesAll_iff _ _ _ (by decide) (by decide) (by decide)

/-- A place at the end is not replaced; and a string that begins again in what was put in is replaced
twice. -/
theorem replace_wrong : ¬ReplacesAll (str "4111-") (str "-") [] ∧
    ¬ReplacesAll (str "aab") (str "ab") (str "ba") := by
  constructor
  · intro h
    rw [replacesAll_copy (by decide) (by decide) (by decide) (by decide)] at h
    exact h _ (.hit (first_of_strstr (by decide) (show strstr (str "-") (str "4111-") = some (str "4111",[]) by
      decide)))
  · intro h
    rw [replacesAll_equal (by decide) (by decide) (by decide) (by decide) (by decide)] at h
    have hfirst : First (· = str "ab") (str "aab") (str "a") [] := first_of_strstr (by decide) (by decide)
    exact absurd (h _ _ (.hit hfirst) [] (str "a") (by decide)) (by decide)

end
end Smx
