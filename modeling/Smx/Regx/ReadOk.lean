import Smx.Regx.Pattern
import Smx.Regx.Read

/-! The trees that are read are well formed, and reading goes on behind what has been read. -/
namespace Smx.Regx
variable {sensitive : Bool} {text left : Bytes} {n m : ℕ} {r a : Rx} {flags : Flags}

theorem nul_of_suffix (h : left <:+ text) (hnul : 0 ∉ text) : 0 ∉ left := fun h0 => hnul (h.mem h0)

theorem classRange_nul {lo hi : ℕ} (hhi : hi < 256) : 0 ∉ classRange sensitive (lo+1) hi := by
  intro h0
  obtain ⟨k,hk,hmem⟩ := List.mem_flatMap.mp h0
  rw [List.mem_range'_1] at hk
  have hc : UInt8.ofNat k ≠ 0 := by
    intro h
    have hto : (UInt8.ofNat k).toNat = 0 := by rw [h]; rfl
    rw [UInt8.toNat_ofNat'] at hto
    omega
  have hlow : ∀ c : Byte, c ≠ 0 → tolower c ≠ 0 := by grind [tolower]
  have hup : ∀ c : Byte, c ≠ 0 → toupper c ≠ 0 := by grind [toupper]
  simp only at hmem
  split_ifs at hmem
  · exact hc (List.mem_singleton.mp hmem).symm
  · obtain h | h := List.mem_cons.mp hmem
    · exact hlow _ hc h.symm
    · exact hup _ hc (List.mem_singleton.mp h).symm
  · exact hc (List.mem_singleton.mp hmem).symm

theorem classLoop_ok {prev : Byte} {cs : Bytes} (h : classLoop sensitive prev text = .ok (cs,left)) :
    left <:+ text ∧ (0 ∉ text → 0 ∉ cs) := by
  induction prev,text using classLoop.induct generalizing cs left with
  | case1 prev =>
    obtain ⟨rfl,rfl⟩ := Prod.mk.inj (Except.ok.inj h)
    exact ⟨List.suffix_refl _,fun _ => List.not_mem_nil⟩
  | case2 prev rest =>
    rw [classLoop.eq_def] at h
    simp only [if_true] at h
    obtain ⟨rfl,rfl⟩ := Prod.mk.inj (Except.ok.inj h)
    exact ⟨List.suffix_refl _,fun _ => List.not_mem_nil⟩
  | case3 prev hne =>
    rw [classLoop,if_neg hne,if_pos rfl] at h
    obtain ⟨rfl,rfl⟩ := Prod.mk.inj (Except.ok.inj h)
    exact ⟨List.nil_suffix,fun h => h⟩
  | case4 prev rest hne =>
    rw [classLoop,if_neg hne,if_pos rfl] at h
    simp only [if_true] at h
    obtain ⟨rfl,rfl⟩ := Prod.mk.inj (Except.ok.inj h)
    exact ⟨List.suffix_cons _ _,fun _ => by decide⟩
  | case5 prev d rest hd hlt hne =>
    rw [classLoop,if_neg hne,if_pos rfl] at h
    simp only [if_neg hd,if_pos hlt] at h
    cases h
  | case6 prev d rest hd hlt hne ih =>
    rw [classLoop,if_neg hne,if_pos rfl] at h
    simp only [if_neg hd,if_neg hlt] at h
    obtain ⟨⟨cs1,left1⟩,h1,h⟩ := ok_of_bind h
    obtain ⟨rfl,rfl⟩ := Prod.mk.inj (Except.ok.inj h)
    obtain ⟨hsuf,hnul⟩ := ih h1
    refine ⟨(hsuf.trans (List.suffix_cons _ _)).trans (List.suffix_cons _ _),?_⟩
    intro h0 hmem
    obtain hmem | hmem := List.mem_append.mp hmem
    · exact classRange_nul d.toNat_lt hmem
    · exact hnul (fun hm => h0 (List.mem_cons_of_mem _ (List.mem_cons_of_mem _ hm))) hmem
  | case7 prev c rest hc hc' ih =>
    rw [classLoop.eq_def] at h
    simp only [if_neg hc,if_neg hc'] at h
    obtain ⟨⟨cs1,left1⟩,h1,h⟩ := ok_of_bind h
    obtain ⟨rfl,rfl⟩ := Prod.mk.inj (Except.ok.inj h)
    obtain ⟨hsuf,hnul⟩ := ih h1
    refine ⟨hsuf.trans (List.suffix_cons _ _),?_⟩
    intro h0 hmem
    obtain hmem | hmem := List.mem_cons.mp hmem
    · exact h0 (hmem ▸ List.mem_cons_self)
    · exact hnul (fun hm => h0 (List.mem_cons_of_mem _ hm)) hmem

theorem classBody_ok {cs : Bytes} (h : classBody sensitive text = .ok (cs,left)) :
    left <:+ text ∧ left.length < text.length ∧ (0 ∉ text → 0 ∉ cs) := by
  -- behind the loop one character is passed over
  have hclose {cs cs' left' : Bytes} (hc : closeClass cs' left' = .ok (cs,left)) (hsuf : left' <:+ text) :
      left <:+ text ∧ left.length < text.length ∧ cs = cs' := by
    cases left' with
    | nil => cases hc
    | cons d left' =>
      obtain ⟨rfl,rfl⟩ := Prod.mk.inj (Except.ok.inj hc)
      have hlen := hsuf.length_le
      exact ⟨(List.suffix_cons _ _).trans hsuf,by rw [List.length_cons] at hlen; omega,rfl⟩
  cases text with
  | nil => cases h
  | cons c rest =>
    rw [classBody] at h
    split_ifs at h with hc
    · obtain ⟨⟨cs1,left1⟩,h1,h⟩ := ok_of_bind h
      obtain ⟨hsuf,hnul⟩ := classLoop_ok h1
      obtain ⟨hleft,hlt,rfl⟩ := hclose h (hsuf.trans (List.suffix_cons _ _))
      refine ⟨hleft,hlt,?_⟩
      intro h0 hmem
      obtain hmem | hmem := List.mem_cons.mp hmem
      · exact h0 (hmem ▸ List.mem_cons_self)
      · exact hnul (fun hm => h0 (List.mem_cons_of_mem _ hm)) hmem
    · obtain ⟨⟨cs1,left1⟩,h1,h⟩ := ok_of_bind h
      obtain ⟨hsuf,hnul⟩ := classLoop_ok h1
      obtain ⟨hleft,hlt,rfl⟩ := hclose h hsuf
      exact ⟨hleft,hlt,hnul⟩

theorem parseClass_ok {neg : Bool} {cs : Bytes} (h : parseClass sensitive text = .ok (neg,cs,left)) :
    left <:+ text ∧ left.length < text.length ∧ (0 ∉ text → 0 ∉ cs) := by
  rw [parseClass] at h
  split_ifs at h with hneg
  · obtain ⟨⟨cs1,left1⟩,h1,h⟩ := ok_of_bind h
    cases h
    obtain ⟨hsuf,hlt,hnul⟩ := classBody_ok h1
    have htail := List.tail_suffix text
    exact ⟨hsuf.trans htail,hlt.trans_le htail.length_le,fun h0 => hnul (nul_of_suffix htail h0)⟩
  · obtain ⟨⟨cs1,left1⟩,h1,h⟩ := ok_of_bind h
    cases h
    exact classBody_ok h1

/-- A string of characters that stand for themselves, none of which is repeated. -/
inductive Lits : Bytes → Bytes → Bytes → Prop
  | nil (t : Bytes) : Lits t [] t
  | cons {t t' t'' cs : Bytes} {c : Byte} (h : Lit t c t') (hm : NoMult t') (hs : Lits t' cs t'') :
    Lits t (c::cs) t''

/-- What the loop over ordinary characters reads from `c` on: one that is repeated is left for a string of
its own, unless nothing stands in front of it. -/
theorem exactLoop_spec (regprev : Option Bytes) (c : Byte) (t : Bytes) :
    (ismult (t.headD 0) = true →
      exactLoop regprev (c::t) = regprev.elim ([c],t,true) fun parse => ([],parse,false)) ∧
    (NoMult t → ∃ cs left one, exactLoop regprev (c::t) = (c::cs,left,one) ∧ Lits t cs left ∧
      (one = true → cs = [] ∧ left = t) ∧ (one = true → regprev = none)) := by
  induction hlen : t.length using Nat.strong_induction_on generalizing regprev c t with
  | _ len ih =>
    cases t with
    | nil =>
      refine ⟨fun h => absurd h (by decide),fun _ => ?_⟩
      exact ⟨[],[],regprev.isNone,rfl,.nil _,fun _ => ⟨rfl,rfl⟩,Option.isNone_iff_eq_none.mp⟩
    | cons d rest =>
      have hstop (h : exactLoop regprev (c::d::rest) = ([c],d::rest,regprev.isNone)) :
          ∃ cs left one, exactLoop regprev (c::d::rest) = (c::cs,left,one) ∧ Lits (d::rest) cs left ∧
            (one = true → cs = [] ∧ left = d::rest) ∧ (one = true → regprev = none) :=
        ⟨[],d::rest,regprev.isNone,h,.nil _,fun _ => ⟨rfl,rfl⟩,Option.isNone_iff_eq_none.mp⟩
      -- the loop goes on with `e`, which is the first character of the rest
      have hgo (e : Byte) (t : Bytes) (ht : t.length < (d::rest).length) (hlit : Lit (d::rest) e t)
          (h : exactLoop regprev (c::d::rest) =
            (c::(exactLoop (some (d::rest)) (e::t)).1,(exactLoop (some (d::rest)) (e::t)).2)) :
          ∃ cs left one, exactLoop regprev (c::d::rest) = (c::cs,left,one) ∧ Lits (d::rest) cs left ∧
            (one = true → cs = [] ∧ left = d::rest) ∧ (one = true → regprev = none) := by
        obtain ⟨hmult,hno⟩ := ih t.length (hlen ▸ ht) (some (d::rest)) e t rfl
        cases hm : ismult (t.headD 0) with
        | true =>
          rw [hmult hm] at h
          exact ⟨[],d::rest,false,h,.nil _,by rintro ⟨⟩,by rintro ⟨⟩⟩
        | false =>
          obtain ⟨cs,left,one,hrec,hlits,-,hone⟩ := hno hm
          rw [hrec] at h
          have hsome : some (d::rest) ≠ none := by rintro ⟨⟩
          exact ⟨e::cs,left,one,h,.cons hlit hm hlits,fun h => absurd (hone h) hsome,fun h => absurd (hone h) hsome⟩
      have hdef := exactLoop_cons regprev c d rest
      by_cases hmagic : ismagic d = true
      · rw [if_pos hmagic] at hdef
        refine ⟨fun hm => ?_,fun _ => hstop hdef⟩
        have hnot : ∀ d : Byte, ismagic d = true → ismult d = false := by
          intro d hd
          by_contra hm
          simp only [ismult,Bool.not_eq_false,Bool.or_eq_true,beq_iff_eq] at hm
          rcases hm with (rfl | rfl) | rfl <;> cases hd
        rw [List.headD_cons,hnot d hmagic] at hm
        cases hm
      · rw [if_neg hmagic] at hdef
        cases hm : ismult d with
        | true =>
          rw [if_pos hm] at hdef
          refine ⟨fun _ => ?_,fun hno => ?_⟩
          · rw [hdef]
            cases regprev <;> rfl
          · rw [NoMult,List.headD_cons,hm] at hno
            cases hno
        | false =>
          rw [hm,if_neg Bool.false_ne_true] at hdef
          refine ⟨fun h => absurd (hm.symm.trans h) Bool.false_ne_true,fun _ => ?_⟩
          by_cases hb : d = ch '\\'
          · rw [if_pos hb] at hdef
            cases rest with
            | nil => exact hstop hdef
            | cons e rest =>
              by_cases he : e = ch '<' ∨ e = ch '>'
              · exact hstop (hdef.trans (if_pos he))
              · have hlit : Lit (d::e::rest) e rest := by
                  rw [hb]
                  exact .quoted (fun h => he (.inl h)) (fun h => he (.inr h))
                exact hgo e rest (by simp only [List.length_cons]; omega) hlit (hdef.trans (if_neg he))
          · rw [if_neg hb] at hdef
            exact hgo d rest (by simp only [List.length_cons]; omega)
              (.plain (Bool.eq_false_iff.mpr hmagic) hm hb) hdef

end Smx.Regx
