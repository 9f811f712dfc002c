import Smx.Cgi.HtmlClean
import Smx.Lib.Tokens

/-! `ParseAry`: which lists it takes apart at their separators. -/
namespace Smx
open Tokens

/-- `ParseAry` ends in the text, and gives its runs of characters that are no separators. -/
def SplitsRuns (p toks : Bytes) : Prop :=
  ∃ items, parseAry p toks = some items ∧ Runs (fun c => decide (c ∈ toks)) p items

/-- No separator stands first, last or next to another one. -/
structure Apart (toks p : Bytes) : Prop where
  first : ∀ c ∈ p.head?, c ∉ toks
  last : ∀ c ∈ p.getLast?, c ∉ toks
  between : p.IsChain fun c d => c ∉ toks ∨ d ∉ toks

variable {toks o p : Bytes} {c d : Byte} {items : List Bytes}

theorem parseAryFrom_char (hc : c ∉ toks) : parseAryFrom toks o (c::p) = parseAryFrom toks (o ++ [c]) p := by
  rw [parseAryFrom.eq_def]
  simp [hc]

theorem parseAryFrom_last (hc : c ∈ toks) : parseAryFrom toks o [c] = none := by
  rw [parseAryFrom.eq_def]
  simp [hc]

theorem parseAryFrom_sep (hc : c ∈ toks) : parseAryFrom toks o (c::d::p) =
    if toks.head? = some d then none else (parseAryFrom toks [d] p).map (o::·) := by
  rw [parseAryFrom.eq_def]
  simp [hc]

/-- The item that has been begun is put out. -/
theorem exists_of_parseAryFrom (ho : o ≠ []) (h : parseAryFrom toks o p = some items) :
    ∃ x xs, items = (o ++ x)::xs := by
  induction p generalizing o items with
  | nil =>
    rw [parseAryFrom,if_neg ho] at h
    exact ⟨[],[],by rw [List.append_nil,Option.some.inj h]⟩
  | cons c p ih =>
    by_cases hc : c ∈ toks
    · cases p with
      | nil =>
        rw [parseAryFrom_last hc] at h
        cases h
      | cons d p =>
        rw [parseAryFrom_sep hc] at h
        split_ifs at h
        obtain ⟨rest,-,hrest⟩ := Option.map_eq_some_iff.mp h
        exact ⟨[],rest,by rw [List.append_nil,hrest]⟩
    · rw [parseAryFrom_char hc] at h
      obtain ⟨x,xs,hx⟩ := ih (List.append_ne_nil_of_left_ne_nil ho _) h
      exact ⟨c::x,xs,by rw [hx,List.append_assoc]; rfl⟩

/-- Behind an item that has been begun: the rest is taken apart at its separators when none of them is last or next
to another one. -/
theorem parseAryFrom_runs_iff (ho : o ≠ []) (hsep : ∀ c ∈ o, c ∉ toks) :
    (∃ items, parseAryFrom toks o p = some items ∧ Runs (fun c => decide (c ∈ toks)) (o ++ p) items) ↔
      (∀ c ∈ p.getLast?, c ∉ toks) ∧ p.IsChain fun c d => c ∉ toks ∨ d ∉ toks := by
  have hfalse {o : Bytes} (hsep : ∀ c ∈ o, c ∉ toks) : ∀ c ∈ o, decide (c ∈ toks) = false :=
    fun c hc => decide_eq_false (hsep c hc)
  induction hlen : p.length using Nat.strong_induction_on generalizing o p with
  | _ len ih =>
    cases p with
    | nil =>
      refine iff_of_true ⟨[o],by rw [parseAryFrom,if_neg ho],?_⟩ (by simp)
      have hrun : Runs (fun c => decide (c ∈ toks)) ([] ++ (o ++ [])) [o] :=
        Runs.run (by simp) ho (hfalse hsep) (by simp) (Runs.done (by simp))
      simpa using hrun
    | cons c p =>
      by_cases hc : c ∈ toks
      · cases p with
        | nil =>
          refine iff_of_false ?_ fun h => h.1 c rfl hc
          rintro ⟨items,hitems,-⟩
          rw [parseAryFrom_last hc] at hitems
          cases hitems
        | cons d p =>
          have happ {rest : List Bytes} : Runs (fun c => decide (c ∈ toks)) (o ++ c::d::p) (o::rest) ↔
              o = o ∧ Runs (fun c => decide (c ∈ toks)) (d::p) rest :=
            Runs.append_iff ho (hfalse hsep) (decide_eq_true hc)
          rw [parseAryFrom_sep hc]
          by_cases hd : d ∈ toks
          · refine iff_of_false ?_ ?_
            · rintro ⟨items,hitems,hruns⟩
              split_ifs at hitems
              obtain ⟨rest,hrest,rfl⟩ := Option.map_eq_some_iff.mp hitems
              obtain ⟨x,xs,rfl⟩ := exists_of_parseAryFrom (List.cons_ne_nil d []) hrest
              have hitem := ((happ.mp hruns).2.not_sep _ List.mem_cons_self).2 d (by simp)
              exact absurd hd (of_decide_eq_false hitem)
            · rintro ⟨-,hchain⟩
              rcases (List.isChain_cons_cons.mp hchain).1 with h | h
              · exact h hc
              · exact h hd
          · have hhead : toks.head? ≠ some d := fun h => hd (List.mem_of_head? h)
            have hnext := ih p.length (by rw [← hlen,List.length_cons,List.length_cons]; omega) (o := [d])
              (List.cons_ne_nil d []) (by simpa using hd) rfl
            rw [if_neg hhead]
            have hrest : (∃ items, (parseAryFrom toks [d] p).map (o::·) = some items ∧
                Runs (fun c => decide (c ∈ toks)) (o ++ c::d::p) items) ↔
                ∃ items, parseAryFrom toks [d] p = some items ∧ Runs (fun c => decide (c ∈ toks)) ([d] ++ p) items := by
              constructor
              · rintro ⟨items,hitems,hruns⟩
                obtain ⟨rest,hrest,rfl⟩ := Option.map_eq_some_iff.mp hitems
                exact ⟨rest,hrest,(happ.mp hruns).2⟩
              · rintro ⟨rest,hrest,hruns⟩
                exact ⟨o::rest,by rw [hrest]; rfl,happ.mpr ⟨rfl,hruns⟩⟩
            refine hrest.trans (hnext.trans ?_)
            cases p with
            | nil => simp [hd]
            | cons e p => simp [List.isChain_cons_cons,hd]
      · have hnext := ih p.length (by rw [← hlen]; exact Nat.lt_succ_self _) (o := o ++ [c])
          (List.append_ne_nil_of_left_ne_nil ho _) (by simpa [or_imp,forall_and,hc] using hsep) rfl
        rw [parseAryFrom_char hc]
        simp only [List.append_assoc,List.cons_append,List.nil_append] at hnext
        refine hnext.trans ?_
        cases p with
        | nil => simp [hc]
        | cons d p => simp [List.isChain_cons_cons,hc]

/-- The text is taken apart into its runs just if no separator is first, last or next to another one. -/
theorem splitsRuns_iff (p toks : Bytes) : SplitsRuns p toks ↔ Apart toks p := by
  cases p with
  | nil => exact iff_of_true ⟨[],rfl,.done (by simp)⟩ ⟨by simp,by simp,.nil⟩
  | cons c p =>
    by_cases hc : c ∈ toks
    · refine iff_of_false ?_ fun h => h.first c rfl hc
      rintro ⟨items,hitems,hruns⟩
      have hempty : ∃ rest, items = []::rest := by
        cases p with
        | nil =>
          rw [parseAry,parseAryFrom_last hc] at hitems
          cases hitems
        | cons d p =>
          rw [parseAry,parseAryFrom_sep hc] at hitems
          split_ifs at hitems
          obtain ⟨rest,-,hrest⟩ := Option.map_eq_some_iff.mp hitems
          exact ⟨rest,hrest.symm⟩
      obtain ⟨rest,rfl⟩ := hempty
      exact (hruns.not_sep [] List.mem_cons_self).1 rfl
    · have hbegun := @parseAryFrom_runs_iff toks [c] p (List.cons_ne_nil c []) (by simpa using hc)
      rw [SplitsRuns,parseAry,parseAryFrom_char hc]
      refine hbegun.trans ?_
      constructor
      · rintro ⟨hlast,hchain⟩
        refine ⟨by simpa using hc,?_,?_⟩
        · cases p with
          | nil => simpa using hc
          | cons d p => simpa using hlast
        · cases p with
          | nil => exact .singleton c
          | cons d p => exact .cons_cons (.inl hc) hchain
      · rintro ⟨-,hlast,hchain⟩
        cases p with
        | nil => exact ⟨by simp,.nil⟩
        | cons d p => exact ⟨by simpa using hlast,(List.isChain_cons_cons.mp hchain).2⟩

/-- Two separators in a row: the inner loop never moves on. -/
theorem separator_twice : parseAry (str "a,,b") (str ",;") = none ∧ ¬SplitsRuns (str "a,,b") (str ",;") := by
  have hnone : parseAry (str "a,,b") (str ",;") = none := by decide
  refine ⟨hnone,?_⟩
  rintro ⟨items,hitems,-⟩
  rw [hnone] at hitems
  cases hitems

end Smx
