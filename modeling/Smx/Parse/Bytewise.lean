import Smx.Parse.Direct

/-! Texts that call nothing: each percent sign is doubled, and `Parse` prints what was meant. -/
namespace Smx

/-- The text with each percent sign twice. -/
def doubled (s : Bytes) : Bytes := s.flatMap fun c => if c = T_PCT then [T_PCT,T_PCT] else [c]

theorem doubled_cons (c : Byte) (s : Bytes) :
    doubled (c::s) = (if c = T_PCT then [T_PCT,T_PCT] else [c]) ++ doubled s := List.flatMap_cons

theorem doubled_of_not_mem {s : Bytes} (h : T_PCT ∉ s) : doubled s = s := by
  induction s with
  | nil => rfl
  | cons c s ih =>
    have hc : c ≠ T_PCT := fun hc => h (hc ▸ List.mem_cons_self)
    rw [doubled_cons,if_neg hc,ih fun hs => h (List.mem_cons_of_mem _ hs)]
    rfl

theorem length_le_doubled (s : Bytes) : s.length ≤ (doubled s).length := by
  induction s with
  | nil => exact le_refl _
  | cons c s ih =>
    rw [doubled_cons,List.length_append,List.length_cons]
    split_ifs
    · simp only [List.length_cons,List.length_nil]
      omega
    · simp only [List.length_cons,List.length_nil]
      omega

namespace Host
variable {σ ο : Type} (H : Host σ ο)
open EmitM (emit)

/-- The second of two percent signs. -/
theorem parseFunc_pct (n : ℕ) (inp : Bytes) :
    H.parseFunc (n+1) (T_PCT::inp) = emit [T_PCT] >>= fun _ => pure inp := by
  have hsym : isqsymf T_PCT = false := by decide
  simp [parseFunc,hsym]

/-- Each byte is printed as it was meant, until 0xFF is taken for the end. -/
theorem parseLoop_doubled {s : Bytes} {n : ℕ} (hn : s.length < n) :
    H.parseLoop (n+1) (doubled s) = emit (s.takeWhile (· != EOF)) := by
  have hpct : T_PCT ≠ EOF := by decide
  induction s generalizing n with
  | nil => rfl
  | cons c s ih =>
    obtain ⟨m,rfl⟩ : ∃ m, n = m+1 := ⟨n-1,by omega⟩
    have hm : s.length < m := Nat.lt_of_succ_lt_succ hn
    rw [doubled_cons]
    by_cases hc : c = EOF
    · rw [if_neg (hc ▸ hpct.symm),List.takeWhile_cons_of_neg (by simp [hc]),List.singleton_append,
        parseLoop,getC_cons,if_pos hc]
      rfl
    · have hcons : (c::s).takeWhile (· != EOF) = [c] ++ s.takeWhile (· != EOF) :=
        List.takeWhile_cons_of_pos (by simpa using hc)
      rw [hcons,EmitM.emit_append,← ih hm]
      cases Classical.em (c = T_PCT) with
      | inl hp =>
        rw [if_pos hp,hp,List.cons_append,List.singleton_append,parseLoop,getC_cons,if_neg hpct,if_pos rfl,
          parseFunc_pct,bind_assoc]
        rfl
      | inr hp =>
        rw [if_neg hp,List.singleton_append,parseLoop,getC_cons,if_neg hc,if_neg hp]

/-- `Parse` prints just the text `s`, given with its percent signs doubled; so it does with `s` itself
where there are none. -/
def LetsThrough (s₀ : σ) (s : Bytes) : Prop :=
  (H.parse (doubled s)).run s₀ = ⟨.ok (),s₀,s⟩ ∧ (T_PCT ∉ s → (H.parse s).run s₀ = ⟨.ok (),s₀,s⟩)

theorem run_parse_doubled {s₀ : σ} (hdeep : H.tooDeep s₀ = false) (s : Bytes) :
    (H.parse (doubled s)).run s₀ = ⟨.ok (),s₀,s.takeWhile (· != EOF)⟩ := by
  have hlen := length_le_doubled s
  have hfuel : fuelFor (doubled s) = 4*(doubled s).length+3+1 := rfl
  have hparse : (H.parse (doubled s)).run s₀ = (H.parseLoop (fuelFor (doubled s)) (doubled s)).run s₀ := by
    rw [parse,EmitM.run_bind_ok (EmitM.run_get s₀),hdeep]
    rfl
  rw [hparse,hfuel,H.parseLoop_doubled (by omega),EmitM.run_emit]

/-- In a context that is not nested too deep the parser lets through every text without 0xFF. -/
theorem letsThrough_iff {s₀ : σ} (hdeep : H.tooDeep s₀ = false) (s : Bytes) : H.LetsThrough s₀ s ↔ EOF ∉ s := by
  constructor
  · intro h
    have hrun := h.1.symm.trans (H.run_parse_doubled hdeep s)
    have hs : s = s.takeWhile (· != EOF) := congrArg Outcome.out hrun
    intro hmem
    rw [hs] at hmem
    simpa using List.mem_takeWhile_imp hmem
  · intro h
    have hs : s.takeWhile (· != EOF) = s := by
      rw [List.takeWhile_eq_self_iff]
      intro c hc
      simpa using fun heof : c = EOF => h (heof ▸ hc)
    have hrun := H.run_parse_doubled hdeep s
    rw [hs] at hrun
    refine ⟨hrun,fun hpct => ?_⟩
    rwa [doubled_of_not_mem hpct] at hrun

end Host

theorem letsThrough_percent : (emptyHost true).LetsThrough () (str "100 % \\(") := by
  apply ((emptyHost true).letsThrough_iff rfl _).mpr
  decide

/-- The page ends at the first byte 0xFF. -/
theorem page_cut : ¬∀ (σ ο : Type) (H : Host σ ο) (s₀ : σ) (s : Bytes), H.tooDeep s₀ = false →
    H.LetsThrough s₀ s := by
  intro h
  have hcut := (h Unit Empty (emptyHost false) () (str "a" ++ [0xFF] ++ str "b") rfl).1
  have hout : str "a" = str "a" ++ [0xFF] ++ str "b" := congrArg Outcome.out hcut
  revert hout
  decide

end Smx
