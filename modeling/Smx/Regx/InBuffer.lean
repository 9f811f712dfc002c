import Smx.Regx.SheetCode
import Smx.Regx.Writes

/-! Over calls of `Compile` the code stays in its memory, as long as no pattern takes more room than there is. -/
namespace Smx.Regx
open Logging

variable {code : Bytes} {e p : ℕ} {sensitive : Bool} {answer : ℕ → Answer}

/-- What is found is a node with a string. -/
theorem longestAt_some {fuel scan : ℕ} {best : Option ℕ} (h : longestAt code fuel scan best = some p) :
    best = some p ∨ opAt code p = .EXACTLY := by
  induction fuel generalizing scan best with
  | zero => exact .inl h
  | succ fuel ih =>
    have hbest {len : ℕ} (h : (if opAt code scan = .EXACTLY ∧ len ≤ (operand code scan).length then some scan
        else best) = some p) : best = some p ∨ opAt code p = .EXACTLY := by
      split_ifs at h with hex
      · cases h
        exact .inr hex.1
      · exact .inl h
    rw [longestAt] at h
    split at h
    · exact hbest h
    · obtain h | h := ih h
      · exact hbest h
      · exact .inr h

/-- The string of a node lies in front of the `END`. -/
theorem operand_lt (hend : NodeAt code e .END none) (hlen : code.length = e+3) (hp : opAt code p = .EXACTLY) :
    p+3 < code.length := by
  have hzero : offsetAt code e = 0 := by
    by_contra hne
    have hnext := hend.next
    rw [if_neg hne] at hnext
    cases hnext
  have hbyte (hzero : code.getD p 0 = 0) : False := by
    rw [opAt,hzero] at hp
    cases hp
  have he : code.getD e 0 = 0 := by
    rw [List.getD_eq_getElem?_getD,hend.byte]
    rfl
  obtain ⟨h1,h2⟩ : code.getD (e+1) 0 = 0 ∧ code.getD (e+2) 0 = 0 := by
    rw [offsetAt] at hzero
    exact ⟨UInt8.toNat_inj.mp (by change _ = 0; omega),UInt8.toNat_inj.mp (by change _ = 0; omega)⟩
  by_contra hle
  have hcases : p = e ∨ p = e+1 ∨ p = e+2 ∨ code.length ≤ p := by omega
  rcases hcases with rfl | rfl | rfl | hout
  · exact hbyte he
  · exact hbyte h1
  · exact hbyte h2
  · exact hbyte (List.getD_eq_default _ _ hout)

/-- The end of a program. -/
theorem parse_end {fuel ret : ℕ} {flags : Flags} {ps ps' : Parser} (hlen : ps.code.length ≤ codeGrow)
    (hn : 1 ≤ ps.subx_count) (h0 : 0 ∉ ps.parse) (h : parse sensitive fuel false ps = .ok (ret,flags,ps')) :
    ∃ e, NodeAt ps'.code e .END none ∧ ps'.code.length = e+3 := by
  cases fuel with
  | zero =>
    rw [parse] at h
    cases h
  | succ fuel =>
    obtain ⟨-,halts,hbranch,-⟩ := writes_ok sensitive fuel
    obtain ⟨a,-,-,e,-,hnode,hend⟩ := body_writes hbranch halts hlen hn h0 h
    exact ⟨e,hnode,hend⟩

namespace CodeObject

/-- The accesses for a pattern are to nodes that were made, and the fuel lasts. -/
theorem walks_accesses (sensitive : Bool) (exp : Bytes) :
    Accesses.Walks (fun _ _ => True) 0 (accesses sensitive exp) := by
  apply (Accesses.walks_access (a := .chars [MAGIC]) trivial rfl).bind
  rintro _ _ rfl
  exact ((Accesses.walks_ok sensitive _).1 false exp 1 0 le_rfl).mono fun _ _ _ => trivial

/-- The sheet of a pattern ends with a node `END`. -/
theorem gives_accesses (sensitive : Bool) {exp : Bytes} (h0 : 0 ∉ exp) :
    Accesses.Gives (fun t _ => ∃ e, NodeAt t.code e .END none ∧ t.code.length = e+3) ⟨[],[]⟩
      (accesses sensitive exp) := by
  apply (Accesses.gives_access ⟨[],[]⟩ (.chars [MAGIC])).bind
  rintro _ _ ⟨rfl,hfits⟩
  apply ((Accesses.gives_ok sensitive _).1 _ exp 1 false).mono
  rintro t r ⟨hparse,-⟩
  exact parse_end (by exact hfits) le_rfl (by exact h0) hparse

/-- No pattern was compiled yet, or there is a block of memory. -/
structure Kept (o : CodeObject) : Prop where
  inside : o.mem.outside = false
  memory : o.mem.code = none ∧ o.mem.size = 0 ∧ o.mem.ptr = none ∧ o.must = none ∨
    ∃ block, o.mem.code = some block ∧ o.mem.size = codeGrow
  must : ∀ p, o.must = some p → o.mem.code = some p.block ∧ p.off < o.mem.size

/-- The pattern takes no more room than there is, and there is memory for the first one. -/
def Roomy (answer : ℕ → Answer) (o : CodeObject) (call : Call) : Prop := ∀ exp, call.exp = some exp →
  roomOf call.sensitive (cstr exp) ≤ codeGrow ∧ (o.mem.code = none → 0 < guess (cstr exp) ∧ answer o.mem.calls ≠ .null)

theorem kept_new : new.Kept := ⟨rfl,.inl ⟨rfl,rfl,rfl,rfl⟩,nofun⟩

/-- The memory at the beginning of a call. -/
theorem Kept.block {o : CodeObject} (h : o.Kept) {exp : Bytes}
    (hfirst : o.mem.code = none → 0 < guess exp ∧ answer o.mem.calls ≠ .null) :
    ∃ m block, (if o.mem.code = none then o.mem.grow answer (guess exp) else (true,o.mem)) = (true,m) ∧
      m.code = some block ∧ m.size = codeGrow ∧ m.outside = false ∧
        ∀ p, o.must = some p → p.block = block ∧ p.off < codeGrow := by
  obtain ⟨hcode,hsize,hptr,hmust⟩ | ⟨block,hcode,hsize⟩ := h.memory
  · obtain ⟨hguess,hanswer⟩ := hfirst hcode
    have hroom : ¬((0 : ℕ)+guess exp ≤ ((0 : ℕ) : ℤ)) := by omega
    refine ⟨{ o.mem with size := codeGrow,calls := o.mem.calls+1,code := some o.mem.calls },o.mem.calls,?_,rfl,rfl,
      h.inside,fun p hp => by rw [hmust] at hp; cases hp⟩
    rw [if_pos hcode,Mem.grow]
    simp only [hcode,hsize,hptr,Option.map_none,ne_eq,not_true_eq_false,if_false,Option.getD_none,if_neg hroom]
    cases ha : answer o.mem.calls with
    | null => exact absurd ha hanswer
    | stays => rfl
    | moves => rfl
  · refine ⟨o.mem,block,if_neg (by rw [hcode]; exact Option.some_ne_none _),hcode,hsize,h.inside,fun p hp => ?_⟩
    obtain ⟨hblock,hoff⟩ := h.must p hp
    exact ⟨Option.some.inj (hblock.symm.trans hcode),hsize ▸ hoff⟩

theorem optimize_must (o : CodeObject) (spStart : Bool) : (o.optimize spStart).must =
    if (parseNext o.mem.text 1).map (opAt o.mem.text) = some .END ∧ spStart = true then
      (longestAt o.mem.text o.mem.text.length 4 none).bind fun p => o.mem.code.map fun block => ⟨block,p+3⟩
    else none := by
  rw [CodeObject.optimize]
  by_cases hsingle : (parseNext o.mem.text 1).map (opAt o.mem.text) = some .END
  · cases spStart with
    | true => simp [hsingle]
    | false => simp [hsingle]
  · simp [hsingle]

/-- What is found out for `Match` does not change the memory, and the string that must appear lies in it. -/
theorem Kept.optimize {o : CodeObject} {block : ℕ} (hcode : o.mem.code = some block) (hsize : o.mem.size = codeGrow)
    (hinside : o.mem.outside = false) (hlen : o.mem.text.length ≤ codeGrow)
    (hend : ∃ e, NodeAt o.mem.text e .END none ∧ o.mem.text.length = e+3) (spStart : Bool) :
    (o.optimize spStart).Kept := by
  have hmem : (o.optimize spStart).mem = o.mem := by
    rw [CodeObject.optimize]
    split_ifs <;> rfl
  refine ⟨hmem ▸ hinside,.inr ⟨block,hmem ▸ hcode,hmem ▸ hsize⟩,fun p hp => ?_⟩
  rw [hmem,hsize,hcode]
  obtain ⟨e,hnode,he⟩ := hend
  rw [optimize_must] at hp
  split_ifs at hp with hsingle
  obtain ⟨off,hoff,hp⟩ := Option.bind_eq_some_iff.mp hp
  rw [hcode] at hp
  cases hp
  obtain hnone | hex := longestAt_some hoff
  · cases hnone
  · exact ⟨rfl,(operand_lt hnode he hex).trans_le hlen⟩

theorem Kept.compile {o : CodeObject} (h : o.Kept) {call : Call} (hroomy : Roomy answer o call) :
    (compile answer o call).2.Kept := by
  obtain ⟨exp,sensitive⟩ := call
  cases exp with
  | none => exact h
  | some exp =>
    obtain ⟨hroom,hfirst⟩ := hroomy exp rfl
    obtain ⟨m,block,hm,hcode,hsize,hinside,hmust⟩ := h.block hfirst
    simp only [CodeObject.compile,hm]
    have hnul := nul_not_mem_cstr exp
    have hwalks := (walks_accesses sensitive (cstr exp)).log
    have hgives := (gives_accesses sensitive hnul).result
    rw [roomOf] at hroom
    have hfits := along_fits (t := ⟨[],[]⟩) hroom
    have hlen := (length_run (accesses sensitive (cstr exp)).log ⟨[],[]⟩).trans hroom
    generalize accesses sensitive (cstr exp) = r at *
    obtain ⟨as,result⟩ := r
    have hblank : ({ m with ptr := m.code.map (⟨·,0⟩),held := [],text := [] } : Mem).Shows block ⟨[],[]⟩ :=
      ⟨hcode,hsize,by rw [hcode]; rfl,rfl,rfl,hinside⟩
    obtain ⟨m',hexec,hshows⟩ := hblank.exec answer nofun hwalks hfits
    have hsame (p : Ptr) (hp : o.must = some p) : m'.code = some p.block ∧ p.off < m'.size := by
      obtain ⟨hblock,hoff⟩ := hmust p hp
      rw [hshows.code,hshows.size,hblock]
      exact ⟨rfl,hoff⟩
    cases result with
    | error e =>
      simp only [hexec]
      exact ⟨hshows.inside,.inr ⟨block,hshows.code,hshows.size⟩,hsame⟩
    | ok r =>
      simp only [hexec]
      apply Kept.optimize hshows.code hshows.size hshows.inside
      · rw [hshows.text]
        exact hlen
      · rw [hshows.text]
        exact hgives r rfl hfits

/-- In a run of calls whose patterns take no more room than there is, nothing is accessed outside of the memory. -/
theorem inBuffer_of_roomy (answer : ℕ → Answer) (calls : List Call)
    (h : MeetsOnly (step answer) (Roomy answer) new calls) :
    ∀ pre o, pre <+: calls → runFrom (step answer) new pre = some o → o.InBuffer := by
  intro pre o hpre hrun
  have hkept : o.Kept := invariant_of_meetsOnly (fun _ _ _ hs hok hstep => Option.some.inj hstep ▸ hs.compile hok)
    kept_new (h.of_prefix hpre) hrun
  exact ⟨hkept.inside,hkept.must⟩

theorem inBuffer_word : ∃ o : CodeObject,
    runFrom (step fun _ => .stays) new [⟨some (str "ab*c"),true⟩] = some o ∧ o.InBuffer :=
  have hroomy : MeetsOnly (step fun _ => .stays) (Roomy fun _ => .stays) new [⟨some (str "ab*c"),true⟩] :=
    meetsOnly_cons.mpr ⟨by
      rintro _ ⟨⟩
      exact ⟨by decide +kernel,fun _ => ⟨by decide,nofun⟩⟩,fun _ _ => meetsOnly_nil _⟩
  ⟨_,rfl,inBuffer_of_roomy _ _ hroomy _ _ (List.prefix_refl _) rfl⟩

/-- A bracket with nine times all characters is longer than the memory, which does not grow within a piece. -/
theorem not_inBuffer : ¬∀ (answer : ℕ → Answer) (calls : List Call) (pre : List Call) o, pre <+: calls →
    runFrom (step answer) new pre = some o → o.InBuffer := by
  intro h
  have hin := h (fun _ => .stays) [⟨some (ch '['::(List.replicate 9 [1,ch '-',255]).flatten ++ [ch ']']),true⟩] _ _
    (List.prefix_refl _) rfl
  exact absurd hin.inside (by decide +kernel)

end CodeObject
end Smx.Regx
