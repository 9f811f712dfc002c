import Smx.Str.Sharing
import Smx.Strings.Token

/-! `%ltrim`, `%rtrim` and `%trim`, whose argument shares its buffer with the string that is trimmed. -/
namespace Smx

/-- `strspn`. -/
def strspn (b t : Bytes) : ℕ := ((cstr b).takeWhile (delimOf (cstr t))).length

/-- `strchr(t, c) != NULL`; it finds the terminating NUL as well. -/
def strchr (t : Bytes) (c : Byte) : Bool := c == 0 || delimOf (cstr t) c

/-- `p = b + length-1; while (p >= b && strchr(t, *p)) --p;`: the number of bytes up to `p`. -/
def trimEnd (b t : Bytes) : ℕ := scanDown (strchr t) (fun k => b.getD k 0) b.length

variable {ι : Type}

/-- `EvalLTrim`: what is put out for the string `i` and the characters of the second argument. -/
def evalLTrim (s : Store ι) (i : ι) : Option Bytes → Option Bytes
  | none => (Store.ltrim none s i).map (·.value i)
  | some toks =>
    let b := s.value i
    if b = [] then some []
    else
      match toks with
      | [] => some b
      | [c] => (Store.ltrim (some c) s i).map (·.value i)
      | toks => some (b.drop (strspn b toks))

/-- `EvalRTrim`. -/
def evalRTrim (s : Store ι) (i : ι) : Option Bytes → Option Bytes
  | none => some ((Store.rtrim none s i).value i)
  | some toks =>
    let b := s.value i
    if b = [] then some []
    else
      match toks with
      | [] => some b
      | [c] => some ((Store.rtrim (some c) s i).value i)
      | toks => some (b.take (trimEnd b toks))

/-- `EvalTrim`. -/
def evalTrim (s : Store ι) (i : ι) : Option Bytes → Option Bytes
  | none => (Store.trim none s i).map (·.value i)
  | some toks =>
    let b := s.value i
    if b = [] then some []
    else
      match toks with
      | [] => some b
      | [c] => (Store.trim (some c) s i).map (·.value i)
      | toks =>
        let b := b.drop (strspn b toks)
        some (b.take (trimEnd b toks))

variable {s : Store ι} {i : ι} {b toks : Bytes}

theorem rdropWhile_cons {α : Type} (p : α → Bool) (a : α) (l : List α) :
    (a::l).rdropWhile p = if l.rdropWhile p = [] ∧ p a = true then [] else a::l.rdropWhile p := by
  unfold List.rdropWhile
  rw [List.reverse_cons,List.dropWhile_append]
  cases hl : l.reverse.dropWhile p with
  | nil => cases ha : p a <;> simp [ha]
  | cons b r => simp

theorem rdropWhile_congr {α : Type} {p q : α → Bool} {l : List α} (h : ∀ a ∈ l, p a = q a) :
    l.rdropWhile p = l.rdropWhile q := by
  induction l with
  | nil => rfl
  | cons a l ih =>
    rw [rdropWhile_cons,rdropWhile_cons,ih fun b hb => h b (List.mem_cons_of_mem a hb),h a List.mem_cons_self]

/-- What is taken off at both ends is taken off in either order. -/
theorem dropWhile_rdropWhile {α : Type} (p : α → Bool) (l : List α) :
    (l.rdropWhile p).dropWhile p = (l.dropWhile p).rdropWhile p := by
  induction l with
  | nil => rfl
  | cons a l ih =>
    rw [rdropWhile_cons]
    cases ha : p a with
    | true =>
      rw [List.dropWhile_cons_of_pos ha,← ih]
      by_cases hl : l.rdropWhile p = []
      · simp [hl]
      · simp [hl,ha]
    | false => rw [List.dropWhile_cons_of_neg (by simp [ha]),rdropWhile_cons]; simp [ha]

theorem drop_strspn (toks : Bytes) (hb : 0 ∉ b) : b.drop (strspn b toks) = b.dropWhile (delimOf (cstr toks)) := by
  rw [strspn,cstr_of_nul_free hb]
  have hsplit : b.takeWhile (delimOf (cstr toks)) ++ b.dropWhile (delimOf (cstr toks)) = b :=
    List.takeWhile_append_dropWhile
  have hdrop := congrArg (List.drop (b.takeWhile (delimOf (cstr toks))).length) hsplit
  rw [List.drop_left' rfl] at hdrop
  exact hdrop.symm

theorem bytesOf_getD (b : Bytes) : bytesOf (fun k => b.getD k 0) b.length = b := by
  apply List.ext_getElem
  · exact length_bytesOf
  · intro k _ hk
    simp [bytesOf,hk]

theorem take_trimEnd (toks : Bytes) (hb : 0 ∉ b) : b.take (trimEnd b toks) = b.rdropWhile (delimOf (cstr toks)) := by
  have hcongr : b.rdropWhile (strchr toks) = b.rdropWhile (delimOf (cstr toks)) := by
    apply rdropWhile_congr
    intro c hc
    have hne : c ≠ 0 := ne_of_mem_of_not_mem hc hb
    simp [strchr,hne]
  rw [trimEnd,scanDown_eq,bytesOf_getD,hcongr]
  exact (List.prefix_iff_eq_take.mp (List.rdropWhile_prefix _ _)).symm

/-- One character is the set of itself. -/
theorem trims_eq_delimOf {c : Byte} : trims (some c) = delimOf [c] := by
  funext b
  rw [Bool.eq_iff_iff]
  simp [trims,delimOf]

section
variable [Fintype ι]

omit [Fintype ι] in
theorem not_overruns {c : Byte} (hc : 0 ∉ [c]) : ¬s.Overruns i (some c) := by
  rintro ⟨h,-⟩
  apply hc
  rw [Option.some.inj h]
  exact List.mem_cons_self

/-- `%ltrim` takes off the longest part in front that is made of `toks`, on either path. -/
theorem evalLTrim_eq (hs : s.Sound) (hb : 0 ∉ s.value i) (hne : toks ≠ []) (htoks : 0 ∉ toks) :
    evalLTrim s i (some toks) = some ((s.value i).dropWhile (delimOf toks)) := by
  by_cases hempty : s.value i = []
  · simp [evalLTrim,hempty]
  · match toks with
    | [c] =>
      obtain ⟨hnone,hsome⟩ := Store.ltrim_spec hs i (some c)
      cases ht : Store.ltrim (some c) s i with
      | none => exact absurd (hnone.mp ht) (not_overruns htoks)
      | some t =>
        have hvalue := (hsome t ht).value i
        rw [if_pos rfl,trims_eq_delimOf] at hvalue
        simp only [evalLTrim,hempty,if_false,ht]
        exact congrArg some hvalue
    | c::d::toks =>
      have hdrop := drop_strspn (c::d::toks) hb
      rw [cstr_of_nul_free htoks] at hdrop
      simp only [evalLTrim,hempty,if_false]
      exact congrArg some hdrop

theorem evalRTrim_eq (hs : s.Sound) (hb : 0 ∉ s.value i) (hne : toks ≠ []) (htoks : 0 ∉ toks) :
    evalRTrim s i (some toks) = some ((s.value i).rdropWhile (delimOf toks)) := by
  by_cases hempty : s.value i = []
  · simp [evalRTrim,hempty]
  · match toks with
    | [c] =>
      have hvalue := (Store.rtrim_spec hs i (some c)).value i
      rw [if_pos rfl,trims_eq_delimOf] at hvalue
      simp only [evalRTrim,hempty,if_false]
      exact congrArg some hvalue
    | c::d::toks =>
      have htake := take_trimEnd (c::d::toks) hb
      rw [cstr_of_nul_free htoks] at htake
      simp only [evalRTrim,hempty,if_false]
      exact congrArg some htake

theorem evalTrim_eq (hs : s.Sound) (hb : 0 ∉ s.value i) (hne : toks ≠ []) (htoks : 0 ∉ toks) :
    evalTrim s i (some toks) = some (((s.value i).dropWhile (delimOf toks)).rdropWhile (delimOf toks)) := by
  by_cases hempty : s.value i = []
  · simp [evalTrim,hempty]
  · match toks with
    | [c] =>
      obtain ⟨hnone,hsome⟩ := Store.trim_spec hs i (some c)
      cases ht : Store.trim (some c) s i with
      | none => exact absurd (hnone.mp ht) (not_overruns htoks)
      | some t =>
        have hvalue := (hsome t ht).value i
        rw [if_pos rfl,trims_eq_delimOf] at hvalue
        simp only [evalTrim,hempty,if_false,ht]
        exact congrArg some hvalue
    | c::d::toks =>
      have hdrop := drop_strspn (c::d::toks) hb
      have hright : 0 ∉ (s.value i).drop (strspn (s.value i) (c::d::toks)) := fun h => hb (List.mem_of_mem_drop h)
      have htake := take_trimEnd (c::d::toks) hright
      rw [hdrop,cstr_of_nul_free htoks] at htake
      simp only [evalTrim,hempty,if_false]
      exact congrArg some (by rw [hdrop,cstr_of_nul_free htoks]; exact htake)

/-- Both paths take off what is made of the characters of `toks`, and the two ends in either order. -/
theorem trim_paths_agree {κ : Type} [Fintype κ] (s : Store ι) (i : ι) (toks : Bytes) (hs : s.Sound)
    (hb : 0 ∉ s.value i) (hne : toks ≠ []) (htoks : 0 ∉ toks) :
    evalLTrim s i (some toks) = some ((s.value i).dropWhile (delimOf toks)) ∧
    evalRTrim s i (some toks) = some ((s.value i).rdropWhile (delimOf toks)) ∧
    evalTrim s i (some toks) = some (((s.value i).dropWhile (delimOf toks)).rdropWhile (delimOf toks)) ∧
    (∀ (t : Store κ) j, t.Sound → evalRTrim s i (some toks) = some (t.value j) →
      evalLTrim t j (some toks) = evalTrim s i (some toks)) ∧
    ∀ (t : Store κ) j, t.Sound → evalLTrim s i (some toks) = some (t.value j) →
      evalRTrim t j (some toks) = evalTrim s i (some toks) := by
  have hleft := evalLTrim_eq hs hb hne htoks
  have hright := evalRTrim_eq hs hb hne htoks
  have hboth := evalTrim_eq hs hb hne htoks
  refine ⟨hleft,hright,hboth,?_,?_⟩
  · intro t j ht h
    have hvalue := Option.some.inj (hright.symm.trans h)
    have hnul : 0 ∉ t.value j := by
      rw [← hvalue]
      exact fun h => hb ((List.rdropWhile_prefix _ _).mem h)
    rw [evalLTrim_eq ht hnul hne htoks,hboth,← hvalue,dropWhile_rdropWhile]
  · intro t j ht h
    have hvalue := Option.some.inj (hleft.symm.trans h)
    have hnul : 0 ∉ t.value j := by
      rw [← hvalue]
      exact fun h => hb ((List.dropWhile_suffix _).mem h)
    rw [evalRTrim_eq ht hnul hne htoks,hboth,← hvalue]

theorem trim_paths_agree_all : ∃ s : Store (Fin 1), s.value 0 = str "aba" ∧
    evalLTrim s 0 (some (str "ab")) = some ((s.value 0).dropWhile (delimOf (str "ab"))) ∧
    evalRTrim s 0 (some (str "ab")) = some ((s.value 0).rdropWhile (delimOf (str "ab"))) ∧
    evalTrim s 0 (some (str "ab")) =
      some (((s.value 0).dropWhile (delimOf (str "ab"))).rdropWhile (delimOf (str "ab"))) ∧
    (∀ (t : Store (Fin 1)) j, t.Sound → evalRTrim s 0 (some (str "ab")) = some (t.value j) →
      evalLTrim t j (some (str "ab")) = evalTrim s 0 (some (str "ab"))) ∧
    ∀ (t : Store (Fin 1)) j, t.Sound → evalLTrim s 0 (some (str "ab")) = some (t.value j) →
      evalRTrim t j (some (str "ab")) = evalTrim s 0 (some (str "ab")) := by
  obtain ⟨s,-,hs⟩ := Store.assignChars_spec (fun _ _ => 0) Store.start_sound (0 : Fin 1) (some (str "aba"))
  have hvalue : s.value 0 = str "aba" := hs.value
  exact ⟨s,hvalue,trim_paths_agree s 0 _ hs.sound (by rw [hvalue]; decide) (by decide) (by decide)⟩
end
end Smx
