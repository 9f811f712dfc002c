import Mathlib.Data.List.Sort
import Smx.Strings.Token

/-! `%enumsort`. -/
namespace Smx
open Tokens

def stricmpLoop : Bytes → Bytes → ℤ
  | [],[] => 0
  | [],d::_ => -(tolower d).toNat
  | c::_,[] => (tolower c).toNat
  | c::a,d::b => if tolower c = tolower d then stricmpLoop a b else (tolower c).toNat-(tolower d).toNat

/-- `stricmp`: the first bytes that differ decide. -/
def stricmp (a b : Bytes) : ℤ := stricmpLoop (cstr a) (cstr b)

/-- `strtok`: the next token, and where it goes on. -/
def strtokOf (t p : Bytes) : Option (Bytes × Bytes) :=
  match p.dropWhile (delimOf t) with
  | [] => none
  | c::p => some (front (delimOf t) (c::p),(leftover (delimOf t) (c::p)).tail)

def strtokLoop (t : Bytes) : ℕ → Bytes → List Bytes
  | 0,_ => []
  | k+1,p =>
    match strtokOf t p with
    | none => []
    | some (tok,p) => tok::strtokLoop t k p

/-- How the script in `alg` compares two tokens: what it puts out for `%a%` and `%b%`. -/
abbrev AlgText := Bytes → Bytes → Bytes → Bytes

/-- `EvalWNCom`. -/
def evalWNCom (algText : AlgText) (alg a b : Bytes) : ℤ :=
  let r := algText alg a b
  if r = [] then 0 else atoi r

/-- The comparison that is handed to `qsort`. -/
def comparison (algText : AlgText) (alg : Bytes) : Bytes → Bytes → ℤ :=
  if alg = [] then stricmp else evalWNCom algText alg

variable {σ : Type}

/-- The loop over the sorted array, from index `i` on: the evaluations, and the elements whose destructor is run.
`none` where the characters of a token would be taken for an element of the array. -/
def sortLoop (uniq : Bool) (body : TokenBody σ) :
    List Bytes → ℕ → Bool → Option Bytes → σ → Option (Visits σ × List ℕ)
  | [],_,_,_,s => some (⟨[],[],s⟩,[])
  | curw::ary,i,ok,prevw,s =>
    if !ok then some (⟨[],[],s⟩,[])
    else if uniq && prevw.isSome then none
    else
      let r := body curw s
      (sortLoop uniq body ary (i+1) (!r.breaks) prevw r.state).map fun (v,destroyed) =>
        (⟨curw::v.tokens,r.out ++ v.out,v.state⟩,i::destroyed)

/-- The evaluations, the number of elements that are constructed and those that are destroyed. -/
structure SortVisits (σ : Type) extends Visits σ where
  built : ℕ
  destroyed : List ℕ

/-- `GetAt`: no bytes where there is no argument. -/
def argText (args : List (Option Bytes)) (i : ℕ) : Bytes := (args[i]?).join.getD []

/-- The delimiters in force. -/
def sortDelim (args : List (Option Bytes)) : Bytes :=
  let delim := argText args 1
  cstr (if delim = [] then str "\n\r|,;" else delim)

/-- `EvalEnumSort`, for arguments that are `none` where they have no buffer. `none` where `strtok` is called with
no string to begin with. -/
def evalEnumSort (qsort : (Bytes → Bytes → ℤ) → List Bytes → List Bytes) (algText : AlgText)
    (body : TokenBody σ) (args : List (Option Bytes)) (s : σ) : Option (SortVisits σ) :=
  if args.length ≤ 2 then some ⟨⟨[],[],s⟩,0,[]⟩
  else if cstr (argText args 2) = [] then some ⟨⟨[],[],s⟩,0,[]⟩
  else
    match (args[0]?).join with
    | none => none
    | some data =>
      let ary := strtokLoop (sortDelim args) (cstr data).length (cstr data)
      let sorted := qsort (comparison algText (argText args 3)) ary
      (sortLoop (parseBool (argText args 4)) body sorted 0 true none s).map fun (v,destroyed) =>
        ⟨v,ary.length,destroyed⟩

/-- `v` is the loop over the tokens `toks`, sorted and with one of each class where that is asked for. -/
structure SortedVisits (cmp : Bytes → Bytes → ℤ) (uniq : Bool) (toks : List Bytes) (v : SortVisits σ) : Prop where
  sorted : v.tokens.Pairwise fun a b => cmp a b ≤ 0
  perm : uniq = false → v.tokens.Perm toks
  mem : ∀ a ∈ v.tokens, a ∈ toks
  once : uniq = true → ∀ t ∈ toks, v.tokens.countP (fun a => cmp a t = 0) = 1
  destroyed : v.destroyed.Perm (List.range v.built)

variable {t p a b : Bytes} {body : TokenBody σ} {k i : ℕ}

theorem runs_strtokLoop (hk : p.length ≤ k) : Runs (delimOf t) p (strtokLoop t k p) := by
  induction k generalizing p with
  | zero =>
    obtain rfl := List.length_eq_zero_iff.mp (Nat.le_zero.mp hk)
    exact Runs.done (by simp)
  | succ k ih =>
    apply Runs.of_dropWhile
    have hle := (List.dropWhile_suffix (l := p) (delimOf t)).length_le
    have hhead : ∀ c ∈ (p.dropWhile (delimOf t)).head?, delimOf t c = false := fun c => head_dropWhile
    rw [strtokLoop,strtokOf]
    generalize p.dropWhile (delimOf t) = q at hle hhead
    cases q with
    | nil => exact Runs.done (by simp)
    | cons c q =>
      have hlt : (leftover (delimOf t) (c::q)).length < (c::q).length := leftover_length_lt (hhead c rfl)
      apply Runs.cons (List.cons_ne_nil c q) hhead
      have hlen : (leftover (delimOf t) (c::q)).tail.length ≤ k := by
        rw [List.length_tail]
        omega
      exact ih hlen

theorem tolower_toNat_ne_zero {c : Byte} (hc : c ≠ 0) : (tolower c).toNat ≠ 0 := by
  intro h
  have hzero : tolower c = 0 := UInt8.toNat_inj.mp h
  grind [tolower]

theorem stricmpLoop_eq_zero (ha : ∀ c ∈ a, c ≠ 0) (hb : ∀ c ∈ b, c ≠ 0) : stricmpLoop a b = 0 ↔ SameName a b := by
  induction a,b using stricmpLoop.induct with
  | case1 => simp [stricmpLoop,SameName]
  | case2 d b => simpa [stricmpLoop,SameName] using tolower_toNat_ne_zero (hb d List.mem_cons_self)
  | case3 c a => simpa [stricmpLoop,SameName] using tolower_toNat_ne_zero (ha c List.mem_cons_self)
  | case4 c a d b heq ih =>
    have hiff := ih (fun c hc => ha c (List.mem_cons_of_mem _ hc)) (fun c hc => hb c (List.mem_cons_of_mem _ hc))
    rw [stricmpLoop,if_pos heq]
    apply hiff.trans
    simp [SameName,heq]
  | case5 c a d b hne =>
    have hnat : ((tolower c).toNat : ℤ)-(tolower d).toNat ≠ 0 := by
      intro h
      apply hne
      apply UInt8.toNat_inj.mp
      omega
    rw [stricmpLoop,if_neg hne]
    simp [SameName,hnat,hne]

theorem stricmp_eq_zero : stricmp a b = 0 ↔ SameName (cstr a) (cstr b) :=
  stricmpLoop_eq_zero (fun _ hc => ne_of_mem_of_not_mem hc (nul_not_mem_cstr a))
    (fun _ hc => ne_of_mem_of_not_mem hc (nul_not_mem_cstr b))

theorem stricmpLoop_le_zero (ha : ∀ c ∈ a, c ≠ 0) (hb : ∀ c ∈ b, c ≠ 0) :
    stricmpLoop a b ≤ 0 ↔ a.map tolower ≤ b.map tolower := by
  induction a,b using stricmpLoop.induct with
  | case1 => simp [stricmpLoop]
  | case2 d b => simp [stricmpLoop]
  | case3 c a =>
    have hpos := Nat.pos_of_ne_zero (tolower_toNat_ne_zero (ha c List.mem_cons_self))
    simp [stricmpLoop,hpos.ne']
  | case4 c a d b heq ih =>
    have hiff := ih (fun c hc => ha c (List.mem_cons_of_mem _ hc)) (fun c hc => hb c (List.mem_cons_of_mem _ hc))
    rw [stricmpLoop,if_pos heq]
    apply hiff.trans
    simp [List.cons_le_cons_iff,heq]
  | case5 c a d b hne =>
    rw [stricmpLoop,if_neg hne,List.map_cons,List.map_cons,List.cons_le_cons_iff,UInt8.lt_iff_toNat_lt]
    have hnat : (tolower c).toNat ≠ (tolower d).toNat := fun h => hne (UInt8.toNat_inj.mp h)
    simp only [hne,false_and,or_false]
    omega

/-- The order of `stricmp` is that of dictionaries, on lower case letters. -/
theorem stricmp_le_zero : stricmp a b ≤ 0 ↔ (cstr a).map tolower ≤ (cstr b).map tolower :=
  stricmpLoop_le_zero (fun _ hc => ne_of_mem_of_not_mem hc (nul_not_mem_cstr a))
    (fun _ hc => ne_of_mem_of_not_mem hc (nul_not_mem_cstr b))

theorem equivalence_stricmp : Equivalence fun a b => stricmp a b = 0 where
  refl _ := stricmp_eq_zero.mpr rfl
  symm h := stricmp_eq_zero.mpr (stricmp_eq_zero.mp h).symm
  trans h h' := stricmp_eq_zero.mpr ((stricmp_eq_zero.mp h).trans (stricmp_eq_zero.mp h'))

/-- Each is the only one in its class iff no two are in one. -/
theorem countP_eq_one_iff {α : Type} {r : α → α → Prop} [DecidableRel r] (hr : Equivalence r) (l : List α) :
    (∀ t ∈ l, l.countP (fun a => r a t) = 1) ↔ l.Pairwise fun a b => ¬r a b := by
  induction l with
  | nil => simp
  | cons a l ih =>
    have hpos : ∀ t ∈ l, 0 < l.countP (fun a => r a t) := by
      intro t ht
      apply List.countP_pos_iff.mpr
      exact ⟨t,ht,by simpa using hr.refl t⟩
    rw [List.pairwise_cons,← ih]
    constructor
    · intro h
      constructor
      · intro t ht hat
        have hcount := h t (List.mem_cons_of_mem a ht)
        have hp := hpos t ht
        rw [List.countP_cons_of_pos (by simpa using hat)] at hcount
        omega
      · intro t ht
        have hcount := h t (List.mem_cons_of_mem a ht)
        have hp := hpos t ht
        rw [List.countP_cons] at hcount
        omega
    · rintro ⟨hne,h⟩ t ht
      rcases List.mem_cons.mp ht with rfl | ht
      · have hzero : l.countP (fun b => r b t) = 0 := by
          apply List.countP_eq_zero.mpr
          intro b hb hbt
          exact hne b hb (hr.symm (by simpa using hbt))
        rw [List.countP_cons_of_pos (by simpa using hr.refl t),hzero]
      · rw [List.countP_cons_of_neg (by simpa using hne t ht)]
        exact h t ht

/-- A body that does not break is evaluated for the whole array, which is then destroyed. -/
theorem sortLoop_eq (hbody : ∀ tok s, (body tok s).breaks = false) (uniq : Bool) (ary : List Bytes) (i : ℕ) (s : σ) :
    ∃ v, sortLoop uniq body ary i true none s = some (v,List.range' i ary.length) ∧ v.tokens = ary := by
  induction ary generalizing i s with
  | nil => exact ⟨_,rfl,rfl⟩
  | cons curw ary ih =>
    obtain ⟨v,hv,htokens⟩ := ih (i+1) (body curw s).state
    refine ⟨⟨curw::v.tokens,(body curw s).out ++ v.out,v.state⟩,?_,by rw [htokens]⟩
    simp [sortLoop,hbody,hv,List.range'_succ]

variable {qsort : (Bytes → Bytes → ℤ) → List Bytes → List Bytes} {algText : AlgText} {args : List (Option Bytes)}
  {toks : List Bytes} {data : Bytes}

theorem evalEnumSort_empty (hempty : cstr (argText args 2) = []) (s : σ) :
    evalEnumSort qsort algText body args s = some ⟨⟨[],[],s⟩,0,[]⟩ := by
  simp [evalEnumSort,hempty]

theorem evalEnumSort_null (hargs : 2 < args.length) (hne : cstr (argText args 2) ≠ []) (hdata : args[0]?.join = none)
    (s : σ) : evalEnumSort qsort algText body args s = none := by
  simp only [evalEnumSort,Nat.not_le.mpr hargs,hne,hdata,if_false]

/-- The body is evaluated for what `qsort` has made of the tokens. -/
theorem evalEnumSort_some (qsort : (Bytes → Bytes → ℤ) → List Bytes → List Bytes) (algText : AlgText) (body : TokenBody σ)
    (hargs : 2 < args.length) (hne : cstr (argText args 2) ≠ []) (hdata : args[0]?.join = some data)
    (htoks : Runs (delimOf (sortDelim args)) (cstr data) toks) (hbody : ∀ tok s, (body tok s).breaks = false) (s : σ) :
    ∃ v, evalEnumSort qsort algText body args s = some v ∧
      v.tokens = qsort (comparison algText (argText args 3)) toks ∧ v.built = toks.length ∧
      v.destroyed = List.range v.tokens.length := by
  obtain rfl := htoks.unique (runs_strtokLoop le_rfl)
  generalize hsorted : qsort (comparison algText (argText args 3)) (strtokLoop (sortDelim args) (cstr data).length (cstr data)) = sorted
  obtain ⟨v,hv,htokens⟩ := sortLoop_eq hbody (parseBool (argText args 4)) sorted 0 s
  refine ⟨⟨v,_,List.range' 0 sorted.length⟩,?_,htokens,rfl,?_⟩
  · simp only [evalEnumSort,Nat.not_le.mpr hargs,hne,hdata,if_false,hsorted,hv,Option.map_some]
  · rw [htokens,List.range_eq_range']

/-- One evaluation for each token is right iff no two classes are asked to be one. -/
theorem sortedVisits_iff {cmp : Bytes → Bytes → ℤ} {v : SortVisits σ} (uniq : Bool) (hcmp : Equivalence fun a b => cmp a b = 0)
    (hperm : v.tokens.Perm toks) (hsorted : v.tokens.Pairwise fun a b => cmp a b ≤ 0) (hbuilt : v.built = toks.length)
    (hdestroyed : v.destroyed = List.range v.tokens.length) :
    SortedVisits cmp uniq toks v ↔ (uniq = true → toks.Pairwise fun a b => cmp a b ≠ 0) := by
  have hcount : ∀ t, v.tokens.countP (fun a => cmp a t = 0) = toks.countP (fun a => cmp a t = 0) := fun t => hperm.countP_eq _
  have hclasses := countP_eq_one_iff hcmp toks
  constructor
  · intro h hu
    apply hclasses.mp
    intro t ht
    rw [← hcount]
    exact h.once hu t ht
  · intro h
    constructor
    · exact hsorted
    · exact fun _ => hperm
    · exact fun a => hperm.mem_iff.mp
    · intro hu t ht
      rw [hcount]
      exact hclasses.mpr (h hu) t ht
    · rw [hdestroyed,hbuilt,hperm.length_eq]

/-- `%enumsort` is right iff there is something to sort and, where one of each class is asked for, no two
tokens are equal. -/
theorem enumSort_right_iff (qsort : (Bytes → Bytes → ℤ) → List Bytes → List Bytes) (algText : AlgText)
    (body : TokenBody σ) (args : List (Option Bytes)) (s : σ) (toks : List Bytes) (hargs : 2 < args.length)
    (htoks : Runs (delimOf (sortDelim args)) (cstr (argText args 0)) toks)
    (hbody : ∀ tok s, (body tok s).breaks = false)
    (hqsort : (qsort (comparison algText (argText args 3)) toks).Perm toks ∧
      (qsort (comparison algText (argText args 3)) toks).Pairwise fun a b => comparison algText (argText args 3) a b ≤ 0)
    (halg : argText args 3 ≠ [] → Equivalence fun a b => evalWNCom algText (argText args 3) a b = 0) :
    (∃ v, evalEnumSort qsort algText body args s = some v ∧
      SortedVisits (comparison algText (argText args 3)) (parseBool (argText args 4)) toks v) ↔
    (cstr (argText args 2) = [] → toks = []) ∧ (cstr (argText args 2) ≠ [] → args[0]?.join ≠ none ∧
      (parseBool (argText args 4) = true →
        toks.Pairwise fun a b => comparison algText (argText args 3) a b ≠ 0)) := by
  have hcmp : Equivalence fun a b => comparison algText (argText args 3) a b = 0 := by
    rw [comparison]
    split
    · exact equivalence_stricmp
    · exact halg ‹_›
  by_cases hempty : cstr (argText args 2) = []
  · rw [evalEnumSort_empty hempty]
    simp only [hempty,ne_eq,not_true_eq_false,false_implies,and_true,true_implies]
    constructor
    · rintro ⟨v,hv,h⟩
      cases hv
      cases huniq : parseBool (argText args 4) with
      | false => exact (List.nil_perm.mp (h.perm huniq))
      | true =>
        apply List.eq_nil_iff_forall_not_mem.mpr
        intro t ht
        exact absurd (h.once huniq t ht) (by simp)
    · rintro rfl
      exact ⟨_,rfl,by constructor <;> simp⟩
  · simp only [hempty,false_implies,true_and,ne_eq,not_false_eq_true,true_implies]
    cases hdata : args[0]?.join with
    | none => simp [evalEnumSort_null hargs hempty hdata]
    | some data =>
      have hcstr : argText args 0 = data := by simp [argText,hdata]
      rw [hcstr] at htoks
      obtain ⟨v,hv,htokens,hbuilt,hdestroyed⟩ := evalEnumSort_some qsort algText body hargs hempty hdata htoks hbody s
      rw [← htokens] at hqsort
      have hiff := sortedVisits_iff (parseBool (argText args 4)) hcmp hqsort.1 hqsort.2 hbuilt hdestroyed
      simpa [hv] using hiff

/-- A `qsort`, for the examples. -/
def sortBy (cmp : Bytes → Bytes → ℤ) (toks : List Bytes) : List Bytes := toks.insertionSort fun a b => cmp a b ≤ 0

/-- A body that puts out the token. -/
def echoToken : TokenBody Unit := fun tok s => ⟨tok,s,false,none⟩

theorem enumSort_right_two :
    (∃ v, evalEnumSort sortBy (fun _ _ _ => []) echoToken [some (str "b,A"),none,some (str "%token%")] () = some v ∧
      SortedVisits (comparison (fun _ _ _ => []) []) (parseBool []) [str "b",str "A"] v) ↔
    (cstr (str "%token%") = [] → [str "b",str "A"] = []) ∧ (cstr (str "%token%") ≠ [] → some (str "b,A") ≠ none ∧
      (parseBool [] = true → [str "b",str "A"].Pairwise fun a b => comparison (fun _ _ _ => []) [] a b ≠ 0)) :=
  enumSort_right_iff sortBy (fun _ _ _ => []) echoToken [some (str "b,A"),none,some (str "%token%")] () _ (by decide)
    (runs_strtokLoop (k := 3) (by decide)) (fun _ _ => rfl) ⟨by decide,by decide⟩ (fun h => absurd rfl h)

/-- Two equal tokens are both visited, although one of each class is asked for. -/
theorem equal_tokens_stay :
    (sortBy stricmp [str "a",str "A"]).Perm [str "a",str "A"] ∧
    (sortBy stricmp [str "a",str "A"]).Pairwise (fun a b => stricmp a b ≤ 0) ∧
    Runs (delimOf (str "\n\r|,;")) (str "a,A") [str "a",str "A"] ∧
    ¬∃ v, evalEnumSort sortBy (fun _ _ _ => []) echoToken
        [some (str "a,A"),none,some (str "%token%"),none,some (str "1")] () = some v ∧
      SortedVisits stricmp true [str "a",str "A"] v := by
  have hruns : Runs (delimOf (str "\n\r|,;")) (str "a,A") [str "a",str "A"] := runs_strtokLoop (k := 3) (by decide)
  refine ⟨by decide,by decide,hruns,?_⟩
  rintro ⟨v,hv,h⟩
  have hargs : 2 < [some (str "a,A"),none,some (str "%token%"),none,some (str "1")].length := by decide
  obtain ⟨v',hv',htokens,-⟩ := evalEnumSort_some sortBy (fun _ _ _ => []) echoToken hargs (by decide) rfl hruns
    (fun _ _ => rfl) ()
  obtain rfl := Option.some.inj (hv.symm.trans hv')
  have honce := h.once rfl (str "a") List.mem_cons_self
  rw [htokens] at honce
  exact absurd honce (by decide)
end Smx
