import Smx.Base.Error
import Smx.Base.Number
import Smx.Regx.Groups

/-! `%rxsplit`. -/
namespace Smx

/-- One evaluation of the body: what it sees, and the separator that was matched behind the element. -/
structure SplitTurn where
  elem : Bytes
  rxnum : ℤ
  last : Bytes
  sep : Option Bytes

/-- An element and its separator. -/
def SplitTurn.text (t : SplitTurn) : Bytes := t.elem ++ t.sep.getD []

/-- A body, for the values of `%elem%`, `%rxnum%` and `%last%`. -/
abbrev SplitBody (σ : Type) := Bytes → ℤ → Bytes → σ → Bytes × σ

/-- `Match` on the text from a position on: where the match begins and ends, and what is left of the object. -/
abbrev MatchFrom (τ : Type) := τ → ℕ → Option (ℕ × ℕ) × τ

/-- The variables of `EvalRxSplit`. -/
structure SplitVars (τ σ : Type) where
  p : ℕ
  loc : Option (ℕ × ℕ)
  ep : ℕ
  cnt : ℤ
  last : Bytes
  rx : τ
  state : σ
  out : Bytes
  turns : List SplitTurn

/-- The bytes from `sp` up to `ep`. -/
def slice (s : Bytes) (sp ep : ℕ) : Bytes := (s.drop sp).take (ep-sp)

variable {τ σ : Type}

/-- An evaluation of the body. -/
def SplitVars.parse (body : SplitBody σ) (v : SplitVars τ σ) (elem : Bytes) (sep : Option Bytes) : SplitVars τ σ :=
  let cnt := v.cnt+1
  let (out,state) := body elem cnt v.last v.state
  { v with cnt := cnt, state := state, out := v.out ++ out, turns := v.turns ++ [⟨elem,cnt,v.last,sep⟩] }

/-- The evaluation for a match that was found from `p` on. -/
def SplitVars.turned (body : SplitBody σ) (s : Bytes) (v : SplitVars τ σ) (sp ep : ℕ) : SplitVars τ σ :=
  { v with ep := ep, last := if s.length ≤ ep then str "T" else v.last }.parse body (slice s v.p sp) (some (slice s sp ep))

/-- The loop over the matches; `none` when the fuel does not last. -/
def splitLoop (matchFrom : MatchFrom τ) (body : SplitBody σ) (s : Bytes) : ℕ → SplitVars τ σ → Option (SplitVars τ σ)
  | 0,_ => none
  | k+1,v =>
    match v.loc with
    | none => some v
    | some (sp,ep) =>
      if s.length ≤ v.p then some v
      else
        let v := v.turned body s sp ep
        if ep ≤ v.p then some v
        else
          let (loc,rx) := matchFrom v.rx ep
          splitLoop matchFrom body s k { v with p := ep, loc := loc, rx := rx }

/-- The evaluation behind the loop. -/
def splitTail (body : SplitBody σ) (s : Bytes) (v : SplitVars τ σ) : SplitVars τ σ :=
  if (v.loc ≠ none ∧ v.ep < s.length) ∨ v.ep < s.length then
    { v with last := str "T" }.parse body (if v.ep < s.length then s.drop v.ep else s) none
  else v

/-- What a call leaves: the evaluations, the output, and the value of `%rxcount%`. -/
structure SplitRun (σ : Type) where
  turns : List SplitTurn
  out : Bytes
  state : σ
  rxcount : Bytes

/-- The variables behind the first `Match`. -/
def splitStart (matchFrom : MatchFrom τ) (rx : τ) (state : σ) : SplitVars τ σ :=
  let (loc,rx) := matchFrom rx 0
  ⟨0,loc,0,0,[],rx,state,[],[]⟩

/-- `EvalRxSplit`. `compile` gives an object for a pattern, or `GetError`. -/
def evalRxSplit (compile : Bool → Bytes → Except (Option Bytes) τ) (matchFrom : Bytes → MatchFrom τ) (parse : Bytes → SplitBody σ)
    (fuel : ℕ) (args : List Bytes) (state : σ) : Option (Except CtxEx (SplitRun σ)) :=
  match validArgc "rxsplit" 2 4 args.length with
  | some ex => some (.error ex)
  | none =>
    let s := cstr (args.getD 0 [])
    let body := parse (args.getD 2 [])
    match compile (decide (ch 's' ∈ cstr (args.getD 3 []))) (args.getD 1 []) with
    | .error text =>
      some (.error ⟨701,str "Invalid regular expression (" ++ text.getD (args.getD 1 []) ++ str ")"⟩)
    | .ok rx =>
      (splitLoop (matchFrom s) body s fuel (splitStart (matchFrom s) rx state)).map fun v =>
        let v := splitTail body s v
        .ok ⟨v.turns,v.out,v.state,if v.cnt ≠ 0 then itoa v.cnt else []⟩

/-- All evaluations but the one at the end see an empty `%last%`. -/
def LastMarked (turns : List SplitTurn) : Prop :=
  ∀ l t r, turns = l ++ t::r → t.last = if r = [] then str "T" else []

/-- The evaluations are numbered and lose nothing of the subject, and `%last%` and `%rxcount%` say what they
promise; where there is no evaluation, `%rxcount%` is empty. -/
structure Lossless (s : Bytes) (r : SplitRun σ) : Prop where
  text : r.turns.flatMap SplitTurn.text = s
  seps : ∀ t ∈ r.turns.dropLast, t.sep ≠ none
  nums : r.turns.map SplitTurn.rxnum = (List.range' 1 r.turns.length).map Nat.cast
  last : LastMarked r.turns
  rxcount : r.rxcount = if r.turns = [] then [] else itoa r.turns.length
  empty : r.turns = [] ↔ s = []

/-- Each match lies behind the position and in the subject. -/
def Inside (matchFrom : MatchFrom τ) (s : Bytes) : Prop :=
  ∀ x p sp ep, p ≤ s.length → (matchFrom x p).1 = some (sp,ep) → p ≤ sp ∧ sp ≤ ep ∧ ep ≤ s.length

/-- The state of the loop when the text up to `ep` has been put into evaluations. -/
structure SplitVars.Sound (s : Bytes) (v : SplitVars τ σ) : Prop where
  le : v.ep ≤ s.length
  text : v.turns.flatMap SplitTurn.text = s.take v.ep
  seps : ∀ t ∈ v.turns, t.sep ≠ none
  cnt : v.cnt = v.turns.length
  nums : v.turns.map SplitTurn.rxnum = (List.range' 1 v.turns.length).map Nat.cast
  unmarked : v.ep < s.length → v.last = [] ∧ ∀ t ∈ v.turns, t.last = []
  marked : v.ep = s.length → LastMarked v.turns
  empty : s = [] → v.turns = []

variable {s : Bytes} {v : SplitVars τ σ} {body : SplitBody σ} {matchFrom : MatchFrom τ} {turns : List SplitTurn}
  {t : SplitTurn} {sp ep k : ℕ}

theorem take_append_slice (h : sp ≤ ep) : s.take sp ++ slice s sp ep = s.take ep := by
  obtain ⟨d,rfl⟩ := Nat.exists_eq_add_of_le h
  rw [slice,List.take_add,Nat.add_sub_cancel_left]

theorem slice_append_slice {p : ℕ} (h : p ≤ sp) (h' : sp ≤ ep) : slice s p sp ++ slice s sp ep = slice s p ep := by
  have hcancel : s.take p ++ (slice s p sp ++ slice s sp ep) = s.take p ++ slice s p ep := by
    rw [← List.append_assoc,take_append_slice h,take_append_slice h',take_append_slice (h.trans h')]
  exact List.append_cancel_left hcancel

theorem nums_concat (h : turns.map SplitTurn.rxnum = (List.range' 1 turns.length).map Nat.cast)
    (ht : t.rxnum = turns.length+1) :
    (turns ++ [t]).map SplitTurn.rxnum = (List.range' 1 (turns ++ [t]).length).map Nat.cast := by
  simp [h,ht,List.range'_concat,Nat.add_comm 1]

/-- Marking the evaluation at the end marks it only. -/
theorem lastMarked_concat (h : ∀ u ∈ turns, u.last = []) (ht : t.last = str "T") : LastMarked (turns ++ [t]) := by
  intro l u r hsplit
  rcases List.eq_nil_or_concat r with rfl | ⟨r,w,rfl⟩
  · obtain ⟨-,hu⟩ := List.append_inj' hsplit rfl
    rw [if_pos rfl,← (List.cons.inj hu).1,ht]
  · have hsplit' : turns ++ [t] = (l ++ u::r) ++ [w] := by simpa using hsplit
    obtain ⟨rfl,-⟩ := List.append_inj' hsplit' rfl
    rw [if_neg (by simp)]
    exact h u (by simp)

namespace SplitVars

theorem parse_turns (v : SplitVars τ σ) (elem : Bytes) (sep : Option Bytes) :
    (v.parse body elem sep).turns = v.turns ++ [⟨elem,v.cnt+1,v.last,sep⟩] := rfl

/-- An evaluation takes the text up to the end of its match. -/
theorem Sound.turned (body : SplitBody σ) (hv : v.Sound s) (hp : v.p = v.ep) (hlt : v.p < s.length) (hsp : v.p ≤ sp) (hep : sp ≤ ep)
    (hlen : ep ≤ s.length) : (v.turned body s sp ep).Sound s where
  le := hlen
  text := by
    have htext : SplitTurn.text ⟨slice s v.p sp,v.cnt+1,if s.length ≤ ep then str "T" else v.last,some (slice s sp ep)⟩ =
        slice s v.p ep := slice_append_slice hsp hep
    rw [SplitVars.turned,parse_turns,List.flatMap_append,hv.text,← hp]
    simp only [List.flatMap_cons,List.flatMap_nil,List.append_nil,htext]
    exact take_append_slice (hsp.trans hep)
  seps := by
    intro t ht
    rw [SplitVars.turned,parse_turns] at ht
    rcases List.mem_append.mp ht with ht | ht
    · exact hv.seps t ht
    · rw [List.mem_singleton.mp ht]
      exact Option.some_ne_none _
  cnt := by
    rw [SplitVars.turned,parse_turns,List.length_append]
    simp [parse,hv.cnt]
  nums := nums_concat hv.nums (by simp [hv.cnt])
  unmarked := by
    intro hlt'
    have hlt' : ep < s.length := hlt'
    obtain ⟨hlast,hall⟩ := hv.unmarked (hp ▸ hlt)
    have hlast' : (v.turned body s sp ep).last = [] := by
      simp [SplitVars.turned,parse,Nat.not_le.mpr hlt',hlast]
    refine ⟨hlast',fun t ht => ?_⟩
    rw [SplitVars.turned,parse_turns] at ht
    rcases List.mem_append.mp ht with ht | ht
    · exact hall t ht
    · rw [List.mem_singleton.mp ht]
      simp [Nat.not_le.mpr hlt',hlast]
  marked := by
    intro hend
    have hend : ep = s.length := hend
    obtain ⟨-,hall⟩ := hv.unmarked (hp ▸ hlt)
    rw [SplitVars.turned,parse_turns]
    exact lastMarked_concat hall (by simp [hend])
  empty := by
    rintro rfl
    exact absurd hlt (Nat.not_lt_zero _)

end SplitVars

theorem splitLoop_succ (matchFrom : MatchFrom τ) (body : SplitBody σ) (s : Bytes) (k : ℕ) (v : SplitVars τ σ)
    (hloc : v.loc = some (sp,ep)) (hlt : v.p < s.length) :
    splitLoop matchFrom body s (k+1) v =
      if ep ≤ v.p then some (v.turned body s sp ep)
      else splitLoop matchFrom body s k { v.turned body s sp ep with
        p := ep, loc := (matchFrom (v.turned body s sp ep).rx ep).1, rx := (matchFrom (v.turned body s sp ep).rx ep).2 } := by
  simp only [splitLoop,hloc,Nat.not_le.mpr hlt,if_false]
  rfl

/-- The loop comes to an end, and what it has put into evaluations is the text up to the end of the last match. -/
theorem splitLoop_sound (body : SplitBody σ) (hmatch : Inside matchFrom s) (hk : s.length-v.p < k) (hv : v.Sound s)
    (hp : v.p = v.ep) (hloc : ∀ sp ep, v.loc = some (sp,ep) → v.p ≤ sp ∧ sp ≤ ep ∧ ep ≤ s.length) :
    ∃ w, splitLoop matchFrom body s k v = some w ∧ w.Sound s := by
  induction k generalizing v with
  | zero => omega
  | succ k ih =>
    cases hl : v.loc with
    | none => exact ⟨v,by simp [splitLoop,hl],hv⟩
    | some m =>
      obtain ⟨sp,ep⟩ := m
      by_cases hlt : v.p < s.length
      · obtain ⟨hsp,hep,hlen⟩ := hloc sp ep hl
        have hturned := hv.turned body hp hlt hsp hep hlen
        rw [splitLoop_succ matchFrom body s k v hl hlt]
        split_ifs with hle
        · exact ⟨_,rfl,hturned⟩
        · apply ih
          · simp only
            omega
          · exact ⟨hturned.le,hturned.text,hturned.seps,hturned.cnt,hturned.nums,hturned.unmarked,hturned.marked,
              hturned.empty⟩
          · rfl
          · exact fun sp' ep' h => hmatch _ _ sp' ep' hlen h
      · exact ⟨v,by simp [splitLoop,hl,Nat.not_lt.mp hlt],hv⟩

/-- The evaluation behind the loop takes the rest. -/
theorem splitTail_lossless (body : SplitBody σ) (hv : v.Sound s) :
    Lossless s (⟨(splitTail body s v).turns,(splitTail body s v).out,
    (splitTail body s v).state,if (splitTail body s v).cnt ≠ 0 then itoa (splitTail body s v).cnt else []⟩ : SplitRun σ) := by
  by_cases hlt : v.ep < s.length
  · have htail : splitTail body s v = { v with last := str "T" }.parse body (s.drop v.ep) none := by
      simp [splitTail,hlt]
    rw [htail,SplitVars.parse_turns]
    constructor
    · simp only [List.flatMap_append,hv.text,List.flatMap_cons,List.flatMap_nil,List.append_nil,SplitTurn.text,
        Option.getD_none]
      exact List.take_append_drop _ _
    · intro t ht
      simp only [List.dropLast_concat] at ht
      exact hv.seps t ht
    · exact nums_concat hv.nums (by simp [hv.cnt])
    · exact lastMarked_concat (hv.unmarked hlt).2 rfl
    · have hcnt : (v.turns.length : ℤ)+1 ≠ 0 := by omega
      simp [SplitVars.parse,hcnt,hv.cnt]
    · refine iff_of_false (by simp) ?_
      rintro rfl
      simp at hlt
  · have hend : v.ep = s.length := Nat.le_antisymm hv.le (Nat.not_lt.mp hlt)
    have htail : splitTail body s v = v := by simp [splitTail,hlt]
    have htext : v.turns.flatMap SplitTurn.text = s := by rw [hv.text,hend,List.take_length]
    rw [htail]
    constructor
    · exact htext
    · exact fun t ht => hv.seps t (List.dropLast_subset _ ht)
    · exact hv.nums
    · exact hv.marked hend
    · by_cases hnil : v.turns = []
      · simp [hv.cnt,hnil]
      · simp [hv.cnt,hnil]
    · constructor
      · intro hnil
        have hnil : v.turns = [] := hnil
        rw [← htext,hnil]
        rfl
      · exact hv.empty

/-- `%rxsplit` loses nothing of the subject and comes to an end, whatever the pattern matches. -/
theorem rxSplit_lossless (compile : Bool → Bytes → Except (Option Bytes) τ) (matchFrom : Bytes → MatchFrom τ)
    (parse : Bytes → SplitBody σ) (fuel : ℕ) (args : List Bytes) (state : σ) (rx : τ)
    (hargs : 2 ≤ args.length ∧ args.length ≤ 4)
    (hcompile : compile (decide (ch 's' ∈ cstr (args.getD 3 []))) (args.getD 1 []) = .ok rx)
    (hmatch : Inside (matchFrom (cstr (args.getD 0 []))) (cstr (args.getD 0 [])))
    (hfuel : (cstr (args.getD 0 [])).length < fuel) :
    ∃ r, evalRxSplit compile matchFrom parse fuel args state = some (.ok r) ∧ Lossless (cstr (args.getD 0 [])) r := by
  have hvalid : validArgc "rxsplit" 2 4 args.length = none := by simpa using hargs
  generalize hs : cstr (args.getD 0 []) = s at hmatch hfuel
  have hstart : (splitStart (matchFrom s) rx state).Sound s := by
    constructor
    · exact Nat.zero_le _
    · rfl
    · simp [splitStart]
    · rfl
    · rfl
    · intro _
      exact ⟨rfl,by simp [splitStart]⟩
    · intro _ l t r h
      simp [splitStart] at h
    · intro _
      rfl
  obtain ⟨v,hv,hsound⟩ := splitLoop_sound (parse (args.getD 2 [])) hmatch (k := fuel)
    (v := splitStart (matchFrom s) rx state) (by simpa [splitStart] using hfuel) hstart rfl
    (fun sp ep h => hmatch rx 0 sp ep (Nat.zero_le _) h)
  refine ⟨_,?_,splitTail_lossless (parse (args.getD 2 [])) hsound⟩
  simp only [evalRxSplit,hvalid,hcompile,hs,hv,Option.map_some]

/-- `Match` for the pattern `,`. -/
def matchComma (s : Bytes) : MatchFrom Unit := fun x p =>
  (((s.drop p).findIdx? (· == ch ',')).map fun i => (p+i,p+i+1),x)

theorem inside_matchComma (s : Bytes) : Inside (matchComma s) s := by
  intro x p sp ep hp h
  obtain ⟨i,hi,heq⟩ := Option.map_eq_some_iff.mp h
  obtain ⟨rfl,rfl⟩ := Prod.mk.inj heq
  obtain ⟨hlt,-⟩ := List.findIdx?_eq_some_iff_getElem.mp hi
  rw [List.length_drop] at hlt
  omega

/-- A body that puts out the element. -/
def echoElem : Bytes → SplitBody Unit := fun _ elem _ _ s => (elem,s)

theorem rxSplit_lossless_comma :
    ∃ r, evalRxSplit (fun _ _ => .ok ()) matchComma echoElem 5 [str "a,,b",str ",",str "%elem%"] () = some (.ok r) ∧
      Lossless (cstr (str "a,,b")) r :=
  rxSplit_lossless (fun _ _ => .ok ()) matchComma echoElem 5 [str "a,,b",str ",",str "%elem%"] () () (by decide) rfl
    (inside_matchComma _) (by decide)

/-- For the empty subject there is no evaluation, and `%rxcount%` is not `0`. -/
theorem rxcount_empty : ∃ r, evalRxSplit (fun _ _ => .ok ()) matchComma echoElem 1 [[],str ",",str "%elem%"] () =
    some (.ok r) ∧ r.turns = [] ∧ r.rxcount ≠ itoa r.turns.length :=
  ⟨⟨[],[],(),[]⟩,rfl,rfl,by decide⟩

section
open Regx

/-- A `CRegX` with a compiled pattern, and the tree that lies in its code. -/
structure RxObject where
  x : CRegX
  sensitive : Bool
  exp : Bytes
  tree : Rx
  compiled : Compiled sensitive exp x.prog tree

/-- `Match` and `GetMatchInfo` of an object, told by the search over its tree. -/
def RxObject.findFrom (s : Bytes) : MatchFrom RxObject := fun o p =>
  let r := o.x.searched o.tree p (s.drop p)
  (if r.1 = 0 then none
  else
    match r.2.getMatchInfo 0 with
    | some (sp,some ep) => some (sp,ep)
    | _ => none,
  { o with x := r.2, compiled := by rw [CRegX.searched_prog]; exact o.compiled })

/-- The objects keep to the positions that the loop relies on. -/
theorem inside_rxObject (s : Bytes) : Inside (RxObject.findFrom s) s := by
  intro o p sp ep hp h
  simp only [RxObject.findFrom] at h
  split_ifs at h with hzero
  have hret := CRegX.runMatch_eventually o.compiled.holds (o.compiled.prefilters ⟨o.x.sensitive,p,s.drop p⟩)
  generalize o.x.searched o.tree p (s.drop p) = r at h hzero hret
  obtain ⟨i,ms,e,sl,hleft⟩ := exists_left (c := ⟨o.x,p,s.drop p,r.1,r.2⟩) o.compiled hret hzero
  obtain ⟨hspan,he⟩ := span_of_found (T := ⟨o.x.sensitive,p,s.drop p⟩) o.compiled.holds.ok hleft.bound hleft.found
  have hinfo : r.2.getMatchInfo 0 = some (p+i,some (p+e)) := by
    have hslots : r.2.slots = _ := hleft.slots
    have hcount : r.2.slots.subx_count = _ := hleft.subx_count
    rw [CRegX.getMatchInfo,hcount,if_pos (by exact hleft.count),hslots]
    simp [Slots.setMatch]
  rw [hinfo] at h
  obtain ⟨rfl,rfl⟩ := Prod.mk.inj (Option.some.inj h)
  rw [List.length_drop] at he
  have hle := hspan.le
  omega
end
end Smx
