import Smx.Regx.Writes
import Smx.Regx.Refine

/-! The object: `Compile`, `Match` and `GetMatchInfo`. -/
namespace Smx.Regx

/-- Look for a string: `strchr` for its first character, and `strncmp` there. -/
def present (must : Bytes) : Bytes → Bool
  | [] => false
  | c::s => (c == must.headD 0 && beginsWith true must (c::s)) || present must s

/-- Start and end of the whole match. -/
def Slots.setMatch (sl : Slots) (s e : ℕ) : Slots :=
  { sl with startp := Function.update sl.startp 0 (some s), endp := Function.update sl.endp 0 (some e) }

namespace Subject
variable (T : Subject) (code : Bytes)

/-- `MatchTry`. -/
def matchTry (fuel i : ℕ) (sl : Slots) : Option (ℕ × Slots) :=
  match T.matchX code fuel (some 1) i { sl with subx_count := 0 } with
  | none => none
  | some (true,j,sl) => some (i+1,sl.setMatch (T.input+i) (T.input+j))
  | some (false,_,sl) => some (0,{ sl with subx_count := -1 })

/-- The loops of `Match`: the attempts at `left` positions from `i` on, where a match `may` begin. -/
def tries (fuel : ℕ) (may : ℕ → Bool) : ℕ → ℕ → Slots → Option (ℕ × Slots)
  | 0,_,sl => some (0,sl)
  | left+1,i,sl =>
    if may i then
      match T.matchTry code fuel i sl with
      | some (0,sl) => tries fuel may left (i+1) sl
      | r => r
    else tries fuel may left (i+1) sl

end Subject

/-- An object with a compiled pattern. -/
structure CRegX where
  prog : Program
  sensitive : Bool
  slots : Slots

namespace CRegX

/-- Whether the string that must appear is there. -/
def mayMatch (x : CRegX) (subj : Bytes) : Bool :=
  match x.prog.must with
  | some must => present must subj
  | none => true

/-- `Match`; `none` when the fuel does not last. -/
def runMatch (x : CRegX) (fuel input : ℕ) (subj : Bytes) : Option (ℕ × CRegX) :=
  let T : Subject := ⟨x.sensitive,input,subj⟩
  if !x.mayMatch subj then some (0,x)
  else
    let sl := { x.slots with subx_count := -1 }
    let r :=
      if x.prog.anchor then T.matchTry x.prog.code fuel 0 sl
      else if x.prog.start ≠ 0 then
        T.tries x.prog.code fuel (fun i => T.at_ i == x.prog.start) subj.length 0 sl
      else T.tries x.prog.code fuel (fun _ => true) (subj.length+1) 0 sl
    r.map fun r => (r.1,{ x with slots := r.2 })

/-- A call of `Match` gives a result and leaves an object. -/
def Returns (x : CRegX) (input : ℕ) (subj : Bytes) (r : ℕ × CRegX) : Prop :=
  ∃ f, ∀ f', f ≤ f' → x.runMatch f' input subj = some r

/-- `GetMatchInfo`: start and end of a group, of which the end may be a null pointer. -/
def getMatchInfo (x : CRegX) (nth : ℕ) : Option (ℕ × Option ℕ) :=
  if nth ≤ x.slots.subx_count then (x.slots.startp nth).map fun s => (s,x.slots.endp nth) else none

end CRegX

/-- The search goes on from here without more to match. -/
def done (j : ℕ) : Out := ⟨[],some ([],j)⟩

/-- What `MatchTry` makes of a search from `i` on. -/
def Out.tried (input i : ℕ) (o : Out) (sl : Slots) : ℕ × Slots :=
  let sl := o.apply input { sl with subx_count := 0 }
  match o.found with
  | none => (0,{ sl with subx_count := -1 })
  | some (_,j) => (i+1,sl.setMatch (input+i) (input+j))

namespace Subject
variable {T : Subject} {code : Bytes} {a : Rx} {e : ℕ}

/-- The attempts over a tree, at `left` positions from `i` on. -/
def searches (T : Subject) (a : Rx) : ℕ → ℕ → Slots → ℕ × Slots
  | 0,_,sl => (0,sl)
  | left+1,i,sl =>
    match (T.search a done i).tried T.input i sl with
    | (0,sl) => searches T a left (i+1) sl
    | r => r

/-- A program, and the tree that lies in it. -/
structure Holds (code : Bytes) (a : Rx) : Prop where
  ok : a.Ok
  alts : a.isAlt = true
  lay : ∃ e, Lay code a 1 (some e) (some e) e ∧ NodeAt code e .END none

theorem gives_done (h : NodeAt code e .END none) (j : ℕ) : Gives T code e j (done j) := by
  intro sl
  refine ⟨1,j,?_,?_⟩
  · intro f' hf'
    obtain ⟨f,rfl⟩ : ∃ f, f' = f+1 := ⟨f'-1,by omega⟩
    simp only [matchX]
    rw [show opAt code e = .END from h.opAt]
    rfl
  · intro ms e' he
    cases he
    rfl

/-- An attempt ends, and does what the search says. -/
theorem matchTry_eventually (h : Holds code a) {i : ℕ} (hi : i ≤ T.subj.length) (sl : Slots) :
    ∃ f, ∀ f', f ≤ f' → T.matchTry code f' i sl = some ((T.search a done i).tried T.input i sl) := by
  obtain ⟨e,hlay,hend⟩ := h.lay
  have hop : opAt code e ≠ .BRANCH := by
    rw [hend.opAt]
    exact nofun
  obtain ⟨f,j,hf,hj⟩ := (gives_search hlay rfl (fun _ => ⟨rfl,hop⟩) h.ok hi
    fun j _ _ _ => gives_done hend j).1 { sl with subx_count := 0 }
  refine ⟨f,fun f' hf' => ?_⟩
  have hrun : T.matchX code f' (some 1) i { sl with subx_count := 0 } = _ := hf f' hf'
  rw [matchTry,hrun,Out.tried]
  cases hfound : (T.search a done i).found with
  | none => rfl
  | some r =>
    obtain ⟨ms,e'⟩ := r
    rw [hj ms e' hfound]
    rfl

theorem tried_of_none {input i : ℕ} {o : Out} (h : o.found = none) (sl : Slots) :
    o.tried input i sl = (0,{ o.met.foldl Slots.open { sl with subx_count := 0 } with subx_count := -1 }) := by
  rw [Out.tried,Out.apply_of_none h,h]

theorem tried_of_some {input i j : ℕ} {o : Out} {ms : List Mark} (h : o.found = some (ms,j)) (sl : Slots) :
    o.tried input i sl =
      (i+1,(o.apply input { sl with subx_count := 0 }).setMatch (input+i) (input+j)) := by
  rw [Out.tried,h]

/-- An attempt that fails at once leaves the groups alone. -/
theorem tried_fail {input i : ℕ} {sl : Slots} (h : sl.subx_count = -1) : Out.fail.tried input i sl = (0,sl) := by
  rw [tried_of_none rfl,← h]
  rfl

/-- Positions where no match may begin make no difference. -/
theorem tries_eventually (h : Holds code a) {may : ℕ → Bool}
    (hmay : ∀ i, i ≤ T.subj.length → may i = false → T.search a done i = .fail) {left i : ℕ}
    (hi : i+left ≤ T.subj.length+1) {sl : Slots} (hsl : sl.subx_count = -1) :
    ∃ f, ∀ f', f ≤ f' → T.tries code f' may left i sl = some (T.searches a left i sl) := by
  induction left generalizing i sl with
  | zero => exact ⟨0,fun _ _ => rfl⟩
  | succ left ih =>
    cases hmi : may i with
    | false =>
      obtain ⟨f,hf⟩ := ih (i := i+1) (by omega) hsl
      refine ⟨f,fun f' hf' => ?_⟩
      rw [tries,searches,hmi,if_neg Bool.false_ne_true,hmay i (by omega) hmi,tried_fail hsl]
      exact hf f' hf'
    | true =>
      obtain ⟨f,hf⟩ := matchTry_eventually h (show i ≤ T.subj.length by omega) sl
      cases hfound : (T.search a done i).found with
      | some r =>
        refine ⟨f,fun f' hf' => ?_⟩
        rw [tries,searches,hmi,if_pos rfl,hf f' hf',tried_of_some hfound]
        rfl
      | none =>
        have htried : (T.search a done i).tried T.input i sl = _ := tried_of_none hfound sl
        have hnext : { (T.search a done i).met.foldl Slots.open { sl with subx_count := 0 } with
            subx_count := -1 }.subx_count = -1 := rfl
        obtain ⟨f2,hf2⟩ := ih (i := i+1) (by omega) hnext
        refine ⟨max f f2,fun f' hf' => ?_⟩
        rw [tries,searches,hmi,if_pos rfl,hf f' ((le_max_left _ _).trans hf'),htried]
        exact hf2 f' ((le_max_right _ _).trans hf')

/-- Attempts that fail at once. -/
theorem searches_fail {left i : ℕ} (h : ∀ j, i ≤ j → j < i+left → T.search a done j = .fail) {sl : Slots}
    (hsl : sl.subx_count = -1) : T.searches a left i sl = (0,sl) := by
  induction left generalizing i with
  | zero => rfl
  | succ left ih =>
    rw [searches,h i le_rfl (by omega),tried_fail hsl]
    exact ih fun j hij hj => h j (by omega) (by omega)

/-- More attempts, of which the further ones fail at once. -/
theorem searches_add {left m i : ℕ} (h : ∀ j, i+left ≤ j → j < i+left+m → T.search a done j = .fail) {sl : Slots}
    (hsl : sl.subx_count = -1) : T.searches a (left+m) i sl = T.searches a left i sl := by
  induction left generalizing i sl with
  | zero =>
    rw [Nat.zero_add]
    exact searches_fail h hsl
  | succ left ih =>
    rw [Nat.succ_add,searches,searches]
    cases hfound : (T.search a done i).found with
    | some r =>
      rw [tried_of_some hfound]
      rfl
    | none =>
      rw [tried_of_none hfound]
      exact ih (fun j hij hj => h j (by omega) (by omega)) rfl

end Subject

/-- Where the attempts are left out, the search fails at once. -/
structure Prefilters (prog : Program) (a : Rx) (T : Subject) : Prop where
  start : prog.start ≠ 0 → ∀ i, i ≤ T.subj.length → T.at_ i ≠ prog.start → T.search a done i = .fail
  anchor : prog.anchor = true → ∀ i, i ≤ T.subj.length → i ≠ 0 → T.search a done i = .fail

namespace CRegX
open Subject
variable {x : CRegX} {a : Rx}

/-- What `Match` does, told by the search over the tree. -/
def searched (x : CRegX) (a : Rx) (input : ℕ) (subj : Bytes) : ℕ × CRegX :=
  if x.mayMatch subj then
    let r := (⟨x.sensitive,input,subj⟩ : Subject).searches a (subj.length+1) 0 { x.slots with subx_count := -1 }
    (r.1,{ x with slots := r.2 })
  else (0,x)

theorem searched_prog (x : CRegX) (a : Rx) (input : ℕ) (subj : Bytes) :
    (x.searched a input subj).2.prog = x.prog := by
  rw [searched]
  split_ifs
  · rfl
  · rfl

theorem searched_sensitive (x : CRegX) (a : Rx) (input : ℕ) (subj : Bytes) :
    (x.searched a input subj).2.sensitive = x.sensitive := by
  rw [searched]
  split_ifs
  · rfl
  · rfl

/-- `Match` ends, and makes the search at each position in turn. -/
theorem runMatch_eventually (hc : Subject.Holds x.prog.code a) {input : ℕ} {subj : Bytes}
    (hp : Prefilters x.prog a ⟨x.sensitive,input,subj⟩) : x.Returns input subj (x.searched a input subj) := by
  cases hmay : x.mayMatch subj with
  | false =>
    refine ⟨0,fun f' _ => ?_⟩
    rw [runMatch,searched,hmay]
    rfl
  | true =>
    let T : Subject := ⟨x.sensitive,input,subj⟩
    let sl : Slots := { x.slots with subx_count := -1 }
    suffices h : ∃ f, ∀ f', f ≤ f' →
        (if x.prog.anchor then T.matchTry x.prog.code f' 0 sl
        else if x.prog.start ≠ 0 then
          T.tries x.prog.code f' (fun i => T.at_ i == x.prog.start) subj.length 0 sl
        else T.tries x.prog.code f' (fun _ => true) (subj.length+1) 0 sl) =
          some (T.searches a (subj.length+1) 0 sl) by
      obtain ⟨f,hf⟩ := h
      refine ⟨f,fun f' hf' => ?_⟩
      rw [runMatch,searched,hmay]
      exact congrArg (Option.map fun r => (r.1,{ x with slots := r.2 })) (hf f' hf')
    split_ifs with hanchor hstart
    · -- the further attempts would fail at once
      obtain ⟨f,hf⟩ := matchTry_eventually hc (Nat.zero_le T.subj.length) sl
      have hone : T.searches a (subj.length+1) 0 sl = T.searches a 1 0 sl := by
        rw [Nat.add_comm]
        exact searches_add (fun j hj hlt => hp.anchor hanchor j (by change j ≤ subj.length; omega) (by omega)) rfl
      refine ⟨f,fun f' hf' => ?_⟩
      rw [hf f' hf',hone,searches]
      cases hfound : (T.search a done 0).found with
      | none =>
        rw [tried_of_none hfound]
        rfl
      | some r =>
        rw [tried_of_some hfound]
        rfl
    · have hshort : T.searches a (subj.length+1) 0 sl = T.searches a subj.length 0 sl := by
        refine searches_add (fun j hj hlt => hp.start hstart j (by change j ≤ subj.length; omega) ?_) rfl
        have hj : T.subj.length ≤ j := by change subj.length ≤ j; omega
        rw [show T.at_ j = 0 from List.getD_eq_default _ _ hj]
        exact hstart.symm
      rw [hshort]
      refine tries_eventually hc (fun i hi hmi => hp.start hstart i hi ?_) (by change 0+subj.length ≤ subj.length+1; omega) rfl
      exact beq_eq_false_iff_ne.mp hmi
    · exact tries_eventually hc (fun i _ h => by cases h) (by change 0+(subj.length+1) ≤ subj.length+1; omega) rfl

theorem Returns.unique {input : ℕ} {subj : Bytes} {r r' : ℕ × CRegX} (h : x.Returns input subj r)
    (h' : x.Returns input subj r') : r = r' := by
  obtain ⟨f,hf⟩ := h
  obtain ⟨f',hf'⟩ := h'
  exact Option.some.inj ((hf (max f f') (le_max_left f f')).symm.trans (hf' (max f f') (le_max_right f f')))

end CRegX
end Smx.Regx
