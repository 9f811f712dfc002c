import Smx.Base.Number
import Smx.Lib.Tokens

/-! `%gettoken` and `%enumtoken`. -/
namespace Smx
open Tokens

/-- The bytes of a set of delimiters. -/
def delimOf (t : Bytes) (c : Byte) : Bool := decide (c ∈ t)

/-- The loop of `EvalGetToken`, from the beginning of a token on: what is put out. -/
def getTokenLoop (t : Bytes) : ℕ → ℤ → Bytes → Bytes
  | _,_,[] => []
  | 0,_,_::_ => []
  | k+1,ind,c::p =>
    let tok := front (delimOf t) (c::p)
    let e := leftover (delimOf t) (c::p)
    if e = [] then if 0 < ind then [] else tok
    else
      let ind := int32 (ind-1)
      if ind < 0 then tok else getTokenLoop t k ind (e.tail.dropWhile (delimOf t))

def evalGetToken (args : List Bytes) : Bytes :=
  match args with
  | dat::toks::ind::_ =>
    let dat := cstr dat
    let t := cstr toks
    getTokenLoop t dat.length (atoi ind) (dat.dropWhile (delimOf t))
  | _ => []

/-- What one evaluation of a body does: its output, what it leaves, and the calls of `%break` and `%skip-tokens`. -/
structure Turn (σ : Type) where
  out : Bytes
  state : σ
  breaks : Bool
  skips : Option ℤ

/-- A body, for the value of `%token%` and what the evaluations before have left. -/
abbrev TokenBody (σ : Type) := Bytes → σ → Turn σ

/-- What a loop over tokens has done: the tokens that the body was evaluated for, the output and the state. -/
structure Visits (σ : Type) where
  tokens : List Bytes
  out : Bytes
  state : σ

/-- `skip`, after `EvalSkipTokens`. -/
def skipAfter (skip : ℤ) : Option ℤ → ℤ
  | some n => if 0 ≤ n then n else skip
  | none => skip

variable {σ : Type}

/-- The loop of `EvalEnumToken`. -/
def enumTokenLoop (t : Bytes) (body : TokenBody σ) : ℕ → Bytes → Bool → ℤ → σ → Visits σ
  | _,[],_,_,s => ⟨[],[],s⟩
  | 0,_::_,_,_,s => ⟨[],[],s⟩
  | k+1,c::p,ok,skip,s =>
    if ok then
      let tok := front (delimOf t) (c::p)
      let e := leftover (delimOf t) (c::p)
      if skip = 0 then
        let r := body tok s
        let v :=
          if e = [] then ⟨[],[],r.state⟩
          else enumTokenLoop t body k (e.tail.dropWhile (delimOf t)) (!r.breaks) (skipAfter skip r.skips) r.state
        ⟨tok::v.tokens,r.out ++ v.out,v.state⟩
      else if e = [] then ⟨[],[],s⟩
      else enumTokenLoop t body k (e.tail.dropWhile (delimOf t)) ok (skip-1) s
    else ⟨[],[],s⟩

def evalEnumToken (args : List Bytes) (body : TokenBody σ) (s : σ) : Visits σ :=
  match args with
  | dat::toks::_::_ =>
    let dat := cstr dat
    let t := cstr toks
    enumTokenLoop t body dat.length (dat.dropWhile (delimOf t)) true 0 s
  | _ => ⟨[],[],s⟩

/-- The body neither breaks nor skips. -/
def TokenBody.Quiet (body : TokenBody σ) : Prop := ∀ tok s, (body tok s).breaks = false ∧ (body tok s).skips = none

variable {t p : Bytes} {body : TokenBody σ} {k : ℕ}

/-- A quiet body is evaluated for each run. -/
theorem runs_enumTokenLoop (hbody : body.Quiet) (hk : p.length ≤ k) (hp : ∀ c ∈ p.head?, delimOf t c = false) (s : σ) :
    Runs (delimOf t) p (enumTokenLoop t body k p true 0 s).tokens := by
  induction k generalizing p s with
  | zero =>
    obtain rfl := List.length_eq_zero_iff.mp (Nat.le_zero.mp hk)
    exact Runs.done (by simp)
  | succ k ih =>
    cases p with
    | nil => exact Runs.done (by simp)
    | cons c p =>
      have hlt := next_length_lt (List.cons_ne_nil c p) hp
      obtain ⟨hbreaks,hskips⟩ := hbody (front (delimOf t) (c::p)) s
      apply Runs.cons (List.cons_ne_nil c p) hp
      by_cases he : leftover (delimOf t) (c::p) = []
      · simpa [he] using Runs.done (by simp)
      · simp only [he,if_false,hbreaks,hskips,Bool.not_false,skipAfter]
        exact Runs.of_dropWhile (ih (by omega) (fun a => head_dropWhile) _)

/-- The token with a number is the one visited then. -/
theorem getTokenLoop_eq (hbody : body.Quiet) (hk : p.length ≤ k) (hp : ∀ c ∈ p.head?, delimOf t c = false) (i : ℕ) (hi : i < 2^31) (s : σ) :
    getTokenLoop t k i p = (enumTokenLoop t body k p true 0 s).tokens.getD i [] := by
  induction k generalizing p s i with
  | zero =>
    obtain rfl := List.length_eq_zero_iff.mp (Nat.le_zero.mp hk)
    simp [getTokenLoop,enumTokenLoop]
  | succ k ih =>
    cases p with
    | nil => simp [getTokenLoop,enumTokenLoop]
    | cons c p =>
      have hlt := next_length_lt (List.cons_ne_nil c p) hp
      obtain ⟨hbreaks,hskips⟩ := hbody (front (delimOf t) (c::p)) s
      by_cases he : leftover (delimOf t) (c::p) = []
      · cases i with
        | zero => simp [getTokenLoop,enumTokenLoop,he]
        | succ i => simp [getTokenLoop,enumTokenLoop,he]
      · cases i with
        | zero =>
          have hind : ¬0 ≤ int32 (-1) := by decide
          simp [getTokenLoop,enumTokenLoop,he,hind]
        | succ i =>
          have hind : int32 (((i+1 : ℕ) : ℤ)-1) = i := by
            rw [int32_of_mem (by omega)]
            omega
          have hpos : ¬(i : ℤ) < 0 := by omega
          simp only [getTokenLoop,enumTokenLoop,he,if_false,if_true,hind,hpos,hbreaks,hskips,Bool.not_false,skipAfter]
          rw [List.getD_cons_succ]
          exact ih (by omega) (fun a => head_dropWhile) i (by omega) _

/-- `%gettoken` and `%enumtoken` see the same tokens. -/
theorem getToken_enumToken (dat toks ind b : Bytes) (body : TokenBody σ) (s : σ) (hbody : body.Quiet) (hind : 0 ≤ atoi ind) :
    Runs (delimOf (cstr toks)) (cstr dat) (evalEnumToken [dat,toks,b] body s).tokens ∧
      evalGetToken [dat,toks,ind] = (evalEnumToken [dat,toks,b] body s).tokens.getD (atoi ind).toNat [] := by
  have hhead : ∀ c ∈ ((cstr dat).dropWhile (delimOf (cstr toks))).head?, delimOf (cstr toks) c = false :=
    fun c => head_dropWhile
  have hlen := (List.dropWhile_suffix (l := cstr dat) (delimOf (cstr toks))).length_le
  constructor
  · exact Runs.of_dropWhile (runs_enumTokenLoop hbody hlen hhead s)
  · obtain ⟨i,hi⟩ := Int.eq_ofNat_of_zero_le hind
    have hlt : i < 2^31 := by
      have hmem := (int32_mem (strtol ind)).2
      rw [atoi] at hi
      omega
    simp only [evalGetToken,evalEnumToken,hi,Int.toNat_natCast]
    exact getTokenLoop_eq hbody hlen hhead i hlt s

/-- The last token, behind a row of delimiters. -/
theorem getToken_enumToken_last :
    Runs (delimOf (cstr (str ","))) (cstr (str ",a,,b,"))
        (evalEnumToken [str ",a,,b,",str ",",[]] (fun tok (n : ℕ) => ⟨tok,n+1,false,none⟩) 0).tokens ∧
      evalGetToken [str ",a,,b,",str ",",str "1"] =
        (evalEnumToken [str ",a,,b,",str ",",[]] (fun tok (n : ℕ) => ⟨tok,n+1,false,none⟩) 0).tokens.getD
          (atoi (str "1")).toNat [] :=
  getToken_enumToken _ _ _ _ _ _ (fun _ _ => ⟨rfl,rfl⟩) (by decide)
end Smx
