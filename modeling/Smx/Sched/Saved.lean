import Smx.Compile.Reread
import Smx.Context.Bindings
import Smx.Core.Quote
import Smx.Sched.Elem

/-! What `Schedule` saves of an event, and what `Load` makes of it. -/
namespace Smx
open EmitM (emit capture)

/-- `sched << … << …`: the variable, and the copy that the expression stands for once an `int` has
been written. -/
structure Shl where
  sched : Bytes := []
  copy : Option Bytes := none

namespace Shl

/-- `operator <<(const char *)`. -/
def text (l : Shl) (d : Bytes) : Shl :=
  match l.copy with
  | none => { l with sched := l.sched ++ d }
  | some c => { l with copy := some (c ++ d) }

/-- `operator <<(CStr &, long)`. -/
def long (l : Shl) (right : ℤ) : Shl := l.text (itoa right)

/-- `operator <<(CStr, int)`, whose left side is passed by value. -/
def int (l : Shl) (right : ℤ) : Shl :=
  { l with copy := some (l.copy.getD l.sched ++ itoa right) }

end Shl

namespace SchedElem

/-- `GetSched`. -/
def getSched (e : SchedElem) : Bytes :=
  let l : Shl := {}
  let l := (l.text (str "%s(f,")).long e.first
  let l := (l.text (str ")%s(o,")).long e.offset
  let l := (l.text (str ")%s(l,")).long e.last
  let l := (l.text (str ")%s(s,")).int e.sec1
  let l := (l.text (str ")%s(S,")).int e.sec2
  let l := (l.text (str ")%s(n,")).int e.min1
  let l := (l.text (str ")%s(N,")).int e.min2
  let l := (l.text (str ")%s(h,")).int e.hour
  let l := (l.text (str ")%s(w,")).int e.dayW
  let l := (l.text (str ")%s(d,")).int e.dayM
  let l := (l.text (str ")%s(m,")).int e.month
  let l := (l.text (str ")%s(y,")).int e.year
  (l.text (str ")")).sched

/-- What `Schedule` puts into the persistent set. -/
def saved (e : SchedElem) : Bytes := e.getSched ++ str "%b(" ++ e.body ++ [T_RP]

/-- `SetSched`. -/
def setSched (e : SchedElem) (typ : Byte) (bits : ℤ) : SchedElem :=
  if typ = ch 'f' then { e with next := bits, first := bits }
  else if typ = ch 'o' then { e with offset := bits }
  else if typ = ch 'l' then { e with last := bits }
  else if typ = ch 's' then { e with sec1 := bits }
  else if typ = ch 'S' then { e with sec2 := bits }
  else if typ = ch 'n' then { e with min1 := bits }
  else if typ = ch 'N' then { e with min2 := bits }
  else if typ = ch 'h' then { e with hour := bits }
  else if typ = ch 'w' then { e with dayW := bits }
  else if typ = ch 'd' then { e with dayM := bits }
  else if typ = ch 'm' then { e with month := bits }
  else if typ = ch 'y' then { e with year := bits }
  else e

/-- `args->GetAt(i)`, empty also where there are no arguments at all. -/
def argAt (args : Option (List Arg)) (i : ℕ) : Bytes :=
  (((args.getD [])[i]?).map Arg.text).getD []

/-- `EvalSetBody`. -/
def evalSetBody (e : SchedElem) (args : Option (List Arg)) : SchedElem :=
  { e with body := argAt args 0 }

/-- `EvalSetSched`. -/
def evalSetSched (e : SchedElem) (args : Option (List Arg)) : SchedElem :=
  match argAt args 0,argAt args 1 with
  | typ::_,bits@(_::_) => e.setSched typ (atoi bits)
  | _,_ => e

/-- The flag words. -/
def flags (e : SchedElem) : List ℤ :=
  [e.sec1,e.sec2,e.min1,e.min2,e.hour,e.dayW,e.dayM,e.month,e.year]

end SchedElem

/-- What a name denotes while `Load` reads: its two setters, or whatever it denotes outside. -/
inductive LoadObj (ο : Type)
  | setBody
  | setSched
  | other (obj : ο)

/-- The context of `Load`: below the one it is called in, with an element to be filled. -/
def loadHost {τ ο : Type} (H : Host (SchedElem × τ) ο) : Host (SchedElem × τ) (LoadObj ο) where
  find p name :=
    if mapKey name = str "b" then some .setBody
    else if mapKey name = str "s" then some .setSched
    else (H.find p name).map .other
  getQmap
    | .other obj => H.getQmap obj
    | _ => none
  eval
    | .setBody,args => fun p => ⟨.ok (),(p.1.evalSetBody args,p.2),[]⟩
    | .setSched,args => fun p => ⟨.ok (),(p.1.evalSetSched args,p.2),[]⟩
    | .other obj,args => H.eval obj args
  inTry := H.inTry
  strict := H.strict
  tooDeep := H.tooDeep

/-- `Load`, up to the event it schedules. -/
def load {τ ο : Type} (H : Host (SchedElem × τ) ο) (name data : Bytes) (s : τ) :
    Outcome Exn Byte (SchedElem × τ) Unit :=
  ((loadHost H).parse data).run ({ name := name },s)

/-- An event has come back. -/
structure Reloaded {τ : Type} (e : SchedElem) (r : Outcome Exn Byte (SchedElem × τ) Unit) : Prop where
  ok : r.result = .ok ()
  first : r.state.1.first = e.first
  offset : r.state.1.offset = e.offset
  last : r.state.1.last = e.last
  flags : r.state.1.flags = e.flags
  body : r.state.1.body = e.body

/-- The event comes back in every context that is not nested too deep. -/
def RoundTrips (strict : Bool) (e : SchedElem) : Prop :=
  ∀ (τ ο : Type) (H : Host (SchedElem × τ) ο) (s : τ), (∀ p, H.strict p = strict) →
    H.tooDeep ({ name := e.name },s) = false → Reloaded e (load H e.name e.saved s)

/-- A text that is read as an argument of a call as it stands, up to the separator. The first byte
is not looked at for the end of the input. -/
structure KeptArg (strict : Bool) (sep : Byte) (text : Bytes) : Prop where
  opens : ∀ c ∈ text.head?, isspace c = false ∧ c ≠ T_SQ ∧ c ≠ T_DQ ∧ c ≠ T_LC
  copied : ∃ st', (Copied strict argCopy sep {} text st' ∨
      ∃ t, text = EOF::t ∧ Copied strict argCopy sep {} t st') ∧
    argAct st' sep = .stop (sep == T_COMMA) ∧ st'.numsp = 0

namespace Host
variable {σ ο : Type} {H : Host σ ο} {strict : Bool} {w rest : Bytes}

/-- The percent sign and the bytes `w` after it are printed as they are. -/
def Prints (H : Host σ ο) (w rest : Bytes) : Prop :=
  ∀ n, H.parseFunc (n+2) (w ++ rest) = emit (T_PCT::w) >>= fun _ => pure rest

theorem prints_punct (hstrict : ∀ s, H.strict s = false) {d : Byte} {inp : Bytes}
    (hsym : isqsymf d = false) (hpunct : isPunct d = true) : H.Prints [] (d::inp) := by
  intro n
  have heof : ¬ (d = EOF ∨ d = T_PCT) := by
    rintro (rfl | rfl) <;> exact absurd hpunct (by decide)
  have hreject : H.rejectPunct d = pure () := by
    unfold rejectPunct
    simp only [hstrict,Bool.false_eq_true,if_false]
    exact EmitM.get_bind_const _
  simp [parseFunc,hsym,heof,hpunct,hreject]

theorem prints_other {d : Byte} {inp : Bytes} (hsym : isqsymf d = false) (heof : d ≠ EOF)
    (hpct : d ≠ T_PCT) (hpunct : isPunct d = false) : H.Prints [d] inp := by
  intro n
  simp [parseFunc,hsym,heof,hpct,hpunct]

theorem prints_broken {d c : Byte} {text name rest : Bytes} (hsym : isqsymf d = true)
    (hscan : scanName [d] text = (name,c,rest)) (heof : c ≠ EOF) (hlp : c ≠ T_LP)
    (hpct : c ≠ T_PCT) (tail : Bytes) : H.Prints (name ++ [c]) (rest ++ tail) := by
  intro n
  have hinp : name ++ [c] ++ (rest ++ tail) = d::(text ++ tail) := by
    have hsplit := scanName_split hscan heof
    rw [List.append_assoc,List.singleton_append,← List.cons_append,← List.append_assoc,hsplit]
    rfl
  have hname : scanName [d] (text ++ tail) = (name,c,rest ++ tail) := scanName_append hscan heof
  rw [hinp]
  simp [parseFunc,parseName,hsym,hname,heof,hlp,hpct,copyName]

theorem argLoop_prints (h : H.Prints w rest) (n : ℕ) (st : ArgSt) (cur : Bytes) :
    H.argLoop (n+4) st cur (T_PCT::(w ++ rest)) =
      H.argLoop (n+2) { st with numsp := 0 } (cur ++ T_PCT::w) rest := by
  have heof : T_PCT ≠ EOF := by decide
  have hesc : T_PCT ≠ T_ESC := by decide
  simp only [argLoop,argTurn,getC_cons,if_neg heof,if_neg hesc,if_true,h n,
    EmitM.capture_emit_pure,pure_bind]

theorem argLoop_argCopy {st st' : ArgSt} {c : Byte} (heof : c ≠ EOF) (hpct : c ≠ T_PCT)
    (hcopy : argCopy st c = some st') (n : ℕ) (cur inp : Bytes) :
    H.argLoop (n+2) st cur (c::inp) = H.argLoop n st' (cur ++ [c]) inp := by
  unfold argCopy at hcopy
  split_ifs at hcopy with hesc
  split at hcopy
  · next st₁ hact =>
    cases hcopy
    exact H.argLoop_put heof hesc hpct hact
  · cases hcopy

/-- A text that is copied gets into the argument as it is. -/
theorem argLoop_copied (hstrict : ∀ s, H.strict s = strict) {next : Byte}
    (hnext : next = T_RP ∨ next = T_COMMA) {st st' : ArgSt} {text : Bytes}
    (h : Copied strict argCopy next st text st') (n : ℕ) (cur tail : Bytes)
    (hn : 4*(text ++ next::tail).length ≤ n) :
    ∃ m, 4*(next::tail).length ≤ m ∧
      H.argLoop n st cur (text ++ next::tail) = H.argLoop m st' (cur ++ text) (next::tail) := by
  induction h generalizing n cur with
  | nil st => exact ⟨n,hn,by rw [List.nil_append,List.append_nil]⟩
  | @byte st st₁ st₂ c text heof hpct hcopy _ ih =>
    simp only [List.cons_append,List.length_cons] at hn
    obtain ⟨k,rfl⟩ : ∃ k, n = k+2 := ⟨n-2,by omega⟩
    obtain ⟨m,hm,hread⟩ := ih k (cur ++ [c]) (by omega)
    refine ⟨m,hm,?_⟩
    rw [List.cons_append,argLoop_argCopy heof hpct hcopy,hread,List.append_assoc]
    rfl
  | last st hlast =>
    simp only [List.cons_append,List.nil_append,List.length_cons] at hn
    obtain ⟨k,rfl⟩ : ∃ k, n = k+4 := ⟨n-4,by omega⟩
    have hclose : next = T_RP ∧ strict = false := by
      rcases hlast with h | h
      · exact h
      · subst h
        rcases hnext with h | h <;> exact absurd h (by decide)
    obtain ⟨rfl,rfl⟩ := hclose
    refine ⟨k+2,by simp only [List.length_cons]; omega,?_⟩
    exact argLoop_prints (w := []) (prints_punct hstrict (by decide) (by decide)) k st cur
  | @punct st st₁ d text hfalse hsym hpunct _ ih =>
    simp only [List.cons_append,List.length_cons] at hn ih
    subst hfalse
    obtain ⟨k,rfl⟩ : ∃ k, n = k+4 := ⟨n-4,by omega⟩
    obtain ⟨m,hm,hread⟩ := ih (k+2) (cur ++ [T_PCT]) (by omega)
    refine ⟨m,hm,?_⟩
    have hprints : H.Prints [] (d::(text ++ next::tail)) := prints_punct hstrict hsym hpunct
    have hstep := argLoop_prints hprints k st cur
    simp only [List.cons_append,List.nil_append] at hstep ⊢
    rw [hstep,hread,List.append_assoc]
    rfl
  | @other st st₁ d text hsym heof hpct hpunct _ ih =>
    simp only [List.cons_append,List.length_cons] at hn
    obtain ⟨k,rfl⟩ : ∃ k, n = k+4 := ⟨n-4,by omega⟩
    obtain ⟨m,hm,hread⟩ := ih (k+2) (cur ++ [T_PCT,d]) (by omega)
    refine ⟨m,hm,?_⟩
    have hprints : H.Prints [d] (text ++ next::tail) := prints_other hsym heof hpct hpunct
    have hstep := argLoop_prints hprints k st cur
    simp only [List.cons_append,List.nil_append] at hstep ⊢
    rw [hstep,hread,List.append_assoc]
    rfl
  | @broken st st₁ d c text name rest hsym hscan heof hlp hpct _ ih =>
    have hsplit := scanName_split hscan heof
    have hlen := congrArg List.length hsplit
    simp only [List.length_append,List.length_cons,List.length_nil] at hlen
    simp only [List.cons_append,List.length_cons,List.length_append] at hn
    obtain ⟨k,rfl⟩ : ∃ k, n = k+4 := ⟨n-4,by omega⟩
    obtain ⟨m,hm,hread⟩ := ih (k+2) (cur ++ T_PCT::(name ++ [c])) (by
      simp only [List.length_append,List.length_cons]
      omega)
    refine ⟨m,hm,?_⟩
    have hstep := argLoop_prints (prints_broken (H := H) hsym hscan heof hlp hpct (next::tail)) k st cur
    have hassoc : name ++ [c] ++ (rest ++ next::tail) = d::text ++ next::tail := by
      rw [← List.append_assoc,List.append_assoc name,List.singleton_append,hsplit]
      rfl
    rw [hassoc] at hstep
    rw [List.cons_append,hstep,hread,List.append_assoc,List.cons_append,List.append_assoc,
      List.singleton_append,hsplit]
    rfl
  | brokenLast st hlast _ _ =>
    subst hlast
    rcases hnext with h | h <;> exact absurd h (by decide)

theorem copied_head_ne_eof {copy : ArgSt → Byte → Option ArgSt} {next : Byte} {st st' : ArgSt}
    {text : Bytes} (h : Copied strict copy next st text st') : ∀ c ∈ text.head?, c ≠ EOF := by
  cases h with
  | nil => exact nofun
  | byte heof =>
    rintro _ ⟨⟩
    exact heof
  | last => rintro _ ⟨⟩; decide
  | punct => rintro _ ⟨⟩; decide
  | other => rintro _ ⟨⟩; decide
  | broken => rintro _ ⟨⟩; decide
  | brokenLast => rintro _ ⟨⟩; decide

/-- The separator ends an argument that was copied. -/
theorem argLoop_end {sep : Byte} (hsep : sep = T_RP ∨ sep = T_COMMA) {st : ArgSt} {more : Bool}
    (hact : argAct st sep = .stop more) (hsp : st.numsp = 0) (n : ℕ) (cur tail : Bytes) :
    H.argLoop (n+2) st cur (sep::tail) = pure (cur,more,tail) := by
  have hplain : sep ≠ EOF ∧ sep ≠ T_ESC ∧ sep ≠ T_PCT := by
    rcases hsep with rfl | rfl <;> decide
  obtain ⟨heof,hesc,hpct⟩ := hplain
  rw [H.argLoop_stop heof hesc hpct hact,hsp,cutSpaces,Nat.sub_zero,List.take_length]

/-- A text that is kept is what `ParseArg` makes of it. -/
theorem parseArg_kept (hstrict : ∀ s, H.strict s = strict) {sep : Byte}
    (hsep : sep = T_RP ∨ sep = T_COMMA) {text : Bytes} (h : KeptArg strict sep text) (tail : Bytes) :
    ∃ c inp, argHead (text ++ sep::tail) = (false,c,inp) ∧
      (text.head? ≠ some EOF → c ≠ EOF) ∧
      ∀ n, 4*(text ++ sep::tail).length ≤ n →
        H.parseArg (n+3) c inp = pure (text,sep == T_COMMA,tail) := by
  obtain ⟨hopens,st',hcopied,hact,hsp⟩ := h
  -- The first byte is neither a blank nor a quote.
  obtain ⟨c,inp,hinp,hc⟩ : ∃ c inp, text ++ sep::tail = c::inp ∧
      (text.head? = some c ∨ text = [] ∧ c = sep) := by
    cases text with
    | nil => exact ⟨sep,tail,rfl,.inr ⟨rfl,rfl⟩⟩
    | cons c text => exact ⟨c,text ++ sep::tail,rfl,.inl rfl⟩
  have hplain : isspace c = false ∧ c ≠ T_SQ ∧ c ≠ T_DQ ∧ c ≠ T_LC := by
    rcases hc with hc | ⟨-,rfl⟩
    · exact hopens c hc
    · rcases hsep with rfl | rfl <;> decide
  obtain ⟨hspace,hsq,hdq,hlc⟩ := hplain
  have hopen : argOpen c inp = ({},c,inp) := by
    rw [argOpen,if_neg hdq,if_neg hlc]
  have hsepEof : sep ≠ EOF := by
    rcases hsep with rfl | rfl <;> decide
  refine ⟨c,inp,by rw [hinp,argHead_of_not_space hspace hsq],?_,?_⟩
  · intro hne
    rcases hc with hc | ⟨-,rfl⟩
    · rintro rfl
      exact hne hc
    · exact hsepEof
  · intro n hn
    rw [parseArg,hopen]
    rcases hcopied with hcopied | ⟨t,rfl,hcopied⟩
    · have heof : c ≠ EOF := by
        rcases hc with hc | ⟨-,rfl⟩
        · exact copied_head_ne_eof hcopied c hc
        · exact hsepEof
      obtain ⟨m,hm,hread⟩ := argLoop_copied hstrict hsep hcopied (n+3) [] tail (by omega)
      simp only [List.length_cons] at hm
      obtain ⟨k,rfl⟩ : ∃ k, m = k+2 := ⟨m-2,by omega⟩
      rw [argTurn_of_ne_eof H heof,← hinp,hread,List.nil_append,argLoop_end hsep hact hsp]
    · rw [List.cons_append] at hinp hn
      obtain ⟨rfl,rfl⟩ := List.cons.inj hinp
      simp only [List.length_cons] at hn
      obtain ⟨m,hm,hread⟩ := argLoop_copied hstrict hsep hcopied (n+1) [EOF] tail (by omega)
      simp only [List.length_cons] at hm
      obtain ⟨k,rfl⟩ : ∃ k, m = k+2 := ⟨m-2,by omega⟩
      have hput : argAct {} EOF = .put {} := by decide
      have hesc : EOF ≠ T_ESC := by decide
      have hpct : EOF ≠ T_PCT := by decide
      simp only [argTurn,if_neg hesc,if_neg hpct,hput,List.nil_append]
      rw [hread,List.singleton_append,argLoop_end hsep hact hsp]

theorem parseArgsQmap_last (hstrict : ∀ s, H.strict s = strict) {text : Bytes}
    (h : KeptArg strict T_RP text) (tail : Bytes) {n : ℕ}
    (hn : 4*(text ++ T_RP::tail).length+4 ≤ n) :
    H.parseArgsQmap n false [] (text ++ T_RP::tail) = pure ([⟨text,.str⟩],tail) := by
  obtain ⟨c,inp,hhead,-,harg⟩ := parseArg_kept hstrict (.inl rfl) h tail
  obtain ⟨k,rfl⟩ : ∃ k, n = k+3+1 := ⟨n-4,by omega⟩
  exact parseArgsQmap_single H hhead (harg k (by omega))

theorem parseArgsQmap_more (hstrict : ∀ s, H.strict s = strict) {text : Bytes}
    (h : KeptArg strict T_COMMA text) (hfirst : text.head? ≠ some EOF) (tail : Bytes) {n : ℕ}
    (hn : 4*(text ++ T_COMMA::tail).length+4 ≤ n+1) :
    H.parseArgsQmap (n+1) false [] (text ++ T_COMMA::tail) =
      H.parseArgsQmap n false [] tail >>= fun r => pure (⟨text,.str⟩::r.1,r.2) := by
  obtain ⟨c,inp,hhead,hc,harg⟩ := parseArg_kept hstrict (.inr rfl) h tail
  obtain ⟨k,rfl⟩ : ∃ k, n = k+3 := ⟨n-3,by omega⟩
  simp [parseArgsQmap,hhead,harg k (by omega),hc hfirst,qmapNext]

theorem copied_plain {sep : Byte} {text : Bytes} (h : ∀ c ∈ text, Plain c) :
    Copied strict argCopy sep {} text {} := by
  induction text with
  | nil => exact .nil _
  | cons c text ih =>
    have hc := h c List.mem_cons_self
    have hcopy : argCopy {} c = some {} := by
      rw [argCopy,if_neg hc.esc,argAct_plain rfl rfl hc]
    exact .byte hc.eof hc.pct hcopy (ih fun d hd => h d (List.mem_cons_of_mem _ hd))

theorem keptArg_plain {sep : Byte} (hsep : sep = T_RP ∨ sep = T_COMMA) {text : Bytes}
    (h : ∀ c ∈ text, Plain c) (hfirst : text.head? ≠ some T_LC) : KeptArg strict sep text := by
  refine ⟨fun c hc => ?_,{},.inl (copied_plain h),?_,rfl⟩
  · have hplain := h c (List.mem_of_mem_head? hc)
    refine ⟨hplain.space,hplain.sq,hplain.dq,?_⟩
    rintro rfl
    exact hfirst hc
  · rcases hsep with rfl | rfl <;> rfl

/-- A call of one letter that is bound to something that takes its arguments evaluated. -/
theorem parseLoop_call {c : Byte} (hc : isqsymf c = true) {obj : ο}
    (hfind : ∀ s, H.find s [c] = some obj) (hmap : H.getQmap obj = none) (n : ℕ) (inp : Bytes) :
    H.parseLoop (n+3) (T_PCT::c::T_LP::inp) =
      H.parseArgsQmap n false [] inp >>= fun a => H.evalCall obj a.1 >>= fun _ =>
        H.parseLoop (n+2) a.2 := by
  have heof : T_PCT ≠ EOF := by decide
  have hscan : scanName [c] (T_LP::inp) = ([c],T_LP,inp) := by
    have hsym : isqsym T_LP = false := by decide
    simp [scanName,hsym]
  have hname : H.parseName (n+1) [c] (T_LP::inp) = H.parseArgsQmap n false [] inp >>= fun a =>
      H.evalCall obj a.1 >>= fun _ => pure a.2 := by
    simp only [parseName,hscan,if_true,hfind,hmap,argsStart]
    exact EmitM.get_bind_const _
  simp only [parseLoop,parseFunc,getC_cons,if_neg heof,if_true,hc,hname,bind_assoc,pure_bind]

/-- Bytes outside of calls. -/
theorem parseLoop_text {text : Bytes} (h : ∀ c ∈ text, c ≠ EOF ∧ c ≠ T_PCT) (n : ℕ) (rest : Bytes) :
    H.parseLoop (n+text.length) (text ++ rest) = emit text >>= fun _ => H.parseLoop n rest := by
  induction text with
  | nil => rw [EmitM.emit_nil_bind]; rfl
  | cons c text ih =>
    obtain ⟨heof,hpct⟩ := h c List.mem_cons_self
    have hrest := ih fun d hd => h d (List.mem_cons_of_mem _ hd)
    have hlen : n+(c::text).length = n+text.length+1 := rfl
    rw [hlen,List.cons_append,parseLoop]
    simp only [getC_cons,if_neg heof,if_neg hpct,hrest]
    exact (EmitM.emit_append_bind [c] text _).symm

/-- A setter does its work and prints nothing. -/
theorem run_evalCall {obj : ο} {args : List Arg} {s s' : σ} {b : Bytes}
    (h : (H.eval obj (some args)).run s = ⟨.ok (),s',b⟩) :
    (H.evalCall obj args).run s = ⟨.ok (),s',b⟩ := by
  unfold evalCall
  rw [EmitM.run_bind_ok (EmitM.run_get s)]
  split_ifs
  · rw [h]
    rfl
  · rw [EmitM.run_tryCatch_ok h]
    rfl

end Host

/-- Two runs end in the same way and leave the same state. -/
def SameEnd {σ : Type} (r r' : Outcome Exn Byte σ Unit) : Prop :=
  r.result = r'.result ∧ r.state = r'.state

theorem SameEnd.trans {σ : Type} {r r' r'' : Outcome Exn Byte σ Unit} (h : SameEnd r r')
    (h' : SameEnd r' r'') : SameEnd r r'' := ⟨h.1.trans h'.1,h.2.trans h'.2⟩

namespace SchedElem

/-- What is left of a `long` that was written as an `int` and read again; the least `int` is written
with characters that are no digits. -/
def readBack (x : ℤ) : ℤ := if int32 x = -2^31 then 0 else int32 x

theorem readBack_eq_iff {x : ℤ} : readBack x = x ↔ -2^31 < x ∧ x < 2^31 := by
  unfold readBack
  obtain ⟨hlow,hhigh⟩ := int32_mem x
  constructor
  · intro h
    split_ifs at h with hleast
    · subst h
      exact absurd hleast (by decide)
    · omega
  · rintro ⟨hlt,hgt⟩
    have hself : int32 x = x := int32_of_mem ⟨hlt.le,hgt⟩
    rw [hself,if_neg (by omega)]

/-- One call of `%s` in the saved text. -/
def field (key : Byte) (x : ℤ) : Bytes := T_PCT::ch 's'::T_LP::key::T_COMMA::(itoa x ++ [T_RP])

theorem saved_eq (e : SchedElem) : e.saved = field (ch 'f') e.first ++ (field (ch 'o') e.offset ++
    (field (ch 'l') e.last ++ (str "%s(s,%b(" ++ (e.body ++ [T_RP])))) := by
  have hsched : e.getSched = str "%s(f," ++ itoa e.first ++ str ")%s(o," ++ itoa e.offset ++
    str ")%s(l," ++ itoa e.last ++ str ")%s(s," := rfl
  have hf : str "%s(f," = [T_PCT,ch 's',T_LP,ch 'f',T_COMMA] := rfl
  have ho : str ")%s(o," = [T_RP,T_PCT,ch 's',T_LP,ch 'o',T_COMMA] := rfl
  have hl : str ")%s(l," = [T_RP,T_PCT,ch 's',T_LP,ch 'l',T_COMMA] := rfl
  have hs : str ")%s(s," = T_RP::str "%s(s," := rfl
  have hb : str "%s(s,%b(" = str "%s(s," ++ str "%b(" := rfl
  rw [saved,hsched,hf,ho,hl,hs,hb]
  simp [field]

theorem itoa_least {x : ℤ} (h : int32 x = -2^31) : itoa x = str "-./,),(-*,(" := by
  unfold itoa
  rw [h]
  decide

theorem isdigit_plain {c : Byte} (h : isdigit c = true) : Plain c := by
  have hall : ∀ c : Byte, isdigit c = true → isSpecial c = false := by
    intro c hc
    have hmem : 48 ≤ c.toNat ∧ c.toNat ≤ 57 := by simpa [isdigit,UInt8.le_iff_toNat_le] using hc
    simp [isSpecial,isspace,ch,T_SQ,T_PCT,T_DQ,T_COMMA,T_ESC,T_RP,T_LP,EOF,UInt8.le_iff_toNat_le,← UInt8.toNat_inj]
    omega
  exact plain_of_not_special (hall c h)

/-- The least `int` apart, the text of a number is read as it stands and has its value. -/
theorem itoa_plain {x : ℤ} (h : int32 x ≠ -2^31) :
    (∀ c ∈ itoa x, Plain c ∧ c ≠ T_LC) ∧ itoa x ≠ [] ∧ atoi (itoa x) = int32 x := by
  obtain ⟨hlow,hhigh⟩ := int32_mem x
  have hself : int32 (int32 x) = int32 x := int32_of_mem ⟨hlow,hhigh⟩
  have hsame : itoa x = itoa (int32 x) := by
    unfold itoa
    rw [hself]
  have hvalue : atoi (itoa x) = int32 x := by
    rw [hsame]
    exact atoi_itoa ⟨by omega,hhigh⟩
  have hdigits {n : ℤ} (h0 : 0 ≤ n) (hn : n < 2^31) : ∀ c ∈ itoaLoop 10 n [], isdigit c = true :=
    (itoaLoop_spec h0 (by omega) fun _ h => absurd h List.not_mem_nil).1
  have hlc {c : Byte} (hc : isdigit c = true) : Plain c ∧ c ≠ T_LC := by
    refine ⟨isdigit_plain hc,?_⟩
    rintro rfl
    exact absurd hc (by decide)
  have hne : itoa x ≠ [] := by
    intro hnil
    rw [hnil] at hvalue
    have hzero : int32 x = 0 := hvalue.symm
    unfold itoa at hnil
    rw [hzero] at hnil
    exact absurd hnil (by decide)
  refine ⟨?_,hne,hvalue⟩
  intro c hc
  unfold itoa at hc
  simp only at hc
  split_ifs at hc with hneg hz
  · have hflip : int32 (-int32 x) = -int32 x := int32_of_mem ⟨by omega,by omega⟩
    rw [hflip] at hc
    obtain rfl | hc := List.mem_cons.mp hc
    · exact ⟨plain_of_not_special (by decide),by decide⟩
    · exact hlc (hdigits (by omega) (by omega) c hc)
  · rw [List.mem_singleton.mp hc]
    exact hlc (by decide)
  · exact hlc (hdigits (by omega) hhigh c hc)

variable {τ ο : Type} {H : Host (SchedElem × τ) ο} {strict : Bool}

/-- `Load` on one call of `%s`. -/
theorem parseLoop_field (hstrict : ∀ p, H.strict p = strict) {key : Byte} (hkey : Plain key)
    (hlc : key ≠ T_LC) (x : ℤ) (rest : Bytes) (p : SchedElem × τ) {n : ℕ}
    (hn : 4*(field key x ++ rest).length+1 ≤ n) : ∃ m, 4*rest.length+1 ≤ m ∧
      SameEnd (((loadHost H).parseLoop n (field key x ++ rest)).run p)
        (((loadHost H).parseLoop m rest).run (p.1.setSched key (readBack x),p.2)) := by
  have hstrict' : ∀ p, (loadHost H).strict p = strict := hstrict
  have hfind : ∀ p, (loadHost H).find p [ch 's'] = some .setSched := fun _ => rfl
  have hkeep : KeptArg strict T_COMMA [key] :=
    Host.keptArg_plain (.inr rfl) (by simpa using hkey) (by simpa using hlc)
  have hfirst : [key].head? ≠ some EOF := by simpa using hkey.eof
  have hset (bits : Bytes) (hbits : bits ≠ []) (more : List Arg) :
      ((loadHost H).evalCall .setSched (⟨[key],.str⟩::⟨bits,.str⟩::more)).run p =
        ⟨.ok (),(p.1.setSched key (atoi bits),p.2),[]⟩ := by
    obtain ⟨d,bits,rfl⟩ := List.exists_cons_of_ne_nil hbits
    exact Host.run_evalCall rfl
  simp only [field,List.cons_append,List.append_assoc,List.length_cons,List.length_append,
    List.nil_append] at hn ⊢
  obtain ⟨k,rfl⟩ : ∃ k, n = k+1+3 := ⟨n-4,by omega⟩
  have hcall := Host.parseLoop_call (H := loadHost H) (c := ch 's') (by decide) hfind rfl (k+1)
    ([key] ++ T_COMMA::(itoa x ++ T_RP::rest))
  have hmore := Host.parseArgsQmap_more hstrict' hkeep hfirst (itoa x ++ T_RP::rest) (n := k) (by
    simp only [List.length_append,List.length_cons,List.length_nil]
    omega)
  rw [hmore,bind_assoc] at hcall
  rw [List.singleton_append] at hcall
  rw [hcall]
  by_cases hleast : int32 x = -2^31
  · -- The text is cut at its commas and closed by its own parenthesis.
    have htext : itoa x ++ T_RP::rest =
        str "-./" ++ T_COMMA::([] ++ T_RP::(str ",(-*,()" ++ rest)) := by
      rw [itoa_least hleast]
      rfl
    have hlen : (itoa x).length = 11 := by
      rw [itoa_least hleast]
      rfl
    have hsign : KeptArg strict T_COMMA (str "-./") :=
      Host.keptArg_plain (.inr rfl) (fun c hc => plain_of_not_special (by revert c; decide +kernel))
        (by decide)
    have hnone : KeptArg strict T_RP [] := Host.keptArg_plain (.inl rfl) (List.forall_mem_nil _) (by rintro ⟨⟩)
    have hminus : (str "-./").length = 3 := rfl
    have hleft : (str ",(-*,()").length = 7 := rfl
    obtain ⟨j,rfl⟩ : ∃ j, k = j+1 := ⟨k-1,by omega⟩
    have hsecond := Host.parseArgsQmap_more hstrict' hsign (by decide)
      ([] ++ T_RP::(str ",(-*,()" ++ rest)) (n := j) (by
        simp only [List.length_append,List.length_cons,List.length_nil]
        omega)
    have hthird := Host.parseArgsQmap_last hstrict' hnone (str ",(-*,()" ++ rest) (n := j) (by
      simp only [List.length_append,List.length_cons,List.length_nil]
      omega)
    have hback : readBack x = atoi (str "-./") := by
      rw [readBack,if_pos hleast]
      decide
    obtain ⟨m,hm⟩ : ∃ m, j+1+1+2 = m + (str ",(-*,()").length := ⟨j-3,by omega⟩
    rw [htext,hsecond,hthird]
    simp only [pure_bind]
    rw [EmitM.run_bind_ok (hset (str "-./") (by decide) [⟨[],.str⟩]),hm,
      Host.parseLoop_text (by decide +kernel),EmitM.run_bind_ok (EmitM.run_emit _ _),hback]
    exact ⟨m,by omega,rfl,rfl⟩
  · obtain ⟨hplain,hne,hvalue⟩ := itoa_plain hleast
    have hback : readBack x = atoi (itoa x) := by rw [readBack,if_neg hleast,hvalue]
    have hvalueKept : KeptArg strict T_RP (itoa x) := by
      refine Host.keptArg_plain (.inl rfl) (fun c hc => (hplain c hc).1) fun hhead => ?_
      exact (hplain T_LC (List.mem_of_mem_head? hhead)).2 rfl
    have hlast := Host.parseArgsQmap_last hstrict' hvalueKept rest (n := k) (by
      simp only [List.length_append,List.length_cons]
      omega)
    rw [hlast,pure_bind,pure_bind,EmitM.run_bind_ok (hset (itoa x) hne []),hback]
    exact ⟨k+1+2,by omega,rfl,rfl⟩

/-- The other arguments of the last, unfinished call of `%s`, after the one with the body in it. -/
def lastArgs (H : Host (SchedElem × τ) ο) (n : ℕ) (a : Bytes × Bool × Bytes) :
    SmxM (SchedElem × τ) (List Arg × Bytes) :=
  if a.2.1 then do
    let r ← (loadHost H).parseArgsQmap n false [] a.2.2
    pure (⟨a.1,.str⟩::r.1,r.2)
  else pure ([⟨a.1,.str⟩],a.2.2)

/-- The call of `%b`. -/
def callBody (H : Host (SchedElem × τ) ο) (n : ℕ) (inp : Bytes) : SmxM (SchedElem × τ) Bytes := do
  let a ← (loadHost H).parseArgsQmap n false [] inp
  (loadHost H).evalCall .setBody a.1
  pure a.2

/-- The body is read in an argument of the last call of `%s`. -/
theorem parseLoop_body (hstrict : ∀ p, H.strict p = strict) (inp : Bytes) {n : ℕ}
    (hn : 4*inp.length+20 ≤ n) :
    (loadHost H).parseLoop (n+9) (str "%s(s,%b(" ++ inp) =
      capture (callBody H n inp) >>= fun f => (loadHost H).argLoop (n+2) {} f.1 f.2 >>= fun a =>
        lastArgs H (n+4) a >>= fun r =>
          (loadHost H).evalCall .setSched (⟨[ch 's'],.str⟩::r.1) >>= fun _ =>
            (loadHost H).parseLoop (n+8) r.2 := by
  have hstrict' : ∀ p, (loadHost H).strict p = strict := hstrict
  have hkeep : KeptArg strict T_COMMA [ch 's'] :=
    Host.keptArg_plain (.inr rfl) (fun c hc => plain_of_not_special (by
      rw [List.mem_singleton.mp hc]
      decide)) (by decide)
  have hcall := Host.parseLoop_call (H := loadHost H) (c := ch 's') (by decide) (fun _ => rfl) rfl (n+6)
    ([ch 's'] ++ T_COMMA::(T_PCT::ch 'b'::T_LP::inp))
  have hmore := Host.parseArgsQmap_more hstrict' hkeep (by decide) (T_PCT::ch 'b'::T_LP::inp)
    (n := n+5) (by
      simp only [List.length_append,List.length_cons,List.length_nil]
      omega)
  have hname : (loadHost H).parseFunc (n+2) (ch 'b'::T_LP::inp) = callBody H n inp := by
    have hsym : isqsymf (ch 'b') = true := by decide
    have hlp : isqsym T_LP = false := by decide
    simp only [Host.parseFunc,Host.parseName,getC_cons,hsym,if_true,scanName,hlp,Bool.false_eq_true,
      if_false]
    exact EmitM.get_bind_const _
  have hhead : argHead (T_PCT::ch 'b'::T_LP::inp) = (false,T_PCT,ch 'b'::T_LP::inp) :=
    argHead_of_not_space (by decide) (by decide) _
  have hopen : argOpen T_PCT (ch 'b'::T_LP::inp) = ({},T_PCT,ch 'b'::T_LP::inp) := rfl
  have hesc : T_PCT ≠ T_ESC := by decide
  have heof : T_PCT ≠ EOF := by decide
  have harg : (loadHost H).parseArg (n+4) T_PCT (ch 'b'::T_LP::inp) =
      capture (callBody H n inp) >>= fun f => (loadHost H).argLoop (n+2) {} f.1 f.2 := by
    simp only [Host.parseArg,hopen,Host.argTurn,if_neg hesc,if_true,hname,List.nil_append]
  have hargs : (loadHost H).parseArgsQmap (n+5) false [] (T_PCT::ch 'b'::T_LP::inp) =
      capture (callBody H n inp) >>= fun f => (loadHost H).argLoop (n+2) {} f.1 f.2 >>= fun a =>
        lastArgs H (n+4) a := by
    rw [Host.parseArgsQmap]
    simp only [hhead,harg,Bool.false_or,Bool.false_eq_true,if_false,heof,ne_eq,not_false_eq_true,
      and_true,bind_assoc,qmapNext]
    rfl
  simp only [hmore,hargs,bind_assoc,pure_bind] at hcall
  exact hcall

/-- A body that is kept comes back, and nothing else changes any more. -/
theorem run_parseLoop_body (hstrict : ∀ p, H.strict p = strict) {body : Bytes}
    (hbody : KeptArg strict T_RP body) (p : SchedElem × τ) {n : ℕ}
    (hn : 4*(body ++ [T_RP]).length+20 ≤ n) :
    ((loadHost H).parseLoop (n+9) (str "%s(s,%b(" ++ (body ++ [T_RP]))).run p =
      ⟨.ok (),({ p.1 with body := body },p.2),[]⟩ := by
  have hstrict' : ∀ p, (loadHost H).strict p = strict := hstrict
  have hlast := Host.parseArgsQmap_last hstrict' hbody [] (n := n) (by omega)
  have hcall : (callBody H n (body ++ [T_RP])).run p = ⟨.ok [],({ p.1 with body := body },p.2),[]⟩ := by
    have hset : ((loadHost H).evalCall .setBody [⟨body,.str⟩]).run p =
        ⟨.ok (),({ p.1 with body := body },p.2),[]⟩ := Host.run_evalCall rfl
    rw [callBody,hlast,pure_bind,EmitM.run_bind_ok hset]
    rfl
  have hloop : (loadHost H).argLoop (n+2) {} [] [] = pure ([],false,[]) :=
    (loadHost H).argLoop_eof rfl
  have heval (p : SchedElem × τ) : ((loadHost H).evalCall .setSched [⟨[ch 's'],.str⟩,⟨[],.str⟩]).run p =
      ⟨.ok (),p,[]⟩ := Host.run_evalCall rfl
  have hend : (loadHost H).parseLoop (n+8) [] = pure () := rfl
  rw [parseLoop_body hstrict _ hn,EmitM.run_bind_ok (EmitM.run_capture_ok hcall),hloop,pure_bind,
    lastArgs,if_neg Bool.false_ne_true,pure_bind,EmitM.run_bind_ok (heval _),hend,EmitM.run_pure]
  rfl

/-- The event as it is when the body is about to be read. -/
def times (e : SchedElem) : SchedElem where
  name := e.name
  first := readBack e.first
  next := readBack e.first
  offset := readBack e.offset
  last := readBack e.last

/-- `Load` on a saved event, up to the last call of `%s`. -/
theorem load_saved (hstrict : ∀ p, H.strict p = strict) (e : SchedElem) (s : τ)
    (hdeep : H.tooDeep ({ name := e.name },s) = false) :
    ∃ n, 4*(e.body ++ [T_RP]).length+20 ≤ n ∧ SameEnd (load H e.name e.saved s)
      (((loadHost H).parseLoop (n+9) (str "%s(s,%b(" ++ (e.body ++ [T_RP]))).run (e.times,s)) := by
  have hload : load H e.name e.saved s =
      ((loadHost H).parseLoop (Host.fuelFor e.saved) e.saved).run ({ name := e.name },s) :=
    Host.run_parse (H := loadHost H) hdeep _
  have hf : Plain (ch 'f') := plain_of_not_special (by decide)
  have ho : Plain (ch 'o') := plain_of_not_special (by decide)
  have hl : Plain (ch 'l') := plain_of_not_special (by decide)
  have hlen : (str "%s(s,%b(").length = 8 := rfl
  have hfuel (inp : Bytes) : 4*inp.length+1 ≤ Host.fuelFor inp := by
    rw [Host.fuelFor]
    omega
  rw [hload,saved_eq]
  obtain ⟨m,hm,hfirst⟩ := parseLoop_field hstrict hf (by decide) e.first (field (ch 'o') e.offset ++
    (field (ch 'l') e.last ++ (str "%s(s,%b(" ++ (e.body ++ [T_RP])))) ({ name := e.name },s)
    (hfuel _)
  obtain ⟨m,hm,hoffset⟩ := parseLoop_field hstrict ho (by decide) e.offset _ _ hm
  obtain ⟨m,hm,hlast⟩ := parseLoop_field hstrict hl (by decide) e.last _ _ hm
  simp only [List.length_append,List.length_cons,List.length_nil,hlen] at hm
  obtain ⟨n,rfl⟩ : ∃ n, m = n+9 := ⟨m-9,by omega⟩
  refine ⟨n,?_,hfirst.trans (hoffset.trans hlast)⟩
  simp only [List.length_append,List.length_cons,List.length_nil]
  omega

/-- What `Load` makes of a saved event whose body is kept. -/
theorem load_kept (hstrict : ∀ p, H.strict p = strict) (e : SchedElem) (s : τ)
    (hdeep : H.tooDeep ({ name := e.name },s) = false) (hbody : KeptArg strict T_RP e.body) :
    SameEnd (load H e.name e.saved s) ⟨.ok (),({ e.times with body := e.body },s),[]⟩ := by
  obtain ⟨n,hn,hload⟩ := load_saved hstrict e s hdeep
  rwa [run_parseLoop_body hstrict hbody _ hn] at hload

end SchedElem

end Smx
