import Smx.Compile.Code

/-! The bytes the compiler writes encode the tree of its source, whatever keys it draws. -/
namespace Smx

theorem Encodes.append {a b : Code} {x y : Bytes} (ha : Encodes a x) (hb : Encodes b y) :
    Encodes (a.append b) (x ++ y) := by
  match a with
  | .nil =>
    obtain rfl : x = [] := ha
    exact hb
  | .out text rest =>
    obtain ⟨hne,rn,bs',rfl,hrest⟩ := ha
    exact ⟨hne,rn,bs' ++ y,by simp only [List.append_assoc],hrest.append hb⟩
  | .func name args rest =>
    obtain ⟨hne,rn,ary,bs',rfl,hargs,hrest⟩ := ha
    exact ⟨hne,rn,ary,bs' ++ y,by simp only [List.append_assoc],hargs,hrest.append hb⟩
  | .junk c rest =>
    obtain ⟨bs',rfl,hrest⟩ := ha
    exact ⟨bs' ++ y,by simp only [List.append_assoc],hrest.append hb⟩

theorem EncodesArgs.length {args : CodeArgs} {ary : List Arg} (h : EncodesArgs args ary) :
    ary.length = args.length := by
  match args with
  | .nil =>
    obtain rfl : ary = [] := h
    rfl
  | .raw quoted text rest =>
    obtain ⟨ary',rfl,hrest⟩ := h
    exact congrArg (· + 1) hrest.length
  | .code body rest =>
    obtain ⟨bs,ary',rfl,-,hrest⟩ := h
    exact congrArg (· + 1) hrest.length

theorem length_baseBytes (bc rn : Byte) (ln : ℕ) : (baseBytes bc rn ln).length = 8 := by
  simp [baseBytes,LittleEndian.toLE]

theorem length_countBytes (cnt : ℕ) : (countBytes cnt).length = 2 := LittleEndian.length_toLE ..

theorem length_argBytes (at' : ArgType) (ln : ℕ) : (argBytes at' ln).length = 4 :=
  LittleEndian.length_toLE ..

theorem length_compText (text : List Piece) : (compText text).length = text.length :=
  List.length_map ..

mutual

theorem Encodes.length {code : Code} {bs : Bytes} (h : Encodes code bs) :
    bs.length = code.size := by
  match code with
  | .nil =>
    obtain rfl : bs = [] := h
    rfl
  | .out text rest =>
    obtain ⟨-,rn,bs',rfl,hrest⟩ := h
    have ih := hrest.length
    simp only [List.length_append,length_baseBytes,length_compText,Code.size,ih]
  | .func name args rest =>
    obtain ⟨-,rn,ary,bs',rfl,hargs,hrest⟩ := h
    have ih := hrest.length
    have iha := hargs.length_outArgs rn
    simp only [List.length_append,length_baseBytes,length_mask,length_countBytes,Code.size,ih,iha]
    omega
  | .junk c rest =>
    obtain ⟨bs',rfl,hrest⟩ := h
    have ih := hrest.length
    simp only [List.length_append,Code.size,ih]

theorem EncodesArgs.length_outArgs {args : CodeArgs} {ary : List Arg} (h : EncodesArgs args ary)
    (rn : Byte) : (CompEnv.outArgs rn ary).length = args.size := by
  match args with
  | .nil =>
    obtain rfl : ary = [] := h
    rfl
  | .raw quoted text rest =>
    obtain ⟨ary',rfl,hrest⟩ := h
    have ih := hrest.length_outArgs rn
    simp only [CompEnv.outArgs] at ih ⊢
    simp only [List.flatMap_cons,List.length_append,length_argBytes,length_mask,CodeArgs.size,ih]
  | .code body rest =>
    obtain ⟨bs,ary',rfl,hbody,hrest⟩ := h
    have ih := hrest.length_outArgs rn
    have ihb := hbody.length
    simp only [CompEnv.outArgs] at ih ⊢
    simp only [List.flatMap_cons,List.length_append,length_argBytes,length_mask,CodeArgs.size,ih,ihb]

end

namespace CompEnv
variable {E : CompEnv}

/-- The grammar the compiler follows. -/
def grammar (E : CompEnv) : Grammar := ⟨E.qmapOf,E.strict⟩

theorem bind_ok {α β : Type} {x : CompM α} {f : α → CompM β} {st st'' : CompSt} {b : β}
    (h : (x >>= f) st = .ok (b,st'')) : ∃ a st', x st = .ok (a,st') ∧ f a st' = .ok (b,st'') := by
  change (x st >>= fun r => f r.1 r.2) = _ at h
  cases hx : x st with
  | error e =>
    rw [hx] at h
    cases h
  | ok r =>
    rw [hx] at h
    exact ⟨r.1,r.2,rfl,h⟩

theorem bind_of_ok {α β : Type} {x : CompM α} {f : α → CompM β} {st st' : CompSt} {a : α}
    (h : x st = .ok (a,st')) : (x >>= f) st = f a st' := by
  change (x st >>= fun r => f r.1 r.2) = _
  rw [h]
  rfl

theorem pure_ok {α : Type} {a b : α} {st st' : CompSt}
    (h : (pure a : CompM α) st = .ok (b,st')) : b = a ∧ st' = st := by
  cases h
  exact ⟨rfl,rfl⟩

theorem outS_bind {α : Type} (s : Bytes) (f : Unit → CompM α) (st : CompSt) :
    (outS s >>= f) st = f () ⟨st.outBuf ++ s,st.drawn⟩ := rfl

theorem drawKey_ok {rn : Byte} {st st' : CompSt} (h : E.drawKey st = .ok (rn,st')) :
    st'.outBuf = st.outBuf := by
  unfold drawKey at h
  split at h <;>
  · cases h
    rfl

theorem outFlush_ok {bs : Bytes} {buf : List Piece} {d : ℕ} {st' : CompSt}
    (h : outFlush ⟨compText buf,d⟩ = .ok (bs,st')) :
    st'.outBuf = [] ∧ ∀ rest bs', Encodes rest bs' → Encodes (.flush buf rest) (bs ++ bs') := by
  unfold outFlush at h
  cases h
  refine ⟨rfl,fun rest bs' hrest => ?_⟩
  by_cases hbuf : buf = []
  · subst hbuf
    exact hrest
  · have hcomp : compText buf ≠ [] := fun he => hbuf ((compText_eq_nil_iff buf).mp he)
    simp only [Code.flush,if_neg hbuf,if_neg hcomp]
    exact ⟨hbuf,0,bs',by rw [length_compText],hrest⟩

theorem outText_ok {s bs : Bytes} {st st' : CompSt} (h : E.outText s st = .ok (bs,st')) :
    st'.outBuf = st.outBuf ∧
      ∀ rest bs', Encodes rest bs' → Encodes (.flush (lit s) rest) (bs ++ bs') := by
  unfold outText at h
  by_cases hs : s = []
  · rw [if_pos hs] at h
    obtain ⟨rfl,rfl⟩ := pure_ok h
    subst hs
    exact ⟨rfl,fun rest bs' hrest => hrest⟩
  · rw [if_neg hs] at h
    obtain ⟨rn,st₁,hkey,h⟩ := bind_ok h
    obtain ⟨rfl,rfl⟩ := pure_ok h
    refine ⟨drawKey_ok hkey,fun rest bs' hrest => ?_⟩
    have hlit : lit s ≠ [] := fun he => hs ((lit_eq_nil_iff s).mp he)
    rw [Code.flush,if_neg hlit]
    exact ⟨hlit,rn,bs',by rw [compText_lit,lit,List.length_map],hrest⟩

theorem outFunc_ok {name bs : Bytes} {args : CodeArgs} {ary : List Arg} {st st' : CompSt}
    (h : E.outFunc name ary st = .ok (bs,st')) (hname : name ≠ []) (hargs : EncodesArgs args ary) :
    st'.outBuf = st.outBuf ∧ Encodes (.func name args .nil) bs := by
  unfold outFunc at h
  obtain ⟨rn,st₁,hkey,h⟩ := bind_ok h
  obtain ⟨rfl,rfl⟩ := pure_ok h
  exact ⟨drawKey_ok hkey,hname,rn,ary,[],by rw [List.append_nil],hargs,rfl⟩

theorem rejectPunct_ok {c : Byte} {bs : Bytes} {st st' : CompSt}
    (h : E.rejectPunct c st = .ok (bs,st')) :
    st' = st ∧ Encodes (if E.strict then .junk c .nil else .nil) bs := by
  unfold rejectPunct at h
  split_ifs at h with hs ht
  · cases h
  · obtain ⟨rfl,rfl⟩ := pure_ok h
    exact ⟨rfl,by rw [if_pos hs]; exact ⟨[],by rw [List.append_nil],rfl⟩⟩
  · obtain ⟨rfl,rfl⟩ := pure_ok h
    exact ⟨rfl,by rw [if_neg hs]; rfl⟩

variable (E) in
/-- With `n` units of fuel the compiler and the reader agree. -/
structure Agrees (n : ℕ) : Prop where
  func : ∀ inp buf d r st', E.compFunc n inp ⟨compText buf,d⟩ = .ok (r,st') →
    r.2 = (E.grammar.readFunc n inp buf).2.1 ∧ Encodes (E.grammar.readFunc n inp buf).1 r.1 ∧
      st'.outBuf = compText (E.grammar.readFunc n inp buf).2.2
  name : ∀ c inp buf d r st', E.compName n c inp ⟨compText buf,d⟩ = .ok (r,st') →
    r.2 = (E.grammar.readName n c inp buf).2.1 ∧ Encodes (E.grammar.readName n c inp buf).1 r.1 ∧
      st'.outBuf = compText (E.grammar.readName n c inp buf).2.2
  args : ∀ qmode map inp d r st', E.compArgs n qmode map inp ⟨[],d⟩ = .ok (r,st') →
    r.2 = (E.grammar.readArgs n qmode map inp).2 ∧
      EncodesArgs (E.grammar.readArgs n qmode map inp).1 r.1 ∧ st'.outBuf = []
  arg : ∀ c inp d r st', E.compArg n c inp ⟨[],d⟩ = .ok (r,st') →
    r.2 = (E.grammar.readArg n c inp).2 ∧ Encodes (E.grammar.readArg n c inp).1 r.1 ∧
      st'.outBuf = []
  turn : ∀ st cur tmp c inp d r st', E.compTurn n st cur tmp c inp ⟨[],d⟩ = .ok (r,st') →
    r.2 = (E.grammar.readTurn n st tmp c inp).2 ∧
      (∃ bs, r.1 = cur ++ bs ∧ Encodes (E.grammar.readTurn n st tmp c inp).1 bs) ∧ st'.outBuf = []
  loop : ∀ st cur tmp inp d r st', E.compLoop n st cur tmp inp ⟨[],d⟩ = .ok (r,st') →
    r.2 = (E.grammar.readLoop n st tmp inp).2 ∧
      (∃ bs, r.1 = cur ++ bs ∧ Encodes (E.grammar.readLoop n st tmp inp).1 bs) ∧ st'.outBuf = []

theorem agrees_zero : E.Agrees 0 where
  func inp buf d r st' h := by
    obtain ⟨rfl,rfl⟩ := pure_ok h
    exact ⟨rfl,rfl,rfl⟩
  name c inp buf d r st' h := by
    obtain ⟨rfl,rfl⟩ := pure_ok h
    exact ⟨rfl,rfl,rfl⟩
  args qmode map inp d r st' h := by
    obtain ⟨rfl,rfl⟩ := pure_ok h
    cases qmode with
    | true => exact ⟨rfl,⟨[],rfl,rfl⟩,rfl⟩
    | false => exact ⟨rfl,⟨[],[],rfl,rfl,rfl⟩,rfl⟩
  arg c inp d r st' h := by
    obtain ⟨rfl,rfl⟩ := pure_ok h
    exact ⟨rfl,rfl,rfl⟩
  turn st cur tmp c inp d r st' h := by
    obtain ⟨text,st₁,htext,h⟩ := bind_ok h
    obtain ⟨rfl,rfl⟩ := pure_ok h
    obtain ⟨hst,htext⟩ := outText_ok htext
    exact ⟨rfl,⟨text,rfl,by simpa [Grammar.readTurn,Grammar.readLoop] using htext .nil [] rfl⟩,hst⟩
  loop st cur tmp inp d r st' h := by
    obtain ⟨text,st₁,htext,h⟩ := bind_ok h
    obtain ⟨rfl,rfl⟩ := pure_ok h
    obtain ⟨hst,htext⟩ := outText_ok htext
    exact ⟨rfl,⟨text,rfl,by simpa [Grammar.readTurn,Grammar.readLoop] using htext .nil [] rfl⟩,hst⟩

theorem state_eq {st : CompSt} {b : Bytes} (h : st.outBuf = b) : st = ⟨b,st.drawn⟩ := by
  rw [← h]

variable {n : ℕ} (ih : E.Agrees n)
include ih

theorem Agrees.func_succ (inp : Bytes) (buf : List Piece) (d : ℕ) (r : Bytes × Bytes) (st' : CompSt)
    (h : E.compFunc (n+1) inp ⟨compText buf,d⟩ = .ok (r,st')) :
    r.2 = (E.grammar.readFunc (n+1) inp buf).2.1 ∧
      Encodes (E.grammar.readFunc (n+1) inp buf).1 r.1 ∧
      st'.outBuf = compText (E.grammar.readFunc (n+1) inp buf).2.2 := by
  simp only [compFunc] at h
  simp only [Grammar.readFunc]
  by_cases hsym : isqsymf (getC inp).1 = true
  · rw [if_pos hsym] at h ⊢
    exact ih.name _ _ _ _ _ _ h
  rw [if_neg hsym] at h ⊢
  by_cases heof : (getC inp).1 = EOF ∨ (getC inp).1 = T_PCT
  · rw [if_pos heof] at h ⊢
    rw [outS_bind] at h
    obtain ⟨rfl,rfl⟩ := pure_ok h
    exact ⟨rfl,rfl,by rw [compText_append,compText_lit]⟩
  rw [if_neg heof] at h ⊢
  by_cases hpunct : isPunct (getC inp).1 = true
  · rw [if_pos hpunct] at h ⊢
    rw [outS_bind] at h
    obtain ⟨code,st₂,hreject,h⟩ := bind_ok h
    obtain ⟨rfl,rfl⟩ := pure_ok h
    obtain ⟨rfl,hcode⟩ := rejectPunct_ok hreject
    exact ⟨rfl,hcode,by rw [compText_append,compText_lit]⟩
  · rw [if_neg hpunct] at h ⊢
    rw [outS_bind] at h
    obtain ⟨rfl,rfl⟩ := pure_ok h
    exact ⟨rfl,rfl,by rw [compText_append,compText_lit]⟩

theorem Agrees.name_succ (c : Byte) (inp : Bytes) (buf : List Piece) (d : ℕ) (r : Bytes × Bytes)
    (st' : CompSt) (h : E.compName (n+1) c inp ⟨compText buf,d⟩ = .ok (r,st')) :
    r.2 = (E.grammar.readName (n+1) c inp buf).2.1 ∧
      Encodes (E.grammar.readName (n+1) c inp buf).1 r.1 ∧
      st'.outBuf = compText (E.grammar.readName (n+1) c inp buf).2.2 := by
  have hname : (scanName [c] inp).1 ≠ [] := scanName_ne_nil (by simp) _
  simp only [compName] at h
  simp only [Grammar.readName]
  by_cases hlp : (scanName [c] inp).2.1 = T_LP
  · rw [if_pos hlp] at h ⊢
    obtain ⟨flushed,st₁,hflush,h⟩ := bind_ok h
    obtain ⟨a,st₂,hargs,h⟩ := bind_ok h
    obtain ⟨code,st₃,hfunc,h⟩ := bind_ok h
    obtain ⟨rfl,rfl⟩ := pure_ok h
    obtain ⟨hst₁,hflush⟩ := outFlush_ok hflush
    rw [state_eq hst₁] at hargs
    obtain ⟨hrest,hary,hst₂⟩ := ih.args _ _ _ _ _ _ hargs
    obtain ⟨hst₃,hcode⟩ := outFunc_ok hfunc hname hary
    exact ⟨hrest,hflush _ _ hcode,hst₃.trans hst₂⟩
  rw [if_neg hlp] at h ⊢
  by_cases hpct : (scanName [c] inp).2.1 = T_PCT
  · rw [if_pos hpct] at h ⊢
    obtain ⟨flushed,st₁,hflush,h⟩ := bind_ok h
    obtain ⟨code,st₂,hfunc,h⟩ := bind_ok h
    obtain ⟨rfl,rfl⟩ := pure_ok h
    obtain ⟨hst₁,hflush⟩ := outFlush_ok hflush
    have hnil : EncodesArgs .nil [] := rfl
    obtain ⟨hst₂,hcode⟩ := outFunc_ok hfunc hname hnil
    exact ⟨rfl,hflush _ _ hcode,hst₂.trans hst₁⟩
  · rw [if_neg hpct] at h ⊢
    rw [outS_bind] at h
    obtain ⟨rfl,rfl⟩ := pure_ok h
    refine ⟨rfl,rfl,?_⟩
    rw [compText_append]
    exact congrArg (compText buf ++ T_PCT::·) (compText_lit _).symm

theorem Agrees.args_succ (qmode : Bool) (map inp : Bytes) (d : ℕ) (r : List Arg × Bytes)
    (st' : CompSt) (h : E.compArgs (n+1) qmode map inp ⟨[],d⟩ = .ok (r,st')) :
    r.2 = (E.grammar.readArgs (n+1) qmode map inp).2 ∧
      EncodesArgs (E.grammar.readArgs (n+1) qmode map inp).1 r.1 ∧ st'.outBuf = [] := by
  simp only [compArgs] at h
  simp only [Grammar.readArgs]
  obtain ⟨a,st₁,ha,h⟩ := bind_ok h
  by_cases hq : (qmode || (argHead inp).1) = true
  · rw [if_pos hq] at ha ⊢
    obtain ⟨rfl,rfl⟩ := pure_ok ha
    by_cases hmore : (parseArgQuoted (argHead inp).2.1 (argHead inp).2.2).2.1 = true ∧
        (argHead inp).2.1 ≠ EOF
    · rw [if_pos hmore] at h ⊢
      obtain ⟨r',st₂,hr,h⟩ := bind_ok h
      obtain ⟨rfl,rfl⟩ := pure_ok h
      obtain ⟨hrest,hary,hst⟩ := ih.args _ _ _ _ _ _ hr
      exact ⟨hrest,⟨_,rfl,hary⟩,hst⟩
    · rw [if_neg hmore] at h ⊢
      obtain ⟨rfl,rfl⟩ := pure_ok h
      exact ⟨rfl,⟨[],rfl,rfl⟩,rfl⟩
  · rw [if_neg hq] at ha ⊢
    obtain ⟨b,st₂,hb,ha⟩ := bind_ok ha
    obtain ⟨rfl,rfl⟩ := pure_ok ha
    obtain ⟨hrest,hcode,hst⟩ := ih.arg _ _ _ _ _ hb
    rw [← hrest]
    by_cases hmore : b.2.1 = true ∧ (argHead inp).2.1 ≠ EOF
    · rw [if_pos hmore] at h ⊢
      obtain ⟨r',st₃,hr,h⟩ := bind_ok h
      obtain ⟨rfl,rfl⟩ := pure_ok h
      rw [state_eq hst] at hr
      obtain ⟨hrest',hary,hst'⟩ := ih.args _ _ _ _ _ _ hr
      exact ⟨hrest',⟨_,_,rfl,hcode,hary⟩,hst'⟩
    · rw [if_neg hmore] at h ⊢
      obtain ⟨rfl,rfl⟩ := pure_ok h
      exact ⟨rfl,⟨_,[],rfl,hcode,rfl⟩,hst⟩

theorem Agrees.turn_succ (st : ArgSt) (cur tmp : Bytes) (c : Byte) (inp : Bytes) (d : ℕ)
    (r : Bytes × Bool × Bytes) (st' : CompSt)
    (h : E.compTurn (n+1) st cur tmp c inp ⟨[],d⟩ = .ok (r,st')) :
    r.2 = (E.grammar.readTurn (n+1) st tmp c inp).2 ∧
      (∃ bs, r.1 = cur ++ bs ∧ Encodes (E.grammar.readTurn (n+1) st tmp c inp).1 bs) ∧
      st'.outBuf = [] := by
  simp only [compTurn] at h
  simp only [Grammar.readTurn]
  by_cases hesc : c = T_ESC
  · rw [if_pos hesc] at h ⊢
    exact ih.loop _ _ _ _ _ _ _ h
  rw [if_neg hesc] at h ⊢
  by_cases hpct : c = T_PCT
  · rw [if_pos hpct] at h ⊢
    obtain ⟨text,st₁,htext,h⟩ := bind_ok h
    obtain ⟨f,st₂,hf,h⟩ := bind_ok h
    obtain ⟨flushed,st₃,hflush,h⟩ := bind_ok h
    obtain ⟨hst₁,htext⟩ := outText_ok htext
    rw [state_eq hst₁] at hf
    obtain ⟨hrest,hcode,hst₂⟩ := ih.func inp [] _ _ _ hf
    rw [state_eq hst₂] at hflush
    obtain ⟨hst₃,hflush⟩ := outFlush_ok hflush
    rw [state_eq hst₃,hrest] at h
    obtain ⟨hrest',⟨bs,hbs,hloop⟩,hst'⟩ := ih.loop _ _ _ _ _ _ _ h
    refine ⟨hrest',⟨text ++ (f.1 ++ (flushed ++ bs)),?_,?_⟩,hst'⟩
    · rw [hbs]
      simp only [List.append_assoc]
    · exact htext _ _ (hcode.append (hflush _ _ hloop))
  · rw [if_neg hpct] at h ⊢
    cases hact : argAct st c with
    | put st₁ =>
      rw [hact] at h
      exact ih.loop _ _ _ _ _ _ _ h
    | skip st₁ =>
      rw [hact] at h
      exact ih.loop _ _ _ _ _ _ _ h
    | stop more =>
      rw [hact] at h
      obtain ⟨text,st₁,htext,h⟩ := bind_ok h
      obtain ⟨rfl,rfl⟩ := pure_ok h
      obtain ⟨hst₁,htext⟩ := outText_ok htext
      exact ⟨rfl,⟨text,rfl,by simpa using htext .nil [] rfl⟩,hst₁⟩

theorem Agrees.loop_succ (st : ArgSt) (cur tmp : Bytes) (inp : Bytes) (d : ℕ)
    (r : Bytes × Bool × Bytes) (st' : CompSt)
    (h : E.compLoop (n+1) st cur tmp inp ⟨[],d⟩ = .ok (r,st')) :
    r.2 = (E.grammar.readLoop (n+1) st tmp inp).2 ∧
      (∃ bs, r.1 = cur ++ bs ∧ Encodes (E.grammar.readLoop (n+1) st tmp inp).1 bs) ∧
      st'.outBuf = [] := by
  simp only [compLoop] at h
  simp only [Grammar.readLoop]
  by_cases heof : (getC inp).1 = EOF
  · rw [if_pos heof] at h ⊢
    obtain ⟨text,st₁,htext,h⟩ := bind_ok h
    obtain ⟨rfl,rfl⟩ := pure_ok h
    obtain ⟨hst₁,htext⟩ := outText_ok htext
    exact ⟨rfl,⟨text,rfl,by simpa using htext .nil [] rfl⟩,hst₁⟩
  · rw [if_neg heof] at h ⊢
    exact ih.turn _ _ _ _ _ _ _ _ h

theorem Agrees.succ : E.Agrees (n+1) where
  func := ih.func_succ
  name := ih.name_succ
  args := ih.args_succ
  arg c inp d r st' h := by
    obtain ⟨hrest,⟨bs,hbs,hcode⟩,hst⟩ := ih.turn _ _ _ _ _ _ _ _ h
    rw [List.nil_append] at hbs
    exact ⟨hrest,hbs ▸ hcode,hst⟩
  turn := ih.turn_succ
  loop := ih.loop_succ

omit ih

variable (E) in
theorem agrees (n : ℕ) : E.Agrees n := by
  induction n with
  | zero => exact agrees_zero
  | succ n ih => exact ih.succ

theorem compParse_encodes {n : ℕ} {inp : Bytes} {buf : List Piece} {d : ℕ} {bs : Bytes}
    {st' : CompSt} (h : E.compParse n inp ⟨compText buf,d⟩ = .ok (bs,st')) :
    Encodes (E.grammar.readParse n inp buf) bs := by
  induction n generalizing inp buf d bs st' with
  | zero => simpa [Grammar.readParse] using (outFlush_ok h).2 .nil [] rfl
  | succ n ih =>
    simp only [compParse] at h
    simp only [Grammar.readParse]
    by_cases heof : (getC inp).1 = EOF
    · rw [if_pos heof] at h ⊢
      simpa using (outFlush_ok h).2 .nil [] rfl
    rw [if_neg heof] at h ⊢
    by_cases hpct : (getC inp).1 = T_PCT
    · rw [if_pos hpct] at h ⊢
      obtain ⟨f,st₁,hf,h⟩ := bind_ok h
      obtain ⟨rest,st₂,hrest,h⟩ := bind_ok h
      obtain ⟨rfl,rfl⟩ := pure_ok h
      obtain ⟨hinp,hcode,hst₁⟩ := (E.agrees n).func _ _ _ _ _ hf
      rw [state_eq hst₁,hinp] at hrest
      exact hcode.append (ih hrest)
    · have hbuf : compText buf ++ [(getC inp).1] = compText (buf ++ lit [(getC inp).1]) := by
        rw [compText_append,compText_lit]
      rw [if_neg hpct] at h ⊢
      rw [outS_bind,hbuf] at h
      exact ih h

/-- Whatever keys are drawn, the compiler writes an encoding of the tree of its source. -/
theorem compile_encodes {inp bs : Bytes} (h : E.compile inp = .ok bs) :
    Encodes (E.grammar.read inp) bs := by
  unfold compile at h
  cases hc : E.compParse (4*inp.length+4) inp ⟨[],0⟩ with
  | error e =>
    rw [hc] at h
    cases h
  | ok r =>
    rw [hc] at h
    cases h
    exact @compParse_encodes _ _ _ [] _ _ _ hc

end CompEnv
end Smx
