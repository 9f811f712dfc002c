import Smx.Compile.Encode

/-! `Decompile` and `RunCompiled` depend on the tree that the code encodes and not on the
keys it was written with. -/
namespace Smx
open EmitM (emit capture liftExn Follows)

theorem decompile_out (n : ℕ) (rn : Byte) {text : Bytes} (h : text.length < 2^31) (rest : Bytes) :
    decompile (n+1) (baseBytes BC_OUT rn text.length ++ text ++ rest) =
      text ++ decompile n rest := by
  have hne : BC_OUT ≠ BC_FUNC := by decide
  simp only [decompile,List.append_assoc,readBase_baseBytes BC_OUT rn h]
  rw [if_neg (by simp),if_neg hne]
  simp only [if_true,Int.toNat_natCast,List.take_left,List.drop_left]

theorem decompile_func (n : ℕ) (rn : Byte) {name : Bytes} (h : name.length < 2^31) {cnt : ℕ}
    (hcnt : cnt < 2^15) (rest : Bytes) :
    decompile (n+1) (baseBytes BC_FUNC rn name.length ++ mask rn name ++ countBytes cnt ++ rest) =
      T_PCT::name ++ ((if cnt = 0 then [T_PCT] ++ (decompileArgs (decompile n) rn cnt rest).1
        else T_LP::(decompileArgs (decompile n) rn cnt rest).1 ++ [T_RP]) ++
          decompile n (decompileArgs (decompile n) rn cnt rest).2) := by
  have hlen : (mask rn name).length = name.length := length_mask rn name
  simp only [decompile,List.append_assoc,readBase_baseBytes BC_FUNC rn h]
  rw [if_neg (by simp)]
  simp only [if_true,Int.toNat_natCast,List.take_left' hlen,List.drop_left' hlen,mask_mask,
    readCount_countBytes hcnt]
  by_cases hc : cnt = 0
  · simp [hc]
  · have hpos : (0 : ℤ) < cnt := by omega
    rw [if_pos hpos,if_neg hc]

/-- The message of `ThrowF` starts like a record that is longer than any code. -/
theorem readBase_printed (c : Byte) (bs : Bytes) :
    ∃ b rest, readBase ((invalidSyntax c).printed ++ bs) = some (b,rest) ∧
      b.ln = 1684630625 ∧ rest.length = 14+bs.length := by
  refine ⟨_,str " syntax '%" ++ c::(str "'.]" ++ bs),rfl,by decide,?_⟩
  have h1 : (str " syntax '%").length = 10 := by decide
  have h2 : (str "'.]").length = 3 := by decide
  simp only [List.length_append,List.length_cons,h1,h2]
  omega

theorem decompile_junk (n : ℕ) (c : Byte) {bs : Bytes} (h : bs.length < 2^30) :
    decompile n ((invalidSyntax c).printed ++ bs) = [] := by
  cases n with
  | zero => rfl
  | succ n =>
    obtain ⟨b,rest,hread,hln,hlen⟩ := readBase_printed c bs
    simp only [decompile,hread]
    rw [if_pos (.inr (by rw [hlen,hln]; omega))]

theorem outArgs_cons (rn : Byte) (a : Arg) (ary : List Arg) :
    CompEnv.outArgs rn (a::ary) =
      argBytes a.quot a.text.length ++ mask rn a.text ++ CompEnv.outArgs rn ary := rfl

mutual

/-- `Decompile` prints the tree. -/
theorem Encodes.decompile {code : Code} {bs : Bytes} (h : Encodes code bs) (hfit : code.Fits)
    {n : ℕ} (hn : bs.length < n) : decompile n bs = code.print := by
  obtain ⟨n,rfl⟩ : ∃ m, n = m+1 := Nat.exists_eq_succ_of_ne_zero (by omega)
  match code with
  | .nil =>
    obtain rfl : bs = [] := h
    rfl
  | .out text rest =>
    obtain ⟨hne,rn,bs',rfl,hrest⟩ := h
    simp only [List.length_append,length_baseBytes] at hn
    rw [← length_compText,decompile_out n rn (by rw [length_compText]; exact hfit.1),
      hrest.decompile hfit.2 (by omega),Code.print]
  | .func name args rest =>
    obtain ⟨hne,rn,ary,bs',rfl,hargs,hrest⟩ := h
    obtain ⟨hname,hcnt,hfitArgs,hfitRest⟩ := hfit
    have hlen := hargs.length
    simp only [List.length_append,length_baseBytes] at hn
    rw [List.append_assoc _ (CompEnv.outArgs rn ary),decompile_func n rn hname (by omega),hlen,
      hargs.decompile hfitArgs rn bs' (by omega),hrest.decompile hfitRest (by omega),Code.print]
    by_cases hz : args.length = 0
    · rw [if_pos hz,if_pos hz]
      have hnil : args = .nil := by
        cases args with
        | nil => rfl
        | raw => cases hz
        | code => cases hz
      simp [hnil,CodeArgs.print]
    · rw [if_neg hz,if_neg hz]
      simp only [List.append_assoc]
  | .junk c rest =>
    obtain ⟨bs',rfl,hrest⟩ := h
    exact decompile_junk _ c (by rw [hrest.length]; exact hfit)

theorem EncodesArgs.decompile {args : CodeArgs} {ary : List Arg} (h : EncodesArgs args ary)
    (hfit : args.Fits) (rn : Byte) (bs : Bytes) {n : ℕ}
    (hn : (CompEnv.outArgs rn ary).length < n) :
    decompileArgs (decompile n) rn args.length (CompEnv.outArgs rn ary ++ bs) =
      (args.print,bs) := by
  match args with
  | .nil =>
    obtain rfl : ary = [] := h
    rfl
  | .raw quoted text rest =>
    obtain ⟨ary',rfl,hrest⟩ := h
    rw [outArgs_cons] at hn ⊢
    simp only [List.length_append,length_argBytes] at hn
    have ih := hrest.decompile hfit.2 rn bs (n := n) (by omega)
    rw [List.append_assoc,CodeArgs.length,decompileArgs,readArg_argBytes rn _ hfit.1]
    simp only [ih,CodeArgs.print]
    cases quoted <;> by_cases hz : rest.length = 0 <;> simp [hz]
  | .code body rest =>
    obtain ⟨code,ary',rfl,hbody,hrest⟩ := h
    rw [outArgs_cons] at hn ⊢
    simp only [List.length_append,length_argBytes,length_mask] at hn
    have ih := hrest.decompile hfit.2.2 rn bs (n := n) (by omega)
    have ihb := hbody.decompile hfit.2.1 (n := n) (by omega)
    rw [List.append_assoc,CodeArgs.length,decompileArgs,
      readArg_argBytes rn _ (by rw [hbody.length]; exact hfit.1)]
    simp only [ih,ihb,CodeArgs.print]
    by_cases hz : rest.length = 0 <;> simp [hz]

end

namespace Host
variable {σ ο : Type} (H : Host σ ο)

theorem runCompiled_out (n : ℕ) (rn : Byte) {text : Bytes} (h : text.length < 2^31)
    (hne : text ≠ []) (rest : Bytes) :
    H.runCompiled (n+1) (baseBytes BC_OUT rn text.length ++ text ++ rest) =
      emit text >>= fun _ => H.runCompiled n rest := by
  have hbc : BC_OUT ≠ BC_FUNC := by decide
  have hpos : text.length ≠ 0 := fun h0 => hne (List.length_eq_zero_iff.mp h0)
  simp only [runCompiled,List.append_assoc,readBase_baseBytes BC_OUT rn h]
  rw [if_neg (by simp; omega),if_neg hbc]
  simp only [if_true,Int.toNat_natCast,List.take_left,List.drop_left]

theorem runCompiled_func (n : ℕ) (rn : Byte) {name : Bytes} (h : name.length < 2^31)
    (hne : name ≠ []) {cnt : ℕ} (hcnt : cnt < 2^15) (rest : Bytes) :
    H.runCompiled (n+1)
        (baseBytes BC_FUNC rn name.length ++ mask rn name ++ (countBytes cnt ++ rest)) = (do
      let s ← EmitM.get
      match H.find s name with
      | some obj => do
        let a ← H.runArgs (H.runCompiled n) (decompile n) rn cnt (runStart (H.getQmap obj)) rest
        H.eval obj (if cnt ≠ 0 then some a.1 else none)
        H.runCompiled n a.2
      | none =>
        if H.strict s then do
          H.throwEx (notFound name)
          H.runCompiled n (countBytes cnt ++ rest)
        else do
          emit (T_PCT::name)
          emit (if cnt ≠ 0 then str "(...)" else [T_PCT])
          H.runCompiled n (skipArgs rn cnt rest)) := by
  have hlen : (mask rn name).length = name.length := length_mask rn name
  have hpos : name.length ≠ 0 := fun h0 => hne (List.length_eq_zero_iff.mp h0)
  have hcount : ((0 : ℤ) < cnt) = (cnt ≠ 0) := by simp [Nat.pos_iff_ne_zero]
  have hzero : ((cnt : ℤ) ≠ 0) = (cnt ≠ 0) := by simp
  simp only [runCompiled,List.append_assoc,readBase_baseBytes BC_FUNC rn h]
  have hrec : ¬ ((name.length : ℤ) ≤ 0 ∨
      (mask rn name ++ (countBytes cnt ++ rest)).length < (name.length : ℤ).toNat) := by
    rw [List.length_append,hlen,Int.toNat_natCast]
    omega
  rw [if_neg hrec]
  simp only [if_true,Int.toNat_natCast,List.take_left' hlen,List.drop_left' hlen,mask_mask,
    readCount_countBytes hcnt,Option.getD_some,hcount,hzero]
  -- the matches on what is found may be compiled apart
  all_goals rfl

theorem runCompiled_junk (n : ℕ) (c : Byte) {bs : Bytes} (h : bs.length < 2^30) :
    H.runCompiled n ((invalidSyntax c).printed ++ bs) = pure () := by
  cases n with
  | zero => rfl
  | succ n =>
    obtain ⟨b,rest,hread,hln,hlen⟩ := readBase_printed c bs
    simp only [runCompiled,hread]
    rw [if_pos (.inr (by rw [hlen,hln]; omega))]

end Host

theorem EncodesArgs.skipArgs {args : CodeArgs} {ary : List Arg} (h : EncodesArgs args ary)
    (hfit : args.Fits) (rn : Byte) (bs : Bytes) :
    Host.skipArgs rn args.length (CompEnv.outArgs rn ary ++ bs) = bs := by
  match args with
  | .nil =>
    obtain rfl : ary = [] := h
    rfl
  | .raw quoted text rest =>
    obtain ⟨ary',rfl,hrest⟩ := h
    rw [outArgs_cons,List.append_assoc,CodeArgs.length,Host.skipArgs,
      readArg_argBytes rn _ hfit.1]
    exact hrest.skipArgs hfit.2 rn bs
  | .code body rest =>
    obtain ⟨code,ary',rfl,hbody,hrest⟩ := h
    rw [outArgs_cons,List.append_assoc,CodeArgs.length,Host.skipArgs,
      readArg_argBytes rn _ (by rw [hbody.length]; exact hfit.1)]
    exact hrest.skipArgs hfit.2.2 rn bs

section
variable {σ ο : Type} (H : Host σ ο)

mutual

/-- `RunCompiled` does what the tree says, as long as it does not lose its place. -/
theorem Encodes.follows {code : Code} {bs : Bytes} (h : Encodes code bs) (hfit : code.Fits)
    {n : ℕ} (hn : bs.length < n) : Follows (H.runCompiled n bs) (H.runCode code) := by
  obtain ⟨n,rfl⟩ : ∃ m, n = m+1 := Nat.exists_eq_succ_of_ne_zero (by omega)
  match code with
  | .nil =>
    obtain rfl : bs = [] := h
    exact .pure ()
  | .out text rest =>
    obtain ⟨hne,rn,bs',rfl,hrest⟩ := h
    simp only [List.length_append,length_baseBytes] at hn
    rw [← length_compText,H.runCompiled_out n rn (by rw [length_compText]; exact hfit.1)
      (by simpa using hne),Host.runCode]
    exact .bind (.emit _) fun _ => hrest.follows hfit.2 (by omega)
  | .func name args rest =>
    obtain ⟨hne,rn,ary,bs',rfl,hargs,hrest⟩ := h
    obtain ⟨hname,hcnt,hfitArgs,hfitRest⟩ := hfit
    have hlen := hargs.length
    simp only [List.length_append,length_baseBytes] at hn
    rw [List.append_assoc _ (CompEnv.outArgs rn ary),List.append_assoc _ (countBytes _),
      H.runCompiled_func n rn hname hne (by omega),hlen,Host.runCode]
    refine .bind .get fun s => ?_
    cases H.find s name with
    | some obj =>
      exact .bind_map (hargs.follows hfitArgs rn bs' (runStart (H.getQmap obj)) (by omega))
        fun ary => .bind (.lift _) fun _ => hrest.follows hfitRest (by omega)
    | none =>
      by_cases hs : H.strict s = true
      · simp only [if_pos hs]
        exact .bind (.lift _) fun _ => .throw_none _
      · simp only [if_neg hs]
        rw [hargs.skipArgs hfitArgs rn bs']
        exact .bind (.emit _) fun _ => .bind (.emit _) fun _ => hrest.follows hfitRest (by omega)
  | .junk c rest =>
    obtain ⟨bs',rfl,hrest⟩ := h
    rw [H.runCompiled_junk _ c (by rw [hrest.length]; exact hfit)]
    exact .pure ()

theorem EncodesArgs.follows {args : CodeArgs} {ary : List Arg} (h : EncodesArgs args ary)
    (hfit : args.Fits) (rn : Byte) (bs : Bytes) (q : Byte × Option Bytes) {n : ℕ}
    (hn : (CompEnv.outArgs rn ary).length < n) :
    Follows (H.runArgs (H.runCompiled n) (decompile n) rn args.length q
      (CompEnv.outArgs rn ary ++ bs)) (H.runCodeArgs q args >>= fun ary => pure (ary,bs)) := by
  match args with
  | .nil =>
    obtain rfl : ary = [] := h
    exact .pure _
  | .raw quoted text rest =>
    obtain ⟨ary',rfl,hrest⟩ := h
    rw [outArgs_cons] at hn ⊢
    simp only [List.length_append,length_argBytes] at hn
    have ih := hrest.follows hfit.2 rn bs (runNext q.1 q.2) (n := n) (by omega)
    rw [List.append_assoc,CodeArgs.length,Host.runArgs,readArg_argBytes rn _ hfit.1,
      Host.runCodeArgs]
    simp only [bind_assoc,pure_bind]
    refine .bind ?_ fun arg => .bind_map ih fun ary => .pure _
    rw [Host.runArg]
    cases quoted with
    | true => simpa using Follows.pure _
    | false =>
      by_cases hq : q.1 = ch '0'
      · simpa [hq] using Follows.bind (.capture (.lift (H.parse text))) fun r => .pure _
      · simpa [hq] using Follows.pure _
  | .code body rest =>
    obtain ⟨code,ary',rfl,hbody,hrest⟩ := h
    rw [outArgs_cons] at hn ⊢
    simp only [List.length_append,length_argBytes,length_mask] at hn
    have ih := hrest.follows hfit.2.2 rn bs (runNext q.1 q.2) (n := n) (by omega)
    have ihb := hbody.follows hfit.2.1 (n := n) (by omega)
    have hdec := hbody.decompile hfit.2.1 (n := n) (by omega)
    rw [List.append_assoc,CodeArgs.length,Host.runArgs,
      readArg_argBytes rn _ (by rw [hbody.length]; exact hfit.1),Host.runCodeArgs]
    simp only [bind_assoc,pure_bind]
    refine .bind ?_ fun arg => .bind_map ih fun ary => .pure _
    rw [Host.runArg]
    by_cases hq : q.1 = ch '0'
    · simpa [hq] using Follows.bind (.capture ihb) fun r => .pure _
    · by_cases h2 : q.1 = ch '2'
      · have h20 : ch '2' ≠ ch '0' := by decide
        simpa [h2,h20] using Follows.throw_none _
      · simpa [hq,h2,hdec] using Follows.pure _

end

end

/-- One macro evaluation: the name it was looked up under and its arguments, if it had any. -/
structure Call where
  name : Bytes
  args : Option (List Arg)
  deriving DecidableEq, Repr

namespace Host
variable {σ ο : Type}

/-- The same context, keeping a list of the evaluations. -/
def logged (H : Host σ ο) : Host (σ × List Call) (Bytes × ο) where
  find s name := (H.find s.1 name).map fun obj => (name,obj)
  getQmap obj := H.getQmap obj.2
  eval obj args := fun s =>
    let r := (H.eval obj.2 args).run s.1
    ⟨r.result,(r.state,s.2 ++ [⟨obj.1,args⟩]),r.out⟩
  inTry s := H.inTry s.1
  strict s := H.strict s.1
  tooDeep s := H.tooDeep s.1

/-- What a compiler in this context looks up. -/
def compEnv (H : Host σ ο) (s : σ) (rand : Option (ℕ → Byte)) : CompEnv :=
  ⟨fun name => (H.find s name).bind H.getQmap,H.strict s,H.inTry s,rand⟩

/-- `RunCompiled` with fuel for all records. -/
def runBytes (H : Host σ ο) (bs : Bytes) : SmxM σ Unit := H.runCompiled (bs.length+1) bs

end Host

/-- Code that was compiled in one context runs in another with the same result, output and
evaluations whatever keys were drawn, as long as its tree fits the format and the runner does
not lose its place. -/
theorem randomised_transparent {σ ο σ' ο' : Type} (C : Host σ ο) (s₀ : σ) (R : Host σ' ο') (s : σ')
    (inp : Bytes) (keys : ℕ → Byte) {plain random : Bytes}
    (hplain : (C.compEnv s₀ none).compile inp = .ok plain)
    (hrandom : (C.compEnv s₀ (some keys)).compile inp = .ok random)
    (hfit : ((C.compEnv s₀ none).grammar.read inp).Fits)
    (hplace : ((R.logged.runCode ((C.compEnv s₀ none).grammar.read inp)).run (s,[])).result ≠
      .error none) :
    (R.logged.runBytes random).run (s,[]) = (R.logged.runBytes plain).run (s,[]) := by
  have hp := (CompEnv.compile_encodes hplain).follows R.logged hfit (Nat.lt_succ_self _)
  have hr := (CompEnv.compile_encodes hrandom).follows R.logged hfit (Nat.lt_succ_self _)
  exact hr.run_eq hp hplace

/-- A call in the argument of a call, with the keys 0 and 90 in turn. -/
theorem randomised_transparent_nested :
    ∃ plain random,
      ((echoHost fun _ => none).compEnv () none).compile (str "%f(%g(b))") = .ok plain ∧
      ((echoHost fun _ => none).compEnv () (some fun n => UInt8.ofNat (90*(n % 2)))).compile
        (str "%f(%g(b))") = .ok random ∧
      ((echoHost fun _ => none).logged.runBytes random).run ((),[]) =
        ((echoHost fun _ => none).logged.runBytes plain).run ((),[]) := by
  have hfit : (((echoHost fun _ => none).compEnv () none).grammar.read (str "%f(%g(b))")).Fits := by
    change Code.Fits (.func (str "f") (.code (.func (str "g")
      (.code (.out (lit (str "b")) .nil) .nil) .nil) .nil) .nil)
    simp only [Code.Fits,CodeArgs.Fits]
    decide
  obtain ⟨plain,hplain⟩ : ∃ bs,
      ((echoHost fun _ => none).compEnv () none).compile (str "%f(%g(b))") = .ok bs := ⟨_,rfl⟩
  obtain ⟨random,hrandom⟩ : ∃ bs, ((echoHost fun _ => none).compEnv ()
      (some fun n => UInt8.ofNat (90*(n % 2)))).compile (str "%f(%g(b))") = .ok bs := ⟨_,rfl⟩
  exact ⟨plain,random,hplain,hrandom,
    randomised_transparent _ () _ () _ _ hplain hrandom hfit (by rintro ⟨⟩)⟩

/-- The byte of the long argument, which is its key too. -/
def fill : Byte := ch 'X'

/-- `%f('XX…)` with `n+1` bytes in its argument. -/
def longCall (n : ℕ) : Bytes := T_PCT::ch 'f'::T_LP::T_SQ::fill::(List.replicate n fill ++ [T_RP])

theorem quotedLoop_fill (n : ℕ) (cur : Bytes) :
    quotedLoop true cur fill (List.replicate n fill ++ [T_RP]) =
      (rtrim (cur ++ List.replicate (n+1) fill),false,[]) := by
  have hstep : ∀ cur inp, quotedStep cur fill inp = (none,cur ++ [fill],inp) := fun cur inp => by
    simp [quotedStep,fill,T_ESC,T_COMMA,T_LP,T_RP,ch]
  have hrp : ∀ cur, quotedStep cur T_RP [] = (some false,cur,[]) := fun cur => by
    simp [quotedStep,T_ESC,T_COMMA,T_LP,T_RP,ch]
  induction n generalizing cur with
  | zero =>
    rw [List.replicate_zero,List.nil_append,quotedLoop_of_more (hstep cur [T_RP]) (by decide),
      quotedLoop_of_end (hrp _)]
    rfl
  | succ n ih =>
    rw [List.replicate_succ,List.cons_append,quotedLoop_of_more (hstep cur _) (by decide),ih]
    simp [List.replicate_succ]

theorem parseArgQuoted_fill (n : ℕ) :
    parseArgQuoted fill (List.replicate n fill ++ [T_RP]) =
      (List.replicate (n+1) fill,false,[]) := by
  have hquote : ¬ (fill = T_DQ ∨ fill = T_LC) := by decide
  rw [parseArgQuoted,if_neg hquote,quotedLoop_fill,List.nil_append,rtrim,List.replicate_succ',
    List.rdropWhile_concat_neg _ _ _ (by decide)]

theorem compile_longCall (E : CompEnv) (hmap : ∀ name, E.qmapOf name = none) {rn : Byte} {d : ℕ}
    (hkey : E.drawKey ⟨[],0⟩ = .ok (rn,⟨[],d⟩)) (n : ℕ) :
    E.compile (longCall n) = .ok (baseBytes BC_FUNC rn 1 ++ mask rn [ch 'f'] ++ countBytes 1 ++
      CompEnv.outArgs rn [⟨List.replicate (n+1) fill,.qstr⟩]) := by
  obtain ⟨m,hm⟩ : ∃ m, 4*(longCall n).length+4 = m+3+1 := ⟨_,rfl⟩
  have hsym : isqsymf (ch 'f') = true := by decide
  have hscan (inp : Bytes) : scanName [ch 'f'] (T_LP::inp) = ([ch 'f'],T_LP,inp) := by
    rw [scanName,if_neg (by decide)]
  have hhead (inp : Bytes) : argHead (T_SQ::fill::inp) = (true,fill,inp) := by
    rw [argHead,skipSpace_of_not_isspace (by decide)]
    rfl
  have hargs : E.compArgs (m+1) false [] (T_SQ::fill::(List.replicate n fill ++ [T_RP])) ⟨[],0⟩ =
      .ok (([⟨List.replicate (n+1) fill,.qstr⟩],[]),⟨[],0⟩) := by
    simp only [CompEnv.compArgs,hhead,parseArgQuoted_fill,Bool.false_or,if_true,pure_bind]
    rfl
  have hfunc : E.compFunc (m+3) (ch 'f'::T_LP::T_SQ::fill::(List.replicate n fill ++ [T_RP]))
      ⟨[],0⟩ = .ok ((baseBytes BC_FUNC rn 1 ++ mask rn [ch 'f'] ++ countBytes 1 ++
        CompEnv.outArgs rn [⟨List.replicate (n+1) fill,.qstr⟩],[]),⟨[],d⟩) := by
    simp only [CompEnv.compFunc,CompEnv.compName,getC_cons,hsym,if_true,hscan,hmap,argsStart]
    rw [CompEnv.bind_of_ok (show CompEnv.outFlush ⟨[],0⟩ = .ok ([],⟨[],0⟩) from rfl),CompEnv.bind_of_ok hargs,
      CompEnv.outFunc,bind_assoc,CompEnv.bind_of_ok hkey]
    rfl
  have hpct : T_PCT ≠ EOF := by decide
  rw [CompEnv.compile,hm,longCall,CompEnv.compParse,getC_cons]
  rw [if_neg hpct,if_pos rfl,CompEnv.bind_of_ok hfunc]
  simp only [CompEnv.compParse,getC_nil,if_true]
  rw [CompEnv.bind_of_ok (show CompEnv.outFlush ⟨[],d⟩ = .ok ([],⟨[],d⟩) from rfl),List.append_nil]
  rfl

/-- A name of one byte is reported, and what follows is read as the next record. -/
theorem runCompiled_undefined (n : ℕ) {rn name : Byte} {inp rest : Bytes}
    (h : readBase inp = some (⟨BC_FUNC,rn,1⟩,name::rest)) :
    (emptyHost true).logged.runCompiled (n+1) inp =
      emit (notFound (mask rn [name])).printed >>= fun _ =>
        (emptyHost true).logged.runCompiled n rest := by
  simp only [Host.runCompiled,h]
  rw [if_neg (by simp),if_pos trivial]
  rfl

theorem readBase_longArg (rn : Byte) {code : Bytes} (h : code.length = 16384) :
    readBase (countBytes 1 ++ CompEnv.outArgs rn [⟨code,.qstr⟩]) =
      readBase ([1,0,1,0,1,0] ++ mask rn code) := by
  have hcount : countBytes 1 = [1,0] := by decide
  have harg : argBytes .qstr 16384 = [1,0,1,0] := by decide
  rw [outArgs_cons,h,hcount,harg,show CompEnv.outArgs rn [] = [] from rfl,List.append_nil]
  rfl

theorem mask_fill (n : ℕ) : mask fill (List.replicate n fill) = List.replicate n 0 := by
  rw [mask,if_neg (by decide),List.map_replicate]
  rfl

theorem plain_longCall (n : ℕ) : (emptyHost true).logged.runCompiled n
    (countBytes 1 ++ CompEnv.outArgs 0 [⟨List.replicate 16384 fill,.qstr⟩]) = pure () := by
  cases n with
  | zero => rfl
  | succ n =>
    have hread := readBase_longArg 0 (List.length_replicate (n := 16384) (a := fill))
    have hsplit : readBase ([1,0,1,0,1,0] ++ mask 0 (List.replicate 16384 fill)) =
        some (⟨1,0,1482162177⟩,List.replicate 16382 fill) := rfl
    simp only [Host.runCompiled,hread,hsplit]
    rw [if_pos (.inr (by rw [List.length_replicate]; decide))]

theorem random_longCall (n : ℕ) : (emptyHost true).logged.runCompiled (n+2)
    (countBytes 1 ++ CompEnv.outArgs fill [⟨List.replicate 16384 fill,.qstr⟩]) =
      emit (notFound [0]).printed := by
  have hread := readBase_longArg fill (List.length_replicate (n := 16384) (a := fill))
  have hsplit : readBase ([1,0,1,0,1,0] ++ List.replicate 16384 0) =
      some (⟨1,0,1⟩,0::List.replicate 16381 0) := rfl
  rw [mask_fill,hsplit] at hread
  have hzero : (emptyHost true).logged.runCompiled (n+1) (List.replicate 16381 0) = pure () := by
    have hsplit : readBase (List.replicate 16381 0) =
      some (⟨0,0,0⟩,List.replicate 16373 0) := rfl
    simp only [Host.runCompiled,hsplit]
    rw [if_pos (.inl (by decide))]
  rw [runCompiled_undefined _ hread,hzero]
  exact bind_pure (emit (notFound [0]).printed)

/-- The arguments of an undefined name are not masked alike, and a strict context reads them as
a record. -/
theorem randomised_visible :
    ¬ ∀ (inp : Bytes) (keys : ℕ → Byte) (plain random : Bytes),
      ((emptyHost true).compEnv () none).compile inp = .ok plain →
      ((emptyHost true).compEnv () (some keys)).compile inp = .ok random →
      ((emptyHost true).logged.runBytes random).run ((),[]) =
        ((emptyHost true).logged.runBytes plain).run ((),[]) := by
  intro h
  have hplain : ((emptyHost true).compEnv () none).compile (longCall 16383) =
      .ok (baseBytes BC_FUNC 0 1 ++ mask 0 [ch 'f'] ++ countBytes 1 ++
        CompEnv.outArgs 0 [⟨List.replicate 16384 fill,.qstr⟩]) :=
    compile_longCall ((emptyHost true).compEnv () none) (fun _ => rfl) rfl 16383
  have hrandom : ((emptyHost true).compEnv () (some fun _ => fill)).compile (longCall 16383) =
      .ok (baseBytes BC_FUNC fill 1 ++ mask fill [ch 'f'] ++ countBytes 1 ++
        CompEnv.outArgs fill [⟨List.replicate 16384 fill,.qstr⟩]) :=
    compile_longCall ((emptyHost true).compEnv () (some fun _ => fill)) (fun _ => rfl) (d := 1) rfl 16383
  have hrun := h _ _ _ _ hplain hrandom
  have hlen (rn : Byte) : (baseBytes BC_FUNC rn 1 ++ mask rn [ch 'f'] ++ countBytes 1 ++
      CompEnv.outArgs rn [⟨List.replicate 16384 fill,.qstr⟩]).length = 16398+1 := by
    simp only [List.length_append,length_baseBytes,length_mask,length_countBytes,outArgs_cons,
      length_argBytes,List.length_replicate]
    rfl
  have hread (rn : Byte) : readBase (baseBytes BC_FUNC rn 1 ++ mask rn [ch 'f'] ++ countBytes 1 ++
      CompEnv.outArgs rn [⟨List.replicate 16384 fill,.qstr⟩]) =
        some (⟨BC_FUNC,rn,1⟩,(mask rn [ch 'f']).headD 0::(countBytes 1 ++
          CompEnv.outArgs rn [⟨List.replicate 16384 fill,.qstr⟩])) := by
    have hname : mask rn [ch 'f'] = [(mask rn [ch 'f']).headD 0] := by
      unfold mask
      split_ifs <;> rfl
    rw [List.append_assoc,List.append_assoc,readBase_baseBytes BC_FUNC rn (by decide)]
    nth_rewrite 1 [hname]
    rfl
  rw [Host.runBytes,Host.runBytes,hlen,hlen,runCompiled_undefined _ (hread _),
    runCompiled_undefined _ (hread _),plain_longCall,random_longCall] at hrun
  have hout := congrArg Outcome.out hrun
  revert hout
  decide

end Smx
