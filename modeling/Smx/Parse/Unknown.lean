import Smx.Parse.Direct

/-! Calls of undefined macros: what `ParseFunc` takes from the input, and what it puts out for it. -/
namespace Smx

/-- The text of a call behind its parenthesis, up to the one that closes it, and the rest. A parenthesis
behind a backslash is not counted. -/
def callText : Bool → ℕ → Bytes → Bytes × Bytes
  | _,_,[] => ([],[])
  | escaped,depth,c::inp =>
    if escaped = false ∧ c = T_RP ∧ depth = 0 then ([c],inp)
    else
      let depth' :=
        if escaped then depth
        else if c = T_LP then depth+1
        else if c = T_RP then depth-1
        else depth
      let r := callText (!escaped && c == T_ESC) depth' inp
      (c::r.1,r.2)

/-- Behind which characters the next one stands: an opening parenthesis and blanks, a backslash, or others. -/
def nextMode (mode : LParMode) (c : Byte) : LParMode :=
  if mode = .escaped then .text
  else if c = T_ESC then .escaped
  else if c = T_LP then .blank
  else if mode = .blank ∧ isspace c then .blank
  else .text

/-- The first text without some of the blanks behind its opening parentheses. -/
inductive Unblanked : LParMode → Bytes → Bytes → Prop
  | nil (mode : LParMode) : Unblanked mode [] []
  | drop {c : Byte} {w out : Bytes} : isspace c → Unblanked .blank w out → Unblanked .blank (c::w) out
  | copy {mode : LParMode} {c : Byte} {w out : Bytes} :
      Unblanked (nextMode mode c) w out → Unblanked mode (c::w) (c::out)

/-- A context that is not strict puts out `%name(` of an undefined name and what it takes from the input, up
to the parenthesis that closes the call. -/
def PassesOn (inp : Bytes) : Prop :=
  ∀ (σ ο : Type) (H : Host σ ο) (s : σ) (name : Bytes) (n : ℕ),
    H.strict s = false → H.find s name = none → IsName name →
    ∃ out, Unblanked .blank (callText false 0 inp).1 out ∧
      (H.parseFunc (n+2) (name ++ T_LP::inp)).run s =
        ⟨.ok (callText false 0 inp).2,s,T_PCT::name ++ [T_LP] ++ out⟩

section
variable {mode : LParMode} {w out inp : Bytes}

theorem callText_append (escaped : Bool) (depth : ℕ) (inp : Bytes) :
    (callText escaped depth inp).1 ++ (callText escaped depth inp).2 = inp := by
  induction inp generalizing escaped depth with
  | nil => rfl
  | cons c inp ih =>
    rw [callText]
    by_cases hend : escaped = false ∧ c = T_RP ∧ depth = 0
    · rw [if_pos hend]
      rfl
    · rw [if_neg hend]
      exact congrArg (c::·) (ih _ _)

theorem callText_end {depth : ℕ} (c : Byte) (h : c = T_RP) (hdepth : depth = 0) :
    callText false depth (c::inp) = ([c],inp) := by
  rw [callText,if_pos ⟨rfl,h,hdepth⟩]

/-- A character that does not close the call is taken. -/
theorem callText_unescaped {c : Byte} {depth : ℕ} (h : ¬(c = T_RP ∧ depth = 0)) :
    callText false depth (c::inp) =
      let r := callText (c == T_ESC)
        (if c = T_LP then depth+1 else if c = T_RP then depth-1 else depth) inp
      (c::r.1,r.2) := by
  rw [callText,if_neg fun hend => h hend.2]
  rfl

theorem Unblanked.subset (h : Unblanked mode w out) : ∀ c ∈ out, c ∈ w := by
  induction h with
  | nil => exact fun _ h => h
  | drop _ _ ih => exact fun c hc => List.mem_cons_of_mem _ (ih c hc)
  | copy _ ih =>
    intro c hc
    obtain rfl | hc := List.mem_cons.mp hc
    · exact List.mem_cons_self
    · exact List.mem_cons_of_mem _ (ih c hc)

/-- The end of input is put out as a character where it stands behind a backslash or an opening parenthesis. -/
def endMark (mode : LParMode) : Bytes := if mode = .text then [] else [EOF]

/-- What the loop has put out `r` for the text `t`, both from the same place on. -/
def CopiesCall (mode : LParMode) (t : Bytes × Bytes) (r : Bytes × Byte × Bytes) : Prop :=
  ∃ out, r.1 = out ++ endMark (t.1.foldl nextMode mode) ∧ r.2.2 = t.2 ∧ Unblanked mode t.1 out

theorem CopiesCall.cons {mode' : LParMode} {c : Byte} {t : Bytes × Bytes} {r : Bytes × Byte × Bytes}
    (hnext : nextMode mode c = mode') (h : CopiesCall mode' t r) : CopiesCall mode (c::t.1,t.2) (c::r.1,r.2) := by
  obtain ⟨out,hout,hrest,htext⟩ := h
  obtain rfl := hnext
  exact ⟨c::out,congrArg (c::·) hout,hrest,.copy htext⟩

theorem ne_of_isspace {c : Byte} (h : isspace c) : c ≠ T_ESC ∧ c ≠ T_LP ∧ c ≠ T_RP := by
  refine ⟨?_,?_,?_⟩ <;>
  · intro heq
    rw [heq] at h
    exact absurd h (by decide)

theorem nextMode_text {c : Byte} (hmode : mode ≠ .escaped) (hspace : ¬(mode = .blank ∧ isspace c))
    (hesc : c ≠ T_ESC) (hlp : c ≠ T_LP) : nextMode mode c = .text := by
  rw [nextMode,if_neg hmode,if_neg hesc,if_neg hlp,if_neg hspace]

theorem parseArgsLPar_follows (mode : LParMode) (depth : ℕ) (h : EOF ∉ inp) :
    CopiesCall mode (callText (mode == .escaped) depth inp) (parseArgsLPar true mode depth inp) := by
  induction inp generalizing mode depth with
  | nil => cases mode <;> exact ⟨[],rfl,rfl,.nil _⟩
  | cons c inp ih =>
    rw [List.mem_cons,not_or] at h
    have hne : c ≠ EOF := Ne.symm h.1
    have hstep (mode' : LParMode) (depth' : ℕ) := ih mode' depth' h.2
    by_cases hmode : mode = .escaped
    · rw [hmode]
      exact CopiesCall.cons (if_pos rfl) (hstep .text depth)
    have hbody : parseArgsLPar true mode depth (c::inp) =
        if mode = .blank ∧ isspace c then parseArgsLPar true .blank depth inp
        else if c = T_ESC then
          (c::(parseArgsLPar true .escaped depth inp).1,(parseArgsLPar true .escaped depth inp).2)
        else if c = T_LP then
          (c::(parseArgsLPar true .blank (depth+1) inp).1,(parseArgsLPar true .blank (depth+1) inp).2)
        else if c = T_RP then
          if depth = 0 then ([c],c,inp)
          else (c::(parseArgsLPar true .text (depth-1) inp).1,(parseArgsLPar true .text (depth-1) inp).2)
        else (c::(parseArgsLPar true .text depth inp).1,(parseArgsLPar true .text depth inp).2) := by
      cases mode with
      | escaped => exact absurd rfl hmode
      | blank => simp [parseArgsLPar]
      | text => simp [parseArgsLPar,hne]
    have hfalse : (mode == .escaped) = false := by cases mode <;> first | rfl | exact absurd rfl hmode
    rw [hbody,hfalse]
    split_ifs with hspace hesc hlp hrp hdepth
    · -- a blank behind an opening parenthesis
      obtain ⟨rfl,hspace⟩ := hspace
      obtain ⟨hesc,hlp,hrp⟩ := ne_of_isspace hspace
      rw [callText_unescaped fun hend => hrp hend.1]
      have hnext : nextMode .blank c = .blank := by simp [nextMode,hesc,hlp,hspace]
      obtain ⟨out,hout,hrest,htext⟩ := hstep .blank depth
      simp only [beq_eq_false_iff_ne.mpr hesc,if_neg hlp,if_neg hrp]
      refine ⟨out,?_,hrest,.drop hspace htext⟩
      rw [List.foldl_cons,hnext]
      exact hout
    · have hrp : T_ESC ≠ T_RP := by decide
      rw [hesc,callText_unescaped fun hend => hrp hend.1]
      refine CopiesCall.cons ?_ (hstep .escaped depth)
      rw [nextMode,if_neg hmode,if_pos rfl]
    · have hrp : T_LP ≠ T_RP := by decide
      rw [hlp,callText_unescaped fun hend => hrp hend.1]
      refine CopiesCall.cons ?_ (hstep .blank (depth+1))
      rw [nextMode,if_neg hmode]
      rfl
    · rw [callText_end c hrp hdepth]
      refine ⟨[c],?_,rfl,.copy (.nil _)⟩
      rw [List.foldl_cons,nextMode_text hmode hspace hesc hlp]
      rfl
    · rw [callText_unescaped fun hend => hdepth hend.2]
      simp only [beq_eq_false_iff_ne.mpr hesc,if_neg hlp,if_pos hrp]
      exact CopiesCall.cons (nextMode_text hmode hspace hesc hlp) (hstep .text (depth-1))
    · rw [callText_unescaped fun hend => hrp hend.1]
      simp only [beq_eq_false_iff_ne.mpr hesc,if_neg hlp,if_neg hrp]
      exact CopiesCall.cons (nextMode_text hmode hspace hesc hlp) (hstep .text depth)

theorem parseFunc_unknown {σ ο : Type} (H : Host σ ο) {s : σ} {name : Bytes} (n : ℕ) (inp : Bytes)
    (hstrict : H.strict s = false) (hfind : H.find s name = none) (hname : IsName name) :
    (H.parseFunc (n+2) (name ++ T_LP::inp)).run s =
      ⟨.ok (parseArgsLPar true .blank 0 inp).2.2,s,
        T_PCT::name ++ [T_LP] ++ (parseArgsLPar true .blank 0 inp).1⟩ := by
  obtain ⟨c,t,rfl,hc,ht⟩ := hname
  have hscan : scanName [c] (t ++ T_LP::inp) = (c::t,T_LP,inp) := by
    have hlp : isqsym T_LP = false := by decide
    rw [scanName_all ht,scanName,hlp]
    rfl
  rw [List.cons_append,Host.parseFunc]
  simp only [getC_cons,hc,if_true]
  rw [Host.parseName,hscan]
  simp only [if_true]
  rw [EmitM.run_bind_ok (EmitM.run_get s)]
  simp only [hfind,hstrict,Bool.false_eq_true,if_false,List.nil_append]
  rw [Host.copyCall,EmitM.run_bind_ok (EmitM.run_emit _ s),EmitM.run_bind_ok (EmitM.run_emit _ s)]
  simp only [EmitM.run_pure,List.append_nil]

/-- The call of an undefined macro is passed on unless the input ends behind a backslash or behind an opening
parenthesis and blanks, where a character is put out that was not there. -/
theorem passesOn_iff (h : EOF ∉ inp) :
    PassesOn inp ↔ (callText false 0 inp).1.foldl nextMode .blank = .text := by
  have hf : CopiesCall .blank (callText false 0 inp) (parseArgsLPar true .blank 0 inp) :=
    parseArgsLPar_follows .blank 0 h
  obtain ⟨out,hout,hrest,htext⟩ := hf
  have hsub : ∀ c ∈ (callText false 0 inp).1, c ∈ inp := by
    intro c hc
    rw [← callText_append false 0 inp]
    exact List.mem_append_left _ hc
  constructor
  · intro hp
    have hname : IsName [ch 'a'] := ⟨ch 'a',[],rfl,rfl,nofun⟩
    obtain ⟨out',htext',hrun⟩ := hp Unit Empty (emptyHost false) () [ch 'a'] 0 rfl rfl hname
    rw [parseFunc_unknown (emptyHost false) 0 inp rfl rfl hname] at hrun
    have heq := List.append_cancel_left (congrArg Outcome.out hrun)
    by_contra hmode
    have hend : EOF ∈ out' := by
      rw [← heq,hout,endMark]
      refine List.mem_append_right _ ?_
      rw [if_neg hmode]
      exact List.mem_singleton_self _
    exact h (hsub _ (htext'.subset _ hend))
  · intro hmode σ ο H s name n hstrict hfind hname
    refine ⟨out,htext,?_⟩
    rw [parseFunc_unknown H n inp hstrict hfind hname,hrest,hout,endMark]
    rw [if_pos hmode,List.append_nil]

/-- `%f( g( a) \)) b`: the call goes to the third closing parenthesis. -/
theorem passesOn_nested : PassesOn (str " g( a) \\)) b") := (passesOn_iff (by decide)).mpr (by decide)

/-- Behind `%a(` at the end of a page a byte 255 is put out. -/
theorem unclosed_call : ¬PassesOn [] ∧
    ((emptyHost false).parseFunc 2 (str "a(")).run () = ⟨.ok [],(),str "%a(" ++ [0xFF]⟩ := by
  have hname : IsName [ch 'a'] := ⟨ch 'a',[],rfl,rfl,nofun⟩
  have hrun := parseFunc_unknown (emptyHost false) (s := ()) 0 [] rfl rfl hname
  constructor
  · intro hp
    obtain ⟨out,htext,hout⟩ := hp Unit Empty (emptyHost false) () [ch 'a'] 0 rfl rfl hname
    rw [hrun] at hout
    have heq := List.append_cancel_left (congrArg Outcome.out hout)
    cases htext
    cases heq
  · exact hrun

end
end Smx
