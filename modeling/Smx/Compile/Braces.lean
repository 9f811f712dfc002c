import Smx.Compile.Agree
import Smx.Core.Quote

/-! Arguments between braces, read by the parser and by the compiler. Braces inside are counted, and
the opening ones are not copied. -/
namespace Smx
open EmitM (emit)

/-- The braces that are open after a text, when as many were open before it. -/
def braceDepth : ℕ → Bytes → Option ℕ
  | d,[] => some d
  | d,c::w =>
    if c = T_LC then braceDepth (d+1) w
    else if c = T_RC then if d = 0 then none else braceDepth (d-1) w
    else braceDepth d w

/-- A text that may stand between braces: they are balanced in it, and nothing is escaped, called or
taken for the end. -/
structure Balanced (w : Bytes) : Prop where
  braces : braceDepth 0 w = some 0
  eof : EOF ∉ w
  esc : T_ESC ∉ w
  pct : T_PCT ∉ w

/-- Between braces, with `d` more of them open. -/
def inBraces (d : ℕ) : ArgSt := { quoted := T_LC, qcnt := d+1 }

/-- What is copied of a text between braces. -/
def copied (w : Bytes) : Bytes := w.filter (· != T_LC)

theorem argAct_lc (d : ℕ) : argAct (inBraces d) T_LC = .skip (inBraces (d+1)) := by
  have h0 : T_LC ≠ 0 := by decide
  simp [argAct,inBraces,h0]

theorem argAct_rc (d : ℕ) : argAct (inBraces (d+1)) T_RC = .put (inBraces d) := by
  have h0 : T_LC ≠ 0 := by decide
  have hlc : T_RC ≠ T_LC := by decide
  have hdq : T_RC ≠ T_DQ := by decide
  simp [argAct,inBraces,h0,hlc,hdq]

theorem argAct_close : argAct (inBraces 0) T_RC = .skip {} := by decide

theorem argAct_inBraces {c : Byte} (d : ℕ) (hlc : c ≠ T_LC) (hrc : c ≠ T_RC) :
    argAct (inBraces d) c = .put (inBraces d) := by
  have h0 : T_LC ≠ 0 := by decide
  have hdq : T_LC ≠ T_DQ := by decide
  simp [argAct,inBraces,h0,hlc,hrc,hdq]

/-- A comma or a parenthesis ends the argument. -/
theorem argAct_sep {sep : Byte} (h : sep = T_COMMA ∨ sep = T_RP) : sep ≠ EOF ∧ sep ≠ T_ESC ∧
    sep ≠ T_PCT ∧ argAct {} sep = .stop (sep == T_COMMA) := by
  obtain rfl | rfl := h <;> decide

/-- One character between braces: what is copied of it, and how many braces are open then. -/
theorem argAct_of_braceDepth {d e : ℕ} {c : Byte} {w : Bytes} (h : braceDepth d (c::w) = some e) :
    ∃ d', braceDepth d' w = some e ∧
      argAct (inBraces d) c = if c = T_LC then .skip (inBraces d') else .put (inBraces d') := by
  simp only [braceDepth] at h
  split_ifs at h with hlc hrc hd
  · refine ⟨d+1,h,?_⟩
    rw [if_pos hlc,hlc]
    exact argAct_lc d
  · obtain ⟨k,rfl⟩ := Nat.exists_eq_succ_of_ne_zero hd
    refine ⟨k,h,?_⟩
    rw [if_neg hlc,hrc]
    exact argAct_rc k
  · refine ⟨d,h,?_⟩
    rw [if_neg hlc]
    exact argAct_inBraces d hlc hrc

/-- The text that was read: nothing but its opening braces is missing. -/
theorem copied_eq_self_iff {w : Bytes} : copied w = w ↔ T_LC ∉ w := by
  rw [copied,List.filter_eq_self]
  constructor
  · intro h hmem
    simpa using h _ hmem
  · intro h c hc
    simpa using fun hlc : c = T_LC => h (hlc ▸ hc)

namespace Host
variable {σ ο : Type} (H : Host σ ο)

/-- The loop of `ParseArg` between braces. -/
theorem argLoop_inBraces {w : Bytes} {d e : ℕ} {n : ℕ} (heof : EOF ∉ w) (hesc : T_ESC ∉ w)
    (hpct : T_PCT ∉ w) (h : braceDepth d w = some e) (cur inp : Bytes) :
    H.argLoop (n+2*w.length) (inBraces d) cur (w ++ inp) = H.argLoop n (inBraces e) (cur ++ copied w) inp := by
  induction w generalizing d cur with
  | nil =>
    cases h
    simp [copied]
  | cons c w ih =>
    obtain ⟨hc,heof⟩ := not_or.mp (List.mem_cons.not.mp heof)
    obtain ⟨hce,hesc⟩ := not_or.mp (List.mem_cons.not.mp hesc)
    obtain ⟨hcp,hpct⟩ := not_or.mp (List.mem_cons.not.mp hpct)
    obtain ⟨d',hd',hact⟩ := argAct_of_braceDepth h
    have hfuel : n+2*(c::w).length = n+2*w.length+2 := by
      rw [List.length_cons]
      omega
    rw [hfuel,List.cons_append]
    split_ifs at hact with hlc
    · have hcopied : copied (c::w) = copied w := List.filter_cons_of_neg (by simp [hlc])
      rw [H.argLoop_skip (Ne.symm hc) (Ne.symm hce) (Ne.symm hcp) hact,ih heof hesc hpct hd',hcopied]
    · have hcopied : copied (c::w) = c::copied w := List.filter_cons_of_pos (by simpa using hlc)
      rw [H.argLoop_put (Ne.symm hc) (Ne.symm hce) (Ne.symm hcp) hact,ih heof hesc hpct hd',hcopied,
        List.append_assoc,List.singleton_append]

/-- `ParseArg` on a text between braces and what ends the argument. -/
theorem parseArg_braces {w : Bytes} (hw : Balanced w) {sep : Byte} (hsep : sep = T_COMMA ∨ sep = T_RP)
    (rest : Bytes) {n : ℕ} (hn : 2*w.length+4 ≤ n) :
    H.parseArg (n+1) T_LC (w ++ T_RC::sep::rest) = pure (copied w,sep == T_COMMA,rest) := by
  have hrc : T_RC ≠ EOF := by decide
  obtain ⟨heof,hesc,hpct,hstop⟩ := argAct_sep hsep
  obtain ⟨m,rfl⟩ : ∃ m, n = m+3+2*w.length := ⟨n-3-2*w.length,by omega⟩
  have hopen : H.parseArg (m+3+2*w.length+1) T_LC (w ++ T_RC::sep::rest) =
      H.argLoop (m+4+2*w.length) (inBraces 0) [] (w ++ T_RC::sep::rest) := by
    have hfuel : m+4+2*w.length = m+3+2*w.length+1 := by omega
    have harg (inp : Bytes) : argOpen T_LC inp = (inBraces 0,getC inp) := rfl
    rw [hfuel,parseArg,harg]
    cases w with
    | nil => exact argTurn_of_ne_eof H hrc _ _ _
    | cons c w =>
      have hc : c ≠ EOF := fun hc => hw.eof (hc ▸ List.mem_cons_self)
      exact argTurn_of_ne_eof H hc _ _ _
  rw [hopen,H.argLoop_inBraces hw.eof hw.esc hw.pct hw.braces,
    H.argLoop_skip hrc (by decide) (by decide) argAct_close,H.argLoop_stop heof hesc hpct hstop]
  simp [cutSpaces]

end Host

namespace CompEnv
variable (E : CompEnv) {n : ℕ} {st st' : ArgSt} {cur tmp inp : Bytes} {c : Byte}

theorem compLoop_put (heof : c ≠ EOF) (hesc : c ≠ T_ESC) (hpct : c ≠ T_PCT)
    (hact : argAct st c = .put st') :
    E.compLoop (n+2) st cur tmp (c::inp) = E.compLoop n st' cur (tmp ++ [c]) inp := by
  simp [compLoop,compTurn,heof,hesc,hpct,hact]

theorem compLoop_skip (heof : c ≠ EOF) (hesc : c ≠ T_ESC) (hpct : c ≠ T_PCT)
    (hact : argAct st c = .skip st') :
    E.compLoop (n+2) st cur tmp (c::inp) = E.compLoop n st' cur tmp inp := by
  simp [compLoop,compTurn,heof,hesc,hpct,hact]

theorem compLoop_stop (heof : c ≠ EOF) (hesc : c ≠ T_ESC) (hpct : c ≠ T_PCT) {more : Bool}
    (hact : argAct st c = .stop more) : E.compLoop (n+2) st cur tmp (c::inp) =
      (E.outText (cutSpaces tmp st.numsp) >>= fun text => pure (cur ++ text,more,inp)) := by
  simp [compLoop,compTurn,heof,hesc,hpct,hact]

theorem compTurn_of_ne_eof (hc : c ≠ EOF) :
    E.compTurn n st cur tmp c inp = E.compLoop (n+1) st cur tmp (c::inp) := by
  simp [compLoop,hc]

/-- The loop of `ParseCompArg` between braces. -/
theorem compLoop_inBraces {w : Bytes} {d e : ℕ} (heof : EOF ∉ w) (hesc : T_ESC ∉ w) (hpct : T_PCT ∉ w)
    (h : braceDepth d w = some e) (tmp : Bytes) :
    E.compLoop (n+2*w.length) (inBraces d) cur tmp (w ++ inp) =
      E.compLoop n (inBraces e) cur (tmp ++ copied w) inp := by
  induction w generalizing d tmp with
  | nil =>
    cases h
    simp [copied]
  | cons c w ih =>
    obtain ⟨hc,heof⟩ := not_or.mp (List.mem_cons.not.mp heof)
    obtain ⟨hce,hesc⟩ := not_or.mp (List.mem_cons.not.mp hesc)
    obtain ⟨hcp,hpct⟩ := not_or.mp (List.mem_cons.not.mp hpct)
    obtain ⟨d',hd',hact⟩ := argAct_of_braceDepth h
    have hfuel : n+2*(c::w).length = n+2*w.length+2 := by
      rw [List.length_cons]
      omega
    rw [hfuel,List.cons_append]
    split_ifs at hact with hlc
    · have hcopied : copied (c::w) = copied w := List.filter_cons_of_neg (by simp [hlc])
      rw [E.compLoop_skip (Ne.symm hc) (Ne.symm hce) (Ne.symm hcp) hact,ih heof hesc hpct hd',hcopied]
    · have hcopied : copied (c::w) = c::copied w := List.filter_cons_of_pos (by simpa using hlc)
      rw [E.compLoop_put (Ne.symm hc) (Ne.symm hce) (Ne.symm hcp) hact,ih heof hesc hpct hd',hcopied,
        List.append_assoc,List.singleton_append]

/-- `ParseCompArg` on a text between braces and what ends the argument. -/
theorem compArg_braces {w : Bytes} (hw : Balanced w) {sep : Byte} (hsep : sep = T_COMMA ∨ sep = T_RP)
    (rest : Bytes) (hn : 2*w.length+4 ≤ n) : E.compArg (n+1) T_LC (w ++ T_RC::sep::rest) =
      (E.outText (copied w) >>= fun text => pure (text,sep == T_COMMA,rest)) := by
  have hrc : T_RC ≠ EOF := by decide
  obtain ⟨heof,hesc,hpct,hstop⟩ := argAct_sep hsep
  obtain ⟨m,rfl⟩ : ∃ m, n = m+3+2*w.length := ⟨n-3-2*w.length,by omega⟩
  have hopen : E.compArg (m+3+2*w.length+1) T_LC (w ++ T_RC::sep::rest) =
      E.compLoop (m+4+2*w.length) (inBraces 0) [] [] (w ++ T_RC::sep::rest) := by
    have hfuel : m+4+2*w.length = m+3+2*w.length+1 := by omega
    have harg (inp : Bytes) : argOpen T_LC inp = (inBraces 0,getC inp) := rfl
    rw [hfuel,compArg,harg]
    cases w with
    | nil => exact E.compTurn_of_ne_eof hrc
    | cons c w =>
      have hc : c ≠ EOF := fun hc => hw.eof (hc ▸ List.mem_cons_self)
      exact E.compTurn_of_ne_eof hc
  rw [hopen,E.compLoop_inBraces hw.eof hw.esc hw.pct hw.braces,
    E.compLoop_skip hrc (by decide) (by decide) argAct_close,E.compLoop_stop heof hesc hpct hstop]
  simp [cutSpaces]

/-- The code of a text prints the text. -/
theorem exists_outText {s : Bytes} (hs : s.length < 2^31) (drawn : CompSt) : ∃ code drawn',
    E.outText s drawn = .ok (code,drawn') ∧
      ∀ (σ ο : Type) (H : Host σ ο), H.runBytes code = emit s := by
  by_cases hne : s = []
  · refine ⟨[],drawn,?_,fun σ ο H => ?_⟩
    · rw [outText,if_pos hne]
      rfl
    · rw [hne]
      rfl
  · obtain ⟨⟨rn,drawn'⟩,hkey⟩ := E.total_drawKey drawn
    refine ⟨baseBytes BC_OUT rn s.length ++ s,drawn',?_,fun σ ο H => ?_⟩
    · rw [outText,if_neg hne]
      change (E.drawKey drawn >>= _) = _
      rw [hkey]
      rfl
    · have hrun := H.runCompiled_out (baseBytes BC_OUT rn s.length ++ s).length rn hs hne []
      have hend : H.runCompiled (baseBytes BC_OUT rn s.length ++ s).length [] = pure () := by
        cases (baseBytes BC_OUT rn s.length ++ s).length with
        | zero => rfl
        | succ n => rfl
      rw [List.append_nil,hend] at hrun
      exact hrun.trans bind_pure_unit

end CompEnv

/-- Read between braces the text is one argument as it stands, and so it is when it is compiled and
the code is run. -/
structure Verbatim (w : Bytes) : Prop where
  read : ∀ (σ ο : Type) (H : Host σ ο) (sep : Byte), sep = T_COMMA ∨ sep = T_RP → ∀ rest n,
    Host.fuelFor (w ++ T_RC::sep::rest) ≤ n →
      H.parseArg n T_LC (w ++ T_RC::sep::rest) = pure (w,sep == T_COMMA,rest)
  compiled : ∀ (E : CompEnv) (drawn : CompSt) (sep : Byte), sep = T_COMMA ∨ sep = T_RP → ∀ rest n,
    Host.fuelFor (w ++ T_RC::sep::rest) ≤ n → ∃ code drawn',
      E.compArg n T_LC (w ++ T_RC::sep::rest) drawn = .ok ((code,sep == T_COMMA,rest),drawn') ∧
        ∀ (σ ο : Type) (H : Host σ ο), H.runBytes code = emit w

theorem exists_fuel {w rest : Bytes} {sep : Byte} {n : ℕ}
    (h : Host.fuelFor (w ++ T_RC::sep::rest) ≤ n) : ∃ m, n = m+1 ∧ 2*w.length+4 ≤ m := by
  have hlen : (w ++ T_RC::sep::rest).length = w.length+(rest.length+2) := List.length_append
  rw [Host.fuelFor,hlen] at h
  exact ⟨n-1,by omega,by omega⟩

theorem Verbatim.no_brace {w : Bytes} (h : Verbatim w) (hw : Balanced w) : T_LC ∉ w := by
  have hread := h.read Unit Empty (emptyHost false) T_RP (.inr rfl) [] _ le_rfl
  obtain ⟨m,hm,hfuel⟩ := exists_fuel (le_refl (Host.fuelFor (w ++ [T_RC,T_RP])))
  rw [hm,Host.parseArg_braces _ hw (.inr rfl) [] hfuel] at hread
  have hrun := congrArg (fun x => (EmitM.run x ()).result) hread
  exact copied_eq_self_iff.mp (Prod.mk.inj (Except.ok.inj hrun)).1

/-- A text in braces is an argument as it stands just if it has no braces of its own. -/
theorem verbatim_iff {w : Bytes} (hw : Balanced w) (hlen : w.length < 2^31) : Verbatim w ↔ T_LC ∉ w := by
  constructor
  · intro h
    exact h.no_brace hw
  · intro hlc
    have h := copied_eq_self_iff.mpr hlc
    constructor
    · intro σ ο H sep hsep rest n hn
      obtain ⟨m,rfl,hm⟩ := exists_fuel hn
      rw [H.parseArg_braces hw hsep rest hm,h]
    · intro E drawn sep hsep rest n hn
      obtain ⟨m,rfl,hm⟩ := exists_fuel hn
      obtain ⟨code,drawn',hcode,hrun⟩ := E.exists_outText hlen drawn
      refine ⟨code,drawn',?_,hrun⟩
      rw [E.compArg_braces hw hsep rest hm,h]
      change (E.outText w drawn >>= _) = _
      rw [hcode]
      rfl

theorem verbatim_list : Verbatim (str "a, (\"b ") := by
  have hw : Balanced (str "a, (\"b ") := ⟨by decide,by decide,by decide,by decide⟩
  exact (verbatim_iff hw (by decide)).mpr (by decide)

/-- Of `{a{b}c}` one brace is left. -/
theorem inner_brace_lost : ¬∀ w, Balanced w → w.length < 2^31 → Verbatim w := by
  intro h
  have hw : Balanced (str "a{b}c") := ⟨by decide,by decide,by decide,by decide⟩
  have hlen : (str "a{b}c").length < 2^31 := by decide
  exact absurd ((h _ hw hlen).no_brace hw) (by decide)

end Smx
