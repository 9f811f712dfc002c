import Smx.Cgi.Multi
import Smx.Lib.Memory

/-! `ParseCDisp` on the cells of its string, with the pointers that it keeps there. -/
namespace Smx

open Memory

/-- The string, the pointer to the end of the last value, and what has been set; `none` is a null pointer. -/
structure Disp where
  buf : ℕ → Byte
  v2 : Option ℕ := none
  vname : Option ℕ := none
  fname : Option ℕ := none

def Disp.put (d : Disp) (n : Bytes) (v1 : ℕ) : Disp :=
  if SameName n (str "name") then { d with vname := some v1 }
  else if SameName n (str "filename") then { d with fname := some v1 }
  else d

section
variable (size : ℕ)

/-- The value at `p`: where it begins, where `p` is behind it, and `v2` if something has closed it. -/
def dispBounds (d : Disp) (p : ℕ) : Option (ℕ × ℕ × Disp) := do
  let c ← fetch size d.buf p
  if c = ch '"' then
    let q ← scan size d.buf (fun c => c != 0 && c != ch '"') size (p+1)
    let c ← fetch size d.buf q
    if c = 0 then some (p+1,q,d)
    else
      let buf ← store size d.buf q 0
      some (p+1,q+1,{ d with buf := buf, v2 := some (q-1) })
  else
    let q ← scan size d.buf (fun c => c != 0 && c != ch ';') size p
    let c ← fetch size d.buf q
    if c = 0 then some (p,q,d)
    else
      let buf ← store size d.buf q 0
      some (p,q,{ d with buf := buf, v2 := some (q-1) })

/-- Blanks at the end of the value are cut off. -/
def dispClose (d : Disp) : Option Disp := do
  let v2 ← d.v2
  let v2 ← scanBack size d.buf isspace v2
  let buf ← store size d.buf (v2+1) 0
  some { d with buf := buf, v2 := some (v2+1) }

/-- A parameter whose name is at `n` and whose `=` is at `p`, and where the next name begins. -/
def dispParam (n p : ℕ) (d : Disp) : Option (ℕ × Disp) := do
  let buf ← store size d.buf p 0
  let p ← scan size buf isspace size (p+1)
  let (v1,p,d) ← dispBounds size { d with buf := buf } p
  let d ← dispClose size d
  let name ← text size d.buf (· == 0) size n
  let c ← fetch size d.buf p
  let p ← if c = 0 then some p else scan size d.buf isspace size (p+1)
  some (p,d.put name v1)

/-- The loop of `ParseCDisp`. -/
def dispLoop : ℕ → ℕ → ℕ → Disp → Option Disp
  | 0,_,_,_ => none
  | fuel+1,n,p,d =>
    (fetch size d.buf p).bind fun c =>
      if c = 0 then some d
      else if c = ch '=' then (dispParam size n p d).bind fun r => dispLoop fuel r.1 r.1 r.2
      else if c = ch ';' then (scan size d.buf isspace size (p+1)).bind fun p => dispLoop fuel p p d
      else dispLoop fuel n (p+1) d

end

/-- `ParseCDisp` on a C string; `none` where it reads or writes outside of it. -/
def parseCDispIn (str : Bytes) : Option Disp :=
  let size := str.length+1
  let buf i := (str ++ [0]).getD i 0
  (scan size buf isspace size 0).bind fun p => dispLoop size size p p { buf := buf }

/-! ### What the loop does, on the text that is left -/

/-- `*vname` and `*fname` as places in the string and the C strings there. -/
structure DispRefs where
  vname : Option (ℕ × Bytes)
  fname : Option (ℕ × Bytes)

def DispRefs.put (refs : DispRefs) (n : Bytes) (v : ℕ × Bytes) : DispRefs :=
  if SameName n (str "name") then { refs with vname := some v }
  else if SameName n (str "filename") then { refs with fname := some v }
  else refs

/-- The text of a value behind the `=`, up to the end of the string. -/
def valueText (p : Bytes) : Bytes :=
  let p := p.dropWhile isspace
  if p.head? = some (ch '"') then p.tail else p

/-- The loop on the text that is left of a string of length `len`. -/
def dispRefs (len : ℕ) : ℕ → Bytes → Bool → DispRefs → Bytes → Option DispRefs
  | _,_,_,refs,[] => some refs
  | 0,_,_,_,_::_ => none
  | k+1,n,set,refs,c::p =>
    if c = ch '=' then
      (dispValue set (p.dropWhile isspace)).bind fun r =>
        dispRefs len k [] true (refs.put n (len-(valueText p).length,r.1)) r.2
    else if c = ch ';' then dispRefs len k [] set refs (p.dropWhile isspace)
    else dispRefs len k (n ++ [c]) set refs p

/-- What the loop knows with a name at `n` and the text `rest` at `p`; values end in front of `b`. -/
structure DispInv (size : ℕ) (d : Disp) (n p b : ℕ) (name rest : Bytes) : Prop where
  cells_name : Cells d.buf n name
  cells_rest : Cells d.buf p (rest ++ [0])
  name_nul : 0 ∉ name
  rest_nul : 0 ∉ rest
  name_end : n+name.length = p
  rest_end : p+rest.length+1 = size
  bound : b ≤ n
  closed : ∀ e ∈ d.v2, b ≤ e+1 ∧ e+1 < n ∧ isspace (d.buf e) = false

/-- What a parameter leaves behind: its value `v` at `o`, and what stands in front of `b` as it was. -/
structure ParamDone (size : ℕ) (d d' : Disp) (p' b o : ℕ) (v rest' : Bytes) : Prop where
  value : Cells d'.buf o (v ++ [0])
  value_end : o+v.length < size
  value_nul : 0 ∉ v
  old : ∀ q < b, d'.buf q = d.buf q
  vname : d'.vname = d.vname
  fname : d'.fname = d.fname
  inside : p' < size
  cells_rest : Cells d'.buf p' (rest' ++ [0])
  more : rest' ≠ [] → p'+rest'.length+1 = size ∧
    ∃ e, d'.v2 = some e ∧ b ≤ o ∧ o+v.length ≤ e ∧ e+1 < p' ∧ isspace (d'.buf e) = false

section
variable {size : ℕ} {d : Disp} {n p b : ℕ} {name rest : Bytes}

/-- Blanks in front of a text that the NUL ends. -/
theorem scan_blanks {mem : ℕ → Byte} {t : Bytes} (h : Cells mem p (t ++ [0])) (hsize : p+t.length < size) :
    scan size mem isspace size p = some (p+(t.takeWhile isspace).length) ∧
      Cells mem (p+(t.takeWhile isspace).length) (t.dropWhile isspace ++ [0]) := by
  have hlen := length_blanks t
  have hblanks : ∀ c ∈ t.takeWhile isspace, isspace c = true := fun c hc => List.mem_takeWhile_imp hc
  rw [← List.takeWhile_append_dropWhile (p := isspace) (l := t),List.append_assoc] at h
  refine ⟨?_,(cells_append.mp h).2⟩
  cases hw : t.dropWhile isspace with
  | nil =>
    rw [hw] at h
    exact scan_eq h hblanks rfl (by omega) (by omega)
  | cons c w =>
    rw [hw,List.cons_append,List.append_cons] at h
    exact scan_eq (cells_append.mp h).1 hblanks (isspace_of_dropWhile hw) (by omega) (by omega)

/-- A value without the character that ends it. -/
theorem scan_until {mem : ℕ → Byte} {t : Bytes} {x stop : Byte} (h : Cells mem p (t ++ [stop]))
    (hstop : stop = 0 ∨ stop = x) (hnul : 0 ∉ t) (hx : x ∉ t) (hsize : p+t.length < size) :
    scan size mem (fun c => c != 0 && c != x) size p = some (p+t.length) := by
  apply scan_eq h _ _ hsize (by omega)
  · intro c hc
    simp [ne_of_mem_of_not_mem hc hnul,ne_of_mem_of_not_mem hc hx]
  · obtain rfl | rfl := hstop
    · rfl
    · simp

theorem dispBounds_quoted {v : Bytes} (h : Cells d.buf p (ch '"'::(v ++ [ch '"']))) (hnul : 0 ∉ v)
    (hv : ch '"' ∉ v) (hsize : p+1+v.length < size) :
    dispBounds size d p = some (p+1,p+1+v.length+1,{ d with
      buf := Function.update d.buf (p+1+v.length) 0
      v2 := some (p+1+v.length-1) }) := by
  have hne : ch '"' ≠ 0 := by decide
  have hend := (cells_concat.mp h.2).2
  simp [dispBounds,fetch_of_lt (show p < size by omega),h.1,scan_until h.2 (Or.inr rfl) hnul hv hsize,
    fetch_of_lt hsize,hend,store_of_lt hsize,hne]

/-- The second quote is missing. -/
theorem dispBounds_open {v : Bytes} (h : Cells d.buf p (ch '"'::(v ++ [0]))) (hnul : 0 ∉ v)
    (hv : ch '"' ∉ v) (hsize : p+1+v.length < size) :
    dispBounds size d p = some (p+1,p+1+v.length,d) := by
  have hend := (cells_concat.mp h.2).2
  simp [dispBounds,fetch_of_lt (show p < size by omega),h.1,scan_until h.2 (Or.inl rfl) hnul hv hsize,
    fetch_of_lt hsize,hend]

theorem first_ne_quote {mem : ℕ → Byte} {v : Bytes} {stop : Byte} (h : Cells mem p (v ++ [stop]))
    (hstop : stop ≠ ch '"') (hquote : v.head? ≠ some (ch '"')) : mem p ≠ ch '"' := by
  cases v with
  | nil => exact h.1.trans_ne hstop
  | cons c v => exact h.1.trans_ne fun hc => hquote (congrArg some hc)

theorem dispBounds_token {v : Bytes} (h : Cells d.buf p (v ++ [ch ';'])) (hnul : 0 ∉ v) (hv : ch ';' ∉ v)
    (hquote : v.head? ≠ some (ch '"')) (hsize : p+v.length < size) :
    dispBounds size d p = some (p,p+v.length,{ d with
      buf := Function.update d.buf (p+v.length) 0
      v2 := some (p+v.length-1) }) := by
  have hne : ch ';' ≠ 0 := by decide
  have hend := (cells_concat.mp h).2
  simp [dispBounds,fetch_of_lt (show p < size by omega),first_ne_quote h (by decide) hquote,
    scan_until h (Or.inr rfl) hnul hv hsize,fetch_of_lt hsize,hend,store_of_lt hsize,hne]

/-- The string ends with the value. -/
theorem dispBounds_last {v : Bytes} (h : Cells d.buf p (v ++ [0])) (hnul : 0 ∉ v) (hv : ch ';' ∉ v)
    (hquote : v.head? ≠ some (ch '"')) (hsize : p+v.length < size) :
    dispBounds size d p = some (p,p+v.length,d) := by
  have hend := (cells_concat.mp h).2
  simp [dispBounds,fetch_of_lt (show p < size by omega),first_ne_quote h (by decide) hquote,
    scan_until h (Or.inl rfl) hnul hv hsize,fetch_of_lt hsize,hend]

/-- A value that the NUL cuts its blanks off. -/
theorem cells_rtrim {mem : ℕ → Byte} {v : Bytes} (h : Cells mem p v) :
    Cells (Function.update mem (p+(rtrim v).length) 0) p (rtrim v ++ [0]) := by
  refine cells_concat.mpr ⟨?_,Function.update_self ..⟩
  obtain ⟨r,hr⟩ : rtrim v <+: v := List.rdropWhile_prefix _ _
  rw [← hr] at h
  exact (cells_append.mp h).1.update (Or.inr le_rfl)

/-- Going back from the end of a text stops in it, or at what stands in front of it. -/
theorem dispClose_eq {a : ℕ} {x : Byte} {w : Bytes} (h : Cells d.buf a (x::w)) (hx : isspace x = false)
    (hv2 : d.v2 = some (a+w.length)) (hsize : a+w.length+1 < size) :
    dispClose size d = some { d with
      buf := Function.update d.buf (a+(rtrim w).length+1) 0
      v2 := some (a+(rtrim w).length+1) } := by
  have hle := length_rtrim_le w
  have hback : scanBack size d.buf isspace (a+w.length) = some (a+(rtrim w).length) :=
    scanBack_eq h hx (by omega)
  have hstore : store size d.buf (a+(rtrim w).length+1) 0 =
      some (Function.update d.buf (a+(rtrim w).length+1) 0) := store_of_lt (by omega)
  simp [dispClose,hv2,hback,hstore]

/-- The end of a parameter, from where its value has been closed. -/
theorem dispParam_eq {p₁ p₂ p₃ v1 : ℕ} {d₂ d₃ : Disp} (hp : p < size)
    (hskip : scan size (Function.update d.buf p 0) isspace size (p+1) = some p₁)
    (hbounds : dispBounds size { d with buf := Function.update d.buf p 0 } p₁ = some (v1,p₂,d₂))
    (hclose : dispClose size d₂ = some d₃) (hname : Cells d₃.buf n (name ++ [0])) (hnul : 0 ∉ name)
    (hend : n+name.length < size) (hp₂ : p₂ < size)
    (hnext : (if d₃.buf p₂ = 0 then some p₂ else scan size d₃.buf isspace size (p₂+1)) = some p₃) :
    dispParam size n p d = some (p₃,d₃.put name v1) := by
  have htext : text size d₃.buf (· == 0) size n = some name := by
    apply text_eq hname _ rfl hend (by omega)
    intro c hc
    simpa using ne_of_mem_of_not_mem hc hnul
  by_cases hend : d₃.buf p₂ = 0
  · rw [if_pos hend] at hnext
    obtain rfl := Option.some.inj hnext
    simp [dispParam,store_of_lt hp,hskip,hbounds,hclose,htext,fetch_of_lt hp₂,hend]
  · rw [if_neg hend] at hnext
    simp [dispParam,store_of_lt hp,hskip,hbounds,hclose,htext,fetch_of_lt hp₂,hend,hnext]

/-- The `=` ends the name, and the blanks behind it are skipped. -/
theorem DispInv.start {t : Bytes} (h : DispInv size d n p b name (ch '='::t)) :
    Cells (Function.update d.buf p 0) n (name ++ [0]) ∧
    Cells (Function.update d.buf p 0) p (0::(t.takeWhile isspace ++ t.dropWhile isspace ++ [0])) ∧
    scan size (Function.update d.buf p 0) isspace size (p+1) = some (p+1+(t.takeWhile isspace).length) ∧
    Cells (Function.update d.buf p 0) (p+1+(t.takeWhile isspace).length) (t.dropWhile isspace ++ [0]) ∧
    p+1+(t.takeWhile isspace).length+(t.dropWhile isspace).length+1 = size := by
  have hend := h.rest_end
  have hlen := length_blanks t
  rw [List.length_cons] at hend
  have hname : Cells (Function.update d.buf p 0) n (name ++ [0]) := by
    refine cells_concat.mpr ⟨h.cells_name.update (Or.inr h.name_end.le),?_⟩
    rw [h.name_end,Function.update_self]
  have hrest : Cells (Function.update d.buf p 0) (p+1) (t ++ [0]) :=
    h.cells_rest.2.update (Or.inl (Nat.lt_succ_self p))
  obtain ⟨hscan,hbehind⟩ := scan_blanks hrest (show p+1+t.length < size by omega)
  refine ⟨hname,⟨Function.update_self ..,?_⟩,hscan,hbehind,by omega⟩
  rw [List.takeWhile_append_dropWhile]
  exact hrest

/-- What comes of a parameter whose value begins at `o`, next to what is expected. -/
def ParamAgrees (size : ℕ) (d : Disp) (n p b o : ℕ) (name : Bytes) : Option (Bytes × Bytes) → Prop
  | none => dispParam size n p d = none
  | some (v,rest') => ∃ p' d', dispParam size n p d = some (p',d'.put name o) ∧ ParamDone size d d' p' b o v rest'

/-- A value that the end of the string ends: `v2` is that of an earlier one, if there was one. -/
theorem DispInv.unclosed {t u : Bytes} {o : ℕ} (h : DispInv size d n p b name (ch '='::t)) (hop : p < o)
    (hnul : 0 ∉ u) (hu : Cells (Function.update d.buf p 0) o (u ++ [0])) (hend : o+u.length+1 = size)
    (hbounds : dispBounds size { d with buf := Function.update d.buf p 0 } (p+1+(t.takeWhile isspace).length) =
      some (o,o+u.length,{ d with buf := Function.update d.buf p 0 })) :
    ParamAgrees size d n p b o name (if d.v2.isSome then some (u,[]) else none) := by
  obtain ⟨hname,-,hskip,-,-⟩ := h.start
  have hp : p < size := by omega
  have hnp := h.name_end
  cases he : d.v2 with
  | none =>
    have hclose : dispClose size { d with buf := Function.update d.buf p 0 } = none := by
      simp [dispClose,he]
    rw [Option.isSome_none,if_neg Bool.false_ne_true,ParamAgrees]
    simp [dispParam,store_of_lt hp,hskip,hbounds,hclose]
  | some e =>
    obtain ⟨hbe,hen,hblank⟩ := h.closed e he
    have hcell : Function.update d.buf p 0 e = d.buf e := Function.update_of_ne (by omega) _ _
    have hclose : dispClose size { d with buf := Function.update d.buf p 0 } =
        some { d with buf := Function.update (Function.update d.buf p 0) (e+1) 0, v2 := some (e+1) } :=
      dispClose_eq (w := []) (cells_singleton.mpr hcell) hblank he (by rw [List.length_nil]; omega)
    have hvalue := hu.update (q := e+1) (c := 0) (Or.inl (by omega))
    have hzero := (cells_concat.mp hvalue).2
    rw [Option.isSome_some,if_pos rfl]
    refine ⟨_,_,dispParam_eq hp hskip hbounds hclose (hname.update (Or.inl hen)) h.name_nul (by omega) (by omega)
      (if_pos hzero),hvalue,by omega,hnul,?_,rfl,rfl,by omega,cells_singleton.mpr hzero,fun hne => absurd rfl hne⟩
    intro q hq
    have hbn := h.bound
    exact (Function.update_of_ne (by omega) _ _).trans (Function.update_of_ne (by omega) _ _)

/-- A value that is closed at `q`; `a` is where going back from there would stop at last. -/
theorem DispInv.closing {t w : Bytes} {a q o p₂ p₃ : ℕ} {x : Byte} {buf : ℕ → Byte}
    (h : DispInv size d n p b name (ch '='::t)) (hpa : p ≤ a) (hq : a+w.length+1 = q) (hsize : q < size)
    (hp₂ : p₂ < size) (hbuf : buf = Function.update (Function.update d.buf p 0) q 0)
    (hw : Cells buf a (x::w)) (hx : isspace x = false)
    (hbounds : dispBounds size { d with buf := Function.update d.buf p 0 } (p+1+(t.takeWhile isspace).length) =
      some (o,p₂,{ d with buf := buf, v2 := some (q-1) }))
    (hnext : (if Function.update buf (a+(rtrim w).length+1) 0 p₂ = 0 then some p₂
      else scan size (Function.update buf (a+(rtrim w).length+1) 0) isspace size (p₂+1)) = some p₃) :
    dispParam size n p d = some (p₃,Disp.put { d with
      buf := Function.update buf (a+(rtrim w).length+1) 0
      v2 := some (a+(rtrim w).length+1) } name o) := by
  obtain ⟨hname,-,hskip,-,-⟩ := h.start
  have hnp := h.name_end
  have hlen : n+(name ++ [0]).length = p+1 := by
    rw [List.length_append,List.length_singleton]
    omega
  have hv2 : some (q-1) = some (a+w.length) := by
    rw [← hq]
    rfl
  have hclose := @dispClose_eq size { d with buf := buf, v2 := some (q-1) } a x w hw hx hv2 (by omega)
  refine dispParam_eq (by omega) hskip hbounds hclose ?_ h.name_nul (by omega) hp₂ hnext
  apply Cells.update
  · rw [hbuf]
    exact hname.update (Or.inr (by omega))
  · exact Or.inr (by omega)

theorem DispInv.closing_old {a q r : ℕ} {m : ℕ} {t : Bytes} (h : DispInv size d n p b name (ch '='::t))
    (hpa : p ≤ a) (hpq : p ≤ q) (hr : r < b) :
    Function.update (Function.update (Function.update d.buf p 0) q 0) (a+m+1) 0 r = d.buf r := by
  have hbn := h.bound
  have hnp := h.name_end
  rw [Function.update_of_ne (by omega),Function.update_of_ne (by omega),Function.update_of_ne (by omega)]

theorem DispInv.nul_free {t : Bytes} (h : DispInv size d n p b name (ch '='::t)) : 0 ∉ t.dropWhile isspace :=
  fun h0 => h.rest_nul (List.mem_cons_of_mem _ ((List.dropWhile_sublist isspace).subset h0))

/-- A value in quotes, with what stands behind the second one. -/
theorem DispInv.quoted {t v u : Bytes} (h : DispInv size d n p b name (ch '='::t))
    (ht : t.dropWhile isspace = ch '"'::(v ++ ch '"'::u)) (hv : ch '"' ∉ v) :
    ParamAgrees size d n p b (p+1+(t.takeWhile isspace).length+1) name
      (some (rtrim v,u.tail.dropWhile isspace)) := by
  obtain ⟨-,-,-,hw,hend⟩ := h.start
  have hnp := h.name_end
  have hbn := h.bound
  have hnul := h.nul_free
  obtain ⟨p₁,hp₁⟩ : ∃ p₁, p₁ = p+1+(t.takeWhile isspace).length := ⟨_,rfl⟩
  obtain ⟨q,hq⟩ : ∃ q, q = p₁+1+v.length := ⟨_,rfl⟩
  rw [← hp₁,ht] at hw hend
  rw [ht] at hnul
  rw [← hp₁]
  simp only [List.cons_append,List.append_assoc,List.length_cons,List.length_append] at hw hend
  obtain ⟨hquote,hw⟩ := hw
  obtain ⟨hv₁,hend₁,hu₁⟩ := cells_append.mp hw
  have hvnul : 0 ∉ v := fun h0 => hnul (by simp [h0])
  have hbounds := dispBounds_quoted (d := { d with buf := Function.update d.buf p 0 })
    ⟨hquote,cells_concat.mpr ⟨hv₁,hend₁⟩⟩ hvnul hv (show p₁+1+v.length < size by omega)
  rw [← hq] at hu₁ hbounds
  have hle := length_rtrim_le v
  have hcells : Cells (Function.update (Function.update d.buf p 0) q 0) p₁ (ch '"'::v) :=
    Cells.update ⟨hquote,hv₁⟩ (Or.inr (by rw [List.length_cons]; omega))
  have hvalue := cells_rtrim hcells.2
  rw [Nat.add_right_comm] at hvalue
  have hrest : Cells (Function.update (Function.update (Function.update d.buf p 0) q 0) (p₁+(rtrim v).length+1) 0)
      (q+1) (u ++ [0]) :=
    (hu₁.update (Or.inl (Nat.lt_succ_self q))).update (Or.inl (by omega))
  have hpq : p₁+v.length+1 = q := by omega
  have hold := fun r (hr : r < b) =>
    h.closing_old (m := (rtrim v).length) (show p ≤ p₁ by omega) (show p ≤ q by omega) hr
  have hleft : 0 ∉ rtrim v := fun h0 => hvnul ((List.rdropWhile_prefix _ _).subset h0)
  cases u with
  | nil =>
    exact ⟨_,_,h.closing (by omega) hpq (by omega) (by omega) rfl hcells (by decide) (hp₁ ▸ hbounds)
      (if_pos hrest.1),hvalue,by omega,hleft,hold,rfl,rfl,by omega,hrest,fun hne => absurd rfl hne⟩
  | cons c u =>
    have hc : c ≠ 0 := ne_of_mem_of_not_mem (by simp) hnul
    rw [List.length_cons] at hend
    have hlen := length_blanks u
    obtain ⟨hfirst,hrest⟩ := hrest
    obtain ⟨hblanks,hrest'⟩ := scan_blanks hrest (show q+1+1+u.length < size by omega)
    refine ⟨_,_,h.closing (by omega) hpq (by omega) (by omega) rfl hcells (by decide) (hp₁ ▸ hbounds)
      ((if_neg (hfirst.trans_ne hc)).trans hblanks),hvalue,by omega,hleft,hold,rfl,rfl,by omega,hrest',fun _ => ⟨?_,?_⟩⟩
    · rw [List.tail_cons]
      omega
    · refine ⟨_,rfl,by omega,by omega,by omega,?_⟩
      dsimp only
      rw [Function.update_self]
      rfl

/-- A character that is no blank keeps what stands in front of it. -/
theorem rtrim_append_cons (s v : Bytes) {c : Byte} (hc : isspace c = false) :
    rtrim (s ++ c::v) = s ++ rtrim (c::v) := by
  induction v using List.reverseRecOn with
  | nil =>
    rw [rtrim,rtrim,List.rdropWhile_concat_neg isspace s c (by simp [hc]),
      List.rdropWhile_singleton,if_neg (by simp [hc])]
  | append_singleton v x ih =>
    rw [← List.cons_append,← List.append_assoc,rtrim,rtrim,List.rdropWhile_concat,List.rdropWhile_concat]
    split_ifs
    · exact ih
    · rw [List.append_assoc]

/-- A value without quotes that a semicolon ends: it becomes the NUL at which the loop ends. -/
theorem DispInv.token {t v u : Bytes} (h : DispInv size d n p b name (ch '='::t))
    (ht : t.dropWhile isspace = v ++ ch ';'::u) (hv : ch ';' ∉ v) (hquote : v.head? ≠ some (ch '"')) :
    ParamAgrees size d n p b (p+1+(t.takeWhile isspace).length) name (some (rtrim v,[])) := by
  obtain ⟨-,⟨hzero,hall⟩,-,-,hend⟩ := h.start
  have hnp := h.name_end
  have hbn := h.bound
  have hvnul : 0 ∉ v := fun h0 => h.nul_free (by simp [ht,h0])
  obtain ⟨s,hs⟩ : ∃ s, s = t.takeWhile isspace := ⟨_,rfl⟩
  rw [ht,← hs] at hall hend
  rw [← hs]
  simp only [List.append_assoc,List.length_cons,List.length_append,List.cons_append] at hall hend
  obtain ⟨hs₁,hw⟩ := cells_append.mp hall
  obtain ⟨hv₁,hend₁,-⟩ := cells_append.mp hw
  obtain ⟨p₁,hp₁⟩ : ∃ p₁, p₁ = p+1+s.length := ⟨_,rfl⟩
  obtain ⟨q,hq⟩ : ∃ q, q = p₁+v.length := ⟨_,rfl⟩
  rw [← hp₁] at hv₁ hend₁ hend ⊢
  have hbounds := dispBounds_token (d := { d with buf := Function.update d.buf p 0 })
    (cells_concat.mpr ⟨hv₁,hend₁⟩) hvnul hv hquote (show p₁+v.length < size by omega)
  rw [← hq] at hbounds
  have hlen : (s ++ v).length = s.length+v.length := List.length_append
  have hcells : Cells (Function.update (Function.update d.buf p 0) q 0) p (0::(s ++ v)) := by
    have hcells : Cells (Function.update d.buf p 0) p (0::(s ++ v)) :=
      ⟨hzero,cells_append.mpr ⟨hs₁,hp₁ ▸ hv₁⟩⟩
    apply hcells.update
    rw [List.length_cons]
    omega
  obtain ⟨m,hm⟩ : ∃ m, m = (rtrim (s ++ v)).length := ⟨_,rfl⟩
  have hzero_q : Function.update (Function.update (Function.update d.buf p 0) q 0) (p+m+1) 0 q = 0 := by
    rw [Function.update_apply,Function.update_self,ite_self]
  have hvalue : Cells (Function.update (Function.update (Function.update d.buf p 0) q 0) (p+m+1) 0)
      p₁ (rtrim v ++ [0]) := by
    cases v with
    | nil =>
      rw [List.length_nil,Nat.add_zero] at hq
      exact cells_singleton.mpr (hq ▸ hzero_q)
    | cons c v =>
      have hpm : p+m+1 = p₁+(rtrim (c::v)).length := by
        rw [hm,rtrim_append_cons s v (isspace_of_dropWhile ht),List.length_append,hp₁]
        omega
      rw [hpm]
      exact cells_rtrim (hv₁.update (Or.inr hq.ge))
  have hold := fun r (hr : r < b) => h.closing_old (m := m) le_rfl (show p ≤ q by omega) hr
  have hle := length_rtrim_le v
  have hleft : 0 ∉ rtrim v := fun h0 => hvnul ((List.rdropWhile_prefix _ _).subset h0)
  rw [hm] at hzero_q hvalue hold
  exact ⟨_,_,h.closing le_rfl (by omega) (by omega) (by omega) rfl hcells (by decide) (hs ▸ hp₁ ▸ hbounds)
    (if_pos hzero_q),hvalue,by omega,hleft,hold,rfl,rfl,by omega,cells_singleton.mpr hzero_q,fun hne => absurd rfl hne⟩

/-- A text up to the first `c`. -/
theorem exists_of_mem {c : Byte} {s : Bytes} (h : c ∈ s) :
    ∃ r, s.dropWhile (· != c) = c::r ∧ s = s.takeWhile (· != c) ++ c::r ∧ c ∉ s.takeWhile (· != c) := by
  have hne : s.dropWhile (· != c) ≠ [] := by
    intro hnil
    simpa using List.dropWhile_eq_nil_iff.mp hnil c h
  obtain ⟨x,r,hr⟩ := List.exists_cons_of_ne_nil hne
  have hx : x = c := by
    have hhead := List.head_dropWhile_not (· != c) hne
    simpa [hr] using hhead
  subst hx
  refine ⟨r,hr,?_,?_⟩
  · rw [← hr,List.takeWhile_append_dropWhile]
  · intro hmem
    simpa using List.mem_takeWhile_imp hmem

/-- What `dispParam` does is what `dispValue` says of the text behind the `=`. -/
theorem DispInv.param {t : Bytes} (h : DispInv size d n p b name (ch '='::t)) :
    ParamAgrees size d n p b (size-1-(valueText t).length) name
      (dispValue d.v2.isSome (t.dropWhile isspace)) := by
  obtain ⟨-,-,-,hw,hend⟩ := h.start
  have hnul := h.nul_free
  by_cases hquote : (t.dropWhile isspace).head? = some (ch '"')
  · obtain ⟨u,ht⟩ : ∃ u, t.dropWhile isspace = ch '"'::u := List.head?_eq_some_iff.mp hquote
    have hplace : size-1-(valueText t).length = p+1+(t.takeWhile isspace).length+1 := by
      rw [valueText,if_pos hquote]
      rw [ht,List.length_cons] at hend
      rw [ht,List.tail_cons]
      omega
    rw [dispValue,if_pos hquote,hplace,ht,List.tail_cons]
    by_cases hclosed : ch '"' ∈ u
    · obtain ⟨r,hdrop,hu,hv⟩ := exists_of_mem hclosed
      rw [if_pos hclosed,hdrop,List.drop_succ_cons,List.drop_one]
      exact h.quoted (ht.trans (congrArg _ hu)) hv
    · rw [ht] at hw hnul
      rw [ht,List.length_cons] at hend
      have hunul : 0 ∉ u := fun h0 => hnul (List.mem_cons_of_mem _ h0)
      rw [if_neg hclosed]
      exact h.unclosed (by omega) hunul hw.2 (by omega) (dispBounds_open hw hunul hclosed (by omega))
  · have hplace : size-1-(valueText t).length = p+1+(t.takeWhile isspace).length := by
      rw [valueText,if_neg hquote]
      omega
    rw [dispValue,if_neg hquote,hplace]
    by_cases hsemi : ch ';' ∈ t.dropWhile isspace
    · obtain ⟨r,-,hu,hv⟩ := exists_of_mem hsemi
      rw [if_pos hsemi]
      refine h.token hu hv ?_
      intro hhead
      apply hquote
      rw [hu,List.head?_append,hhead]
      rfl
    · rw [if_neg hsemi]
      exact h.unclosed (by omega) hnul hw (by omega) (dispBounds_last hw hnul hsemi hquote (by omega))

/-- A pointer that is set is at a C string whose NUL stands in front of `b`. -/
def Shown (buf : ℕ → Byte) (b : ℕ) : Option ℕ → Option (ℕ × Bytes) → Prop
  | none,none => True
  | some p,some (o,v) => p = o ∧ Cells buf o (v ++ [0]) ∧ 0 ∉ v ∧ o+v.length < b
  | _,_ => False

theorem Shown.congr {buf buf' : ℕ → Byte} {b' : ℕ} {ptr : Option ℕ} {ref : Option (ℕ × Bytes)}
    (h : Shown buf b ptr ref) (hle : b ≤ b') (hold : ∀ q < b, buf' q = buf q) : Shown buf' b' ptr ref := by
  match ptr,ref with
  | none,none => trivial
  | some p,some (o,v) =>
    obtain ⟨rfl,hv,hnul,hb⟩ := h
    refine ⟨rfl,hv.congr ?_,hnul,hb.trans_le hle⟩
    intro q _ hq
    apply hold
    rw [List.length_append,List.length_singleton] at hq
    omega

/-- The pointers as they are set, next to what they stand for. -/
structure DispShown (d : Disp) (b : ℕ) (refs : DispRefs) : Prop where
  vname : Shown d.buf b d.vname refs.vname
  fname : Shown d.buf b d.fname refs.fname

theorem DispShown.put {d' : Disp} {refs : DispRefs} {p' o b' : ℕ} {v rest' : Bytes} (h : DispShown d b refs)
    (hdone : ParamDone size d d' p' b o v rest') (hb : b ≤ b') (ho : o+v.length < b') (name : Bytes) :
    DispShown (d'.put name o) b' (refs.put name (o,v)) := by
  have hv : Shown d'.buf b' d'.vname refs.vname := hdone.vname ▸ h.vname.congr hb hdone.old
  have hf : Shown d'.buf b' d'.fname refs.fname := hdone.fname ▸ h.fname.congr hb hdone.old
  have hnew : Shown d'.buf b' (some o) (some (o,v)) := ⟨rfl,hdone.value,hdone.value_nul,ho⟩
  unfold Disp.put DispRefs.put
  split_ifs
  · exact ⟨hnew,hf⟩
  · exact ⟨hv,hnew⟩
  · exact ⟨hv,hf⟩

@[simp] theorem Disp.put_buf (d : Disp) (name : Bytes) (o : ℕ) : (d.put name o).buf = d.buf := by
  unfold Disp.put
  split_ifs <;> rfl

@[simp] theorem Disp.put_v2 (d : Disp) (name : Bytes) (o : ℕ) : (d.put name o).v2 = d.v2 := by
  unfold Disp.put
  split_ifs <;> rfl

theorem dispValue_suffix {set : Bool} {t : Bytes} {r : Bytes × Bytes} (h : dispValue set t = some r) :
    r.2 <:+ t := by
  unfold dispValue at h
  split_ifs at h
  · obtain rfl := Option.some.inj h
    exact (List.dropWhile_suffix _).trans ((List.drop_suffix 2 _).trans
      ((List.dropWhile_suffix _).trans (List.tail_suffix t)))
  all_goals
    obtain rfl := Option.some.inj h
    exact List.nil_suffix

/-- The end of the string. -/
theorem dispLoop_end {fuel : ℕ} (hp : p < size) (hzero : d.buf p = 0) (hfuel : 0 < fuel) :
    dispLoop size fuel n p d = some d := by
  obtain ⟨fuel,rfl⟩ := Nat.exists_eq_add_one.mpr hfuel
  rw [dispLoop,fetch_of_lt hp,Option.bind_some,if_pos hzero]

/-- After a `;` and the blanks behind it a name begins. -/
theorem DispInv.next {t : Bytes} (h : DispInv size d n p b name (ch ';'::t)) :
    scan size d.buf isspace size (p+1) = some (p+1+(t.takeWhile isspace).length) ∧
    DispInv size d (p+1+(t.takeWhile isspace).length) (p+1+(t.takeWhile isspace).length) b []
      (t.dropWhile isspace) := by
  have hend := h.rest_end
  have hnp := h.name_end
  have hlen := length_blanks t
  rw [List.length_cons] at hend
  obtain ⟨hscan,hrest⟩ := scan_blanks h.cells_rest.2 (show p+1+t.length < size by omega)
  refine ⟨hscan,trivial,hrest,List.not_mem_nil,?_,Nat.add_zero _,by omega,?_,?_⟩
  · intro h0
    exact h.rest_nul (List.mem_cons_of_mem _ ((List.dropWhile_sublist _).subset h0))
  · exact h.bound.trans (by omega)
  · intro e he
    obtain ⟨hbe,hen,hblank⟩ := h.closed e he
    exact ⟨hbe,by omega,hblank⟩

/-- A character of a name. -/
theorem DispInv.char {c : Byte} {t : Bytes} (h : DispInv size d n p b name (c::t)) :
    DispInv size d n (p+1) b (name ++ [c]) t := by
  have hend := h.rest_end
  have hnp := h.name_end
  rw [List.length_cons] at hend
  refine ⟨cells_concat.mpr ⟨h.cells_name,hnp ▸ h.cells_rest.1⟩,h.cells_rest.2,?_,?_,?_,by omega,h.bound,h.closed⟩
  · intro h0
    obtain h0 | h0 := List.mem_append.mp h0
    · exact h.name_nul h0
    · exact h.rest_nul (List.mem_singleton.mp h0 ▸ List.mem_cons_self)
  · exact fun h0 => h.rest_nul (List.mem_cons_of_mem c h0)
  · rw [List.length_append,List.length_singleton]
    omega

/-- What a parameter leaves behind is where the next name begins. -/
theorem ParamDone.inv {d' : Disp} {p' o : ℕ} {v rest' : Bytes} (hdone : ParamDone size d d' p' b o v rest')
    (hrest : rest' ≠ []) (hnul : 0 ∉ rest') (name : Bytes) :
    ∃ b', b ≤ b' ∧ o+v.length < b' ∧ DispInv size (d'.put name o) p' p' b' [] rest' ∧
      (d'.put name o).v2.isSome = true := by
  obtain ⟨hend,e,he,hbo,hoe,hep,hblank⟩ := hdone.more hrest
  refine ⟨e+1,by omega,by omega,⟨trivial,?_,List.not_mem_nil,hnul,Nat.add_zero _,hend,by omega,?_⟩,by simp [he]⟩
  · rw [Disp.put_buf]
    exact hdone.cells_rest
  · intro e' he'
    rw [Disp.put_v2,he] at he'
    obtain rfl := Option.some.inj he'
    rw [Disp.put_buf]
    exact ⟨le_rfl,hep,hblank⟩

/-- A run on the cells and what is expected of it. -/
def DispAgrees (size : ℕ) (run : Option Disp) : Option DispRefs → Prop
  | none => run = none
  | some refs => ∃ d, run = some d ∧ DispShown d size refs

@[simp] theorem dispRefs_nil (len k : ℕ) (n : Bytes) (set : Bool) (refs : DispRefs) :
    dispRefs len k n set refs [] = some refs := by
  cases k <;> rfl

theorem DispInv.ended {fuel : ℕ} {refs : DispRefs} (h : DispInv size d n p b name []) (hs : DispShown d b refs)
    (hfuel : 0 < fuel) : DispAgrees size (dispLoop size fuel n p d) (some refs) := by
  have hend := h.rest_end
  have hnp := h.name_end
  have hbn := h.bound
  rw [List.length_nil] at hend
  exact ⟨d,dispLoop_end (by omega) h.cells_rest.1 hfuel,
    hs.vname.congr (by omega) fun _ _ => rfl,hs.fname.congr (by omega) fun _ _ => rfl⟩

/-- Nothing stands behind the parameter. -/
theorem ParamDone.ended {d' : Disp} {refs : DispRefs} {p' o fuel : ℕ} {v : Bytes}
    (hdone : ParamDone size d d' p' b o v []) (hs : DispShown d b refs) (hb : b ≤ size) (hfuel : 0 < fuel) :
    DispAgrees size (dispLoop size fuel p' p' (d'.put name o)) (some (refs.put name (o,v))) := by
  refine ⟨_,dispLoop_end hdone.inside ?_ hfuel,hs.put hdone hb hdone.value_end name⟩
  rw [Disp.put_buf]
  exact hdone.cells_rest.1

/-- The loop on the cells is the loop on the text. -/
theorem dispLoop_eq {fuel k : ℕ} {refs : DispRefs} (h : DispInv size d n p b name rest) (hs : DispShown d b refs)
    (hfuel : rest.length < fuel) (hk : rest.length ≤ k) :
    DispAgrees size (dispLoop size fuel n p d) (dispRefs (size-1) k name d.v2.isSome refs rest) := by
  induction k generalizing d n p b name rest refs fuel with
  | zero =>
    obtain rfl := List.eq_nil_of_length_eq_zero (Nat.le_zero.mp hk)
    rw [dispRefs_nil]
    exact h.ended hs hfuel
  | succ k ih =>
    cases rest with
    | nil =>
      rw [dispRefs_nil]
      exact h.ended hs hfuel
    | cons c t =>
      obtain ⟨fuel,rfl⟩ := Nat.exists_eq_add_one.mpr (Nat.zero_lt_of_lt hfuel)
      rw [List.length_cons] at hfuel hk
      have hend := h.rest_end
      have hc0 : c ≠ 0 := fun hc => h.rest_nul (hc ▸ List.mem_cons_self)
      have hfetch : fetch size d.buf p = some c := by
        rw [fetch_of_lt (by rw [List.length_cons] at hend; omega),h.cells_rest.1]
      rw [dispLoop,hfetch,Option.bind_some,if_neg hc0,dispRefs]
      by_cases heq : c = ch '='
      · subst heq
        rw [if_pos rfl,if_pos rfl]
        have hparam := h.param
        cases hval : dispValue d.v2.isSome (t.dropWhile isspace) with
        | none =>
          rw [hval] at hparam
          rw [hparam]
          rfl
        | some r =>
          obtain ⟨v,rest'⟩ := r
          rw [hval] at hparam
          obtain ⟨p',d',hparam,hdone⟩ := hparam
          rw [hparam,Option.bind_some,Option.bind_some]
          have hsuffix : rest' <:+ t := (dispValue_suffix hval).trans (List.dropWhile_suffix _)
          have hlen := hsuffix.length_le
          by_cases hrest : rest' = []
          · have hbn := h.bound
            have hnp := h.name_end
            subst hrest
            rw [dispRefs_nil]
            exact hdone.ended hs (by omega) (by omega)
          · have hnul : 0 ∉ rest' := fun h0 => h.rest_nul (List.mem_cons_of_mem _ (hsuffix.subset h0))
            obtain ⟨b',hb,hv,hinv,hset⟩ := hdone.inv hrest hnul name
            have hloop := ih hinv (hs.put hdone hb hv name) (show rest'.length < fuel by omega) (by omega)
            rw [hset] at hloop
            exact hloop
      · rw [if_neg heq,if_neg heq]
        by_cases hsemi : c = ch ';'
        · subst hsemi
          obtain ⟨hscan,hinv⟩ := h.next
          have hlen := (List.dropWhile_suffix (l := t) isspace).length_le
          rw [if_pos rfl,if_pos rfl,hscan,Option.bind_some]
          exact ih hinv hs (by omega) (by omega)
        · rw [if_neg hsemi,if_neg hsemi]
          exact ih h.char hs (by omega) (by omega)

end

/-- `ParseCDisp` on a C string, next to what the text says. -/
theorem parseCDispIn_eq {s : Bytes} (hs : 0 ∉ s) : DispAgrees (s.length+1) (parseCDispIn s)
    (dispRefs s.length s.length [] false ⟨none,none⟩ (s.dropWhile isspace)) := by
  have hlen := length_blanks s
  have hbuf : Cells (fun i => (s ++ [0]).getD i 0) 0 (s ++ [0]) := cells_getD (s ++ [0]) [] 0
  obtain ⟨hscan,hrest⟩ := scan_blanks hbuf (show 0+s.length < s.length+1 by omega)
  have hinv : DispInv (s.length+1) { buf := fun i => (s ++ [0]).getD i 0 } (0+(s.takeWhile isspace).length)
      (0+(s.takeWhile isspace).length) 0 [] (s.dropWhile isspace) :=
    ⟨trivial,hrest,List.not_mem_nil,fun h0 => hs ((List.dropWhile_sublist _).subset h0),Nat.add_zero _,by omega,
      Nat.zero_le _,nofun⟩
  rw [parseCDispIn,hscan,Option.bind_some]
  exact dispLoop_eq hinv ⟨trivial,trivial⟩ (by omega) (by omega)

theorem Shown.unique {buf : ℕ → Byte} {b b' : ℕ} {ptr : Option ℕ} {ref ref' : Option (ℕ × Bytes)}
    (h : Shown buf b ptr ref) (h' : Shown buf b' ptr ref') : ref = ref' := by
  match ptr,ref,ref' with
  | none,none,none => rfl
  | some p,some (o,v),some (o',v') =>
    obtain ⟨rfl,hv,hnul,-⟩ := h
    obtain ⟨rfl,hv',hnul',-⟩ := h'
    rw [hv.unique hv' hnul hnul']

/-- The names as `parseMulti` takes them. -/
def DispRefs.names (refs : DispRefs) : DispNames := ⟨refs.vname.map Prod.snd,refs.fname.map Prod.snd⟩

theorem dispRefs_names (len k : ℕ) (n : Bytes) (set : Bool) (refs : DispRefs) (p : Bytes) :
    (dispRefs len k n set refs p).map DispRefs.names = parseCDispLoop k n set refs.names p := by
  induction k generalizing n set refs p with
  | zero =>
    cases p with
    | nil => rfl
    | cons c p => rfl
  | succ k ih =>
    cases p with
    | nil => rfl
    | cons c p =>
      rw [dispRefs,parseCDispLoop]
      split_ifs
      · cases dispValue set (p.dropWhile isspace) with
        | none => rfl
        | some r =>
          have hput (v : ℕ × Bytes) : (refs.put n v).names = refs.names.put n v.2 := by
            unfold DispRefs.put DispNames.put
            split_ifs <;> rfl
          rw [Option.bind_some,Option.bind_some,ih,hput]
      · exact ih ..
      · exact ih ..

/-- The pointers are at the names that `parseCDisp` gives, and it gives none where the code leaves its string. -/
theorem parseCDisp_refines {s : Bytes} (hs : 0 ∉ s) :
    match parseCDisp s with
    | none => parseCDispIn s = none
    | some names => ∃ d refs, parseCDispIn s = some d ∧ DispShown d (s.length+1) refs ∧ refs.names = names := by
  have h := parseCDispIn_eq hs
  have hnames : (dispRefs s.length s.length [] false ⟨none,none⟩ (s.dropWhile isspace)).map DispRefs.names =
      parseCDisp s := dispRefs_names ..
  rw [← hnames]
  cases hrefs : dispRefs s.length s.length [] false ⟨none,none⟩ (s.dropWhile isspace) with
  | none =>
    rw [hrefs] at h
    exact h
  | some refs =>
    rw [hrefs] at h
    obtain ⟨d,hd,hshown⟩ := h
    exact ⟨d,refs,hd,hshown,rfl⟩

end Smx
