import Mathlib.Data.List.DropRight
import Smx.Cgi.Multi

/-! `ParseMulti` on the headers of a part, and `ParseCDisp` on its disposition. -/
namespace Smx

variable {bound n p q b rest : Bytes} {c_disp : Option Bytes} {c : Byte} {k : ℕ}

/-! ### The headers -/

theorem multiScan_next {m : Bytes} {d : Option Bytes} (h : multiStep bound n c_disp c p = some ([],m,d,q)) :
    multiScan bound n c_disp (c::p) = multiScan bound m d q := by
  rw [multiScan_cons,h,Option.bind_some]
  exact Option.map_id'

theorem multiScan_text {s : Bytes} (h : ∀ c ∈ s, c ≠ ch '\n' ∧ c ≠ ch ':') (p : Bytes) :
    multiScan bound n c_disp (s ++ p) = multiScan bound (n ++ s) c_disp p := by
  induction s generalizing n with
  | nil => rw [List.nil_append,List.append_nil]
  | cons c s ih =>
    obtain ⟨⟨hlf,hcolon⟩,hs⟩ := List.forall_mem_cons.mp h
    have hstep : multiStep bound n c_disp c (s ++ p) = some ([],n ++ [c],c_disp,s ++ p) := by
      rw [multiStep,if_neg hlf,if_neg hcolon]
    rw [List.cons_append,multiScan_next hstep,ih hs,List.append_assoc]
    rfl

theorem ne_of_not_isspace {d : Byte} (h : isspace c = false) (hd : isspace d = true) : c ≠ d := by
  rintro rfl
  exact absurd (hd.symm.trans h) (by decide)

/-- The end of a line in front of a header. -/
theorem multiScan_newline (h : isspace c = false) (p : Bytes) :
    multiScan bound n c_disp (ch '\n'::c::p) = multiScan bound [] c_disp (c::p) := by
  have hhead : (c::p).head? ≠ some (ch '\n') := fun heq => ne_of_not_isspace h (by decide) (Option.some.inj heq)
  have htake : (c::p).take 2 ≠ [ch '\r',ch '\n'] := fun heq => ne_of_not_isspace h (by decide) (List.cons.inj heq).1
  refine multiScan_next ?_
  rw [multiStep,if_pos rfl,lineEnd,if_neg hhead,if_neg htake,
    List.dropWhile_cons_of_neg (by rw [h]; exact Bool.false_ne_true)]

/-- What `c_disp` is behind a header. -/
def dispOf (name v : Bytes) (c_disp : Option Bytes) : Option Bytes :=
  if SameName name (str "content-disposition") then some v else c_disp

theorem multiScan_colon {name : Bytes} (hname : ∀ c ∈ name, isspace c = false ∧ c ≠ ch ':' ∧ c ≠ 0) (p : Bytes) :
    multiScan bound [] c_disp (name ++ ch ':'::p) =
      multiScan bound [] (dispOf name (headerValue p).1 c_disp) (headerValue p).2 := by
  have hnul : cstr name = name := cstr_of_nul_free fun h => (hname 0 h).2.2 rfl
  have hstep : multiStep bound name c_disp (ch ':') p =
      some ([],[],dispOf name (headerValue p).1 c_disp,(headerValue p).2) := by
    rw [multiStep,if_neg (by decide),if_pos rfl,hnul]
    rfl
  rw [multiScan_text fun c hc => ⟨ne_of_not_isspace (hname c hc).1 (by decide),(hname c hc).2.1⟩,List.nil_append,
    multiScan_next hstep]

theorem multiScan_header {name v sp : Bytes} (hname : ∀ c ∈ name, isspace c = false ∧ c ≠ ch ':' ∧ c ≠ 0)
    (hv : headerValue p = (v,sp ++ ch '\n'::rest)) (hsp : ∀ c ∈ sp, isspace c = true ∧ c ≠ ch '\n')
    (c_disp : Option Bytes) :
    ∃ m, multiScan bound [] c_disp (name ++ ch ':'::p) = multiScan bound m (dispOf name v c_disp) (ch '\n'::rest) := by
  refine ⟨sp,?_⟩
  rw [multiScan_colon hname,hv,multiScan_text fun c hc => ⟨(hsp c hc).2,?_⟩,List.nil_append]
  rintro rfl
  exact absurd (hsp _ hc).1 (by decide)

theorem isspace_crlf : ∀ c ∈ crlf, isspace c = true := by simp [crlf,ch,isspace]

/-- The value of a header is the next line that is not blank. -/
theorem headerValue_line {sp w : Bytes} (hc : w.head? = some c) (hsp : ∀ d ∈ sp, isspace d = true)
    (hspace : isspace c = false) (hw : ∀ d ∈ w, d ≠ ch '\n' ∧ d ≠ 0) (rest : Bytes) :
    ∃ bl, headerValue (sp ++ (w ++ (crlf ++ rest))) = (rtrim w,bl ++ ch '\n'::rest) ∧
      ∀ d ∈ bl, isspace d = true ∧ d ≠ ch '\n' := by
  have hsplit : rtrim w ++ w.rtakeWhile isspace = w := List.rdropWhile_append_rtakeWhile
  have hv1 : (sp ++ (w ++ (crlf ++ rest))).dropWhile isspace = w ++ (crlf ++ rest) := by
    obtain ⟨u,rfl⟩ := List.head?_eq_some_iff.mp hc
    rw [List.dropWhile_append_of_pos hsp,List.cons_append,
      List.dropWhile_cons_of_neg (by rw [hspace]; exact Bool.false_ne_true)]
  have hline : (w ++ (crlf ++ rest)).takeWhile (fun d => d != ch '\n' && d != 0) = w ++ [ch '\r'] := by
    have hpos : ∀ d ∈ w ++ [ch '\r'], (d != ch '\n' && d != 0) = true := by
      intro d hd
      obtain hd | hd := List.mem_append.mp hd
      · simpa using hw d hd
      · obtain rfl := List.mem_singleton.mp hd
        decide
    have heq : w ++ (crlf ++ rest) = w ++ [ch '\r'] ++ ch '\n'::rest := by simp [crlf]
    rw [heq,List.takeWhile_append_of_pos hpos,List.takeWhile_cons_of_neg (by decide),List.append_nil]
  have htrim : rtrim (w ++ [ch '\r']) = rtrim w := List.rdropWhile_concat_pos isspace _ _ (by decide)
  have hdrop : (w ++ (crlf ++ rest)).drop ((rtrim w).length+1) =
      (w.rtakeWhile isspace ++ [ch '\r']).tail ++ ch '\n'::rest := by
    have heq : w ++ (crlf ++ rest) = rtrim w ++ (w.rtakeWhile isspace ++ [ch '\r'] ++ ch '\n'::rest) := by
      conv_lhs => rw [← hsplit]
      simp [crlf]
    rw [heq,List.drop_length_add_append,List.drop_one,List.tail_append_of_ne_nil]
    exact List.append_ne_nil_of_right_ne_nil _ (List.cons_ne_nil _ _)
  refine ⟨(w.rtakeWhile isspace ++ [ch '\r']).tail,?_,fun d hd => ?_⟩
  · have hne : w ++ [ch '\r'] ≠ [] := List.append_ne_nil_of_right_ne_nil _ (List.cons_ne_nil _ _)
    rw [headerValue]
    simp only [hv1,hline,htrim,hdrop,if_neg hne]
  · obtain hd | hd := List.mem_append.mp (List.mem_of_mem_tail hd)
    · exact ⟨List.mem_rtakeWhile_imp hd,(hw d ((List.rtakeWhile_suffix isspace w).subset hd)).1⟩
    · obtain rfl := List.mem_singleton.mp hd
      exact ⟨by decide,by decide⟩

/-- Behind blanks and a NUL nothing is left of the header, and the text goes on behind the byte after the colon. -/
theorem headerValue_nul {v : Bytes} (hv : ∀ c ∈ v, isspace c = true ∧ c ≠ ch '\n')
    (hrest : (rest.dropWhile isspace).head? = some 0) :
    ∃ bl, headerValue (v ++ (crlf ++ rest)) = ([],bl ++ ch '\n'::rest) ∧ ∀ d ∈ bl, isspace d = true ∧ d ≠ ch '\n' := by
  have hv1 : (v ++ (crlf ++ rest)).dropWhile isspace = rest.dropWhile isspace := by
    rw [List.dropWhile_append_of_pos fun c hc => (hv c hc).1,List.dropWhile_append_of_pos isspace_crlf]
  obtain ⟨s,hs⟩ := List.head?_eq_some_iff.mp hrest
  refine ⟨(v ++ [ch '\r']).tail,?_,fun d hd => ?_⟩
  · have heq : v ++ (crlf ++ rest) = v ++ [ch '\r'] ++ ch '\n'::rest := by simp [crlf]
    rw [headerValue]
    simp only [hv1,hs]
    rw [List.takeWhile_cons_of_neg (by decide),if_pos rfl,heq,List.tail_append_of_ne_nil]
    exact List.append_ne_nil_of_right_ne_nil _ (List.cons_ne_nil _ _)
  · obtain hd | hd := List.mem_append.mp (List.mem_of_mem_tail hd)
    · exact hv d hd
    · obtain rfl := List.mem_singleton.mp hd
      exact ⟨by decide,by decide⟩

theorem Header.text_append (h : Header) (rest : Bytes) :
    h.text ++ rest = h.name ++ ch ':'::(h.value ++ (crlf ++ rest)) := by
  simp [Header.text]

/-- A header with a value. -/
theorem multiScan_filled (bound : Bytes) {h : Header} (hh : h.WellFormed) (hblank : h.blank = false) (rest : Bytes)
    (c_disp : Option Bytes) :
    ∃ m, multiScan bound [] c_disp (h.text ++ rest) =
      multiScan bound m (dispOf h.name (trim h.value) c_disp) (ch '\n'::rest) := by
  have hsplit : h.value.takeWhile isspace ++ h.value.dropWhile isspace = h.value := List.takeWhile_append_dropWhile
  have hne : h.value.dropWhile isspace ≠ [] := by
    intro hnil
    rw [List.dropWhile_eq_nil_iff] at hnil
    exact absurd (List.all_eq_true.mpr hnil) (by rw [Header.blank] at hblank; rw [hblank]; decide)
  obtain ⟨c,u,hu⟩ := List.exists_cons_of_ne_nil hne
  obtain ⟨bl,hvalue,hbl⟩ := headerValue_line (by rw [hu]; rfl) (fun c hc => List.mem_takeWhile_imp hc)
    (isspace_of_dropWhile hu) (fun d hd => hh.value d ((List.dropWhile_suffix _).subset hd)) rest
  rw [← List.append_assoc,hsplit] at hvalue
  rw [Header.text_append]
  exact multiScan_header hh.token hvalue hbl c_disp

/-- A header without a value takes the next one for it. -/
theorem multiScan_blank (bound : Bytes) {h g : Header} (hh : h.WellFormed) (hblank : h.blank = true) (hg : g.WellFormed)
    (hd : ¬IsDisposition h.name) (rest : Bytes) (c_disp : Option Bytes) :
    ∃ m, multiScan bound [] c_disp (h.text ++ (g.text ++ rest)) = multiScan bound m c_disp (ch '\n'::rest) := by
  obtain ⟨c,u,hu⟩ := List.exists_cons_of_ne_nil hg.name
  have hspace := (hg.token c (by rw [hu]; exact List.mem_cons_self)).1
  have hline : ∀ d ∈ g.name ++ ch ':'::g.value, d ≠ ch '\n' ∧ d ≠ 0 := by
    intro d hd
    obtain hd | hd := List.mem_append.mp hd
    · exact ⟨ne_of_not_isspace (hg.token d hd).1 (by decide),(hg.token d hd).2.2⟩
    · obtain rfl | hd := List.mem_cons.mp hd
      · exact ⟨by decide,by decide⟩
      · exact hg.value d hd
  have hfront : ∀ d ∈ h.value ++ crlf, isspace d = true := fun d hd =>
    (List.mem_append.mp hd).elim (List.all_eq_true.mp hblank d) (isspace_crlf d)
  have hhead : (g.name ++ ch ':'::g.value).head? = some c := by rw [hu]; rfl
  obtain ⟨bl,hvalue,hbl⟩ := headerValue_line hhead hfront hspace hline rest
  have hdisp : dispOf h.name (rtrim (g.name ++ ch ':'::g.value)) c_disp = c_disp := if_neg hd
  have htext : h.value ++ (crlf ++ (g.text ++ rest)) = h.value ++ crlf ++ (g.name ++ ch ':'::g.value ++ (crlf ++ rest)) := by
    simp [Header.text]
  obtain ⟨m,hm⟩ := multiScan_header hh.token hvalue hbl c_disp
  rw [hdisp] at hm
  exact ⟨m,by rw [Header.text_append,htext]; exact hm⟩

theorem multiScan_nul {h : Header} (hh : h.WellFormed) (hblank : h.blank = true) (hd : ¬IsDisposition h.name)
    (hrest : (rest.dropWhile isspace).head? = some 0) (c_disp : Option Bytes) :
    ∃ m, multiScan bound [] c_disp (h.text ++ rest) = multiScan bound m c_disp (ch '\n'::rest) := by
  obtain ⟨bl,hvalue,hbl⟩ := headerValue_nul (fun c hc => ⟨List.all_eq_true.mp hblank c hc,(hh.value c hc).1⟩) hrest
  obtain ⟨m,hm⟩ := multiScan_header hh.token hvalue hbl c_disp
  have hdisp : dispOf h.name [] c_disp = c_disp := if_neg hd
  rw [hdisp] at hm
  exact ⟨m,by rw [Header.text_append]; exact hm⟩

/-- Where the value begins with a byte of the text, two bytes of it are gone at least. -/
theorem headerValue_begun {r : Bytes} (hp : p.dropWhile isspace = c::r) (hspace : isspace c = false) (hc : c ≠ 0) :
    (headerValue p).2 <:+ r.tail := by
  have hlf : c ≠ ch '\n' := ne_of_not_isspace hspace (by decide)
  have hline : (c::r).takeWhile (fun d => d != ch '\n' && d != 0) =
      c::r.takeWhile fun d => d != ch '\n' && d != 0 := List.takeWhile_cons_of_pos (by simp [hlf,hc])
  obtain ⟨k,hk⟩ : ∃ k, (rtrim (c::r.takeWhile fun d => d != ch '\n' && d != 0)).length = k+1 := by
    refine Nat.exists_eq_add_one.mpr (List.length_pos_iff.mpr fun hnil => ?_)
    rw [rtrim,List.rdropWhile_eq_nil_iff] at hnil
    exact absurd (hnil c List.mem_cons_self) (by rw [hspace]; exact Bool.false_ne_true)
  rw [headerValue]
  simp only [hp,hline,if_neg (List.cons_ne_nil _ _),hk,List.drop_succ_cons]
  rw [← List.drop_tail]
  exact List.drop_suffix k r.tail


/-- The next header begins behind the end of a line. -/
theorem multiScan_next_header {g : Header} (hg : g.WellFormed) (rest : Bytes) :
    multiScan bound n c_disp (ch '\n'::(g.text ++ rest)) = multiScan bound [] c_disp (g.text ++ rest) := by
  obtain ⟨c,u,hu⟩ := List.exists_cons_of_ne_nil hg.name
  rw [Header.text_append,hu,List.cons_append]
  exact multiScan_newline (hg.token c (by rw [hu]; exact List.mem_cons_self)).1 _

/-- `c_disp` behind the headers that are read. -/
def dispAfter (hs : List Header) (c_disp : Option Bytes) : Option Bytes :=
  hs.foldl (fun d h => dispOf h.name (trim h.value) d) c_disp

theorem dropWhile_append_head {s t : Bytes} (h : (s.dropWhile isspace).head? = some c) :
    (s ++ t).dropWhile isspace = s.dropWhile isspace ++ t := by
  rw [List.dropWhile_append,if_neg]
  intro hnil
  rw [List.isEmpty_iff.mp hnil] at h
  cases h

/-- What the loop has come to behind the headers: the blank line, or a place in the body or behind it, at least two
bytes from where the body begins. -/
def HeadersEnd (bound body t : Bytes) (c_disp : Option Bytes) (r : Option (List Upload)) :
    Option (List Header) → Prop
  | some hs => ∃ m, r = multiScan bound m (dispAfter hs c_disp) (ch '\n'::(crlf ++ (body ++ t)))
  | none => ∃ m d q, r = multiScan bound m d q ∧ q <:+ body ++ t ∧ q.length+2 ≤ (body ++ t).length

theorem HeadersEnd.cons {body t : Bytes} {r : Option (List Upload)} {hs : Option (List Header)} {h : Header}
    (hend : HeadersEnd bound body t (dispOf h.name (trim h.value) c_disp) r hs) :
    HeadersEnd bound body t c_disp r (hs.map (h::·)) := by
  cases hs with
  | none => exact hend
  | some hs => exact hend

/-- The last header, without a value, takes the beginning of the body. -/
theorem multiScan_spoilt {body : Bytes} {h : Header} (hh : h.WellFormed) (hblank : h.blank = true)
    (hnul : (body.dropWhile isspace).head? ≠ some 0) (s : Bytes) (c_disp : Option Bytes) :
    HeadersEnd bound body (ch '\r'::(delimiter bound ++ s)) c_disp
      (multiScan bound [] c_disp (h.text ++ (crlf ++ (body ++ ch '\r'::(delimiter bound ++ s))))) none := by
  -- the first byte that is no blank, and another one behind it
  obtain ⟨c,e,r,hr,hspace,hc⟩ : ∃ c e r, (body ++ ch '\r'::(delimiter bound ++ s)).dropWhile isspace = c::e::r ∧
      isspace c = false ∧ c ≠ 0 := by
    cases hbody : body.dropWhile isspace with
    | nil =>
      refine ⟨ch '-',ch '-',bound ++ s,?_,by decide,by decide⟩
      rw [List.dropWhile_append_of_pos (List.dropWhile_eq_nil_iff.mp hbody)]
      rfl
    | cons c u =>
      have hhead : (body.dropWhile isspace).head? = some c := by rw [hbody]; rfl
      have hspace := isspace_of_dropWhile hbody
      obtain ⟨e,r,hr⟩ : ∃ e r, u ++ ch '\r'::(delimiter bound ++ s) = e::r :=
        List.exists_cons_of_ne_nil (List.append_ne_nil_of_right_ne_nil _ (List.cons_ne_nil _ _))
      refine ⟨c,e,r,?_,hspace,fun hc => hnul (hc ▸ hhead)⟩
      rw [dropWhile_append_head hhead,hbody,List.cons_append,hr]
  have hdrop : (h.value ++ (crlf ++ (crlf ++ (body ++ ch '\r'::(delimiter bound ++ s))))).dropWhile isspace = c::e::r := by
    rw [List.dropWhile_append_of_pos (List.all_eq_true.mp hblank),List.dropWhile_append_of_pos isspace_crlf,
      List.dropWhile_append_of_pos isspace_crlf,hr]
  have hsuf := headerValue_begun hdrop hspace hc
  have htext : c::e::r <:+ body ++ ch '\r'::(delimiter bound ++ s) := hr ▸ List.dropWhile_suffix _
  rw [HeadersEnd,Header.text_append,multiScan_colon hh.token]
  exact ⟨_,_,_,rfl,hsuf.trans (((List.suffix_cons e r).trans (List.suffix_cons c _)).trans htext),
    (Nat.add_le_add_right hsuf.length_le 2).trans htext.length_le⟩

theorem multiScan_headers (bound body : Bytes) {l : List Header} (hl : ∀ h ∈ l, h.WellFormed)
    (hdisp : ∀ h ∈ l, h.blank = true → ¬IsDisposition h.name) (hne : l ≠ []) (s : Bytes) (c_disp : Option Bytes) :
    HeadersEnd bound body (ch '\r'::(delimiter bound ++ s)) c_disp (multiScan bound [] c_disp
      (l.flatMap Header.text ++ (crlf ++ (body ++ ch '\r'::(delimiter bound ++ s))))) (headersRead body l) := by
  generalize ht : crlf ++ (body ++ ch '\r'::(delimiter bound ++ s)) = t
  fun_induction headersRead body l generalizing c_disp with
  | case1 => exact absurd rfl hne
  | case2 h hlost =>
    rw [List.flatMap_singleton,← ht]
    exact multiScan_spoilt (hl h List.mem_cons_self) hlost.1 hlost.2 s c_disp
  | case3 h hkept =>
    have hh := hl h List.mem_cons_self
    rw [List.flatMap_singleton,← ht]
    cases hblank : h.blank with
    | false => exact multiScan_filled bound hh hblank _ c_disp
    | true =>
      have hd := hdisp h List.mem_cons_self hblank
      have hnul : (body.dropWhile isspace).head? = some 0 := by
        by_contra hnul
        exact hkept ⟨hblank,hnul⟩
      have hrest : ((crlf ++ (body ++ ch '\r'::(delimiter bound ++ s))).dropWhile isspace).head? = some 0 := by
        rw [List.dropWhile_append_of_pos isspace_crlf,dropWhile_append_head hnul,List.head?_append,hnul]
        rfl
      have hsame : dispAfter [h] c_disp = c_disp := if_neg hd
      rw [HeadersEnd,hsame]
      exact multiScan_nul hh hblank hd hrest c_disp
  | case4 h g hs hblank ih =>
    obtain ⟨hh,hrest⟩ := List.forall_mem_cons.mp hl
    obtain ⟨hg,hhs⟩ := List.forall_mem_cons.mp hrest
    have hd := hdisp h List.mem_cons_self hblank
    have hsame : dispOf h.name (trim h.value) c_disp = c_disp := if_neg hd
    obtain ⟨m,hm⟩ := multiScan_blank bound hh hblank hg hd (hs.flatMap Header.text ++ t) c_disp
    refine HeadersEnd.cons ?_
    rw [List.flatMap_cons,List.flatMap_cons,List.append_assoc,List.append_assoc,hm,hsame]
    cases hs with
    | nil => exact ⟨m,by rw [ht]; rfl⟩
    | cons f fs =>
      rw [List.flatMap_cons,List.append_assoc,multiScan_next_header (hhs f List.mem_cons_self)]
      rw [List.flatMap_cons,List.append_assoc] at ih
      exact ih hhs (fun h' hh' => hdisp h' (List.mem_cons_of_mem _ (List.mem_cons_of_mem _ hh')))
        (List.cons_ne_nil _ _) c_disp
  | case5 h g hs hblank ih =>
    obtain ⟨hh,hrest⟩ := List.forall_mem_cons.mp hl
    obtain ⟨m,hm⟩ := multiScan_filled bound hh (Bool.eq_false_iff.mpr hblank) ((g::hs).flatMap Header.text ++ t)
      c_disp
    refine HeadersEnd.cons ?_
    rw [List.flatMap_cons,List.append_assoc,hm,List.flatMap_cons,List.append_assoc,
      multiScan_next_header (hrest g List.mem_cons_self)]
    rw [List.flatMap_cons,List.append_assoc] at ih
    exact ih hrest (fun h' hh' => hdisp h' (List.mem_cons_of_mem _ hh')) (List.cons_ne_nil _ _) _

/-! ### The disposition -/

theorem parseCDispLoop_text {s : Bytes} (h : ∀ c ∈ s, c ≠ ch '=' ∧ c ≠ ch ';') (set : Bool) (names : DispNames)
    (p : Bytes) : parseCDispLoop (s.length+k) n set names (s ++ p) = parseCDispLoop k (n ++ s) set names p := by
  induction s generalizing n with
  | nil => rw [List.length_nil,Nat.zero_add,List.nil_append,List.append_nil]
  | cons c s ih =>
    obtain ⟨⟨heq,hsemi⟩,hs⟩ := List.forall_mem_cons.mp h
    rw [List.length_cons,Nat.succ_add,List.cons_append,parseCDispLoop,if_neg heq,if_neg hsemi,ih hs,List.append_assoc]
    rfl

/-- A text without `=` has no names. -/
theorem parseCDisp_plain {s : Bytes} (h : ch '=' ∉ s) : parseCDisp s = some ⟨none,none⟩ := by
  have hloop (k : ℕ) (n p : Bytes) (hk : p.length ≤ k) (hp : ch '=' ∉ p) :
      parseCDispLoop k n false ⟨none,none⟩ p = some ⟨none,none⟩ := by
    induction k generalizing n p with
    | zero =>
      obtain rfl := List.length_eq_zero_iff.mp (Nat.le_zero.mp hk)
      rw [parseCDispLoop]
    | succ k ih =>
      cases p with
      | nil => rw [parseCDispLoop]
      | cons c p =>
        obtain ⟨hc,hp⟩ := not_or.mp (mt List.mem_cons.mpr hp)
        have hle := Nat.le_of_succ_le_succ hk
        rw [parseCDispLoop,if_neg (Ne.symm hc)]
        split_ifs
        · exact ih _ _ ((List.dropWhile_suffix _).length_le.trans hle) fun h => hp ((List.dropWhile_suffix _).subset h)
        · exact ih _ _ hle hp
  exact hloop _ _ _ (List.dropWhile_suffix _).length_le fun hmem => h ((List.dropWhile_suffix _).subset hmem)

/-- The names and values put down for parameters. -/
def DispNames.putAll (names : DispNames) (params : List Param) : DispNames :=
  params.foldl (fun names q => names.put q.key (rtrim q.value)) names

/-- What stands behind the gap of a parameter. -/
def Param.inner (q : Param) : Bytes := q.key ++ ch '='::ch '"'::q.value ++ [ch '"']

theorem Param.inner_next {q : Param} (hq : q.WellFormed) (p : Bytes) :
    ((q.text ++ p).drop 1).dropWhile isspace = q.inner ++ p := by
  have htext : q.text ++ p = ch ';'::(q.gap ++ (q.inner ++ p)) := by simp [text,inner]
  rw [htext,List.drop_one,List.tail_cons,List.dropWhile_append_of_pos fun c hc => (hq.gap c hc).1,inner]
  cases hkey : q.key with
  | nil => rfl
  | cons c s =>
    have hc := (hq.key c (by rw [hkey]; exact List.mem_cons_self)).1
    exact List.dropWhile_cons_of_neg (by rw [hc]; exact Bool.false_ne_true)

/-- A value in quotes, and where the next name begins. -/
theorem dispValue_quoted {value : Bytes} (h : ch '"' ∉ value) (set : Bool) (p : Bytes) :
    dispValue set ((ch '"'::(value ++ ch '"'::p)).dropWhile isspace) =
      some (rtrim value,(p.drop 1).dropWhile isspace) := by
  have hvalue : ∀ c ∈ value, (c != ch '"') = true := fun c hc => bne_iff_ne.mpr (ne_of_mem_of_not_mem hc h)
  have htake : (value ++ ch '"'::p).takeWhile (· != ch '"') = value := by
    rw [List.takeWhile_append_of_pos hvalue,List.takeWhile_cons_of_neg (by simp),List.append_nil]
  have hdrop : (value ++ ch '"'::p).dropWhile (· != ch '"') = ch '"'::p := by
    rw [List.dropWhile_append_of_pos hvalue,List.dropWhile_cons_of_neg (by simp)]
  have hclosed : ch '"' ∈ (ch '"'::(value ++ ch '"'::p)).tail := List.mem_append_right value List.mem_cons_self
  rw [List.dropWhile_cons_of_neg (by decide),dispValue,if_pos List.head?_cons,if_pos hclosed,List.tail_cons,htake,hdrop]
  rfl

/-- A parameter is put down, and the next name begins where the next parameter's does. -/
theorem parseCDispLoop_param {q : Param} (hq : q.WellFormed) (set : Bool) (names : DispNames) {p : Bytes}
    (hk : (q.inner ++ p).length ≤ k) : ∃ j, p.length ≤ j ∧ parseCDispLoop k [] set names (q.inner ++ p) =
      parseCDispLoop j [] true (names.put q.key (rtrim q.value)) ((p.drop 1).dropWhile isspace) := by
  have hinner : q.inner ++ p = q.key ++ ch '='::(ch '"'::(q.value ++ ch '"'::p)) := by simp [Param.inner]
  have hdisp := dispValue_quoted (fun hc => (hq.value _ hc).1 rfl) set p
  rw [hinner] at hk ⊢
  obtain ⟨j,rfl⟩ : ∃ j, k = q.key.length+(j+1) := by
    rw [List.length_append,List.length_cons] at hk
    exact ⟨k-q.key.length-1,by omega⟩
  refine ⟨j,?_,?_⟩
  · simp only [List.length_append,List.length_cons] at hk
    omega
  · rw [parseCDispLoop_text fun c hc => ⟨(hq.key c hc).2.1,(hq.key c hc).2.2.1⟩,parseCDispLoop,if_pos rfl,hdisp]
    rfl

theorem parseCDispLoop_params {q : Param} {params : List Param} (hq : q.WellFormed)
    (hparams : ∀ r ∈ params, r.WellFormed) (set : Bool) (names : DispNames)
    (hk : (q.inner ++ params.flatMap Param.text).length ≤ k) :
    parseCDispLoop k [] set names (q.inner ++ params.flatMap Param.text) = some (names.putAll (q::params)) := by
  induction params generalizing q set names k with
  | nil =>
    obtain ⟨j,-,heq⟩ := parseCDispLoop_param hq set names hk
    rw [heq,List.flatMap_nil]
    exact parseCDispLoop.eq_1 ..
  | cons r params ih =>
    obtain ⟨hr,hparams⟩ := List.forall_mem_cons.mp hparams
    obtain ⟨j,hj,heq⟩ := parseCDispLoop_param hq set names hk
    have hnext : (((r::params).flatMap Param.text).drop 1).dropWhile isspace = r.inner ++ params.flatMap Param.text :=
      Param.inner_next hr _
    have hlen : (r.inner ++ params.flatMap Param.text).length ≤ j := by
      rw [← hnext]
      exact ((List.dropWhile_suffix _).trans (List.drop_suffix _ _)).length_le.trans hj
    rw [heq,hnext,ih hr hparams true _ hlen]
    rfl

theorem dropWhile_params (kind : Bytes) (q : Param) (params : List Param) :
    (kind ++ (q::params).flatMap Param.text).dropWhile isspace =
      kind.dropWhile isspace ++ (q::params).flatMap Param.text := by
  rw [List.dropWhile_append]
  split_ifs with hall
  · rw [List.isEmpty_iff.mp hall]
    rfl
  · rfl

/-- Blanks around the parameters are all in front of them. -/
theorem trim_params (kind : Bytes) (q : Param) (params : List Param) :
    trim (kind ++ (q::params).flatMap Param.text) = kind.dropWhile isspace ++ (q::params).flatMap Param.text := by
  obtain ⟨s,hs⟩ : ∃ s, (q::params).flatMap Param.text = s ++ [ch '"'] := by
    obtain h | ⟨init,r,h⟩ := List.eq_nil_or_concat (q::params)
    · cases h
    · refine ⟨init.flatMap Param.text ++ (ch ';'::r.gap ++ r.key ++ ch '='::ch '"'::r.value),?_⟩
      rw [h,List.concat_eq_append,List.flatMap_append,List.flatMap_singleton,Param.text]
      simp only [List.append_assoc]
  rw [trim,dropWhile_params,hs,← List.append_assoc]
  exact List.rdropWhile_concat_neg isspace _ _ (by decide)

/-- All the parameters of a disposition are put down. -/
theorem parseCDisp_params {kind : Bytes} (hkind : ∀ c ∈ kind, c ≠ ch '=' ∧ c ≠ ch ';') {q : Param}
    {params : List Param} (hparams : ∀ r ∈ q::params, r.WellFormed) :
    parseCDisp (trim (kind ++ (q::params).flatMap Param.text)) = some (DispNames.putAll ⟨none,none⟩ (q::params)) := by
  obtain ⟨hq,hrest⟩ := List.forall_mem_cons.mp hparams
  have hnext : (((q::params).flatMap Param.text).drop 1).dropWhile isspace = q.inner ++ params.flatMap Param.text :=
    Param.inner_next hq _
  obtain ⟨s,hs⟩ : ∃ s, (q::params).flatMap Param.text = ch ';'::s := ⟨_,rfl⟩
  have hstart : (kind.dropWhile isspace ++ (q::params).flatMap Param.text).dropWhile isspace =
      kind.dropWhile isspace ++ (q::params).flatMap Param.text := by
    rw [← dropWhile_params]
    exact List.dropWhile_idempotent isspace _
  rw [trim_params,parseCDisp,hstart,List.length_append,
    parseCDispLoop_text fun c hc => hkind c ((List.dropWhile_suffix _).subset hc)]
  rw [hs,List.drop_one,List.tail_cons] at hnext
  rw [hs,List.length_cons,parseCDispLoop,if_neg (by decide),if_pos rfl,hnext]
  refine parseCDispLoop_params hq hrest false _ ?_
  rw [← hnext]
  exact (List.dropWhile_suffix _).length_le

theorem valuesOf_cons (name : Bytes) (q : Param) (params : List Param) : valuesOf name (q::params) =
    if SameName q.key name then q.value::valuesOf name params else valuesOf name params := by
  rw [valuesOf,valuesOf,List.filter_cons]
  simp only [decide_eq_true_eq]
  split_ifs
  · rfl
  · rfl

/-- Of several parameters with one name the last one counts. -/
theorem putAll_names (names : DispNames) (params : List Param) :
    names.putAll params =
      ⟨((valuesOf (str "name") params).getLast?.map rtrim).or names.vname,
        ((valuesOf (str "filename") params).getLast?.map rtrim).or names.fname⟩ := by
  have hlast (l : List Bytes) (v : Bytes) (o : Option Bytes) :
      (l.getLast?.map rtrim).or (some (rtrim v)) = ((v::l).getLast?.map rtrim).or o := by
    rw [List.getLast?_cons]
    cases l.getLast? with
    | none => rfl
    | some w => rfl
  induction params generalizing names with
  | nil => rfl
  | cons q params ih =>
    have hstep : names.putAll (q::params) = (names.put q.key (rtrim q.value)).putAll params := rfl
    rw [hstep,ih,DispNames.put,valuesOf_cons,valuesOf_cons]
    by_cases hname : SameName q.key (str "name")
    · have hfile : ¬SameName q.key (str "filename") := fun h =>
        absurd (hname.symm.trans h) (by decide)
      rw [if_pos hname,if_pos hname,if_neg hfile]
      exact congrArg (DispNames.mk · _) (hlast _ _ _)
    · rw [if_neg hname,if_neg hname]
      by_cases hfile : SameName q.key (str "filename")
      · rw [if_pos hfile,if_pos hfile]
        exact congrArg (DispNames.mk _) (hlast _ _ _)
      · rw [if_neg hfile,if_neg hfile]

/-- The names that come from the disposition of a part. -/
theorem Part.WellFormed.names {p : Part} (hp : p.WellFormed bound) :
    parseCDisp (trim p.disposition.value) = some ⟨some (rtrim p.name),p.file.map rtrim⟩ := by
  obtain ⟨q,params,hparams⟩ : ∃ q params, p.params = q::params := by
    refine List.exists_cons_of_ne_nil fun hnil => ?_
    have hname := hp.name
    rw [hnil] at hname
    cases hname
  have hall : ∀ r ∈ q::params, r.WellFormed := hparams ▸ hp.params
  have hparse := parseCDisp_params (fun c hc => ⟨(hp.kind c hc).1,(hp.kind c hc).2.1⟩) hall
  rw [← hparams,putAll_names,hp.name,hp.file] at hparse
  refine hparse.trans (congrArg some (congrArg (DispNames.mk _) ?_))
  cases p.file with
  | none => rfl
  | some f => rfl
end Smx
