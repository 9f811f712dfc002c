import Smx.Cgi.MultiHeaders

/-! Which parts of a form `ParseMulti` gives back as they were sent. -/
namespace Smx

variable {bound n p q b rest : Bytes} {c_disp : Option Bytes} {c : Byte} {k : ℕ}

/-! ### A part -/

namespace Part.WellFormed
variable {p : Part}

theorem label_token (hp : p.WellFormed bound) : ∀ c ∈ p.label, isspace c = false ∧ c ≠ ch ':' ∧ c ≠ 0 := by
  have hsame : ∀ c : Byte, isspace c = true ∨ c = ch ':' ∨ c = 0 → tolower c = c := by
    grind [tolower,isspace,ch]
  have hlabel : ∀ c ∈ (str "content-disposition").map tolower, ¬(isspace c = true ∨ c = ch ':' ∨ c = 0) := by
    simp [str,ch,isspace,tolower]
  intro c hc
  have hmem : tolower c ∈ (str "content-disposition").map tolower := hp.label ▸ List.mem_map_of_mem hc
  have hno : ¬(isspace c = true ∨ c = ch ':' ∨ c = 0) := fun h => hlabel _ hmem (by rw [hsame c h]; exact h)
  obtain ⟨hspace,hrest⟩ := not_or.mp hno
  exact ⟨Bool.eq_false_iff.mpr hspace,not_or.mp hrest⟩

theorem disposition (hp : p.WellFormed bound) : p.disposition.WellFormed := by
  refine ⟨fun hnil => ?_,hp.label_token,fun c hc => ?_⟩
  · have hlabel := hp.label
    rw [show p.label = [] from hnil] at hlabel
    cases hlabel
  · have hnul : ∀ c : Byte, isspace c = true → c ≠ 0 := by
      rintro c hc rfl
      cases hc
    obtain hc | hc := List.mem_append.mp hc
    · exact (hp.kind c hc).2.2
    · obtain ⟨q,hq,hc⟩ := List.mem_flatMap.mp hc
      have hq := hp.params q hq
      simp only [Param.text,List.cons_append,List.append_assoc,List.mem_cons,List.mem_append,List.not_mem_nil,
        or_false] at hc
      obtain rfl | hc | hc | rfl | rfl | hc | rfl := hc
      · exact ⟨by decide,by decide⟩
      · exact ⟨(hq.gap c hc).2,hnul c (hq.gap c hc).1⟩
      · exact ⟨ne_of_not_isspace (hq.key c hc).1 (by decide),(hq.key c hc).2.2.2⟩
      · exact ⟨by decide,by decide⟩
      · exact ⟨by decide,by decide⟩
      · exact (hq.value c hc).2
      · exact ⟨by decide,by decide⟩

theorem disposition_filled (hp : p.WellFormed bound) : p.disposition.blank = false := by
  obtain ⟨q,params,hparams⟩ : ∃ q params, p.params = q::params := by
    refine List.exists_cons_of_ne_nil fun hnil => ?_
    have hname := hp.name
    rw [hnil] at hname
    cases hname
  have hmem : ch ';' ∈ p.disposition.value := by
    rw [Part.disposition,hparams]
    exact List.mem_append_right p.kind List.mem_cons_self
  refine Bool.eq_false_iff.mpr fun hall => ?_
  exact absurd (List.all_eq_true.mp hall _ hmem) (by decide)

theorem mem_headers {h : Header} (hh : h ∈ p.headers) : h = p.disposition ∨ h ∈ p.before ++ p.after := by
  rw [headers,List.mem_append,List.mem_cons] at hh
  obtain hh | rfl | hh := hh
  · exact .inr (List.mem_append_left _ hh)
  · exact .inl rfl
  · exact .inr (List.mem_append_right _ hh)

theorem headers (hp : p.WellFormed bound) : ∀ h ∈ p.headers, h.WellFormed := by
  intro h hh
  obtain rfl | hh := mem_headers hh
  · exact hp.disposition
  · exact (hp.further h hh).1

theorem eq_disposition (hp : p.WellFormed bound) {h : Header} (hh : h ∈ p.headers) (hd : IsDisposition h.name) :
    h = p.disposition :=
  (mem_headers hh).resolve_right fun hmem => (hp.further h hmem).2 hd

theorem not_disposition (hp : p.WellFormed bound) : ∀ h ∈ p.headers, h.blank = true → ¬IsDisposition h.name := by
  intro h hh hblank hd
  rw [hp.eq_disposition hh hd] at hblank
  exact absurd (hblank.symm.trans hp.disposition_filled) (by decide)

end Part.WellFormed

theorem headersRead_subset {body : Bytes} {l hs : List Header} (hread : headersRead body l = some hs) : hs ⊆ l := by
  fun_induction headersRead body l generalizing hs with
  | case1 => exact Option.some.inj hread ▸ List.Subset.refl _
  | case2 h hlost => cases hread
  | case3 h hkept => exact Option.some.inj hread ▸ List.Subset.refl _
  | case4 h g l hblank ih =>
    obtain ⟨hs,hhs,rfl⟩ := Option.map_eq_some_iff.mp hread
    exact List.cons_subset_cons h (List.Subset.trans (ih hhs) (List.subset_cons_self g l))
  | case5 h g l hblank ih =>
    obtain ⟨hs,hhs,rfl⟩ := Option.map_eq_some_iff.mp hread
    exact List.cons_subset_cons h (ih hhs)

theorem dispAfter_eq {hs : List Header} {h : Header} (hh : IsDisposition h.name)
    (honly : ∀ g ∈ hs, IsDisposition g.name → g = h) (c_disp : Option Bytes) :
    dispAfter hs c_disp = if h ∈ hs then some (trim h.value) else c_disp := by
  induction hs generalizing c_disp with
  | nil => rfl
  | cons g hs ih =>
    obtain ⟨hg,hrest⟩ := List.forall_mem_cons.mp honly
    have hstep : dispAfter (g::hs) c_disp = dispAfter hs (dispOf g.name (trim g.value) c_disp) := rfl
    rw [hstep,ih hrest,dispOf]
    by_cases hmem : h ∈ hs
    · rw [if_pos hmem,if_pos (List.mem_cons_of_mem g hmem)]
    · rw [if_neg hmem]
      by_cases hd : SameName g.name (str "content-disposition")
      · rw [if_pos hd,hg hd,if_pos List.mem_cons_self]
      · have hne : h ∉ g::hs := fun h' => (List.mem_cons.mp h').elim (fun heq => hd (heq ▸ hh)) hmem
        rw [if_neg hd,if_neg hne]

/-- What stands behind the boundary of a part. -/
def partsText (bound : Bytes) (parts : List Part) : Bytes :=
  parts.flatMap (fun p => crlf ++ p.text ++ ch '\r'::delimiter bound) ++ ch '-'::ch '-'::crlf

theorem partsText_cons (p : Part) (ps : List Part) : partsText bound (p::ps) =
    ch '\r'::ch '\n'::(p.headers.flatMap Header.text ++
      (crlf ++ (p.body ++ ch '\r'::(delimiter bound ++ partsText bound ps)))) := by
  simp [partsText,Part.text,crlf]

theorem Part.exists_header (p : Part) : ∃ h hs, p.headers = h::hs :=
  List.exists_cons_of_ne_nil (List.append_ne_nil_of_right_ne_nil _ (List.cons_ne_nil _ _))

/-- The name so far does not matter at the end of a boundary line. -/
theorem multiScan_partsText {p : Part} (hp : p.WellFormed bound) (ps : List Part) :
    multiScan bound n c_disp (partsText bound (p::ps)) = multiScan bound [] c_disp (p.headers.flatMap Header.text ++
      (crlf ++ (p.body ++ ch '\r'::(delimiter bound ++ partsText bound ps)))) := by
  obtain ⟨h,hs,hheaders⟩ := p.exists_header
  have hh : h.WellFormed := hp.headers h (by rw [hheaders]; exact List.mem_cons_self)
  have hcr : ∀ c ∈ [ch '\r'], c ≠ ch '\n' ∧ c ≠ ch ':' := by simp [ch]
  rw [partsText_cons]
  refine (multiScan_text hcr _).trans ?_
  rw [hheaders,List.flatMap_cons,List.append_assoc,multiScan_next_header hh]

theorem multiScan_end : multiScan bound n c_disp (partsText bound []) = some [] := by
  have htext : partsText bound [] = [ch '-',ch '-',ch '\r'] ++ [ch '\n'] := rfl
  rw [htext,multiScan_text (by simp [ch])]
  rfl

/-- `c_disp` was used before, and only the text in front of the first name is left of it. -/
def Stale (c_disp : Option Bytes) : Prop := ∃ s, c_disp = some s ∧ ch '=' ∉ s

theorem stale_takeWhile (s : Bytes) : Stale (some (s.takeWhile (· != ch '='))) :=
  ⟨_,rfl,fun hmem => absurd (List.mem_takeWhile_imp hmem) (by simp)⟩

section
variable {body s v : Bytes} {names : DispNames}

/-- The body behind a blank line. -/
theorem multiScan_body (hb : Boundary bound) (hdel : ¬delimiter bound <:+: body) (hne : body ≠ [])
    (hv : c_disp = some v) (hnames : parseCDisp v = some names) (s : Bytes) :
    multiScan bound n c_disp (ch '\n'::(crlf ++ (body ++ ch '\r'::(delimiter bound ++ s)))) =
      (multiScan bound n (some (v.takeWhile (· != ch '='))) s).map
        (⟨names.vname.getD [],names.fname,body⟩::·) := by
  have hend : lineEnd (crlf ++ (body ++ ch '\r'::(delimiter bound ++ s))) =
      some (body ++ ch '\r'::(delimiter bound ++ s)) := rfl
  have hbody : multiBody bound c_disp (body ++ ch '\r'::(delimiter bound ++ s)) =
      some ([⟨names.vname.getD [],names.fname,body⟩],some (v.takeWhile (· != ch '=')),s) := by
    rw [multiBody,parseMultiBody_append hb hdel]
    simp only [if_neg hne,hv,Option.bind_some,hnames,Option.map_some]
  rw [multiScan_cons,multiStep,if_pos rfl,hend]
  simp only [hbody,Option.map_some,Option.bind_some]
  rfl

/-- Without a disposition that was read before. -/
theorem multiScan_unset (hb : Boundary bound) (hdel : ¬delimiter bound <:+: body) (hne : body ≠ []) (s : Bytes) :
    multiScan bound n none (ch '\n'::(crlf ++ (body ++ ch '\r'::(delimiter bound ++ s)))) = none := by
  have hend : lineEnd (crlf ++ (body ++ ch '\r'::(delimiter bound ++ s))) =
      some (body ++ ch '\r'::(delimiter bound ++ s)) := rfl
  have hbody : multiBody bound none (body ++ ch '\r'::(delimiter bound ++ s)) = none := by
    rw [multiBody,parseMultiBody_append hb hdel]
    simp only [if_neg hne,Option.bind_none]
  rw [multiScan_cons,multiStep,if_pos rfl,hend]
  simp only [hbody,Option.map_none,Option.bind_none]

end

section
variable {p : Part} {hs : List Header}

/-- The loop has come to the body of a part. -/
theorem multiScan_part (hp : p.WellFormed bound) (hread : headersRead p.body p.headers = some hs) (ps : List Part)
    (n : Bytes) (c_disp : Option Bytes) :
    ∃ m, multiScan bound n c_disp (partsText bound (p::ps)) =
      multiScan bound m (if p.disposition ∈ hs then some (trim p.disposition.value) else c_disp)
        (ch '\n'::(crlf ++ (p.body ++ ch '\r'::(delimiter bound ++ partsText bound ps)))) := by
  obtain ⟨h,l,hheaders⟩ := p.exists_header
  have hend := multiScan_headers bound p.body hp.headers hp.not_disposition
    (by rw [hheaders]; exact List.cons_ne_nil h l) (partsText bound ps) c_disp
  rw [hread] at hend
  obtain ⟨m,hm⟩ := hend
  rw [dispAfter_eq hp.label fun g hg hd => hp.eq_disposition (headersRead_subset hread hg) hd] at hm
  exact ⟨m,(multiScan_partsText hp ps).trans hm⟩

/-- A part whose disposition is read. -/
theorem multiScan_disposed (hb : Boundary bound) (hp : p.WellFormed bound)
    (hread : headersRead p.body p.headers = some hs) (hdisp : p.disposition ∈ hs)
    (hdel : ¬delimiter bound <:+: p.body) (hne : p.body ≠ []) (ps : List Part) (n : Bytes) (c_disp : Option Bytes) :
    ∃ m d, Stale d ∧ multiScan bound n c_disp (partsText bound (p::ps)) =
      (multiScan bound m d (partsText bound ps)).map (⟨rtrim p.name,p.file.map rtrim,p.body⟩::·) := by
  obtain ⟨m,hm⟩ := multiScan_part hp hread ps n c_disp
  rw [if_pos hdisp] at hm
  exact ⟨m,_,stale_takeWhile _,hm.trans (multiScan_body hb hdel hne rfl hp.names _)⟩

/-- A part whose disposition is not read, behind other parts. -/
theorem multiScan_stale (hb : Boundary bound) (hp : p.WellFormed bound)
    (hread : headersRead p.body p.headers = some hs) (hdisp : p.disposition ∉ hs) (hstale : Stale c_disp)
    (hdel : ¬delimiter bound <:+: p.body) (hne : p.body ≠ []) (ps : List Part) (n : Bytes) :
    ∃ m d, Stale d ∧ multiScan bound n c_disp (partsText bound (p::ps)) =
      (multiScan bound m d (partsText bound ps)).map (⟨[],none,p.body⟩::·) := by
  obtain ⟨m,hm⟩ := multiScan_part hp hread ps n c_disp
  obtain ⟨v,hv,hplain⟩ := hstale
  rw [if_neg hdisp] at hm
  exact ⟨m,_,stale_takeWhile v,hm.trans (multiScan_body hb hdel hne hv (parseCDisp_plain hplain) _)⟩

/-- And as the first one. -/
theorem multiScan_first (hb : Boundary bound) (hp : p.WellFormed bound)
    (hread : headersRead p.body p.headers = some hs) (hdisp : p.disposition ∉ hs)
    (hdel : ¬delimiter bound <:+: p.body) (hne : p.body ≠ []) (ps : List Part) :
    multiScan bound n none (partsText bound (p::ps)) = none := by
  obtain ⟨m,hm⟩ := multiScan_part hp hread ps n none
  rw [if_neg hdisp] at hm
  exact hm.trans (multiScan_unset hb hdel hne _)

end

/-! ### Parts that are kept come back -/

theorem multiScan_kept (hb : Boundary bound) {parts : List Part} (hp : ∀ p ∈ parts, p.WellFormed bound)
    (hkept : ∀ p ∈ parts, p.Kept bound) (hhead : ∀ p ∈ parts.head?, p.Disposed ∨ Stale c_disp ∧ p.Nameless)
    (htail : ∀ p ∈ parts.tail, p.Disposed ∨ p.Nameless) (n : Bytes) :
    multiScan bound n c_disp (partsText bound parts) = some (parts.map Part.upload) := by
  induction parts generalizing n c_disp with
  | nil => exact multiScan_end
  | cons p ps ih =>
    obtain ⟨hp,hps⟩ := List.forall_mem_cons.mp hp
    obtain ⟨hk,hks⟩ := List.forall_mem_cons.mp hkept
    have hnext (d : Option Bytes) (hd : Stale d) (m : Bytes) :
        multiScan bound m d (partsText bound ps) = some (ps.map Part.upload) := by
      refine ih hps hks (fun q hq => ?_) (fun q hq => htail q (List.mem_of_mem_tail hq)) m
      exact (htail q (List.mem_of_mem_head? hq)).imp_right fun h => ⟨hd,h⟩
    obtain ⟨hs,hread⟩ := Option.ne_none_iff_exists'.mp hk.headers
    by_cases hdisp : p.disposition ∈ hs
    · obtain ⟨m,d,hd,hscan⟩ := multiScan_disposed hb hp hread hdisp hk.delimiter hk.body ps n c_disp
      have hfile : p.file.map rtrim = p.file := by
        cases hf : p.file with
        | none => rfl
        | some f => exact congrArg some (hk.file f hf)
      rw [hscan,hnext d hd m,hk.name,hfile]
      rfl
    · obtain ⟨hs',hread',hdisp'⟩ | ⟨hstale,hname,hfile⟩ := hhead p rfl
      · rw [hread] at hread'
        cases hread'
        exact absurd hdisp' hdisp
      · obtain ⟨m,d,hd,hscan⟩ := multiScan_stale hb hp hread hdisp hstale hk.delimiter hk.body ps n
        rw [hscan,hnext d hd m,List.map_cons,Part.upload,hname,hfile]
        rfl

theorem parseMulti_formMessage {parts : List Part} (hp : ∀ p ∈ parts, p.WellFormed bound) :
    parseMulti bound (formMessage bound parts) = multiScan bound [] none (partsText bound parts) := by
  have hmessage : formMessage bound parts = (ch '-'::ch '-'::bound) ++ partsText bound parts := by
    rw [formMessage,partsText,← List.append_assoc]
  have hpre : ch '-'::ch '-'::bound <+: formMessage bound parts := hmessage ▸ List.prefix_append _ _
  have hdrop : (formMessage bound parts).drop (bound.length+2) = partsText bound parts := by
    rw [hmessage]
    exact List.drop_left
  have hlen : ((partsText bound parts).dropWhile isspace).length ≤ (formMessage bound parts).length :=
    hdrop ▸ ((List.dropWhile_suffix _).trans (List.drop_suffix _ _)).length_le
  rw [parseMulti,if_pos hpre]
  simp only [hdrop]
  rw [multiLoop_fuel hlen le_rfl]
  cases parts with
  | nil => rfl
  | cons p ps =>
    have hp := (List.forall_mem_cons.mp hp).1
    obtain ⟨h,hs,hheaders⟩ := p.exists_header
    have hh : h.WellFormed := hp.headers h (by rw [hheaders]; exact List.mem_cons_self)
    obtain ⟨c,u,hu⟩ := List.exists_cons_of_ne_nil hh.name
    have hc := (hh.token c (by rw [hu]; exact List.mem_cons_self)).1
    refine Eq.trans ?_ (multiScan_partsText hp ps).symm
    rw [partsText_cons,hheaders,List.flatMap_cons,List.append_assoc,Header.text_append,hu,
      List.dropWhile_cons_of_pos (by decide),List.dropWhile_cons_of_pos (by decide),List.cons_append,
      List.dropWhile_cons_of_neg (by rw [hc]; exact Bool.false_ne_true)]
    rfl

/-! ### Parts that come back were kept -/

/-- What holds of the end, and is kept where the loop goes on and where it puts down a body. -/
theorem multiScan_rec {P : Bytes → List Upload → Prop} (hnil : P [] [])
    (hskip : ∀ p q us, q <:+ p → P q us → P p us)
    (hbody : ∀ s q u us, u.body ≠ [] → ¬delimiter bound <:+: s → u.body <+: s → P q us →
      P (s ++ (delimiter bound ++ q)) (u::us))
    {us : List Upload} (h : multiScan bound n c_disp p = some us) : P p us := by
  induction hlen : p.length using Nat.strong_induction_on generalizing n c_disp p us with
  | _ len ih =>
    cases p with
    | nil => exact Option.some.inj h ▸ hnil
    | cons c p =>
      rw [multiScan_cons] at h
      obtain ⟨r,hr,h⟩ := Option.bind_eq_some_iff.mp h
      obtain ⟨us',hus',rfl⟩ := Option.map_eq_some_iff.mp h
      have hlt : r.2.2.2.length < len := by
        rw [← hlen]
        exact Nat.lt_succ_of_le (multiStep_suffix hr).length_le
      have hrest := ih _ hlt hus' rfl
      obtain ⟨hempty,hsuf⟩ | ⟨q,str,names,hq,hne,-,rfl⟩ := multiStep_cases hr
      · rw [hempty]
        exact hskip _ _ _ (hsuf.trans (List.suffix_cons c p)) hrest
      · obtain ⟨s,hs,hfree,hpre⟩ := parseMultiBody_suffix hne
        have hput := hbody s _ ⟨names.vname.getD [],names.fname,_⟩ _ hne hfree hpre hrest
        rw [← List.append_assoc,hs] at hput
        exact hskip _ _ _ (hq.trans (List.suffix_cons c p)) hput

/-- A body that is put down is not empty, and no delimiter stands in it. -/
theorem upload_of_scan {us : List Upload} (h : multiScan bound n c_disp p = some us) :
    ∀ u ∈ us, u.body ≠ [] ∧ ¬delimiter bound <:+: u.body := by
  refine multiScan_rec (P := fun _ us => ∀ u ∈ us, u.body ≠ [] ∧ ¬delimiter bound <:+: u.body) nofun
    (fun p q us _ hus => hus) (fun s q u us hne hfree hpre hus => ?_) h
  exact List.forall_mem_cons.mpr ⟨⟨hne,fun hin => hfree (hin.trans hpre.isInfix)⟩,hus⟩

/-- The delimiters in a text. -/
def delimiters (bound : Bytes) : Bytes → ℕ
  | [] => 0
  | c::p => (if delimiter bound <+: c::p then 1 else 0)+delimiters bound p

theorem delimiters_suffix (bound : Bytes) (h : q <:+ p) : delimiters bound q ≤ delimiters bound p := by
  obtain ⟨t,rfl⟩ := h
  induction t with
  | nil => exact le_rfl
  | cons c t ih => exact ih.trans (Nat.le_add_left _ _)

theorem delimiters_cr (hb : Boundary bound) (h : ¬delimiter bound <:+: p) (s : Bytes) :
    delimiters bound (p ++ ch '\r'::s) = delimiters bound s := by
  induction p with
  | nil =>
    have hcr : ¬delimiter bound <+: ch '\r'::s := fun hpre => absurd (List.cons_prefix_cons.mp hpre).1 (by decide)
    rw [List.nil_append,delimiters,if_neg hcr,Nat.zero_add]
  | cons c p ih =>
    obtain ⟨hpre,hin⟩ := not_or.mp (mt List.infix_cons_iff.mpr h)
    have hc : ¬delimiter bound <+: c::(p ++ ch '\r'::s) := fun hpre' => hpre (prefix_before_cr hb hpre')
    rw [List.cons_append,delimiters,if_neg hc,Nat.zero_add,ih hin]

theorem delimiters_line (h : ch '\n' ∉ p) (s : Bytes) : delimiters bound (p ++ s) = delimiters bound s := by
  induction p with
  | nil => rfl
  | cons c p ih =>
    obtain ⟨hc,hp⟩ := not_or.mp (mt List.mem_cons.mpr h)
    have hpre : ¬delimiter bound <+: c::(p ++ s) := fun hpre => hc (List.cons_prefix_cons.mp hpre).1
    rw [List.cons_append,delimiters,if_neg hpre,Nat.zero_add,ih hp]

theorem Boundary.lf_not_mem (hb : Boundary bound) : ch '\n' ∉ ch '-'::ch '-'::bound := by
  simp only [List.mem_cons,not_or]
  exact ⟨by decide,by decide,hb.lf⟩

theorem delimiters_delimiter (hb : Boundary bound) (s : Bytes) :
    delimiters bound (delimiter bound ++ s) = delimiters bound s+1 := by
  have hpre : delimiter bound <+: ch '\n'::((ch '-'::ch '-'::bound) ++ s) := List.prefix_append (delimiter bound) s
  have hcons : delimiter bound ++ s = ch '\n'::((ch '-'::ch '-'::bound) ++ s) := rfl
  rw [hcons,delimiters,if_pos hpre,delimiters_line hb.lf_not_mem,Nat.add_comm]

/-- The first body that is put down stands in front of a delimiter, and behind it there is one for each further body. -/
def DelimitersFit (bound p : Bytes) (us : List Upload) : Prop :=
  us.length ≤ delimiters bound p ∧ ∀ u ∈ us.head?, ∃ s q, s ++ (delimiter bound ++ q) <:+ p ∧
    u.body.length ≤ s.length ∧ us.length ≤ delimiters bound q+1

theorem delimitersFit_of_scan (hb : Boundary bound) {us : List Upload} (h : multiScan bound n c_disp p = some us) :
    DelimitersFit bound p us := by
  refine multiScan_rec ⟨le_rfl,nofun⟩ (fun p q us hsuf hq => ?_) (fun s q u us _ _ hpre hq => ?_) h
  · refine ⟨hq.1.trans (delimiters_suffix bound hsuf),fun u hu => ?_⟩
    obtain ⟨s,r,hr,hfit⟩ := hq.2 u hu
    exact ⟨s,r,hr.trans hsuf,hfit⟩
  · have hle : (u::us).length ≤ delimiters bound q+1 := Nat.succ_le_succ hq.1
    refine ⟨?_,fun v hv => ?_⟩
    · have hmono := delimiters_suffix bound (List.suffix_append s (delimiter bound ++ q))
      rw [delimiters_delimiter hb] at hmono
      exact hle.trans hmono
    · obtain rfl := Option.some.inj hv
      exact ⟨s,q,List.suffix_rfl,hpre.length_le,hle⟩

/-- A body cannot be put down whole from behind its beginning, with all the parts behind it. -/
theorem not_delimitersFit_behind (hb : Boundary bound) {body s : Bytes} {u : Upload} {us : List Upload}
    (hq : q <:+ body ++ ch '\r'::(delimiter bound ++ s))
    (hlen : q.length+2 ≤ (body ++ ch '\r'::(delimiter bound ++ s)).length) (hu : u.body = body)
    (hus : us.length = delimiters bound s) : ¬DelimitersFit bound q (u::us) := by
  rintro ⟨-,hfirst⟩
  obtain ⟨t,r,hr,hbody,hle⟩ := hfirst u rfl
  have hwhole : delimiter bound ++ s <:+ body ++ ch '\r'::(delimiter bound ++ s) :=
    (List.suffix_cons _ _).trans (List.suffix_append body _)
  have hr' : delimiter bound ++ r <:+ body ++ ch '\r'::(delimiter bound ++ s) :=
    ((List.suffix_append t _).trans hr).trans hq
  -- otherwise a delimiter is missing
  have hlong : s.length ≤ r.length := by
    by_contra hlt
    have hsuf : delimiter bound ++ r <:+ (ch '-'::ch '-'::bound) ++ s := by
      refine List.suffix_of_suffix_length_le hr' ((List.suffix_cons (ch '\n') _).trans hwhole) ?_
      simp only [List.length_append,delimiter,List.length_cons]
      omega
    have hmono := delimiters_suffix bound hsuf
    rw [delimiters_delimiter hb,delimiters_line hb.lf_not_mem] at hmono
    rw [List.length_cons] at hle
    omega
  have hle := hr.length_le
  simp only [List.length_append,List.length_cons] at hle hlen
  rw [hu] at hbody
  omega

/-- Before each line feed there is a CR. -/
def CrLines (s : Bytes) : Prop := ∀ a b, s = a ++ ch '\n'::b → ∃ a', a = a' ++ [ch '\r']

theorem CrLines.append {s t : Bytes} (hs : CrLines s) (ht : CrLines t) : CrLines (s ++ t) := by
  intro a b hab
  obtain ⟨u,rfl,htb⟩ | ⟨u,hsu,hub⟩ := List.append_eq_append_iff.mp hab
  · obtain ⟨a',rfl⟩ := ht u b htb
    exact ⟨s ++ a',(List.append_assoc ..).symm⟩
  · cases u with
    | nil =>
      obtain ⟨a',ha'⟩ := ht [] b hub.symm
      cases a' <;> cases ha'
    | cons c u =>
      obtain ⟨rfl,-⟩ := List.cons.inj hub
      exact hs a u hsu

theorem crLines_crlf : CrLines crlf := by
  intro a b hab
  cases a with
  | nil => exact absurd (List.cons.inj hab).1 (by decide)
  | cons c a =>
    obtain ⟨rfl,hab⟩ := List.cons.inj hab
    cases a with
    | nil => exact ⟨[],rfl⟩
    | cons d a =>
      have hnil := (List.cons.inj hab).2
      cases a <;> cases hnil

theorem crLines_of_not_mem {s : Bytes} (h : ch '\n' ∉ s) : CrLines s := by
  rintro a b rfl
  exact absurd (List.mem_append_right a List.mem_cons_self) h

theorem crLines_headers {l : List Header} (hl : ∀ h ∈ l, h.WellFormed) : CrLines (l.flatMap Header.text) := by
  induction l with
  | nil => exact crLines_of_not_mem List.not_mem_nil
  | cons h l ih =>
    obtain ⟨hh,hl⟩ := List.forall_mem_cons.mp hl
    refine CrLines.append (CrLines.append (crLines_of_not_mem fun hmem => ?_) crLines_crlf) (ih hl)
    obtain hmem | hmem := List.mem_append.mp hmem
    · exact ne_of_not_isspace (hh.token _ hmem).1 (by decide) rfl
    · obtain hmem | hmem := List.mem_cons.mp hmem
      · exact absurd hmem (by decide)
      · exact (hh.value _ hmem).1 rfl

/-- Where the body has no delimiter the whole part has none. -/
theorem free_of_body {p : Part} (hp : p.WellFormed bound) (hdel : ¬delimiter bound <:+: p.body) :
    ¬delimiter bound <:+: crlf ++ p.text := by
  rintro ⟨a,b,hab⟩
  have hlines : CrLines (crlf ++ (p.headers.flatMap Header.text ++ crlf)) :=
    crLines_crlf.append ((crLines_headers hp.headers).append crLines_crlf)
  have htext : a ++ (delimiter bound ++ b) = crlf ++ (p.headers.flatMap Header.text ++ crlf) ++ p.body := by
    rw [← List.append_assoc,hab,Part.text,List.append_assoc,List.append_assoc,List.append_assoc]
  obtain ⟨u,hu,hub⟩ | ⟨u,rfl,hub⟩ := List.append_eq_append_iff.mp htext
  · cases u with
    | nil => exact hdel ⟨[],b,hub⟩
    | cons c u =>
      obtain ⟨rfl,-⟩ := List.cons.inj hub
      obtain ⟨a',rfl⟩ := hlines a u hu
      refine hp.delimiter ⟨a',b,?_⟩
      rw [← hab]
      simp only [List.append_assoc,List.cons_append,List.nil_append]
  · exact hdel ⟨u,b,by rw [List.append_assoc]; exact hub.symm⟩

/-- One delimiter for each part. -/
theorem delimiters_partsText (hb : Boundary bound) {parts : List Part} (hp : ∀ p ∈ parts, p.WellFormed bound)
    (hdel : ∀ p ∈ parts, ¬delimiter bound <:+: p.body) : delimiters bound (partsText bound parts) = parts.length := by
  induction parts with
  | nil =>
    have htext : partsText bound [] = [ch '-',ch '-'] ++ ch '\r'::[ch '\n'] := rfl
    have hlast : ¬delimiter bound <+: [ch '\n'] := fun hpre => absurd hpre.length_le (by simp [delimiter])
    have hfirst : ¬delimiter bound <:+: [ch '-',ch '-'] := fun hin => absurd hin.length_le (by simp [delimiter])
    rw [htext,delimiters_cr hb hfirst,delimiters,if_neg hlast]
    rfl
  | cons p ps ih =>
    obtain ⟨hp,hps⟩ := List.forall_mem_cons.mp hp
    obtain ⟨hd,hds⟩ := List.forall_mem_cons.mp hdel
    have htext : partsText bound (p::ps) = crlf ++ p.text ++ ch '\r'::(delimiter bound ++ partsText bound ps) := by
      simp [partsText]
    rw [htext,delimiters_cr hb (free_of_body hp hd),delimiters_delimiter hb,ih hps hds,List.length_cons]

theorem readable_of_scan (hb : Boundary bound) {parts : List Part} (hp : ∀ p ∈ parts, p.WellFormed bound)
    (hbody : ∀ p ∈ parts, p.body ≠ [] ∧ ¬delimiter bound <:+: p.body) (hdisp : c_disp = none ∨ Stale c_disp)
    (h : multiScan bound n c_disp (partsText bound parts) = some (parts.map Part.upload)) :
    (∀ p ∈ parts, p.Kept bound) ∧ (∀ p ∈ parts.head?, p.Disposed ∨ Stale c_disp ∧ p.Nameless) ∧
      ∀ p ∈ parts.tail, p.Disposed ∨ p.Nameless := by
  induction parts generalizing n c_disp with
  | nil => exact ⟨nofun,nofun,nofun⟩
  | cons p ps ih =>
    obtain ⟨hp,hps⟩ := List.forall_mem_cons.mp hp
    obtain ⟨⟨hne,hdel⟩,hbodies⟩ := List.forall_mem_cons.mp hbody
    -- the other parts come back from where the loop is behind this one
    have hrest {m : Bytes} {d : Option Bytes} {u : Upload} (hd : Stale d)
        (hscan : multiScan bound n c_disp (partsText bound (p::ps)) =
          (multiScan bound m d (partsText bound ps)).map (u::·)) :
        u = p.upload ∧ (∀ q ∈ ps, q.Kept bound) ∧ ∀ q ∈ ps, q.Disposed ∨ q.Nameless := by
      rw [h] at hscan
      obtain ⟨us,hus,heq⟩ := Option.map_eq_some_iff.mp hscan.symm
      obtain ⟨rfl,rfl⟩ := List.cons.inj heq
      obtain ⟨hkept,hhead,htail⟩ := ih hps hbodies (.inr hd) hus
      refine ⟨rfl,hkept,fun q hq => ?_⟩
      cases ps with
      | nil => cases hq
      | cons r ps =>
        obtain rfl | hq := List.mem_cons.mp hq
        · exact (hhead q rfl).imp_right And.right
        · exact htail q hq
    cases hread : headersRead p.body p.headers with
    | none =>
      obtain ⟨g,l,hl⟩ := p.exists_header
      have hend := multiScan_headers bound p.body hp.headers hp.not_disposition
        (by rw [hl]; exact List.cons_ne_nil g l) (partsText bound ps) c_disp
      rw [hread] at hend
      obtain ⟨m,d,q,hscan,hq,hlen⟩ := hend
      rw [multiScan_partsText hp,hscan,List.map_cons] at h
      have hcount : (ps.map Part.upload).length = delimiters bound (partsText bound ps) := by
        rw [delimiters_partsText hb hps fun q hq => (hbodies q hq).2,List.length_map]
      exact absurd (delimitersFit_of_scan hb h) (not_delimitersFit_behind hb hq hlen rfl hcount)
    | some hs =>
      have hheaders : headersRead p.body p.headers ≠ none := by rw [hread]; exact Option.some_ne_none hs
      by_cases hmem : p.disposition ∈ hs
      · obtain ⟨m,d,hd,hscan⟩ := multiScan_disposed hb hp hread hmem hdel hne ps n c_disp
        obtain ⟨hu,hkept,htail⟩ := hrest hd hscan
        have hname : rtrim p.name = p.name := congrArg Upload.name hu
        have hfile : p.file.map rtrim = p.file := congrArg Upload.file hu
        refine ⟨List.forall_mem_cons.mpr ⟨⟨hheaders,hne,hdel,hname,fun f hf => ?_⟩,hkept⟩,fun q hq => ?_,htail⟩
        · rw [Option.mem_def.mp hf] at hfile
          exact Option.some.inj hfile
        · obtain rfl := Option.some.inj hq
          exact .inl ⟨hs,hread,hmem⟩
      · obtain rfl | hstale := hdisp
        · rw [multiScan_first hb hp hread hmem hdel hne ps] at h
          cases h
        · obtain ⟨m,d,hd,hscan⟩ := multiScan_stale hb hp hread hmem hstale hdel hne ps n
          obtain ⟨hu,hkept,htail⟩ := hrest hd hscan
          have hname : p.name = [] := (congrArg Upload.name hu).symm
          have hfile : p.file = none := (congrArg Upload.file hu).symm
          refine ⟨List.forall_mem_cons.mpr ⟨⟨hheaders,hne,hdel,?_,fun f hf => ?_⟩,hkept⟩,fun q hq => ?_,htail⟩
          · rw [hname]
            rfl
          · rw [hfile] at hf
            cases hf
          · obtain rfl := Option.some.inj hq
            exact .inr ⟨hstale,hname,hfile⟩

/-- The parts of a form come back exactly where no body is empty or has a line that begins as a delimiter, no name
ends with a blank, the headers end with the blank line, and the disposition is read. -/
theorem recovers_iff (hb : Boundary bound) {parts : List Part} (hp : ∀ p ∈ parts, p.WellFormed bound) :
    Recovers bound parts ↔ ReadableForm bound parts := by
  rw [Recovers,parseMulti_formMessage hp]
  constructor
  · intro h
    have hbody : ∀ p ∈ parts, p.body ≠ [] ∧ ¬delimiter bound <:+: p.body := fun p hp =>
      upload_of_scan h p.upload (List.mem_map_of_mem hp)
    obtain ⟨hkept,hhead,htail⟩ := readable_of_scan hb hp hbody (.inl rfl) h
    refine ⟨hkept,fun p hp => (hhead p hp).resolve_right ?_,htail⟩
    rintro ⟨⟨s,hs,-⟩,-⟩
    cases hs
  · intro h
    exact multiScan_kept hb hp h.kept (fun p hp => .inl (h.first p hp)) h.rest []

theorem lookup_set (m : FormMap) (key val name : Bytes) : FormMap.lookup name (m.set key val).entries =
    FormMap.lookup name m.entries ++ if SameName (cstr key) name then [val] else [] :=
  FormMap.lookup_insert name

/-- Each call puts one value behind those that its name has in `myFormMap`. -/
theorem lookup_forms (maps : FormMap × FormMap) (us : List Upload) (name : Bytes) :
    FormMap.lookup name (addParts maps us).1.entries = FormMap.lookup name maps.1.entries ++
      (us.filter fun u => SameName (cstr u.name) name).map fun u => u.file.getD u.body := by
  induction us generalizing maps with
  | nil => exact (List.append_nil _).symm
  | cons u us ih =>
    rw [addParts,List.foldl_cons,← addParts,ih,lookup_set,List.append_assoc]
    by_cases hname : SameName (cstr u.name) name
    · rw [if_pos hname,List.filter_cons_of_pos (by exact decide_eq_true hname)]
      rfl
    · rw [if_neg hname,List.filter_cons_of_neg (by rw [decide_eq_true_iff]; exact hname)]
      rfl

/-- And one for each file in `myFileMap`. -/
theorem lookup_files (maps : FormMap × FormMap) (us : List Upload) (name : Bytes) :
    FormMap.lookup name (addParts maps us).2.entries = FormMap.lookup name maps.2.entries ++
      (us.filter fun u => SameName (cstr u.name) name ∧ u.file.isSome).map Upload.body := by
  induction us generalizing maps with
  | nil => exact (List.append_nil _).symm
  | cons u us ih =>
    rw [addParts,List.foldl_cons,← addParts,ih]
    by_cases hname : SameName (cstr u.name) name ∧ u.file.isSome
    · obtain ⟨f,hf⟩ := Option.isSome_iff_exists.mp hname.2
      rw [List.filter_cons_of_pos (by exact decide_eq_true hname),hf]
      simp only [lookup_set,if_pos hname.1,List.append_assoc]
      rfl
    · rw [List.filter_cons_of_neg (by rw [decide_eq_true_iff]; exact hname)]
      cases hf : u.file with
      | none => rfl
      | some f =>
        rw [hf] at hname
        simp only [lookup_set,if_neg fun h => hname ⟨h,rfl⟩,List.append_nil]

def field (name body : Bytes) : Part where
  before := []
  label := str "Content-Disposition"
  kind := str " form-data"
  params := [⟨str " ",str "name",name⟩]
  after := []
  body
  name
  file := none

theorem boundary_b : Boundary (str "b") := ⟨by decide,by decide,by decide⟩

theorem field_wellFormed {name body : Bytes} (hname : ∀ c ∈ name, c ≠ ch '"' ∧ c ≠ ch '\n' ∧ c ≠ 0)
    (hfree : findDelimiter (str "b") (crlf ++ (field name body).text) = none) :
    (field name body).WellFormed (str "b") := by
  have hkind : ∀ c ∈ str " form-data", c ≠ ch '=' ∧ c ≠ ch ';' ∧ c ≠ ch '\n' ∧ c ≠ 0 := by simp [str,ch]
  have hgap : ∀ c ∈ str " ", isspace c = true ∧ c ≠ ch '\n' := by simp [str,ch,isspace]
  have hkey : ∀ c ∈ str "name", isspace c = false ∧ c ≠ ch '=' ∧ c ≠ ch ';' ∧ c ≠ 0 := by
    simp [str,ch,isspace]
  have hdel := not_infix_of_find hfree
  exact ⟨fun _ hx => absurd hx List.not_mem_nil,rfl,hkind,List.forall_mem_singleton.mpr ⟨hgap,hkey,hname⟩,rfl,rfl,fun h =>
    hdel ((List.suffix_cons _ _).isInfix.trans h)⟩

theorem recovers_field :
    Recovers (str "b") [field (str "n") (str "x")] ↔ ReadableForm (str "b") [field (str "n") (str "x")] :=
  recovers_iff boundary_b (List.forall_mem_singleton.mpr (field_wellFormed (by simp [str,ch]) (by decide +kernel)))

/-- A part with an empty body is left out. -/
theorem empty_left_out : Boundary (str "b") ∧ (∀ p ∈ [field (str "n") []], p.WellFormed (str "b")) ∧
    ¬Recovers (str "b") [field (str "n") []] := by
  refine ⟨boundary_b,List.forall_mem_singleton.mpr (field_wellFormed (by simp [str,ch]) (by decide +kernel)),?_⟩
  have hparse : parseMulti (str "b") (formMessage (str "b") [field (str "n") []]) = some [] := by decide +kernel
  rw [Recovers,hparse]
  exact fun h => by cases Option.some.inj h

end Smx
