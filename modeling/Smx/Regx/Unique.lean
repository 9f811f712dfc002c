import Smx.Regx.Pattern

/-! A pattern says one thing only. -/
namespace Smx.Regx

/-- A text begins with one of two characters, not with both. -/
theorem head_ne {c d : Byte} {t t' : Bytes} (h : c::t = d::t') (hne : c ≠ d) : False := hne (List.cons.inj h).1

theorem Lit.unique {t t1 t2 : Bytes} {c d : Byte} (h1 : Lit t c t1) (h2 : Lit t d t2) : c = d ∧ t1 = t2 := by
  cases h1 with
  | plain hc hm hb =>
    cases h2 with
    | plain => exact ⟨rfl,rfl⟩
    | quoted => exact absurd rfl hb
  | quoted hl hr =>
    generalize ht : ch '\\'::c::t1 = t at h2
    cases h2 with
    | plain hc hm hb => exact absurd (List.cons.inj ht).1.symm hb
    | quoted => exact List.cons.inj (List.cons.inj ht).2

theorem Items.unique {prev : Byte} {t t1 t2 : Bytes} {is js : List (Byte × Byte)} (h1 : Items prev t is t1)
    (h2 : Items prev t js t2) : is = js ∧ t1 = t2 := by
  induction h1 generalizing js t2 with
  | stop =>
    generalize ht : ch ']'::_ = t at h2
    cases h2 with
    | stop => exact ⟨rfl,(List.cons.inj ht).2⟩
    | dash => exact (head_ne ht (by decide)).elim
    | range => exact (head_ne ht (by decide)).elim
    | chr hc => exact absurd (List.cons.inj ht).1.symm hc
  | dash =>
    generalize ht : ch '-'::ch ']'::_ = t at h2
    cases h2 with
    | stop => exact (head_ne ht (by decide)).elim
    | dash => exact ⟨rfl,(List.cons.inj (List.cons.inj ht).2).2⟩
    | range hd => exact absurd (List.cons.inj (List.cons.inj ht).2).1.symm hd
    | chr hc hd => exact absurd (List.cons.inj ht).1.symm hd
  | @range prev d t t' items hd hle h ih =>
    generalize ht : ch '-'::d::t = text at h2
    cases h2 with
    | stop => exact (head_ne ht (by decide)).elim
    | dash => exact absurd (List.cons.inj (List.cons.inj ht).2).1 hd
    | range _ _ h2 =>
      obtain ⟨rfl,rfl⟩ := List.cons.inj (List.cons.inj ht).2
      obtain ⟨rfl,rfl⟩ := ih h2
      exact ⟨rfl,rfl⟩
    | chr hc hd => exact absurd (List.cons.inj ht).1.symm hd
  | @chr prev c t t' items hc hd h ih =>
    generalize ht : c::t = text at h2
    cases h2 with
    | stop => exact absurd (List.cons.inj ht).1 hc
    | dash => exact absurd (List.cons.inj ht).1 hd
    | range => exact absurd (List.cons.inj ht).1 hd
    | chr _ _ h2 =>
      obtain ⟨rfl,rfl⟩ := List.cons.inj ht
      obtain ⟨rfl,rfl⟩ := ih h2
      exact ⟨rfl,rfl⟩

theorem Bracket.unique {t t1 t2 : Bytes} {is js : List (Byte × Byte)} (h1 : Bracket t is t1)
    (h2 : Bracket t js t2) : is = js ∧ t1 = t2 := by
  cases h1 with
  | first hc h1 =>
    cases h2 with
    | first _ h2 =>
      obtain ⟨rfl,rfl⟩ := h1.unique h2
      exact ⟨rfl,rfl⟩
    | other hne => exact absurd hc (not_or.mpr hne)
  | other hne h1 =>
    cases h2 with
    | first hc => exact absurd hc (not_or.mpr hne)
    | other _ h2 => exact h1.unique h2

theorem Lit.not_magic {d c : Byte} {t t' : Bytes} (hd : ismagic d = true) (h : Lit (d::t) c t') : False := by
  cases h with
  | plain hc => exact absurd (hc.symm.trans hd) Bool.false_ne_true
  | quoted => exact absurd hd (by decide)

theorem Lit.not_word {d c : Byte} {t t' : Bytes} (hd : d = ch '<' ∨ d = ch '>') (h : Lit (ch '\\'::d::t) c t') :
    False := by
  generalize ht : ch '\\'::d::t = text at h
  cases h with
  | plain hc hm hb => exact hb (List.cons.inj ht).1.symm
  | quoted hl hr =>
    obtain rfl := (List.cons.inj (List.cons.inj ht).2).1
    exact hd.elim hl hr

theorem NoMult.not_mult {c : Byte} {t t' : Bytes} (hm : NoMult t) (hc : ismult c = true) (ht : t = c::t') :
    False := by
  subst ht
  exact absurd (hm.symm.trans hc) Bool.false_ne_true

theorem Reads.unique {k : Kind} {n m m' : ℕ} {t t1 t2 : Bytes} {p q : Pat} (h1 : Reads k n t p m t1)
    (h2 : Reads k n t q m' t2) : p = q ∧ m = m' ∧ t1 = t2 := by
  induction h1 generalizing q m' t2 with
  | bol =>
    generalize ht : ch '^'::_ = text at h2
    cases h2 with
    | bol => exact ⟨rfl,rfl,(List.cons.inj ht).2⟩
    | lit h => exact (Lit.not_magic (by decide) (ht ▸ h)).elim
    | _ => exact (head_ne ht (by decide)).elim
  | eol =>
    generalize ht : ch '$'::_ = text at h2
    cases h2 with
    | eol => exact ⟨rfl,rfl,(List.cons.inj ht).2⟩
    | lit h => exact (Lit.not_magic (by decide) (ht ▸ h)).elim
    | _ => exact (head_ne ht (by decide)).elim
  | any =>
    generalize ht : ch '.'::_ = text at h2
    cases h2 with
    | any => exact ⟨rfl,rfl,(List.cons.inj ht).2⟩
    | lit h => exact (Lit.not_magic (by decide) (ht ▸ h)).elim
    | _ => exact (head_ne ht (by decide)).elim
  | cls hc h =>
    generalize ht : ch '['::_ = text at h2
    cases h2 with
    | cls hc' h' =>
      obtain rfl := (List.cons.inj ht).2
      obtain ⟨rfl,rfl⟩ := h.unique h'
      exact ⟨rfl,rfl,rfl⟩
    | but h' =>
      obtain rfl := (List.cons.inj ht).2
      exact absurd rfl hc
    | lit h => exact (Lit.not_magic (by decide) (ht ▸ h)).elim
    | _ => exact (head_ne ht (by decide)).elim
  | but h =>
    generalize ht : ch '['::ch '^'::_ = text at h2
    cases h2 with
    | cls hc' h' =>
      obtain rfl := (List.cons.inj ht).2
      exact absurd rfl hc'
    | but h' =>
      obtain rfl := (List.cons.inj (List.cons.inj ht).2).2
      obtain ⟨rfl,rfl⟩ := h.unique h'
      exact ⟨rfl,rfl,rfl⟩
    | lit h => exact (Lit.not_magic (by decide) (ht ▸ h)).elim
    | _ => exact (head_ne ht (by decide)).elim
  | group h ih =>
    generalize ht : ch '('::_ = text at h2
    cases h2 with
    | group h' =>
      obtain rfl := (List.cons.inj ht).2
      obtain ⟨rfl,rfl,heq⟩ := ih h'
      exact ⟨rfl,rfl,(List.cons.inj heq).2⟩
    | lit h => exact (Lit.not_magic (by decide) (ht ▸ h)).elim
    | _ => exact (head_ne ht (by decide)).elim
  | wordStart =>
    generalize ht : ch '\\'::ch '<'::_ = text at h2
    cases h2 with
    | wordStart => exact ⟨rfl,rfl,(List.cons.inj (List.cons.inj ht).2).2⟩
    | wordEnd => exact (head_ne (List.cons.inj ht).2 (by decide)).elim
    | lit h => exact (Lit.not_word (.inl rfl) (ht ▸ h)).elim
    | _ => exact (head_ne ht (by decide)).elim
  | wordEnd =>
    generalize ht : ch '\\'::ch '>'::_ = text at h2
    cases h2 with
    | wordStart => exact (head_ne (List.cons.inj ht).2 (by decide)).elim
    | wordEnd => exact ⟨rfl,rfl,(List.cons.inj (List.cons.inj ht).2).2⟩
    | lit h => exact (Lit.not_word (.inr rfl) (ht ▸ h)).elim
    | _ => exact (head_ne ht (by decide)).elim
  | lit h =>
    cases h2 with
    | lit h' =>
      obtain ⟨rfl,rfl⟩ := h.unique h'
      exact ⟨rfl,rfl,rfl⟩
    | wordStart => exact (Lit.not_word (.inl rfl) h).elim
    | wordEnd => exact (Lit.not_word (.inr rfl) h).elim
    | _ => exact (Lit.not_magic (by decide) h).elim
  | once h hm ih =>
    cases h2 with
    | once h' _ => exact ih h'
    | star h' _ => exact (hm.not_mult (by decide) (ih h').2.2).elim
    | starLazy h' _ => exact (hm.not_mult (by decide) (ih h').2.2).elim
    | plus h' _ => exact (hm.not_mult (by decide) (ih h').2.2).elim
    | plusLazy h' _ => exact (hm.not_mult (by decide) (ih h').2.2).elim
    | opt h' _ => exact (hm.not_mult (by decide) (ih h').2.2).elim
  | star h hm ih =>
    cases h2 with
    | once h' hm' => exact (hm'.not_mult (by decide) (ih h').2.2.symm).elim
    | star h' _ =>
      obtain ⟨rfl,rfl,heq⟩ := ih h'
      exact ⟨rfl,rfl,(List.cons.inj heq).2⟩
    | starLazy h' _ => exact (hm.not_mult (by decide) (List.cons.inj (ih h').2.2).2).elim
    | plus h' _ => exact (head_ne (ih h').2.2 (by decide)).elim
    | plusLazy h' _ => exact (head_ne (ih h').2.2 (by decide)).elim
    | opt h' _ => exact (head_ne (ih h').2.2 (by decide)).elim
  | starLazy h hm ih =>
    cases h2 with
    | once h' hm' => exact (hm'.not_mult (by decide) (ih h').2.2.symm).elim
    | star h' hm' => exact (hm'.not_mult (by decide) (List.cons.inj (ih h').2.2).2.symm).elim
    | starLazy h' _ =>
      obtain ⟨rfl,rfl,heq⟩ := ih h'
      exact ⟨rfl,rfl,(List.cons.inj (List.cons.inj heq).2).2⟩
    | plus h' _ => exact (head_ne (ih h').2.2 (by decide)).elim
    | plusLazy h' _ => exact (head_ne (ih h').2.2 (by decide)).elim
    | opt h' _ => exact (head_ne (ih h').2.2 (by decide)).elim
  | plus h hm ih =>
    cases h2 with
    | once h' hm' => exact (hm'.not_mult (by decide) (ih h').2.2.symm).elim
    | star h' _ => exact (head_ne (ih h').2.2 (by decide)).elim
    | starLazy h' _ => exact (head_ne (ih h').2.2 (by decide)).elim
    | plus h' _ =>
      obtain ⟨rfl,rfl,heq⟩ := ih h'
      exact ⟨rfl,rfl,(List.cons.inj heq).2⟩
    | plusLazy h' _ => exact (hm.not_mult (by decide) (List.cons.inj (ih h').2.2).2).elim
    | opt h' _ => exact (head_ne (ih h').2.2 (by decide)).elim
  | plusLazy h hm ih =>
    cases h2 with
    | once h' hm' => exact (hm'.not_mult (by decide) (ih h').2.2.symm).elim
    | star h' _ => exact (head_ne (ih h').2.2 (by decide)).elim
    | starLazy h' _ => exact (head_ne (ih h').2.2 (by decide)).elim
    | plus h' hm' => exact (hm'.not_mult (by decide) (List.cons.inj (ih h').2.2).2.symm).elim
    | plusLazy h' _ =>
      obtain ⟨rfl,rfl,heq⟩ := ih h'
      exact ⟨rfl,rfl,(List.cons.inj (List.cons.inj heq).2).2⟩
    | opt h' _ => exact (head_ne (ih h').2.2 (by decide)).elim
  | opt h hm ih =>
    cases h2 with
    | once h' hm' => exact (hm'.not_mult (by decide) (ih h').2.2.symm).elim
    | star h' _ => exact (head_ne (ih h').2.2 (by decide)).elim
    | starLazy h' _ => exact (head_ne (ih h').2.2 (by decide)).elim
    | plus h' _ => exact (head_ne (ih h').2.2 (by decide)).elim
    | plusLazy h' _ => exact (head_ne (ih h').2.2 (by decide)).elim
    | opt h' _ =>
      obtain ⟨rfl,rfl,heq⟩ := ih h'
      exact ⟨rfl,rfl,(List.cons.inj heq).2⟩
  | stop h =>
    cases h2 with
    | stop => exact ⟨rfl,rfl,rfl⟩
    | more hn => exact absurd h hn
  | more hn hp hq ihp ihq =>
    cases h2 with
    | stop h => exact absurd h hn
    | more _ hp' hq' =>
      obtain ⟨rfl,rfl,rfl⟩ := ihp hp'
      obtain ⟨rfl,rfl,rfl⟩ := ihq hq'
      exact ⟨rfl,rfl,rfl⟩
  | last h ht ih =>
    cases h2 with
    | last h' _ => exact ih h'
    | alt hp hc _ =>
      obtain ⟨-,-,rfl⟩ := ih hp
      obtain ⟨hbar,hnl⟩ := ht _ rfl
      exact absurd hc (not_or.mpr ⟨hbar,hnl⟩)
  | alt hp hc hq ihp ihq =>
    cases h2 with
    | last h' ht =>
      obtain ⟨-,-,rfl⟩ := ihp h'
      obtain ⟨hbar,hnl⟩ := ht _ rfl
      exact absurd hc (not_or.mpr ⟨hbar,hnl⟩)
    | alt hp' _ hq' =>
      obtain ⟨rfl,rfl,heq⟩ := ihp hp'
      obtain ⟨-,rfl⟩ := List.cons.inj heq
      obtain ⟨rfl,rfl,rfl⟩ := ihq hq'
      exact ⟨rfl,rfl,rfl⟩

theorem Says.unique {exp : Bytes} {p q : Pat} (h1 : Says exp p) (h2 : Says exp q) : p = q := by
  obtain ⟨m,h1⟩ := h1
  obtain ⟨m',h2⟩ := h2
  exact (h1.unique h2).1

end Smx.Regx
