import Smx.Base.Bytes

/-! `%html-len`, and the tags and entities of a text. -/
namespace Smx

/-- `while (*p != stop) ++p;`, which runs on behind the NUL when there is no `stop` in front of it. -/
def scanFor (stop : Byte) : Bytes → Option Bytes
  | [] => none
  | c::p => if c = stop then some (c::p) else scanFor stop p

theorem scanFor_length {stop : Byte} {p q : Bytes} (h : scanFor stop p = some q) : q.length ≤ p.length := by
  induction p with
  | nil => cases h
  | cons c p ih =>
    rw [scanFor] at h
    split_ifs at h with hc
    · rw [← Option.some.inj h]
    · exact (ih h).trans (Nat.le_succ _)

/-- A scan that does not stop at once has moved. -/
theorem scanFor_lt {stop c : Byte} {p q : Bytes} (hc : c ≠ stop) (h : scanFor stop (c::p) = some q) :
    q.length < (c::p).length := by
  rw [scanFor,if_neg hc] at h
  exact Nat.lt_succ_of_le (scanFor_length h)

/-- The loop of `EvalHtmlLen`; `none` when it reads behind the NUL. -/
def htmlLenLoop (l : ℕ) : Bytes → Option ℕ
  | [] => some l
  | c::p =>
    if _hlt : c = ch '<' then
      match _h : scanFor (ch '>') (c::p) with
      | some q => htmlLenLoop l q
      | none => none
    else if _hamp : c = ch '&' then
      match _h : scanFor (ch ';') (c::p) with
      | some q => htmlLenLoop l q
      | none => none
    else htmlLenLoop (l+1) p
termination_by p => p.length
decreasing_by
  · exact scanFor_lt (by rw [_hlt]; decide) _h
  · exact scanFor_lt (by rw [_hamp]; decide) _h
  · exact Nat.lt_succ_self _

/-- What `EvalHtmlLen` puts out; the loop begins by reading from the buffer. -/
def evalHtmlLen (html : Bytes) : Option ℕ := do
  let p ← getBuffer html
  htmlLenLoop 0 (cstr p)

/-- A text whose tags and entities are closed: its visible characters, each entity being one of them, and its tags. -/
inductive Markup : Bytes → ℕ → ℕ → Prop
  | nil : Markup [] 0 0
  | char {c : Byte} {p : Bytes} {n k : ℕ} (hlt : c ≠ ch '<') (hamp : c ≠ ch '&') (h : Markup p n k) :
    Markup (c::p) (n+1) k
  | tag {b p : Bytes} {n k : ℕ} (hb : ch '>' ∉ b) (h : Markup p n k) : Markup (ch '<'::(b ++ ch '>'::p)) n (k+1)
  | entity {b p : Bytes} {n k : ℕ} (hb : ch ';' ∉ b) (h : Markup p n k) : Markup (ch '&'::(b ++ ch ';'::p)) (n+1) k

/-- The loop ends in the text, and gives the number of visible characters when tags and entities are closed. -/
def CountsVisible (html : Bytes) : Prop :=
  (∃ l, evalHtmlLen html = some l) ∧ ∀ n k, Markup html n k → evalHtmlLen html = some n

variable {stop c : Byte} {l m n k n' k' : ℕ} {b p q html : Bytes}

theorem scanFor_append (hb : stop ∉ b) : scanFor stop (b ++ stop::p) = some (stop::p) := by
  induction b with
  | nil => simp [scanFor]
  | cons c b ih =>
    obtain ⟨hc,hb⟩ := not_or.mp (mt List.mem_cons.mpr hb)
    rw [List.cons_append,scanFor,if_neg (Ne.symm hc),ih hb]

theorem scanFor_spec (h : scanFor stop p = some q) : ∃ b r, p = b ++ stop::r ∧ stop ∉ b ∧ q = stop::r := by
  induction p with
  | nil => cases h
  | cons c p ih =>
    rw [scanFor] at h
    split_ifs at h with hc
    · exact ⟨[],p,by rw [hc]; rfl,List.not_mem_nil,by rw [← Option.some.inj h,hc]⟩
    · obtain ⟨b,r,rfl,hb,hq⟩ := ih h
      refine ⟨c::b,r,rfl,?_,hq⟩
      simp [hb,Ne.symm hc]

theorem htmlLenLoop_char (hlt : c ≠ ch '<') (hamp : c ≠ ch '&') : htmlLenLoop l (c::p) = htmlLenLoop (l+1) p := by
  rw [htmlLenLoop,dif_neg hlt,dif_neg hamp]

/-- The scan over a tag stops at its end, which is then counted as a character. -/
theorem htmlLenLoop_tag (hb : ch '>' ∉ b) : htmlLenLoop l (ch '<'::(b ++ ch '>'::p)) = htmlLenLoop (l+1) p := by
  have hscan : scanFor (ch '>') (ch '<'::(b ++ ch '>'::p)) = some (ch '>'::p) := by
    rw [scanFor,if_neg (by decide)]
    exact scanFor_append hb
  rw [htmlLenLoop,dif_pos rfl]
  split
  · rename_i q hq
    rw [hscan] at hq
    rw [← Option.some.inj hq]
    exact htmlLenLoop_char (by decide) (by decide)
  · rename_i hq
    rw [hscan] at hq
    cases hq

theorem htmlLenLoop_entity (hb : ch ';' ∉ b) : htmlLenLoop l (ch '&'::(b ++ ch ';'::p)) = htmlLenLoop (l+1) p := by
  have hscan : scanFor (ch ';') (ch '&'::(b ++ ch ';'::p)) = some (ch ';'::p) := by
    rw [scanFor,if_neg (by decide)]
    exact scanFor_append hb
  rw [htmlLenLoop,dif_neg (by decide),dif_pos rfl]
  split
  · rename_i q hq
    rw [hscan] at hq
    rw [← Option.some.inj hq]
    exact htmlLenLoop_char (by decide) (by decide)
  · rename_i hq
    rw [hscan] at hq
    cases hq

theorem Markup.htmlLenLoop (h : Markup p n k) : htmlLenLoop l p = some (l+n+k) := by
  induction h generalizing l with
  | nil => rw [Smx.htmlLenLoop]; rfl
  | char hlt hamp _ ih =>
    rw [htmlLenLoop_char hlt hamp,ih]
    congr 1
    omega
  | tag hb _ ih =>
    rw [htmlLenLoop_tag hb,ih]
    congr 1
    omega
  | entity hb _ ih =>
    rw [htmlLenLoop_entity hb,ih]
    congr 1
    omega

theorem Markup.of_char (h : Markup (c::p) n k) (hlt : c ≠ ch '<') (hamp : c ≠ ch '&') :
    ∃ m, n = m+1 ∧ Markup p m k := by
  cases h with
  | char _ _ h => exact ⟨_,rfl,h⟩
  | tag => exact absurd rfl hlt
  | entity => exact absurd rfl hamp

/-- The loop ends in the text only when tags and entities are closed. -/
theorem exists_markup (h : htmlLenLoop l p = some m) : ∃ n k, Markup p n k := by
  fun_induction htmlLenLoop l p with
  | case1 l => exact ⟨0,0,.nil⟩
  | case2 l p q hscan ih =>
    obtain ⟨n,k,hq⟩ := ih h
    rw [scanFor,if_neg (by decide)] at hscan
    obtain ⟨b,r,rfl,hb,rfl⟩ := scanFor_spec hscan
    obtain ⟨n,-,hr⟩ := hq.of_char (by decide) (by decide)
    exact ⟨n,k+1,.tag hb hr⟩
  | case3 => cases h
  | case4 l p _ q hscan ih =>
    obtain ⟨n,k,hq⟩ := ih h
    rw [scanFor,if_neg (by decide)] at hscan
    obtain ⟨b,r,rfl,hb,rfl⟩ := scanFor_spec hscan
    obtain ⟨n,-,hr⟩ := hq.of_char (by decide) (by decide)
    exact ⟨n+1,k,.entity hb hr⟩
  | case5 => cases h
  | case6 l c p hlt hamp ih =>
    obtain ⟨n,k,hp⟩ := ih h
    exact ⟨n+1,k,.char hlt hamp hp⟩

/-- A text has one count of characters and one of tags. -/
theorem Markup.unique (h : Markup p n k) (h' : Markup p n' k') : n = n' ∧ k = k' := by
  induction h generalizing n' k' with
  | nil =>
    cases h'
    exact ⟨rfl,rfl⟩
  | char hlt hamp _ ih =>
    obtain ⟨m,rfl,hp⟩ := h'.of_char hlt hamp
    obtain ⟨rfl,rfl⟩ := ih hp
    exact ⟨rfl,rfl⟩
  | @tag b p n k hb _ ih =>
    generalize hq : ch '<'::(b ++ ch '>'::p) = q at h'
    cases h' with
    | nil => cases hq
    | char hlt _ _ => exact absurd (List.cons.inj hq).1.symm hlt
    | tag hb' h' =>
      have hscan := congrArg (scanFor (ch '>')) (List.cons.inj hq).2
      rw [scanFor_append hb,scanFor_append hb'] at hscan
      obtain rfl := (List.cons.inj (Option.some.inj hscan)).2
      obtain ⟨rfl,rfl⟩ := ih h'
      exact ⟨rfl,rfl⟩
    | entity _ _ => exact absurd (List.cons.inj hq).1 (by decide)
  | @entity b p n k hb _ ih =>
    generalize hq : ch '&'::(b ++ ch ';'::p) = q at h'
    cases h' with
    | nil => cases hq
    | char _ hamp _ => exact absurd (List.cons.inj hq).1.symm hamp
    | tag _ _ => exact absurd (List.cons.inj hq).1 (by decide)
    | entity hb' h' =>
      have hscan := congrArg (scanFor (ch ';')) (List.cons.inj hq).2
      rw [scanFor_append hb,scanFor_append hb'] at hscan
      obtain rfl := (List.cons.inj (Option.some.inj hscan)).2
      obtain ⟨rfl,rfl⟩ := ih h'
      exact ⟨rfl,rfl⟩

theorem evalHtmlLen_eq (hne : html ≠ []) (hnul : 0 ∉ html) : evalHtmlLen html = htmlLenLoop 0 html := by
  simp [evalHtmlLen,getBuffer,hne,cstr_of_nul_free hnul]

/-- The count is right for the texts that are not empty, have all their entities closed and have no tags. -/
theorem countsVisible_iff (html : Bytes) (hnul : 0 ∉ html) : CountsVisible html ↔ html ≠ [] ∧ ∃ n, Markup html n 0 := by
  constructor
  · rintro ⟨⟨l,hl⟩,hcount⟩
    have hne : html ≠ [] := by
      rintro rfl
      cases hl
    rw [evalHtmlLen_eq hne hnul] at hl
    obtain ⟨n,k,hm⟩ := exists_markup hl
    have hn := hcount n k hm
    rw [evalHtmlLen_eq hne hnul,hm.htmlLenLoop] at hn
    have hk : k = 0 := by
      have heq := Option.some.inj hn
      omega
    exact ⟨hne,n,hk ▸ hm⟩
  · rintro ⟨hne,n,hm⟩
    have heval : evalHtmlLen html = some n := by
      rw [evalHtmlLen_eq hne hnul,hm.htmlLenLoop]
      simp
    refine ⟨⟨n,heval⟩,?_⟩
    intro n' k' hm'
    rw [heval,(hm.unique hm').1]

theorem countsVisible_entity : CountsVisible (str "a&lt;") ↔ str "a&lt;" ≠ [] ∧ ∃ n, Markup (str "a&lt;") n 0 :=
  countsVisible_iff (str "a&lt;") (by decide)

/-- The end of a tag is counted. -/
theorem tag_counted : Markup (str "<b>x") 1 1 ∧ evalHtmlLen (str "<b>x") = some 2 ∧ ¬CountsVisible (str "<b>x") := by
  have hm : Markup (str "<b>x") 1 1 := .tag (b := str "b") (by decide) (.char (by decide) (by decide) .nil)
  have hlen : evalHtmlLen (str "<b>x") = some 2 := by
    rw [evalHtmlLen_eq (by decide) (by decide),hm.htmlLenLoop]
  refine ⟨hm,hlen,?_⟩
  rintro ⟨-,hcount⟩
  have hone := hcount 1 1 hm
  rw [hlen] at hone
  cases hone

end Smx
