import Smx.Lib.Markup
import Smx.Lib.Output
import Smx.Table.NumFmt

/-! `CTabPre`: a cell of a preformatted table, cut and padded to its column. -/
namespace Smx

open MarkedText Memory

/-- `HTIncr(p, r)`: what is put out, and what is left. -/
def htIncr (p : Bytes) : Bytes × Bytes :=
  if p.head? = some (ch '<') then
    (p.takeWhile (· != ch '>') ++ (p.dropWhile (· != ch '>')).take 1,(p.dropWhile (· != ch '>')).drop 1)
  else ([],p)

def strlenx (b : Bytes) : ℕ := (b.takeWhile (· != ch '<')).length

/-- `if (c) *r++ = c;` -/
def putSet (c : Byte) : Bytes := if c = 0 then [] else [c]

/-- `for(; i < n; ++i) *r++ = ' ';` from zero on. -/
def blanks (n : ℤ) : Bytes := List.replicate n.toNat (ch ' ')

/-- `sprintf(r, "%06x", rgb)` -/
def hex06 (rgb : ℤ) : Bytes :=
  let digits := (Numeral.digits 16 (rgb % 2^32).toNat).map digitChar
  List.replicate (6-digits.length) (ch '0') ++ digits

/-- `while (*p && *p != '<') ++p; HTIncr(p, r);` -/
def nextTag (p : Bytes) : Bytes × Bytes := htIncr (p.dropWhile (· != ch '<'))

namespace CTabPre

/-- The loops over the text, with the tags in it not counted: what is put out, the counter, and what is left. -/
def copyText (wid : ℤ) : ℕ → ℤ → Bytes → Bytes × ℤ × Bytes
  | 0,i,p => ([],i,p)
  | _+1,i,[] => ([],i,[])
  | fuel+1,i,c::p =>
    if i < wid then
      if c = ch '<' then
        let (tag,p) := htIncr (c::p)
        let (out,i,p) := copyText wid fuel i p
        (tag ++ out,i,p)
      else
        let (out,i,p) := copyText wid fuel (i+1) p
        (c::out,i,p)
    else ([],i,c::p)

def underline (col : ColFmt) (tag : Bytes) : List (Put Byte) := if col.att &&& ATT_U = 0 then [] else [.printed tag]

/-- The branch for `l`. -/
def colL (col : ColFmt) (p : Bytes) : List (Put Byte) × Bytes :=
  let (out,i,p) := copyText col.wid p.length 0 p
  let (tag,p) := nextTag p
  ([.chars (putSet col.pre)] ++ underline col (str "<u>") ++ [.chars out,.chars tag] ++ underline col (str "</u>") ++
    [.chars (blanks (col.wid-i))],p)

/-- The branch for `c`. -/
def colC (col : ColFmt) (p : Bytes) : List (Put Byte) × Bytes :=
  let len := min (strlenx p : ℤ) col.wid
  let left := (col.wid-len).tdiv 2
  let (out,i,p) := copyText col.wid p.length (max 0 left) p
  -- the loop counts once more when it ends in front of the end of the text
  let i := if p = [] then i else i+1
  let (tag,p) := nextTag p
  ([.chars (blanks left),.chars (putSet col.pre)] ++ underline col (str "<u>") ++ [.chars out,.chars tag] ++
    underline col (str "</u>") ++ [.chars (blanks (col.wid-i))],p)

/-- The branch for `r`. -/
def colR (col : ColFmt) (p : Bytes) : List (Put Byte) × Bytes :=
  let len := min (strlenx p : ℤ) col.wid
  let (out,_,p) := copyText col.wid p.length (max 0 (col.wid-len)) p
  let (tag,p) := nextTag p
  ([.chars (putSet col.pre),.chars (blanks (col.wid-len))] ++ underline col (str "<u>") ++ [.chars out,.chars tag] ++
    underline col (str "</u>"),p)

/-- The end of the colour of the cell before, and the begin of the colour of this one. -/
def colorTags (pRgb rgb : ℤ) : List Bytes :=
  if pRgb ≠ rgb then
    (if pRgb ≠ 0 then [str "</font>"] else []) ++ if rgb ≠ 0 then [str "<font color=" ++ hex06 rgb ++ [ch '>']] else []
  else []

def colPad (col : ColFmt) (p : Bytes) : List (Put Byte) × Bytes :=
  if col.pad = ch 'l' then colL col p
  else if col.pad = ch 'c' then colC col p
  else if col.pad = ch 'r' then colR col p
  else ([],p)

/-- `ColV`: what is put out for the text, and what is left of it. -/
def colV (col : ColFmt) (pRgb rgb : ℤ) (p : Bytes) : List (Put Byte) × Bytes :=
  let (cell,p) := colPad col p
  let (tag,p) := nextTag p
  ((colorTags pRgb rgb).map .printed ++ cell ++ [.chars tag,.chars (putSet col.pos),.chars (blanks col.spc)],p)

/-- The colour of a cell with a value. -/
def rgbOf (col : ColFmt) (val : ℚ) : ℤ := if col.rgb ≠ -1 then col.rgb else if val < 0 then col.neg else 0

/-- What `Col` puts out for a text with `lead` in front of it. -/
def cell (col : ColFmt) (pRgb rgb : ℤ) (lead p : Bytes) : List (Put Byte) :=
  let (out,p) := colV col pRgb rgb p
  [.chars lead] ++ out ++ [.chars (htIncr p).1]

/-- `Col` for a text that is not empty: `val` is what `strtodx` reads of it, `tmp` what `m_tmp` holds. -/
def col (col : ColFmt) (pRgb : ℤ) (szDat : Bytes) (val : ℚ) (tmp : ℕ → Byte) : Option (List (Put Byte)) := do
  let (lead,szDat) := htIncr szDat
  let p ← numFmt col szDat val 512 tmp
  some (cell col pRgb (rgbOf col val) lead p)

example : (col { pad := ch 'c',wid := 7,pos := ch '%',spc := 1,att := ATT_U,dec := -1 } 255 (str "<b>abc</b>") 0
    dirty).map flat = some (str "<b></font>  <u>abc</b></u>  % ") := by decide +kernel

example : (col { pad := ch 'r',wid := 5,dec := -1 } 0 (str "ab<i>cd</i>") 0 dirty).map flat =
    some (str "   ab<i></i>") := by decide +kernel

/-- Characters and whole tags. -/
abbrev HtmlItem := Item (ch '<') (ch '>')

def seen (text : Bytes) : Bytes := visible (ch '<') (ch '>') false text

def tagsOf (text : Bytes) : List Bytes := tagTexts (ch '<') (ch '>') none text

/-- The text is cut to the width, padded on the side of the alignment, and has the signs and the spacing around it. -/
def Aligned (col : ColFmt) (text piece : Bytes) : Prop :=
  let cut := text.take col.wid.toNat
  ∃ left right : ℕ, left+cut.length+right = col.wid.toNat ∧
    (col.pad = ch 'l' → left = 0) ∧ (col.pad = ch 'r' ∨ col.pad = ch 'd' → right = 0) ∧
    (col.pad = ch 'c' → left ≤ right+1 ∧ right ≤ left+1) ∧
    piece = (if col.pad = ch 'c' then blanks left ++ putSet col.pre else putSet col.pre ++ blanks left) ++
      cut ++ blanks right ++ putSet col.pos ++ blanks col.spc

/-- The tags that the cell has of its own. -/
def ownTags (col : ColFmt) (pRgb rgb : ℤ) : List Bytes :=
  colorTags pRgb rgb ++ if col.pad = ch 'd' ∨ col.att &&& ATT_U = 0 then [] else [str "<u>",str "</u>"]

/-- The piece that is put out for a text. -/
structure CellRight (col : ColFmt) (pRgb rgb : ℤ) (text piece : Bytes) : Prop where
  aligned : Aligned col (seen text) (seen piece)
  once : (tagsOf piece).Perm (ownTags col pRgb rgb ++ tagsOf text)
  inOrder : (tagsOf text).Sublist (tagsOf piece)

/-- What `Col` hands on behind the tag in front. -/
def shownText (col : ColFmt) (text : List HtmlItem) (val : ℚ) (tmp : ℕ → Byte) : Option Bytes :=
  numFmt col (render (dropHeadTag text)) val 512 tmp

/-- Behind the text that is copied are `n` tags at most, or one more that follows at once. -/
def TagsEnd (n : ℕ) (items : List HtmlItem) : Prop := tags (dropHeadTag (behindTag^[n] items)) = []

/-- How many characters stand in front of the first tag, up to the width. -/
def firstPart (col : ColFmt) (items : List HtmlItem) : ℕ := min (before items).length col.wid.toNat

/-- How many characters the cell has room for. -/
def cutPart (col : ColFmt) (items : List HtmlItem) : ℕ := min (chars items).length col.wid.toNat

def Blank (col : ColFmt) (items : List HtmlItem) : Prop := ∀ c ∈ (chars items).take col.wid.toNat, c = ch ' '

/-- A column has no sign around its text but those that a format string sets. -/
structure Signs (col : ColFmt) : Prop where
  pre : col.pre = 0 ∨ col.pre = ch '$'
  pos : col.pos = 0 ∨ col.pos = ch '%'

theorem Signs.ite {q : Prop} [Decidable q] {a b : Option (Bytes × ColFmt)} (ha : ∀ r, a = some r → Signs r.2)
    (hb : ∀ r, b = some r → Signs r.2) : ∀ r, (if q then a else b) = some r → Signs r.2 := by
  split_ifs
  · exact ha
  · exact hb

theorem Signs.colStep {col : ColFmt} {c : Byte} {p : Bytes} (h : Signs col) :
    ∀ r, Smx.colStep c p col = some r → Signs r.2 := by
  have hset : ∀ col' : ColFmt, ∀ p : Bytes, (col'.pre = col.pre ∨ col'.pre = ch '$') →
      (col'.pos = col.pos ∨ col'.pos = ch '%') →
      ∀ r, some (p,col') = some r → Signs r.2 := by
    rintro col' p hpre hpos _ ⟨⟩
    constructor
    · rcases hpre with hpre | hpre
      · rw [hpre]
        exact h.pre
      · exact Or.inr hpre
    · rcases hpos with hpos | hpos
      · rw [hpos]
        exact h.pos
      · exact Or.inr hpos
  unfold Smx.colStep
  repeat' apply Signs.ite
  all_goals first
    | exact hset _ _ (Or.inl rfl) (Or.inl rfl)
    | exact hset _ _ (Or.inr rfl) (Or.inl rfl)
    | exact hset _ _ (Or.inl rfl) (Or.inr rfl)
    | skip
  -- the separator and the trimming look at what comes next
  · intro r hr
    split at hr
    · cases hr
    · exact hset _ _ (by exact Or.inl rfl) (by exact Or.inl rfl) r hr
  · intro r hr
    split at hr
    · refine Signs.ite (hset _ _ ?_ ?_) (hset _ _ ?_ ?_) r hr <;> exact Or.inl rfl
    · exact hset _ _ (by exact Or.inl rfl) (by exact Or.inl rfl) r hr

theorem Signs.colDef {col col' : ColFmt} {fmt : Bytes} (h : Signs col) (hdef : Smx.colDef col fmt = some col') :
    Signs col' := by
  have hloop : ∀ (n : ℕ) (fmt : Bytes) (col : ColFmt), Signs col → colLoop n fmt col = some col' → Signs col' := by
    intro n
    induction n with
    | zero =>
      intro fmt col h hloop
      cases fmt with
      | nil =>
        cases hloop
        exact h
      | cons c p => cases hloop
    | succ n ih =>
      intro fmt col h hloop
      cases fmt with
      | nil =>
        cases hloop
        exact h
      | cons c p =>
        obtain ⟨r,hstep,hrest⟩ := Option.bind_eq_some_iff.mp hloop
        exact ih r.1 r.2 (h.colStep r hstep) hrest
  rw [Smx.colDef] at hdef
  exact hloop _ _ { col with dec := -1 } ⟨h.pre,h.pos⟩ hdef

/-- When a cell comes out right. -/
def CellFits (col : ColFmt) (items : List HtmlItem) : Prop :=
  let w := col.wid.toNat
  let k := firstPart col items
  let m := cutPart col items
  if col.pad = ch 'l' then TagsEnd 2 (dropChars w items)
  else if col.pad = ch 'c' then
    ((w-k)/2 = (w-m)/2 ∨ (w-k)/2 = (w-m+1)/2 ∨ Blank col items ∧ col.pre = 0) ∧ TagsEnd 2 (dropChars (w-(w-k)/2) items)
  else if col.pad = ch 'r' then (k = m ∨ Blank col items) ∧ TagsEnd 2 (dropChars k items)
  else (col.pre = 0 ∧ col.wid = 0) ∧ TagsEnd 1 items

section
variable {items : List HtmlItem} {wid i : ℤ} {fuel : ℕ}

theorem htIncr_render (items : List HtmlItem) :
    htIncr (render items) = ((headTag items).flatten,render (dropHeadTag items)) := by
  cases items with
  | nil => rfl
  | cons item items =>
    cases item with
    | char c => exact if_neg fun h => c.2 (Option.some.inj h)
    | tag body =>
      have hbody : ∀ c ∈ ch '<'::body.val, (c != ch '>') = true := by
        intro c hc
        rcases List.mem_cons.mp hc with rfl | hc
        · rfl
        · simpa using ne_of_mem_of_not_mem hc body.2
      have htext : render (Item.tag body::items) = (ch '<'::body.val) ++ ch '>'::render items := by
        simp [render,Item.text]
      have hhead : (ch '<'::body.val ++ ch '>'::render items).head? = some (ch '<') := rfl
      rw [htext,htIncr,if_pos hhead,List.takeWhile_append_of_pos hbody,List.dropWhile_append_of_pos hbody]
      simp [headTag,dropHeadTag]

theorem dropWhile_render (items : List HtmlItem) : (render items).dropWhile (· != ch '<') = render (toTag items) := by
  induction items with
  | nil => rfl
  | cons item items ih =>
    cases item with
    | char c =>
      have hc : (c.val != ch '<') = true := by simpa using c.2
      rw [toTag,← ih]
      exact List.dropWhile_cons_of_pos hc
    | tag body => rfl

theorem nextTag_render (items : List HtmlItem) :
    nextTag (render items) = ((headTag (toTag items)).flatten,render (behindTag items)) := by
  rw [nextTag,dropWhile_render,htIncr_render,behindTag]

theorem strlenx_render (items : List HtmlItem) : strlenx (render items) = (before items).length := by
  induction items with
  | nil => rfl
  | cons item items ih =>
    cases item with
    | char c =>
      have hc : (c.val != ch '<') = true := by simpa using c.2
      have hwhile : (c.val::render items).takeWhile (· != ch '<') = c.val::(render items).takeWhile (· != ch '<') :=
        List.takeWhile_cons_of_pos hc
      rw [before,List.length_cons,← ih]
      exact congrArg List.length hwhile
    | tag body => rfl

theorem copyText_stop (fuel : ℕ) (i : ℤ) (p : Bytes) : copyText i fuel i p = ([],i,p) := by
  cases fuel with
  | zero => rfl
  | succ fuel => cases p <;> simp [copyText]

theorem copyText_render (hfuel : (render items).length ≤ fuel) (hi : i ≤ wid) :
    copyText wid fuel i (render items) = (render (takeChars (wid-i).toNat items),
      i+(chars (takeChars (wid-i).toNat items)).length,render (dropChars (wid-i).toNat items)) := by
  induction items generalizing fuel i with
  | nil =>
    cases fuel <;> cases (wid-i).toNat <;> simp [copyText,render,takeChars,dropChars,chars]
  | cons item items ih =>
    rcases hi.eq_or_lt with rfl | hlt
    · rw [copyText_stop,sub_self]
      simp [takeChars,dropChars,chars,render]
    · obtain ⟨n,hn⟩ := Nat.exists_eq_add_one.mpr (by omega : 0 < (wid-i).toNat)
      rw [hn]
      cases item with
      | char c =>
        obtain ⟨fuel,rfl⟩ := Nat.exists_eq_add_one.mpr (Nat.zero_lt_of_lt hfuel)
        have hnext : (wid-(i+1)).toNat = n := by omega
        have hloop := ih (Nat.le_of_succ_le_succ hfuel) (by omega : i+1 ≤ wid)
        rw [hnext] at hloop
        change copyText wid (fuel+1) i (c.val::render items) = _
        rw [copyText,if_pos hlt,if_neg c.2,hloop]
        refine Prod.ext rfl (Prod.ext ?_ rfl)
        change i+1+_ = i+((_+1 : ℕ) : ℤ)
        omega
      | tag body =>
        have hlen : (render (Item.tag body::items)).length = body.val.length+2+(render items).length := by
          simp [render,Item.text]
          omega
        rw [hlen] at hfuel
        obtain ⟨fuel,rfl⟩ := Nat.exists_eq_add_one.mpr (by omega : 0 < fuel)
        have hloop := ih (by omega : (render items).length ≤ fuel) hi
        rw [hn] at hloop
        have hcons : render (Item.tag body::items) = ch '<'::(body.val ++ ch '>'::render items) := by
          simp [render,Item.text]
        have htag := htIncr_render (Item.tag body::items)
        rw [hcons] at htag ⊢
        rw [copyText,if_pos hlt,if_pos rfl,htag]
        simp only [dropHeadTag,hloop]
        simp [headTag,takeChars,dropChars,chars,render,Item.text]

/-- The tags around the text, if it is underlined. -/
def underTags (col : ColFmt) (tag : Bytes) : List Bytes := if col.att &&& ATT_U = 0 then [] else [tag]

/-- Pieces of output that are read as characters and tags. -/
abbrev HtmlReads (out vs : Bytes) (ts : List Bytes) : Prop := Reads (ch '<') (ch '>') out vs ts

theorem reads_putSet {c : Byte} (hc : c ≠ ch '<') : HtmlReads (putSet c) (putSet c) [] := by
  refine Reads.plain ?_
  rw [putSet]
  split_ifs
  · exact List.not_mem_nil
  · exact fun h => hc (List.mem_singleton.mp h).symm

theorem reads_blanks (n : ℤ) : HtmlReads (blanks n) (blanks n) [] := by
  refine Reads.plain ?_
  intro h
  exact absurd (List.eq_of_mem_replicate h) (by decide)

theorem reads_tag (body : Bytes) (h : ch '>' ∉ body) :
    HtmlReads (ch '<'::(body ++ [ch '>'])) [] [ch '<'::(body ++ [ch '>'])] := Reads.tag h

theorem reads_open (col : ColFmt) : HtmlReads (flat (underline col (str "<u>"))) [] (underTags col (str "<u>")) := by
  rw [underline,underTags]
  split_ifs
  · exact Reads.nil
  · exact reads_tag (str "u") (by decide)

theorem reads_close (col : ColFmt) : HtmlReads (flat (underline col (str "</u>"))) [] (underTags col (str "</u>")) := by
  rw [underline,underTags]
  split_ifs
  · exact Reads.nil
  · exact reads_tag (str "/u") (by decide)

theorem digitChar_ne {d : ℕ} (hd : d < 16) : digitChar d ≠ ch '>' := by
  have hall : ((List.range 16).all fun d => digitChar d != ch '>') = true := by decide
  simpa using List.all_eq_true.mp hall d (List.mem_range.mpr hd)

theorem hex06_plain (rgb : ℤ) : ch '>' ∉ hex06 rgb := by
  intro h
  rcases List.mem_append.mp h with h | h
  · exact absurd (List.eq_of_mem_replicate h) (by decide)
  · obtain ⟨d,hd,hchar⟩ := List.mem_map.mp h
    exact digitChar_ne (Numeral.digits_lt (by decide) hd) hchar

theorem reads_color (pRgb rgb : ℤ) :
    HtmlReads (flat ((colorTags pRgb rgb).map Put.printed)) [] (colorTags pRgb rgb) := by
  have hend : HtmlReads (str "</font>") [] [str "</font>"] := reads_tag (str "/font") (by decide)
  have hbegin : HtmlReads (str "<font color=" ++ hex06 rgb ++ [ch '>']) []
      [str "<font color=" ++ hex06 rgb ++ [ch '>']] := by
    refine reads_tag (str "font color=" ++ hex06 rgb) ?_
    intro h
    rcases List.mem_append.mp h with h | h
    · exact absurd h (by decide)
    · exact hex06_plain rgb h
  rw [colorTags]
  split_ifs
  · simpa [Put.text] using hend.append hbegin
  · simpa [Put.text] using hend
  · simpa [Put.text] using hbegin
  · exact Reads.nil
  · exact Reads.nil

theorem reads_chars {cs vs : Bytes} {ts : List Bytes} (h : HtmlReads cs vs ts) :
    HtmlReads (flat [Put.chars cs]) vs ts := by
  rwa [flat_cons,flat_nil,List.append_nil]

/-- The text of a cell up to its `n`-th character, with the next tag, underlined. -/
def textPuts (col : ColFmt) (n : ℕ) (items : List HtmlItem) : List (Put Byte) :=
  underline col (str "<u>") ++ [.chars (render (takeChars n items))] ++
    [.chars (headTag (toTag (dropChars n items))).flatten] ++ underline col (str "</u>")

theorem reads_text (col : ColFmt) (n : ℕ) (items : List HtmlItem) :
    HtmlReads (flat (textPuts col n items)) ((chars items).take n)
      (underTags col (str "<u>") ++ tags (takeChars n items) ++ headTag (toTag (dropChars n items)) ++
        underTags col (str "</u>")) := by
  have h := (((reads_open col).append (reads_chars (Reads.render (takeChars n items)))).append
    (reads_chars (Reads.headTag (toTag (dropChars n items))))).append (reads_close col)
  rw [List.nil_append,List.append_nil,List.append_nil,chars_takeChars,← flat_append,← flat_append,← flat_append] at h
  exact h

/-- The output of a branch of `ColV`, and what it leaves of the text. -/
def Pads (col : ColFmt) (items : List HtmlItem) (n : ℕ) (vs : Bytes) : Prop :=
  ∃ out, colPad col (render items) = (out,render (behindTag (dropChars n items))) ∧
    HtmlReads (flat out) vs (underTags col (str "<u>") ++ tags (takeChars n items) ++
      headTag (toTag (dropChars n items)) ++ underTags col (str "</u>"))

theorem pads_left {col : ColFmt} (hpad : col.pad = ch 'l') (hwid : 0 ≤ col.wid) (hpre : col.pre ≠ ch '<')
    (items : List HtmlItem) : Pads col items col.wid.toNat (putSet col.pre ++ (chars items).take col.wid.toNat ++
      blanks (col.wid.toNat-((chars items).take col.wid.toNat).length : ℕ)) := by
  have hreads := ((reads_chars (reads_putSet hpre)).append (reads_text col col.wid.toNat items)).append
    (reads_chars (reads_blanks (col.wid.toNat-((chars items).take col.wid.toNat).length : ℕ)))
  rw [List.nil_append,List.append_nil,← flat_append,← flat_append] at hreads
  refine ⟨_,?_,hreads⟩
  rw [colPad,if_pos hpad,colL,copyText_render le_rfl hwid]
  have hz : (col.wid-0).toNat = col.wid.toNat := by omega
  have hrest : blanks (col.wid-(0+((chars (takeChars col.wid.toNat items)).length : ℤ))) =
      blanks (col.wid.toNat-((chars items).take col.wid.toNat).length : ℕ) := by
    rw [chars_takeChars,blanks,blanks]
    congr 1
    omega
  simp only [hz,nextTag_render,hrest,textPuts,List.append_assoc]
  rfl

theorem pads_right {col : ColFmt} (hpad : col.pad = ch 'r') (hwid : 0 ≤ col.wid) (hpre : col.pre ≠ ch '<')
    (items : List HtmlItem) : Pads col items (firstPart col items) (putSet col.pre ++
      blanks (col.wid.toNat-firstPart col items : ℕ) ++ (chars items).take (firstPart col items)) := by
  have hreads := ((reads_chars (reads_putSet hpre)).append
    (reads_chars (reads_blanks (col.wid.toNat-firstPart col items : ℕ)))).append
    (reads_text col (firstPart col items) items)
  rw [List.nil_append,List.nil_append,← flat_append,← flat_append] at hreads
  refine ⟨_,?_,hreads⟩
  have hl : ¬col.pad = ch 'l' := by
    rw [hpad]
    decide
  have hc : ¬col.pad = ch 'c' := by
    rw [hpad]
    decide
  have hlen : min (strlenx (render items) : ℤ) col.wid = firstPart col items := by
    rw [strlenx_render,firstPart]
    omega
  have hle : (firstPart col items : ℤ) ≤ col.wid := by
    rw [← hlen]
    exact min_le_right _ _
  rw [colPad,if_neg hl,if_neg hc,if_pos hpad,colR,hlen,copyText_render le_rfl (by omega)]
  have hn : (col.wid-max 0 (col.wid-firstPart col items)).toNat = firstPart col items := by omega
  have hblanks : blanks (col.wid-firstPart col items) = blanks (col.wid.toNat-firstPart col items : ℕ) := by
    rw [blanks,blanks]
    congr 1
    omega
  simp only [hn,nextTag_render,hblanks,textPuts,List.append_assoc]
  rfl

theorem pads_center {col : ColFmt} (hpad : col.pad = ch 'c') (hwid : 0 ≤ col.wid) (hpre : col.pre ≠ ch '<')
    (items : List HtmlItem) {h n : ℕ} (hh : h = (col.wid.toNat-firstPart col items)/2) (hn : n = col.wid.toNat-h) :
    Pads col items n (blanks h ++ putSet col.pre ++ (chars items).take n ++
      blanks (n-((chars items).take n).length : ℕ)) := by
  have hreads := (((reads_chars (reads_blanks h)).append (reads_chars (reads_putSet hpre))).append
    (reads_text col n items)).append (reads_chars (reads_blanks (n-((chars items).take n).length : ℕ)))
  rw [List.nil_append,List.nil_append,List.append_nil,← flat_append,← flat_append,← flat_append] at hreads
  refine ⟨_,?_,hreads⟩
  have hl : ¬col.pad = ch 'l' := by
    rw [hpad]
    decide
  have hlen : min (strlenx (render items) : ℤ) col.wid = firstPart col items := by
    rw [strlenx_render,firstPart]
    omega
  have hleft : (col.wid-firstPart col items).tdiv 2 = h := by
    have hle : firstPart col items ≤ col.wid.toNat := min_le_right _ _
    rw [Int.tdiv_eq_ediv_of_nonneg (by omega),hh]
    omega
  rw [colPad,if_neg hl,if_pos hpad,colC,hlen,hleft,copyText_render le_rfl (by omega)]
  have hmax : max 0 (h : ℤ) = h := by omega
  have hroom : (col.wid-h).toNat = n := by omega
  -- in front of the end of the text the cell is full
  have hrest : ∀ p, p = render (dropChars n items) → blanks (col.wid-(if p = [] then
        (h : ℤ)+(chars (takeChars n items)).length else (h : ℤ)+(chars (takeChars n items)).length+1)) =
      blanks (n-((chars items).take n).length : ℕ) := by
    rintro p rfl
    rw [chars_takeChars,blanks,blanks]
    congr 1
    split_ifs with hp
    · omega
    · have hmore : dropChars n items ≠ [] := by
        intro hnil
        rw [hnil] at hp
        exact hp rfl
      have hlong := (dropChars_eq_nil_or n items).resolve_left hmore
      rw [List.length_take]
      omega
  simp only [hmax,hroom,nextTag_render,textPuts,List.append_assoc]
  rw [hrest _ rfl]
  rfl

end

theorem firstPart_le (col : ColFmt) (items : List HtmlItem) :
    firstPart col items ≤ min (chars items).length col.wid.toNat :=
  min_le_min_right _ (before_isPrefix items).length_le

section
variable {col : ColFmt} {text : Bytes} {k w j x y : ℕ}

/-- A text that stays the same with blanks put in front is blank. -/
theorem blank_of_shift {b : Byte} {a : Bytes} (hj : 0 < j)
    (h : List.replicate j b ++ (a.take k ++ List.replicate x b) = a ++ List.replicate y b) : ∀ c ∈ a, c = b := by
  have hget : ∀ (i : ℕ) (c : Byte), a[i]? = some c → c = b := by
    intro i
    induction i using Nat.strong_induction_on with
    | _ i ih =>
      intro c hc
      have hi := (List.getElem?_eq_some_iff.mp hc).1
      have hsame : (List.replicate j b ++ (a.take k ++ List.replicate x b))[i]? = some c := by
        rw [h,List.getElem?_append_left hi,hc]
      rcases Nat.lt_or_ge i j with hij | hij
      · rw [List.getElem?_append_left (by simpa using hij)] at hsame
        exact List.eq_of_mem_replicate (List.mem_of_getElem? hsame)
      · rw [List.getElem?_append_right (by simpa using hij),List.length_replicate] at hsame
        rcases Nat.lt_or_ge (i-j) (a.take k).length with hk | hk
        · rw [List.getElem?_append_left hk] at hsame
          rw [List.length_take] at hk
          rw [List.getElem?_take_of_lt (by omega)] at hsame
          exact ih (i-j) (by omega) c hsame
        · rw [List.getElem?_append_right hk] at hsame
          exact List.eq_of_mem_replicate (List.mem_of_getElem? hsame)
  intro c hc
  obtain ⟨i,hi⟩ := List.mem_iff_getElem?.mp hc
  exact hget i c hi

theorem shift_iff {b : Byte} {a : Bytes} (hj : j = 0 → k = a.length) (hk : k ≤ a.length)
    (hlen : j+(k+x) = a.length+y) :
    List.replicate j b ++ (a.take k ++ List.replicate x b) = a ++ List.replicate y b ↔ j = 0 ∨ ∀ c ∈ a, c = b := by
  constructor
  · intro h
    rcases Nat.eq_zero_or_pos j with hz | hpos
    · exact Or.inl hz
    · exact Or.inr (blank_of_shift hpos h)
  · rintro (rfl | hblank)
    · obtain rfl := hj rfl
      obtain rfl : x = y := by omega
      rw [List.take_length]
      rfl
    · obtain ⟨n,rfl⟩ : ∃ n, a = List.replicate n b := ⟨a.length,List.eq_replicate_iff.mpr ⟨rfl,hblank⟩⟩
      rw [List.length_replicate] at hk hlen
      rw [List.take_replicate,List.replicate_append_replicate,List.replicate_append_replicate,
        List.replicate_append_replicate,min_eq_left hk,hlen]

theorem aligned_left (hpad : col.pad = ch 'l') (text : Bytes) :
    Aligned col text (putSet col.pre ++ text.take col.wid.toNat ++
      blanks (col.wid.toNat-(text.take col.wid.toNat).length : ℕ) ++ (putSet col.pos ++ blanks col.spc)) := by
  have hl : ¬ch 'l' = ch 'r' := by decide
  have hd : ¬ch 'l' = ch 'd' := by decide
  have hc : ¬ch 'l' = ch 'c' := by decide
  have hle := List.length_take_le col.wid.toNat text
  refine ⟨0,col.wid.toNat-(text.take col.wid.toNat).length,by omega,fun _ => rfl,?_,?_,?_⟩
  · intro h
    rw [hpad] at h
    exact absurd h (not_or.mpr ⟨hl,hd⟩)
  · intro h
    rw [hpad] at h
    exact absurd h hc
  · rw [hpad,if_neg hc]
    simp [blanks]

theorem aligned_right_iff (hpad : col.pad = ch 'r') (hk : k ≤ min text.length col.wid.toNat) :
    Aligned col text
        (putSet col.pre ++ blanks (col.wid.toNat-k : ℕ) ++ text.take k ++ (putSet col.pos ++ blanks col.spc)) ↔
      k = min text.length col.wid.toNat ∨ ∀ c ∈ text.take col.wid.toNat, c = ch ' ' := by
  have hl : ¬ch 'r' = ch 'l' := by decide
  have hc : ¬ch 'r' = ch 'c' := by decide
  have hcut : (text.take col.wid.toNat).length = min text.length col.wid.toNat := by
    rw [List.length_take,min_comm]
  have htake : text.take k = (text.take col.wid.toNat).take k := by
    rw [List.take_take,min_eq_left (hk.trans (min_le_right _ _))]
  have hsplit : blanks (col.wid.toNat-k : ℕ) = blanks (col.wid.toNat-(text.take col.wid.toNat).length : ℕ) ++
      List.replicate ((text.take col.wid.toNat).length-k) (ch ' ') := by
    rw [blanks,blanks,List.replicate_append_replicate]
    congr 1
    omega
  have hshift : List.replicate ((text.take col.wid.toNat).length-k) (ch ' ') ++ (text.take col.wid.toNat).take k =
      text.take col.wid.toNat ↔ (text.take col.wid.toNat).length-k = 0 ∨ ∀ c ∈ text.take col.wid.toNat, c = ch ' ' := by
    have h := shift_iff (j := (text.take col.wid.toNat).length-k) (k := k) (x := 0) (y := 0) (b := ch ' ')
      (a := text.take col.wid.toNat) (by omega) (by omega) (by omega)
    rwa [List.replicate_zero,List.append_nil,List.append_nil] at h
  have hk : k = min text.length col.wid.toNat ↔ (text.take col.wid.toNat).length-k = 0 := by omega
  have hnone : blanks ((0 : ℕ) : ℤ) = [] := rfl
  have hpiece : putSet col.pre ++ blanks (col.wid.toNat-k : ℕ) ++ text.take k ++ (putSet col.pos ++ blanks col.spc) =
      putSet col.pre ++ blanks (col.wid.toNat-(text.take col.wid.toNat).length : ℕ) ++ text.take col.wid.toNat ++
        blanks ((0 : ℕ) : ℤ) ++ putSet col.pos ++ blanks col.spc ↔
      List.replicate ((text.take col.wid.toNat).length-k) (ch ' ') ++ (text.take col.wid.toNat).take k =
        text.take col.wid.toNat := by
    rw [hsplit,htake,hnone,List.append_nil]
    simp only [← List.append_assoc,List.append_cancel_right_eq]
    simp only [List.append_assoc,List.append_cancel_left_eq]
  rw [hk,← hshift,← hpiece]
  constructor
  · rintro ⟨left,right,hsum,-,hright,-,heq⟩
    obtain rfl := hright (Or.inl hpad)
    obtain rfl : left = col.wid.toNat-(text.take col.wid.toNat).length := by omega
    rw [hpad,if_neg hc] at heq
    exact heq
  · intro h
    refine ⟨col.wid.toNat-(text.take col.wid.toNat).length,0,by omega,?_,fun _ => rfl,?_,?_⟩
    · intro h'
      exact absurd (hpad.symm.trans h') hl
    · intro h'
      exact absurd (hpad.symm.trans h') hc
    · rw [hpad,if_neg hc]
      exact h

/-- The text of a centred cell with more blanks in front than it is to have. -/
theorem shift_center_iff {pre rest : Bytes} {h left right n : ℕ} (hpre : pre = [] ∨ pre = [ch '$']) (hle : left ≤ h)
    (hn : h = left → n = text.length) (hnle : n ≤ text.length) (hlen : h+n+x = left+text.length+right) :
    blanks h ++ pre ++ text.take n ++ blanks x ++ rest = blanks left ++ pre ++ text ++ blanks right ++ rest ↔
      h = left ∨ (∀ c ∈ text, c = ch ' ') ∧ pre = [] := by
  obtain ⟨j,rfl⟩ := Nat.exists_eq_add_of_le hle
  have hsplit : blanks (left+j : ℕ) = blanks left ++ List.replicate j (ch ' ') :=
    (List.replicate_append_replicate ..).symm
  have hcancel : blanks (left+j : ℕ) ++ pre ++ text.take n ++ blanks x ++ rest =
      blanks left ++ pre ++ text ++ blanks right ++ rest ↔
      List.replicate j (ch ' ') ++ (pre ++ (text.take n ++ blanks x)) = pre ++ (text ++ blanks right) := by
    rw [hsplit,List.append_cancel_right_eq]
    simp only [List.append_assoc,List.append_cancel_left_eq]
  have hj : left+j = left ↔ j = 0 := by omega
  rw [hj] at hn ⊢
  rw [hcancel]
  rcases hpre with rfl | rfl
  · rw [and_iff_left rfl]
    exact shift_iff hn hnle (by omega)
  · cases j with
    | zero =>
      refine iff_of_true ?_ (Or.inl rfl)
      obtain rfl := hn rfl
      obtain rfl : x = right := by omega
      rw [List.take_length]
      rfl
    | succ j =>
      refine iff_of_false ?_ (by simp)
      intro heq
      exact absurd (List.cons.inj heq).1 (by decide)

theorem aligned_center_iff {h n : ℕ} (hpad : col.pad = ch 'c') (hpre : col.pre = 0 ∨ col.pre = ch '$')
    (hk : k ≤ min text.length col.wid.toNat) (hh : h = (col.wid.toNat-k)/2) (hn : n = col.wid.toNat-h) :
    Aligned col text (blanks h ++ putSet col.pre ++ text.take n ++ blanks (n-(text.take n).length : ℕ) ++
        (putSet col.pos ++ blanks col.spc)) ↔
      h = (col.wid.toNat-min text.length col.wid.toNat)/2 ∨ h = (col.wid.toNat-min text.length col.wid.toNat+1)/2 ∨
        (∀ c ∈ text.take col.wid.toNat, c = ch ' ') ∧ col.pre = 0 := by
  have hl : ¬ch 'c' = ch 'l' := by decide
  have hr : ¬(ch 'c' = ch 'r' ∨ ch 'c' = ch 'd') := by decide
  have hcut : (text.take col.wid.toNat).length = min text.length col.wid.toNat := by
    rw [List.length_take,min_comm]
  have htake : text.take n = (text.take col.wid.toNat).take (min n (text.take col.wid.toNat).length) := by
    rw [← List.take_eq_take_min,List.take_take,min_eq_left (by omega)]
  have hlen : (text.take n).length = min n (text.take col.wid.toNat).length := by
    rw [List.length_take,hcut]
    omega
  have hset : putSet col.pre = [] ∨ putSet col.pre = [ch '$'] := by
    rcases hpre with hpre | hpre
    · exact Or.inl (if_pos hpre)
    · right
      rw [hpre]
      rfl
  have hsetz : putSet col.pre = [] ↔ col.pre = 0 := by
    rw [putSet]
    split_ifs with hz <;> simp [hz]
  rw [← hcut] at hk ⊢
  -- the piece with a given number of blanks in front
  have hpiece : ∀ left right : ℕ, left ≤ h → left+(text.take col.wid.toNat).length+right = col.wid.toNat →
      (col.wid.toNat-(text.take col.wid.toNat).length)/2 ≤ left →
      (blanks h ++ putSet col.pre ++ text.take n ++ blanks (n-(text.take n).length : ℕ) ++
          (putSet col.pos ++ blanks col.spc) =
        blanks left ++ putSet col.pre ++ text.take col.wid.toNat ++ blanks right ++ (putSet col.pos ++ blanks col.spc) ↔
      h = left ∨ (∀ c ∈ text.take col.wid.toNat, c = ch ' ') ∧ col.pre = 0) := by
    intro left right hle hsum hhalf
    rw [hlen,htake,← hsetz]
    exact shift_center_iff hset hle (by omega) (min_le_right _ _) (by omega)
  constructor
  · rintro ⟨left,right,hsum,-,-,hcenter,heq⟩
    obtain ⟨hlr,hrl⟩ := hcenter hpad
    rw [hpad,if_pos rfl,List.append_assoc _ (putSet col.pos)] at heq
    by_cases hle : left ≤ h
    · rcases (hpiece left right hle hsum (by omega)).mp heq with hleft | hblank
      · omega
      · exact Or.inr (Or.inr hblank)
    · left
      omega
  · intro hcond
    have hmk : ∀ left right : ℕ, left ≤ h → left+(text.take col.wid.toNat).length+right = col.wid.toNat →
        left ≤ right+1 → right ≤ left+1 → (h = left ∨ (∀ c ∈ text.take col.wid.toNat, c = ch ' ') ∧ col.pre = 0) →
        Aligned col text (blanks h ++ putSet col.pre ++ text.take n ++ blanks (n-(text.take n).length : ℕ) ++
          (putSet col.pos ++ blanks col.spc)) := by
      intro left right hle hsum hlr hrl hc
      refine ⟨left,right,hsum,?_,?_,fun _ => ⟨hlr,hrl⟩,?_⟩
      · intro h'
        exact absurd (hpad.symm.trans h') hl
      · intro h'
        rw [hpad] at h'
        exact absurd h' hr
      · rw [hpad,if_pos rfl,List.append_assoc _ (putSet col.pos)]
        exact (hpiece left right hle hsum (by omega)).mpr hc
    rcases hcond with hhalf | hhalf | hblank
    · exact hmk h (col.wid.toNat-(text.take col.wid.toNat).length-h) le_rfl (by omega) (by omega) (by omega)
        (Or.inl rfl)
    · exact hmk h (col.wid.toNat-(text.take col.wid.toNat).length-h) le_rfl (by omega) (by omega) (by omega)
        (Or.inl rfl)
    · exact hmk ((col.wid.toNat-(text.take col.wid.toNat).length)/2)
        (col.wid.toNat-(text.take col.wid.toNat).length-(col.wid.toNat-(text.take col.wid.toNat).length)/2)
        (by omega) (by omega) (by omega) (by omega) (Or.inr hblank)

theorem aligned_decimal_iff (hpad : col.pad = ch 'd') (hwid : 0 ≤ col.wid) (text : Bytes) :
    Aligned col text (putSet col.pos ++ blanks col.spc) ↔ col.pre = 0 ∧ col.wid = 0 := by
  have hc : ¬ch 'd' = ch 'c' := by decide
  have hl : ¬ch 'd' = ch 'l' := by decide
  constructor
  · rintro ⟨left,right,hsum,-,-,-,heq⟩
    rw [hpad,if_neg hc] at heq
    have hlen := congrArg List.length heq
    simp only [List.length_append,blanks,List.length_replicate] at hlen
    have hset : (putSet col.pre).length = 0 := by omega
    refine ⟨?_,by omega⟩
    by_contra hne
    rw [putSet,if_neg hne] at hset
    cases hset
  · rintro ⟨hpre,hw⟩
    refine ⟨0,0,by simp [hw],?_,fun _ => rfl,?_,?_⟩
    · intro h'
      exact absurd (hpad.symm.trans h') hl
    · intro h'
      exact absurd (hpad.symm.trans h') hc
    · rw [hpad,if_neg hc,hw]
      simp [putSet,hpre,blanks]

end

section
variable {col : ColFmt} {text items rest : List HtmlItem} {val : ℚ} {tmp : ℕ → Byte} {out : List (Put Byte)}
  {vs : Bytes} {ts : List Bytes}

/-- No tag is lost exactly when none is left behind. -/
theorem tags_once_iff (lead color opens taken next closes second last lost : List Bytes) :
    ((lead ++ (color ++ (opens ++ taken ++ next ++ closes ++ (second ++ last)))).Perm
        (color ++ (opens ++ closes) ++ (lead ++ (taken ++ next ++ (second ++ (last ++ lost))))) ∧
      (lead ++ (taken ++ next ++ (second ++ (last ++ lost)))).Sublist
        (lead ++ (color ++ (opens ++ taken ++ next ++ closes ++ (second ++ last))))) ↔ lost = [] := by
  constructor
  · rintro ⟨hperm,-⟩
    have hlen := hperm.length_eq
    simp only [List.length_append] at hlen
    exact List.length_eq_zero_iff.mp (by omega)
  · rintro rfl
    constructor
    · rw [List.perm_iff_count]
      intro t
      simp only [List.count_append,List.append_nil]
      omega
    · rw [List.append_nil]
      refine (List.Sublist.refl lead).append ?_
      refine List.Sublist.trans ?_ (List.sublist_append_right color _)
      refine List.Sublist.append ?_ (List.Sublist.refl _)
      refine List.Sublist.trans ?_ (List.sublist_append_left _ closes)
      rw [List.append_assoc opens]
      exact List.sublist_append_right opens _

theorem col_reads (pRgb : ℤ) (hpos : col.pos ≠ ch '<') (hpad : colPad col (render items) = (out,render rest))
    (hout : HtmlReads (flat out) vs ts) (hshown : shownText col text val tmp = some (render items)) :
    ∃ piece, CTabPre.col col pRgb (render text) val tmp = some piece ∧
      HtmlReads (flat piece) (vs ++ (putSet col.pos ++ blanks col.spc))
        (headTag text ++ (colorTags pRgb (rgbOf col val) ++
          (ts ++ (headTag (toTag rest) ++ headTag (behindTag rest))))) := by
  have hreads := (reads_chars (Reads.headTag text)).append (((((reads_color pRgb (rgbOf col val)).append hout).append
    (reads_chars (Reads.headTag (toTag rest)))).append ((reads_chars (reads_putSet hpos)).append
    (reads_chars (reads_blanks col.spc)))).append (reads_chars (Reads.headTag (behindTag rest))))
  simp only [List.nil_append,List.append_nil,← flat_append,List.append_assoc] at hreads
  refine ⟨_,?_,hreads⟩
  rw [shownText] at hshown
  rw [CTabPre.col,htIncr_render]
  simp only [hshown,Option.bind_eq_bind,Option.bind_some,cell,colV,hpad,nextTag_render,htIncr_render,List.append_assoc]
  rfl

theorem seen_eq (text items : List HtmlItem) : seen ((headTag text).flatten ++ render items) = chars items :=
  ((Reads.headTag text).append (Reads.render items)).visible_eq

theorem tagsOf_eq (text items : List HtmlItem) :
    tagsOf ((headTag text).flatten ++ render items) = headTag text ++ tags items :=
  ((Reads.headTag text).append (Reads.render items)).tagTexts_eq

theorem cellRight_iff {piece : Bytes} {pRgb rgb : ℤ} (h : HtmlReads piece vs ts) :
    CellRight col pRgb rgb ((headTag text).flatten ++ render items) piece ↔ Aligned col (chars items) vs ∧
      ts.Perm (ownTags col pRgb rgb ++ (headTag text ++ tags items)) ∧ (headTag text ++ tags items).Sublist ts := by
  have hseen : seen piece = vs := h.visible_eq
  have htags : tagsOf piece = ts := h.tagTexts_eq
  constructor
  · rintro ⟨h₁,h₂,h₃⟩
    rw [hseen,seen_eq] at h₁
    rw [htags,tagsOf_eq] at h₂ h₃
    exact ⟨h₁,h₂,h₃⟩
  · rintro ⟨h₁,h₂,h₃⟩
    refine ⟨?_,?_,?_⟩
    · rwa [hseen,seen_eq]
    · rwa [htags,tagsOf_eq]
    · rwa [htags,tagsOf_eq]

/-- A cell whose text is padded comes out right when it is aligned and leaves no tag behind. -/
theorem padded_right_iff (pRgb : ℤ) (hpos : col.pos ≠ ch '<') (hpad : col.pad ≠ ch 'd') {n : ℕ}
    (h : Pads col items n vs) (hshown : shownText col text val tmp = some (render items)) :
    ∃ piece, CTabPre.col col pRgb (render text) val tmp = some piece ∧
      (CellRight col pRgb (rgbOf col val) ((headTag text).flatten ++ render items) (flat piece) ↔
        Aligned col (chars items) (vs ++ (putSet col.pos ++ blanks col.spc)) ∧ TagsEnd 2 (dropChars n items)) := by
  obtain ⟨out,hout,hreads⟩ := h
  obtain ⟨piece,hpiece,hall⟩ := col_reads pRgb hpos hout hreads hshown
  refine ⟨piece,hpiece,?_⟩
  have hown : ownTags col pRgb (rgbOf col val) = colorTags pRgb (rgbOf col val) ++
      (underTags col (str "<u>") ++ underTags col (str "</u>")) := by
    rw [ownTags,underTags,underTags]
    split_ifs with h₁ h₂ h₂
    · rfl
    · exact absurd h₁ (not_or.mpr ⟨hpad,h₂⟩)
    · exact absurd (Or.inr h₂) h₁
    · rfl
  have htags : tags items = tags (takeChars n items) ++ headTag (toTag (dropChars n items)) ++
      (headTag (toTag (behindTag (dropChars n items))) ++ (headTag (behindTag (behindTag (dropChars n items))) ++
        tags (dropHeadTag (behindTag^[2] (dropChars n items))))) := by
    conv_lhs => rw [← takeChars_append_dropChars n items,tags_append,tags_behindTag (dropChars n items),
      tags_behindTag (behindTag (dropChars n items)),tags_head (behindTag (behindTag (dropChars n items)))]
    rw [List.append_assoc]
    rfl
  rw [cellRight_iff hall,hown,htags,tags_once_iff,TagsEnd]

end

/-- A cell with a text comes out right exactly when its alignment copies the whole text in front of the cut, and no tag
is left behind it. -/
theorem col_right_iff (col : ColFmt) (pRgb : ℤ) (text items : List HtmlItem) (val : ℚ) (tmp : ℕ → Byte)
    (hpad : col.pad = ch 'r' ∨ col.pad = ch 'l' ∨ col.pad = ch 'c' ∨ col.pad = ch 'd') (hwid : 0 ≤ col.wid)
    (hsigns : Signs col) (hshown : shownText col text val tmp = some (render items)) :
    ∃ piece, CTabPre.col col pRgb (render text) val tmp = some piece ∧
      (CellRight col pRgb (rgbOf col val) ((headTag text).flatten ++ render items) (flat piece) ↔
        CellFits col items) := by
  have hpre := hsigns.pre
  have hplain : col.pre ≠ ch '<' := by
    rcases hpre with h | h <;> rw [h] <;> decide
  have hplain' : col.pos ≠ ch '<' := by
    rcases hsigns.pos with h | h <;> rw [h] <;> decide
  have hends : ch 'd' ≠ ch 'l' ∧ ch 'd' ≠ ch 'c' ∧ ch 'd' ≠ ch 'r' ∧ ch 'r' ≠ ch 'l' ∧ ch 'r' ≠ ch 'c' ∧
      ch 'c' ≠ ch 'l' := by
    decide
  rcases hpad with hr | hl | hc | hd
  · obtain ⟨piece,hpiece,hiff⟩ := padded_right_iff pRgb hplain' (by rw [hr]; decide)
      (pads_right hr hwid hplain items) hshown
    refine ⟨piece,hpiece,?_⟩
    rw [hiff,aligned_right_iff hr (firstPart_le col items),CellFits,hr,if_neg hends.2.2.2.1,if_neg hends.2.2.2.2.1,
      if_pos rfl]
    rfl
  · obtain ⟨piece,hpiece,hiff⟩ := padded_right_iff pRgb hplain' (by rw [hl]; decide)
      (pads_left hl hwid hplain items) hshown
    refine ⟨piece,hpiece,?_⟩
    rw [hiff,and_iff_right (aligned_left hl _),CellFits,if_pos hl]
  · obtain ⟨piece,hpiece,hiff⟩ := padded_right_iff pRgb hplain' (by rw [hc]; decide)
      (pads_center hc hwid hplain items rfl rfl) hshown
    refine ⟨piece,hpiece,?_⟩
    rw [hiff,aligned_center_iff hc hpre (firstPart_le col items) rfl rfl,CellFits,hc,if_neg hends.2.2.2.2.2,if_pos rfl]
    rfl
  · have hnone : colPad col (render items) = ([],render items) := by
      rw [colPad,hd]
      rfl
    obtain ⟨piece,hpiece,hall⟩ := col_reads pRgb hplain' hnone Reads.nil hshown
    refine ⟨piece,hpiece,?_⟩
    have hown : ownTags col pRgb (rgbOf col val) = colorTags pRgb (rgbOf col val) ++ ([] ++ []) := by
      rw [ownTags,if_pos (Or.inl hd)]
      rfl
    have htags : tags items = [] ++ [] ++ (headTag (toTag items) ++ (headTag (behindTag items) ++
        tags (dropHeadTag (behindTag^[1] items)))) := by
      rw [List.nil_append,List.nil_append,Function.iterate_one,← tags_head,← tags_behindTag]
    have honce := tags_once_iff (headTag text) (colorTags pRgb (rgbOf col val)) [] [] [] [] (headTag (toTag items))
      (headTag (behindTag items)) (tags (dropHeadTag (behindTag^[1] items)))
    rw [cellRight_iff hall,hown,htags,List.nil_append,aligned_decimal_iff hd hwid]
    rw [CellFits,hd,if_neg hends.1,if_neg hends.2.1,if_neg hends.2.2.1]
    exact and_congr_right fun _ => honce

/-- A column of seven, and a text in bold for it. -/
def boldCol : ColFmt := { pad := ch 'c',wid := 7,pos := ch '%',spc := 1,att := ATT_U,dec := -1 }

def boldText : List HtmlItem :=
  [.tag ⟨str "b",by decide⟩,.char ⟨ch 'a',by decide⟩,.char ⟨ch 'b',by decide⟩,.tag ⟨str "/b",by decide⟩]

theorem col_right_bold : ∃ piece, CTabPre.col boldCol 255 (render boldText) 0 dirty = some piece ∧
    (CellRight boldCol 255 (rgbOf boldCol 0) ((headTag boldText).flatten ++ render boldText.tail) (flat piece) ↔
      CellFits boldCol boldText.tail) :=
  col_right_iff boldCol 255 boldText boldText.tail 0 dirty (Or.inr (Or.inr (Or.inl rfl))) (by decide)
    ⟨Or.inl rfl,Or.inr rfl⟩ rfl

/-- A column with decimal alignment shows no text. -/
theorem not_col_right : ¬∀ (col : ColFmt) (pRgb : ℤ) (text items : List HtmlItem) (val : ℚ) (tmp : ℕ → Byte),
    (col.pad = ch 'r' ∨ col.pad = ch 'l' ∨ col.pad = ch 'c' ∨ col.pad = ch 'd') → 0 ≤ col.wid →
    Signs col → shownText col text val tmp = some (render items) →
    ∃ piece, CTabPre.col col pRgb (render text) val tmp = some piece ∧
      CellRight col pRgb (rgbOf col val) ((headTag text).flatten ++ render items) (flat piece) := by
  intro h
  obtain ⟨piece,hpiece,hright⟩ := h { pad := ch 'd',wid := 5,dec := -1 } 0 [.char ⟨ch 'a',by decide⟩]
    [.char ⟨ch 'a',by decide⟩] 0 dirty (Or.inr (Or.inr (Or.inr rfl))) (by decide) ⟨Or.inl rfl,Or.inl rfl⟩ rfl
  have hnone : (CTabPre.col { pad := ch 'd',wid := 5,dec := -1 } 0 [ch 'a'] 0 dirty).map flat = some [] := by
    decide +kernel
  have hempty : some (flat piece) = some [] := hnone ▸ congrArg (Option.map flat) hpiece.symm
  rw [Option.some.inj hempty] at hright
  have hwid := ((aligned_decimal_iff rfl (by decide) _).mp hright.aligned).2
  exact absurd hwid (by decide)

end CTabPre

end Smx
