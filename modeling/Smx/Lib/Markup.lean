import Mathlib.Data.List.TakeWhile
import Mathlib.Data.List.Basic

/-! Texts of characters that are seen and of tags between an opening and a closing one. -/
namespace MarkedText

variable {α : Type}

/-- A character that opens no tag, or a whole tag. -/
inductive Item (op cl : α)
  | char (c : {c : α // c ≠ op})
  | tag (body : {t : List α // cl ∉ t})

variable {op cl : α}

def Item.text : Item op cl → List α
  | .char c => [c.val]
  | .tag body => op::(body.val ++ [cl])

def render (items : List (Item op cl)) : List α := items.flatMap Item.text

def chars : List (Item op cl) → List α
  | [] => []
  | .char c::items => c.val::chars items
  | .tag _::items => chars items

def tags : List (Item op cl) → List (List α)
  | [] => []
  | .char _::items => tags items
  | .tag body::items => (op::(body.val ++ [cl]))::tags items

/-- The items up to the `n`-th character. -/
def takeChars : ℕ → List (Item op cl) → List (Item op cl)
  | 0,_ => []
  | _+1,[] => []
  | n+1,.char c::items => .char c::takeChars n items
  | n+1,.tag body::items => .tag body::takeChars (n+1) items

/-- The items behind the `n`-th character. -/
def dropChars : ℕ → List (Item op cl) → List (Item op cl)
  | 0,items => items
  | _+1,[] => []
  | n+1,.char _::items => dropChars n items
  | n+1,.tag _::items => dropChars (n+1) items

/-- The tag in front, if there is one. -/
def headTag : List (Item op cl) → List (List α)
  | .tag body::_ => [op::(body.val ++ [cl])]
  | _ => []

def dropHeadTag : List (Item op cl) → List (Item op cl)
  | .tag _::items => items
  | items => items

/-- The items from the first tag on. -/
def toTag : List (Item op cl) → List (Item op cl)
  | .char _::items => toTag items
  | items => items

def behindTag (items : List (Item op cl)) : List (Item op cl) := dropHeadTag (toTag items)

/-- The characters in front of the first tag. -/
def before : List (Item op cl) → List α
  | .char c::items => c.val::before items
  | _ => []

section
variable (n : ℕ) (items : List (Item op cl))

theorem takeChars_append_dropChars : takeChars n items ++ dropChars n items = items := by
  induction items generalizing n with
  | nil => cases n <;> rfl
  | cons item items ih =>
    cases n with
    | zero => rfl
    | succ n =>
      cases item with
      | char c => exact congrArg (_::·) (ih n)
      | tag body => exact congrArg (_::·) (ih (n+1))

theorem chars_takeChars : chars (takeChars n items) = (chars items).take n := by
  induction items generalizing n with
  | nil => cases n <;> rfl
  | cons item items ih =>
    cases n with
    | zero => simp [takeChars,chars]
    | succ n =>
      cases item with
      | char c => exact congrArg (_::·) (ih n)
      | tag body => exact ih (n+1)

theorem dropChars_eq_nil_or : dropChars n items = [] ∨ n ≤ (chars items).length := by
  induction items generalizing n with
  | nil => cases n <;> simp [dropChars]
  | cons item items ih =>
    cases n with
    | zero => exact Or.inr (Nat.zero_le _)
    | succ n =>
      cases item with
      | char c => exact (ih n).imp_right Nat.succ_le_succ
      | tag body => exact ih (n+1)

theorem tags_append (front behind : List (Item op cl)) : tags (front ++ behind) = tags front ++ tags behind := by
  induction front with
  | nil => rfl
  | cons item front ih =>
    cases item with
    | char c => exact ih
    | tag body => exact congrArg (_::·) ih

theorem tags_head : tags items = headTag items ++ tags (dropHeadTag items) := by
  cases items with
  | nil => rfl
  | cons item items => cases item <;> rfl

theorem tags_toTag : tags (toTag items) = tags items := by
  induction items with
  | nil => rfl
  | cons item items ih =>
    cases item with
    | char c => exact ih
    | tag body => rfl

theorem tags_behindTag : tags items = headTag (toTag items) ++ tags (behindTag items) := by
  rw [behindTag,← tags_head,tags_toTag]

/-- The characters in front of the first tag are the first ones. -/
theorem before_isPrefix : before items <+: chars items := by
  induction items with
  | nil => exact List.prefix_rfl
  | cons item items ih =>
    cases item with
    | char c => exact List.cons_prefix_cons.mpr ⟨rfl,ih⟩
    | tag body => exact List.nil_prefix

end

section Scan
variable [DecidableEq α] (op cl : α)

/-- The characters outside of tags; the flag is set inside of one. -/
def visible : Bool → List α → List α
  | _,[] => []
  | false,c::cs => if c = op then visible true cs else c::visible false cs
  | true,c::cs => if c = cl then visible false cs else visible true cs

/-- The tags, with what is read of the one that has begun. -/
def tagTexts : Option (List α) → List α → List (List α)
  | _,[] => []
  | none,c::cs => if c = op then tagTexts (some [c]) cs else tagTexts none cs
  | some t,c::cs => if c = cl then (t ++ [c])::tagTexts none cs else tagTexts (some (t ++ [c])) cs

end Scan

section
variable [DecidableEq α] {c : α} {a b t : List α} {vs vs' : List α} {ts ts' : List (List α)}

/-- What a piece of text adds to the characters that are seen and to the tags. -/
structure Reads (op cl : α) (a : List α) (vs : List α) (ts : List (List α)) : Prop where
  seen : ∀ b, visible op cl false (a ++ b) = vs ++ visible op cl false b
  tagged : ∀ b, tagTexts op cl none (a ++ b) = ts ++ tagTexts op cl none b

theorem Reads.nil : Reads op cl [] [] [] := ⟨fun _ => rfl,fun _ => rfl⟩

theorem Reads.append (h : Reads op cl a vs ts) (h' : Reads op cl b vs' ts') :
    Reads op cl (a ++ b) (vs ++ vs') (ts ++ ts') := by
  constructor
  · intro c
    rw [List.append_assoc,h.seen,h'.seen,List.append_assoc]
  · intro c
    rw [List.append_assoc,h.tagged,h'.tagged,List.append_assoc]

theorem Reads.char (hc : c ≠ op) : Reads op cl [c] [c] [] := by
  constructor <;> intro b <;> simp [visible,tagTexts,hc]

theorem Reads.plain (h : op ∉ a) : Reads op cl a a [] := by
  induction a with
  | nil => exact Reads.nil
  | cons c a ih =>
    obtain ⟨hc,ha⟩ := not_or.mp (mt List.mem_cons.mpr h)
    exact (Reads.char (Ne.symm hc)).append (ih ha)

theorem visible_inside (h : cl ∉ t) (b : List α) :
    visible op cl true (t ++ cl::b) = visible op cl false b := by
  induction t with
  | nil => simp [visible]
  | cons c t ih =>
    obtain ⟨hc,ht⟩ := not_or.mp (mt List.mem_cons.mpr h)
    rw [List.cons_append,visible,if_neg (Ne.symm hc),ih ht]

theorem tagTexts_inside (h : cl ∉ t) (read b : List α) :
    tagTexts op cl (some read) (t ++ cl::b) = (read ++ t ++ [cl])::tagTexts op cl none b := by
  induction t generalizing read with
  | nil => simp [tagTexts]
  | cons c t ih =>
    obtain ⟨hc,ht⟩ := not_or.mp (mt List.mem_cons.mpr h)
    rw [List.cons_append,tagTexts,if_neg (Ne.symm hc),ih ht]
    simp

theorem Reads.tag (h : cl ∉ t) : Reads op cl (op::(t ++ [cl])) [] [op::(t ++ [cl])] := by
  constructor
  · intro b
    rw [List.cons_append,List.append_assoc,visible,if_pos rfl]
    exact visible_inside h b
  · intro b
    rw [List.cons_append,List.append_assoc,tagTexts,if_pos rfl]
    exact tagTexts_inside h [op] b

theorem Reads.render (items : List (Item op cl)) : Reads op cl (render items) (chars items) (tags items) := by
  induction items with
  | nil => exact Reads.nil
  | cons item items ih =>
    cases item with
    | char c => exact (Reads.char c.2).append ih
    | tag body => exact (Reads.tag body.2).append ih

theorem Reads.headTag (items : List (Item op cl)) : Reads op cl (headTag items).flatten [] (headTag items) := by
  cases items with
  | nil => exact Reads.nil
  | cons item items =>
    cases item with
    | char c => exact Reads.nil
    | tag body => simpa [MarkedText.headTag] using Reads.tag body.2

theorem Reads.visible_eq (h : Reads op cl a vs ts) : visible op cl false a = vs := by
  simpa [visible] using h.seen []

theorem Reads.tagTexts_eq (h : Reads op cl a vs ts) : tagTexts op cl none a = ts := by
  simpa [tagTexts] using h.tagged []

end

end MarkedText
