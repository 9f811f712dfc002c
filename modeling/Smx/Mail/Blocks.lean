import Mathlib
import Smx.Mail.Data

/-! However the bodies are, `smtp_data_next` comes to an end. -/
namespace Smx

/-- The calls after the first one return these blocks, and then one throws. -/
inductive Breaks (F : MailFiles) (o : MailOpts) : DataState → List Bytes → Prop
  | thrown {st : DataState} (h : dataNext F o st = none) : Breaks F o st []
  | more {st st' : DataState} {b : Bytes} {bs : List Bytes} (h : dataNext F o st = some (some b,st'))
      (hrest : Breaks F o st' bs) : Breaks F o st (b::bs)

variable {F : MailFiles} {o : MailOpts} {st st' : DataState} {b : Bytes}

/-- The body that is looked at is the one that is counted. -/
def DataState.Placed (o : MailOpts) (st : DataState) : Prop :=
  st.bodyc = cstr (o.body.getD st.bodyn [])

/-- What is left: bodies, and bytes of the file that is open. -/
def DataState.left (o : MailOpts) (st : DataState) : ℕ × WithTop ℕ :=
  (o.body.length-st.bodyn,match st.fbody with
    | none => ⊤
    | some rest => (rest.length : ℕ))

theorem placed_dataFirst : (dataFirst o st).Placed o := rfl

theorem placed_next : (st.next o).Placed o := rfl

theorem DataState.Placed.lt_length {c : Byte} {r : Bytes} (h : st.Placed o) (hc : st.bodyc = c::r) :
    st.bodyn < o.body.length := by
  by_contra hge
  rw [DataState.Placed,List.getD_eq_getElem?_getD,List.getElem?_eq_none (not_lt.mp hge)] at h
  rw [h] at hc
  cases hc

/-- The next body is nearer to the end. -/
theorem left_next (h : st.bodyn < o.body.length) (w : WithTop ℕ) :
    Prod.Lex (· < ·) (· < ·) (o.body.length-(st.bodyn+1),w) (st.left o) :=
  .left _ _ (by omega)

theorem give_snd {buf : Bytes} (h : some (st.give buf) = some (some b,st')) :
    st' = { st with buf := buf } :=
  (congrArg Prod.snd (Option.some.inj h)).symm

theorem dataRead_left {rest : Bytes} {m : ℕ × WithTop ℕ} (hst : st.Placed o)
    (hnext : ∀ w, Prod.Lex (· < ·) (· < ·) (o.body.length-(st.bodyn+1),w) m)
    (hfile : ∀ len : ℕ, len < rest.length →
      Prod.Lex (· < ·) (· < ·) (o.body.length-st.bodyn,(len : WithTop ℕ)) m)
    (h : dataRead F o st rest = some (some b,st')) :
    st'.Placed o ∧ Prod.Lex (· < ·) (· < ·) (st'.left o) m := by
  rw [dataRead] at h
  dsimp only at h
  by_cases hrest : rest = []
  · rw [if_pos hrest] at h
    split_ifs at h
    · rw [give_snd h]
      exact ⟨placed_next,hnext _⟩
    · obtain ⟨file,-,h⟩ := Option.bind_eq_some_iff.mp h
      obtain ⟨head,-,h⟩ := Option.map_eq_some_iff.mp h
      rw [give_snd (congrArg some h)]
      exact ⟨placed_next,hnext _⟩
    · cases Option.some.inj h
  · rw [if_neg hrest] at h
    rw [give_snd h]
    refine ⟨hst,hfile _ ?_⟩
    have hpos := List.length_pos_iff.mpr hrest
    rw [List.length_drop,Q_CHUNK]
    omega

/-- Each block brings the end nearer. -/
theorem dataNext_left (hst : st.Placed o) (h : dataNext F o st = some (some b,st')) :
    st'.Placed o ∧ Prod.Lex (· < ·) (· < ·) (st'.left o) (st.left o) := by
  cases hc : st.bodyc with
  | nil =>
    rw [dataNext,hc] at h
    cases Option.some.inj h
  | cons c r =>
    have hlt := hst.lt_length hc
    rw [dataNext,hc] at h
    dsimp only at h
    by_cases hquote : c = T_SQ
    · rw [if_pos hquote] at h
      split_ifs at h
      · rw [give_snd h]
        exact ⟨placed_next,left_next hlt _⟩
      · rw [give_snd h]
        exact ⟨placed_next,left_next hlt _⟩
    · rw [if_neg hquote] at h
      cases hfile : st.fbody with
      | some rest =>
        rw [hfile] at h
        refine dataRead_left hst (left_next hlt) (fun len hlen => ?_) h
        rw [DataState.left,hfile]
        exact .right _ (WithTop.coe_lt_coe.mpr hlen)
      | none =>
        -- A file of any length is nearer to the end than one that is not open.
        have htop (len : ℕ) : Prod.Lex (· < ·) (· < ·) (o.body.length-st.bodyn,(len : WithTop ℕ))
            (st.left o) := by
          rw [DataState.left,hfile]
          exact .right _ (WithTop.coe_lt_top len)
        rw [hfile] at h
        obtain ⟨file,-,h⟩ := Option.bind_eq_some_iff.mp h
        by_cases hmulti : st.multi = true
        · rw [if_pos hmulti] at h
          obtain ⟨head,-,h⟩ := Option.map_eq_some_iff.mp h
          rw [give_snd (congrArg some h)]
          exact ⟨hc.symm.trans hst,htop _⟩
        · rw [if_neg hmulti] at h
          have hst' : { st with bodyc := c::r, fbody := some file }.Placed o := hc.symm.trans hst
          exact dataRead_left hst' (left_next hlt) (fun len _ => htop len) h

/-- Sooner or later no block is returned any more, or a call throws. -/
theorem yields_or_breaks (hst : st.Placed o) : ∃ bs, Yields F o st bs ∨ Breaks F o st bs := by
  induction hm : st.left o using
    (WellFounded.prod_lex (@wellFounded_lt ℕ _ _) (@wellFounded_lt (WithTop ℕ) _ _)).induction
    generalizing st with
  | _ m ih =>
    subst hm
    match hstep : dataNext F o st with
    | none => exact ⟨[],.inr (.thrown hstep)⟩
    | some (none,st') => exact ⟨[],.inl (.stop hstep)⟩
    | some (some b,st') =>
      obtain ⟨hst',hleft⟩ := dataNext_left hst hstep
      obtain ⟨bs,hbs | hbs⟩ := ih _ hleft hst' rfl
      · exact ⟨b::bs,.inl (.more hstep hbs)⟩
      · exact ⟨b::bs,.inr (.more hstep hbs)⟩

end Smx
