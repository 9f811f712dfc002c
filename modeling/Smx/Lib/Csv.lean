import Mathlib.Data.List.TakeWhile

/-! Fields that are separated by a letter, and may be enclosed in quotes with the quotes in them doubled. -/

/-- The letters of a format: what separates fields, what encloses them, and what ends a record. -/
structure Csv (α : Type) where
  sep : α
  quote : α
  brk : α → Bool
  quote_ne_sep : quote ≠ sep
  brk_quote : brk quote = false

namespace Csv
variable {α : Type} [DecidableEq α] (f : Csv α)

/-- The letters that a field without quotes cannot have. -/
def special (c : α) : Bool := c = f.sep || c = f.quote || f.brk c

def double (v : List α) : List α := v.flatMap fun c => if c = f.quote then [f.quote,f.quote] else [c]

/-- The text of a field, and its value. -/
inductive Field : List α → List α → Prop
  | plain {v : List α} (h : ∀ c ∈ v, f.special c = false) : Field v v
  | quoted (v : List α) : Field (f.quote::(f.double v ++ [f.quote])) v

/-- A field ends where the text ends, at a separator or at the end of the record. -/
def ends : List α → Bool
  | [] => true
  | c::_ => c = f.sep || f.brk c

/-- Behind the quote in front: the value, and what stands behind the quote at the end. -/
def readQuoted : List α → Option (List α × List α)
  | [] => none
  | [c] => if c = f.quote then some ([],[]) else none
  | c::d::p =>
    if c = f.quote then
      if d = f.quote then (readQuoted p).map fun (v,rest) => (c::v,rest)
      else if f.ends (d::p) then some ([],d::p) else none
    else (readQuoted (d::p)).map fun (v,rest) => (c::v,rest)

/-- The value of the field in front, and what stands behind it. -/
def readField (p : List α) : Option (List α × List α) :=
  if p.head? = some f.quote then f.readQuoted p.tail
  else
    let rest := p.dropWhile fun c => !f.special c
    if f.ends rest then some (p.takeWhile fun c => !f.special c,rest) else none

variable {f} {c : α} {p t v w rest : List α}

theorem special_quote : f.special f.quote = true := by simp [special]

theorem double_cons : f.double (c::v) = (if c = f.quote then [f.quote,f.quote] else [c]) ++ f.double v := rfl

theorem length_double_le (v : List α) : (f.double v).length ≤ 2*v.length := by
  induction v with
  | nil => simp [double]
  | cons c v ih =>
    have hone : (if c = f.quote then [f.quote,f.quote] else [c]).length ≤ 2 := by split_ifs <;> simp
    rw [double_cons,List.length_append,List.length_cons]
    omega

theorem double_of_not_mem (h : f.quote ∉ v) : f.double v = v := by
  induction v with
  | nil => rfl
  | cons c v ih =>
    obtain ⟨hc,hv⟩ := not_or.mp (mt List.mem_cons.mpr h)
    rw [double_cons,if_neg (Ne.symm hc),ih hv]
    rfl

theorem ends_quote : f.ends (f.quote::p) = false := by simp [ends,f.quote_ne_sep,f.brk_quote]

theorem readQuoted_cons (h : c ≠ f.quote) : f.readQuoted (c::p) = (f.readQuoted p).map fun (v,rest) => (c::v,rest) := by
  cases p with
  | nil => simp [readQuoted,h]
  | cons d p => simp [readQuoted,h]

theorem readQuoted_quote_quote :
    f.readQuoted (f.quote::f.quote::p) = (f.readQuoted p).map fun (v,rest) => (f.quote::v,rest) := by
  simp [readQuoted]

theorem readQuoted_quote (h : f.ends p = true) : f.readQuoted (f.quote::p) = some ([],p) := by
  cases p with
  | nil => simp [readQuoted]
  | cons d p =>
    have hd : d ≠ f.quote := by
      rintro rfl
      rw [ends_quote] at h
      cases h
    simp [readQuoted,hd,h]

theorem readQuoted_double (h : f.ends rest = true) : f.readQuoted (f.double v ++ f.quote::rest) = some (v,rest) := by
  induction v with
  | nil => exact readQuoted_quote h
  | cons c v ih =>
    by_cases hc : c = f.quote
    · subst hc
      simp only [double] at ih
      simp [double,readQuoted_quote_quote,ih]
    · simp only [double] at ih
      simp [double,hc,readQuoted_cons hc,ih]

/-- A field is read for what it is, whatever follows. -/
theorem Field.read (h : f.Field t v) (hrest : f.ends rest = true) : f.readField (t ++ rest) = some (v,rest) := by
  cases h with
  | plain hplain =>
    have hpos : ∀ c ∈ t, (!f.special c) = true := fun c hc => by simp [hplain c hc]
    have hhead : ∀ c ∈ rest.head?, f.special c = true ∧ c ≠ f.quote := by
      intro c hc
      obtain ⟨q,rfl⟩ := List.head?_eq_some_iff.mp hc
      constructor
      · simp only [ends,Bool.or_eq_true,decide_eq_true_eq] at hrest
        rcases hrest with h | h <;> simp [special,h]
      · rintro rfl
        rw [ends_quote] at hrest
        cases hrest
    have hne : (t ++ rest).head? ≠ some f.quote := by
      cases t with
      | nil =>
        intro h
        exact (hhead _ h).2 rfl
      | cons c t =>
        intro h
        have hc := hplain c List.mem_cons_self
        rw [Option.some.inj h,special_quote] at hc
        cases hc
    have htake : rest.takeWhile (fun c => !f.special c) = [] := by
      cases rest with
      | nil => rfl
      | cons c rest => exact List.takeWhile_cons_of_neg (by simp [(hhead c rfl).1])
    have hdrop : rest.dropWhile (fun c => !f.special c) = rest := by
      cases rest with
      | nil => rfl
      | cons c rest => exact List.dropWhile_cons_of_neg (by simp [(hhead c rfl).1])
    rw [readField,if_neg hne,List.dropWhile_append_of_pos hpos,List.takeWhile_append_of_pos hpos,hdrop,htake]
    simp [hrest]
  | quoted =>
    simpa [readField] using readQuoted_double hrest

theorem Field.not_special (h : f.Field t v) (ht : t.head? ≠ some f.quote) : ∀ c ∈ t, f.special c = false := by
  cases h with
  | plain hplain => exact hplain
  | quoted => exact absurd rfl ht

/-- A value that is read without quotes has no special letters. -/
theorem plain_of_readField (hp : p.head? ≠ some f.quote) (h : f.readField p = some (v,rest)) :
    ∀ c ∈ v, f.special c = false := by
  simp only [readField,hp,if_false] at h
  split at h
  · obtain ⟨rfl,-⟩ := Prod.mk.inj (Option.some.inj h)
    intro c hc
    simpa using List.mem_takeWhile_imp hc
  · cases h

/-- The length of what is read never grows. -/
theorem readQuoted_length (p : List α) {v rest : List α} (h : f.readQuoted p = some (v,rest)) :
    rest.length ≤ p.length := by
  fun_induction readQuoted f p generalizing v rest with
  | case1 => cases h
  | case2 => obtain ⟨-,rfl⟩ := Prod.mk.inj (Option.some.inj h); simp
  | case3 => cases h
  | case4 p ih =>
    obtain ⟨⟨w,r⟩,hr,hw⟩ := Option.map_eq_some_iff.mp h
    obtain ⟨-,rfl⟩ := Prod.mk.inj hw
    have hlen := ih hr
    simp only [List.length_cons]
    omega
  | case5 d p => obtain ⟨-,rfl⟩ := Prod.mk.inj (Option.some.inj h); simp
  | case6 => cases h
  | case7 c d p hc ih =>
    obtain ⟨⟨w,r⟩,hr,hw⟩ := Option.map_eq_some_iff.mp h
    obtain ⟨-,rfl⟩ := Prod.mk.inj hw
    have hlen := ih hr
    simp only [List.length_cons] at hlen ⊢
    omega

theorem readField_length {v rest : List α} (h : f.readField p = some (v,rest)) : rest.length ≤ p.length := by
  rw [readField] at h
  split at h
  · exact (readQuoted_length _ h).trans (by simp)
  · simp only [Option.ite_none_right_eq_some] at h
    obtain ⟨-,rfl⟩ := Prod.mk.inj (Option.some.inj h.2)
    exact List.length_dropWhile_le _ _

variable (f) in
/-- The values of the record in front, and what stands behind the letter that ends it. -/
def readRecord (p : List α) : Option (List (List α) × List α) :=
  match _h : f.readField p with
  | none => none
  | some (v,[]) => some ([v],[])
  | some (v,c::q) => if c = f.sep then (readRecord q).map fun (vs,rest) => (v::vs,rest) else some ([v],q)
termination_by p.length
decreasing_by
  have hlen := readField_length _h
  simp only [List.length_cons] at hlen
  omega

variable {q : List α} {b : α} {vs : List (List α)}

theorem readRecord_sep (h : f.readField p = some (v,f.sep::q)) :
    f.readRecord p = (f.readRecord q).map fun (vs,rest) => (v::vs,rest) := by
  rw [readRecord]
  split <;> simp_all

theorem readRecord_end (h : f.readField p = some (v,c::q)) (hc : c ≠ f.sep) : f.readRecord p = some ([v],q) := by
  rw [readRecord]
  split <;> simp_all

/-- What a record begins with is its first field. -/
theorem readField_of_readRecord (h : f.readRecord p = some (v::vs,rest)) : ∃ q, f.readField p = some (v,q) := by
  rw [readRecord] at h
  split at h
  · cases h
  · rename_i w hw
    simp only [Option.some.injEq,Prod.mk.injEq,List.cons.injEq] at h
    exact ⟨[],by rw [hw,h.1.1]⟩
  · rename_i w d q hw
    refine ⟨d::q,?_⟩
    split at h
    · obtain ⟨⟨ws,r⟩,-,hr⟩ := Option.map_eq_some_iff.mp h
      rw [hw,(List.cons.inj (Prod.mk.inj hr).1).1]
    · simp only [Option.some.injEq,Prod.mk.injEq,List.cons.injEq] at h
      rw [hw,h.1.1]

variable (f) in
/-- The texts of the fields with the separators between them. -/
def join : List (List α) → List α
  | [] => []
  | [t] => t
  | t::u::ts => t ++ f.sep::join (u::ts)

/-- A field that is written as it is, though it may have letters that it cannot have, or as it should be. -/
def Written (t v : List α) : Prop := f.Field t v ∨ t = v ∧ v.head? ≠ some f.quote

/-- A record of such fields is read for what it is just if the fields are written as they should be. -/
theorem readRecord_join (f : Csv α) (fields : List (List α × List α)) (b : α) (rest : List α) (hne : fields ≠ [])
    (hb : f.brk b = true) (hsep : b ≠ f.sep) (hfields : ∀ x ∈ fields, f.Written x.1 x.2) :
    f.readRecord (f.join (fields.map Prod.fst) ++ b::rest) = some (fields.map Prod.snd,rest) ↔
      ∀ x ∈ fields, f.Field x.1 x.2 := by
  have hquote : b ≠ f.quote := by
    rintro rfl
    rw [f.brk_quote] at hb
    cases hb
  have hraw : ∀ (v : List α) (c : α) (q : List α) (vs : List (List α)), v.head? ≠ some f.quote → c ≠ f.quote →
      f.readRecord (v ++ c::q) = some (v::vs,rest) → f.Field v v := by
    intro v c q vs hv hc h
    obtain ⟨r,hr⟩ := readField_of_readRecord h
    apply Field.plain
    apply plain_of_readField _ hr
    cases v with
    | nil => simpa using hc
    | cons d v => simpa using hv
  induction fields with
  | nil => exact absurd rfl hne
  | cons x fields ih =>
    obtain ⟨t,v⟩ := x
    have hx : f.Written t v := hfields _ List.mem_cons_self
    cases fields with
    | nil =>
      simp only [List.map_cons,List.map_nil,join,List.forall_mem_singleton]
      constructor
      · intro h
        rcases hx with hx | ⟨htext,hx⟩
        · exact hx
        · subst t
          exact hraw v b rest [] hx hquote h
      · intro h
        exact readRecord_end (h.read (by simp [ends,hb])) hsep
    | cons y fields =>
      have hrest := ih (by simp) fun z hz => hfields z (List.mem_cons_of_mem _ hz)
      simp only [List.map_cons,join,List.append_assoc,List.cons_append] at hrest ⊢
      rw [List.forall_mem_cons]
      have hread : f.Field t v → f.readRecord (t ++ f.sep::(f.join (y.1::fields.map Prod.fst) ++ b::rest)) =
          (f.readRecord (f.join (y.1::fields.map Prod.fst) ++ b::rest)).map fun (vs,rest) => (v::vs,rest) :=
        fun h => readRecord_sep (h.read (by simp [ends]))
      constructor
      · intro h
        have hfield : f.Field t v := by
          rcases hx with hx | ⟨htext,hx⟩
          · exact hx
          · subst t
            exact hraw v f.sep _ _ hx (Ne.symm f.quote_ne_sep) h
        refine ⟨hfield,hrest.mp ?_⟩
        rw [hread hfield] at h
        obtain ⟨⟨ws,r⟩,hws,hr⟩ := Option.map_eq_some_iff.mp h
        simp only [Prod.mk.injEq,List.cons.injEq,true_and] at hr
        rw [hws,hr.1,hr.2]
      · rintro ⟨hfield,h⟩
        rw [hread hfield,hrest.mpr h]
        rfl

end Csv
