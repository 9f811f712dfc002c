import Smx.Strings.Csv

/-! `%sql-quote`. -/
namespace Smx

/-- `EvalSqlQ`: the buffer is as large as that of the quoters for CSV. -/
def evalSqlQ (blank : ℕ → Byte) (val : Text) : Option Bytes := do
  let quo ← csvBuffer blank val
  let quo ← writeAt quo 0 (ch '\'')
  let (quo,v) ← doubleInto (ch '\'') (cstr val.bytes) quo 1
  let quo ← writeAt quo v (ch '\'')
  return quo.take (v+1)

/-- Literals of SQL: they are enclosed in quotes, and whatever is no quote can follow them. -/
def sqlLiteral : Csv Byte where
  sep := ch ','
  quote := ch '\''
  brk c := c ≠ ch '\''
  quote_ne_sep := by decide
  brk_quote := by decide

/-- No byte is written outside the buffer, and what is put out is one literal with value `val`, whatever follows
that does not begin with a quote. -/
def OneLiteral (blank : ℕ → Byte) (val : Text) : Prop :=
  ∃ out, evalSqlQ blank val = some out ∧ out.length ≤ 2*val.bytes.length+2 ∧ out.head? = some (ch '\'') ∧
    ∀ rest, rest.head? ≠ some (ch '\'') → sqlLiteral.readField (out ++ rest) = some (val.bytes,rest)

variable {blank : ℕ → Byte} {val : Text} {rest : Bytes}

theorem sqlLiteral_ends (h : rest.head? ≠ some (ch '\'')) : sqlLiteral.ends rest = true := by
  cases rest with
  | nil => rfl
  | cons c rest =>
    have hc : c ≠ ch '\'' := fun heq => h (by rw [heq]; rfl)
    simp [Csv.ends,sqlLiteral,hc]

theorem evalSqlQ_eq (hval : 0 ∉ val.bytes) (hfit : val.length*2+2 < 2^31) :
    evalSqlQ blank val = some (ch '\''::(sqlLiteral.double val.bytes ++ [ch '\''])) := by
  obtain ⟨quo,hquo,hlen⟩ := csvBuffer_some blank hfit
  obtain ⟨x,r,rfl⟩ := List.exists_cons_of_ne_nil (List.ne_nil_of_length_pos (by omega : 0 < quo.length))
  have hfirst : writeAt (x::r) 0 (ch '\'') = some (ch '\''::r) := writeAt_append (a := [])
  have hquoted := doubleInto_quoted sqlLiteral val.bytes r (by rw [List.length_cons] at hlen; omega)
  simp only [evalSqlQ,hquo,hfirst,cstr_of_nul_free hval,Option.bind_eq_bind,Option.bind_some]
  exact hquoted

/-- The text is quoted as one literal iff the size of the buffer is an `int`. -/
theorem oneLiteral_iff (blank : ℕ → Byte) (val : Text) (hval : 0 ∉ val.bytes) :
    OneLiteral blank val ↔ val.length*2+2 < 2^31 := by
  constructor
  · rintro ⟨out,hout,-⟩
    by_contra hfit
    rw [evalSqlQ,csvBuffer_none hfit] at hout
    cases hout
  · intro hfit
    have hdouble := Csv.length_double_le (f := sqlLiteral) val.bytes
    refine ⟨_,evalSqlQ_eq hval hfit,?_,rfl,?_⟩
    · simp only [List.length_cons,List.length_append,List.length_nil]
      omega
    · intro rest hrest
      exact (Csv.Field.quoted val.bytes).read (sqlLiteral_ends hrest)

theorem oneLiteral_quote : OneLiteral (fun _ => 0) ⟨str "it's",by decide⟩ ↔
    (⟨str "it's",by decide⟩ : Text).length*2+2 < 2^31 :=
  oneLiteral_iff (fun _ => 0) ⟨str "it's",by decide⟩ (by decide)

/-- A text of 2^30-1 letters: the size of its buffer is no `int`. -/
def longText : Text := ⟨List.replicate (2^30-1) (ch 'a'),by rw [List.length_replicate]; decide⟩

theorem longText_not_quoted : 0 ∉ longText.bytes ∧ ¬OneLiteral (fun _ => 0) longText := by
  constructor
  · intro h
    exact absurd (List.eq_of_mem_replicate h) (by decide)
  · rintro ⟨out,hout,-⟩
    have hfit : ¬longText.length*2+2 < 2^31 := by
      simp only [Text.length,longText,List.length_replicate]
      decide
    rw [evalSqlQ,csvBuffer_none hfit] at hout
    cases hout

end Smx
