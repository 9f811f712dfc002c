import Smx.Strings.Csv

/-! `WriteCSV`: a record that is put at the end of a file. -/
namespace Smx

/-- The `do` loop of `WriteCSV`: no round of it changes `b`. `none` when `fuel` rounds are not enough. -/
def quotLoop (b : Bytes) : ℕ → ℕ → Bytes → Option Bytes
  | 0,_,_ => none
  | fuel+1,p,quot =>
    let quot := quot ++ b.take (p+1) ++ [ch '"']
    match strchrAt b (ch '"') with
    | some p => quotLoop b fuel p quot
    | none => some quot

/-- One field of `WriteCSV`; `strchr` may not be called without a buffer. -/
def csvField (fuel : ℕ) (forceQuoted : Bool) (bo : Bytes) : Option Bytes := do
  let b ← getBuffer bo
  match strchrAt b (ch '"') with
  | some p => return (← quotLoop b fuel p [ch '"']) ++ [ch '"']
  | none =>
    if forceQuoted || (strchrAt b (ch ',')).isSome then return [ch '"'] ++ bo ++ [ch '"']
    else return bo

/-- The loop of `WriteCSV` over the arguments behind the path. -/
def csvFields (fuel : ℕ) (forceQuoted : Bool) : List Bytes → Option Bytes
  | [] => some []
  | bo::args => do
    let field ← csvField fuel forceQuoted bo
    let rest ← csvFields fuel forceQuoted args
    return field ++ (if args = [] then [] else [ch ',']) ++ rest

/-- What `WriteCSV` does: nothing, an error, or a file with new contents. -/
inductive WriteCsvEnd
  | nothing
  | throw601
  | written (file : Bytes)

/-- `WriteCSV`, where `opened` is the file that `safe_fopen` opens to append to it. -/
def writeCSV (fuel : ℕ) (forceQuoted : Bool) (opened : Option Bytes) (path : Bytes) (args : List Bytes) :
    Option WriteCsvEnd :=
  if path = [] then some .nothing
  else
    match opened with
    | none => some .throw601
    | some file => (csvFields fuel forceQuoted args).map fun fields => .written (file ++ (fields ++ [ch '\n']))

/-- `WriteCSV` ends, and has put one record with these fields behind what was in the file. -/
def WritesRecord (forceQuoted : Bool) (file path : Bytes) (args : List Bytes) : Prop :=
  ∃ fuel record, writeCSV fuel forceQuoted (some file) path args = some (.written (file ++ record)) ∧
    ∀ rest, csv.readRecord (record ++ rest) = some (args,rest)

variable {fuel p : ℕ} {forceQuoted : Bool} {file path b bo quot out : Bytes} {args : List Bytes} {c : Byte}

/-- The search that decides whether there is one more round finds the same quote again. -/
theorem quotLoop_quote (h : strchrAt b (ch '"') = some p) : quotLoop b fuel p quot = none := by
  induction fuel generalizing quot with
  | zero => rfl
  | succ fuel ih => simp [quotLoop,h,ih]

/-- What `WriteCSV` writes for a text without quotes. -/
def csvText (forceQuoted : Bool) (bo : Bytes) : Bytes :=
  if forceQuoted ∨ ch ',' ∈ bo then [ch '"'] ++ bo ++ [ch '"'] else bo

/-- A field is written just if it has letters, and none of them is a quote. -/
theorem csvField_eq (h : 0 ∉ bo) : csvField fuel forceQuoted bo =
    if bo ≠ [] ∧ ch '"' ∉ bo then some (csvText forceQuoted bo) else none := by
  by_cases hnil : bo = []
  · simp [csvField,getBuffer,hnil]
  · by_cases hquote : ch '"' ∈ bo
    · obtain ⟨p,hp⟩ := Option.ne_none_iff_exists'.mp (mt (strchrAt_eq_none h).mp (not_not.mpr hquote))
      simp [csvField,getBuffer,hnil,hp,quotLoop_quote hp,hquote]
    · have hcomma : (strchrAt bo (ch ',')).isSome = true ↔ ch ',' ∈ bo := by
        rw [Option.isSome_iff_ne_none,ne_eq,strchrAt_eq_none h,not_not]
      simp only [csvField,getBuffer,hnil,(strchrAt_eq_none h).mpr hquote,csvText,if_false,Option.bind_eq_bind,
        Option.bind_some,Bool.or_eq_true,hcomma,ne_eq,not_false_eq_true,hquote,and_self,if_true]
      split <;> rfl

theorem csvFields_eq_some (hnul : ∀ bo ∈ args, 0 ∉ bo) : csvFields fuel forceQuoted args = some out ↔
    (∀ bo ∈ args, bo ≠ [] ∧ ch '"' ∉ bo) ∧ out = csv.join (args.map (csvText forceQuoted)) := by
  induction args generalizing out with
  | nil => simp [csvFields,Csv.join,eq_comm]
  | cons bo args ih =>
    have hargs {out : Bytes} := @ih out fun b hb => hnul b (List.mem_cons_of_mem _ hb)
    simp only [csvFields,csvField_eq (hnul bo List.mem_cons_self),Option.bind_eq_bind,List.forall_mem_cons]
    by_cases hbo : bo ≠ [] ∧ ch '"' ∉ bo
    · rw [if_pos hbo,Option.bind_some]
      simp only [Option.bind_eq_some_iff,hargs,Option.pure_def,Option.some.injEq]
      cases args with
      | nil => simp [hbo,Csv.join,eq_comm]
      | cons a args => simp [hbo,Csv.join,eq_comm,csv]
    · rw [if_neg hbo]
      simp [hbo]

/-- A text that is written in quotes, or has nothing that needs them. -/
def PlainField (forceQuoted : Bool) (bo : Bytes) : Prop := forceQuoted ∨ ch ',' ∈ bo ∨ ch '\r' ∉ bo ∧ ch '\n' ∉ bo

theorem field_csvText_iff (h : ch '"' ∉ bo) : csv.Field (csvText forceQuoted bo) bo ↔ PlainField forceQuoted bo := by
  by_cases hq : forceQuoted ∨ ch ',' ∈ bo
  · have hfield := Csv.Field.quoted (f := csv) bo
    rw [Csv.double_of_not_mem h] at hfield
    rw [csvText,if_pos hq,PlainField,← or_assoc]
    exact ⟨fun _ => Or.inl hq,fun _ => hfield⟩
  · rw [csvText,if_neg hq,PlainField,← or_assoc,or_iff_right hq]
    obtain ⟨-,hcomma⟩ := not_or.mp hq
    constructor
    · intro hfield
      have hspecial := hfield.not_special fun hhead => h (List.mem_of_head? hhead)
      exact ⟨fun hc => absurd (hspecial _ hc) (by decide),fun hc => absurd (hspecial _ hc) (by decide)⟩
    · rintro ⟨hr,hn⟩
      apply Csv.Field.plain
      intro c hc
      have h1 := ne_of_mem_of_not_mem hc hcomma
      have h2 := ne_of_mem_of_not_mem hc h
      have h3 := ne_of_mem_of_not_mem hc hr
      have h4 := ne_of_mem_of_not_mem hc hn
      simp [Csv.special,csv,h1,h2,show c ≠ 13 from h3,show c ≠ 10 from h4]

theorem written_csvText (h : ch '"' ∉ bo) : csv.Written (csvText forceQuoted bo) bo := by
  by_cases hq : forceQuoted ∨ ch ',' ∈ bo
  · left
    exact (field_csvText_iff h).mpr (or_assoc.mp (Or.inl hq))
  · right
    refine ⟨if_neg hq,?_⟩
    intro hhead
    exact h (List.mem_of_head? hhead)

/-- A record is written for every list of fields that have letters, but no quotes, and no line breaks without being
quoted. -/
theorem writesRecord_iff (forceQuoted : Bool) (file path : Bytes) (args : List Bytes) (hpath : path ≠ [])
    (hnul : ∀ bo ∈ args, 0 ∉ bo) : WritesRecord forceQuoted file path args ↔
      args ≠ [] ∧ ∀ bo ∈ args, bo ≠ [] ∧ ch '"' ∉ bo ∧ PlainField forceQuoted bo := by
  have hout (fuel : ℕ) (record : Bytes) :
      writeCSV fuel forceQuoted (some file) path args = some (.written (file ++ record)) ↔
        (∀ bo ∈ args, bo ≠ [] ∧ ch '"' ∉ bo) ∧ record = csv.join (args.map (csvText forceQuoted)) ++ [ch '\n'] := by
    simp only [writeCSV,if_neg hpath,Option.map_eq_some_iff,csvFields_eq_some hnul,WriteCsvEnd.written.injEq,
      List.append_cancel_left_eq]
    constructor
    · rintro ⟨fields,⟨hargs,rfl⟩,rfl⟩
      exact ⟨hargs,rfl⟩
    · rintro ⟨hargs,rfl⟩
      exact ⟨_,⟨hargs,rfl⟩,rfl⟩
  have hread (hargs : ∀ bo ∈ args, bo ≠ [] ∧ ch '"' ∉ bo) (hne : args ≠ []) (rest : Bytes) :
      csv.readRecord (csv.join (args.map (csvText forceQuoted)) ++ [ch '\n'] ++ rest) = some (args,rest) ↔
        ∀ bo ∈ args, PlainField forceQuoted bo := by
    have hjoin := Csv.readRecord_join csv (args.map fun bo => (csvText forceQuoted bo,bo)) (ch '\n') rest
      (by simpa using hne) (by decide) (by decide) (by simpa using fun bo hbo => written_csvText (hargs bo hbo).2)
    simp only [List.map_map,List.forall_mem_map] at hjoin
    rw [List.append_assoc]
    refine Iff.trans (by simpa [Function.comp_def] using hjoin) ?_
    exact forall₂_congr fun bo hbo => field_csvText_iff (hargs bo hbo).2
  constructor
  · rintro ⟨fuel,record,hrun,hrecord⟩
    obtain ⟨hargs,rfl⟩ := (hout fuel record).mp hrun
    have hne : args ≠ [] := by
      rintro rfl
      have hnone := hrecord []
      rw [show (csv.join ([].map (csvText forceQuoted)) ++ [ch '\n'] ++ [] : Bytes) = [ch '\n'] from rfl,
        Csv.readRecord_end (v := []) (c := ch '\n') (q := []) (by decide) (by decide)] at hnone
      simp at hnone
    have hplain := (hread hargs hne []).mp (hrecord [])
    exact ⟨hne,fun bo hbo => ⟨(hargs bo hbo).1,(hargs bo hbo).2,hplain bo hbo⟩⟩
  · rintro ⟨hne,hall⟩
    have hargs : ∀ bo ∈ args, bo ≠ [] ∧ ch '"' ∉ bo := fun bo hbo => ⟨(hall bo hbo).1,(hall bo hbo).2.1⟩
    refine ⟨0,_,(hout 0 _).mpr ⟨hargs,rfl⟩,?_⟩
    exact fun rest => (hread hargs hne rest).mpr fun bo hbo => (hall bo hbo).2.2

theorem writesRecord_comma : WritesRecord false [] (str "f") [str "a,b",str "c"] ↔
    [str "a,b",str "c"] ≠ [] ∧ ∀ bo ∈ [str "a,b",str "c"], bo ≠ [] ∧ ch '"' ∉ bo ∧ PlainField false bo :=
  writesRecord_iff false [] (str "f") [str "a,b",str "c"] (by decide) (by decide)

/-- A field with a quote: no number of rounds is enough. -/
theorem quote_hangs : (∀ fuel, writeCSV fuel false (some []) (str "f") [[ch '"']] = none) ∧
    ¬WritesRecord false [] (str "f") [[ch '"']] := by
  have hnone (fuel : ℕ) : writeCSV fuel false (some []) (str "f") [[ch '"']] = none := by
    have hstr : str "f" ≠ [] := by decide
    have hquote : strchrAt [ch '"'] (ch '"') = some 0 := by decide
    simp [writeCSV,hstr,csvFields,csvField,getBuffer,hquote,quotLoop_quote hquote]
  refine ⟨hnone,?_⟩
  rintro ⟨fuel,record,hrun,-⟩
  rw [hnone fuel] at hrun
  cases hrun

end Smx
