import Mathlib.Data.List.Nodup
import Smx.Cgi.CDisp
import Smx.Cgi.MultiHeaders

/-! `ParseCDisp` on dispositions: a type and its parameters, each with a value in quotes or without. -/
namespace Smx

structure CDispParam where
  gap : Bytes
  key : Bytes
  quoted : Bool
  value : Bytes
  gap_blank : ∀ c ∈ gap, isspace c = true
  key_plain : ∀ c ∈ key, isspace c = false ∧ c ≠ ch '=' ∧ c ≠ ch ';' ∧ c ≠ 0
  value_nul : 0 ∉ value
  value_quoted : quoted = true → ch '"' ∉ value
  value_token : quoted = false → value.head? ≠ some (ch '"') ∧ ∀ c ∈ value, isspace c = false ∧ c ≠ ch ';'

namespace CDispParam

/-- The value as it is written. -/
def written (q : CDispParam) : Bytes := if q.quoted then ch '"'::(q.value ++ [ch '"']) else q.value

/-- What stands behind the gap. -/
def inner (q : CDispParam) : Bytes := q.key ++ ch '='::q.written

def text (q : CDispParam) : Bytes := ch ';'::(q.gap ++ q.inner)

/-- Where the value stands in a text that begins at `o`. -/
def place (o : ℕ) (q : CDispParam) : ℕ := o+1+q.gap.length+q.key.length+1+if q.quoted then 1 else 0

/-- The value as `ParseCDisp` leaves it. -/
def left (q : CDispParam) : Bytes := if q.quoted then rtrim q.value else q.value

end CDispParam

structure Disposition where
  kind : Bytes
  params : List CDispParam
  kind_plain : ∀ c ∈ kind, c ≠ ch '=' ∧ c ≠ ch ';' ∧ c ≠ 0

/-- Parameters with the places of their values, where the first begins at `o`. -/
def located : ℕ → List CDispParam → List (ℕ × CDispParam)
  | _,[] => []
  | o,q::params => (q.place o,q)::located (o+q.text.length) params

/-- The value of the last parameter with a name, and where it is. -/
def lastCalled (name : Bytes) (params : List (ℕ × CDispParam)) : Option (ℕ × Bytes) :=
  (params.filter fun r => SameName r.2.key name).getLast?.map fun r => (r.1,r.2.value)

namespace Disposition

def text (d : Disposition) : Bytes := d.kind ++ d.params.flatMap CDispParam.text

def located (d : Disposition) : List (ℕ × CDispParam) := Smx.located d.kind.length d.params

/-- `ParseCDisp` stays inside the string, and leaves `*vname` and `*fname` at the values of the parameters called
`name` and `filename`, or as they were where there are none. -/
def Right (d : Disposition) : Prop :=
  ∃ r, parseCDispIn d.text = some r ∧ DispShown r (d.text.length+1)
    ⟨lastCalled (str "name") d.located,lastCalled (str "filename") d.located⟩

/-- The only parameter is no token, a name has no token in front of the last parameter that it calls, and that one
does not end with a blank in quotes. -/
def Plain (d : Disposition) : Prop :=
  (∀ q, d.params = [q] → q.quoted = true) ∧
  ∀ name ∈ [str "name",str "filename"], ∀ before q after, d.params = before ++ q::after → SameName q.key name →
    (∀ r ∈ after, ¬SameName r.key name) →
      (∀ r ∈ before, r.quoted = true) ∧ (q.quoted = true → ∀ c ∈ q.value.getLast?, isspace c = false)

end Disposition

/-! ### What is read of the parameters -/

/-- The parameters up to the first token. -/
def reached : List (ℕ × CDispParam) → List (ℕ × CDispParam)
  | [] => []
  | r::params => r::if r.2.quoted then reached params else []

def DispRefs.putAll (refs : DispRefs) (params : List (ℕ × CDispParam)) : DispRefs :=
  params.foldl (fun refs r => refs.put r.2.key (r.1,r.2.left)) refs

/-- What is read of the parameters; `none` for a token with nothing behind it and no value in front of it. -/
def dispRead : Bool → DispRefs → List (ℕ × CDispParam) → Option DispRefs
  | _,refs,[] => some refs
  | set,refs,r::params =>
    if r.2.quoted then dispRead true (refs.put r.2.key (r.1,r.2.left)) params
    else if params = [] ∧ set = false then none
    else some (refs.put r.2.key (r.1,r.2.left))

section
variable {len k : ℕ} {n : Bytes} {set : Bool} {refs : DispRefs} {q : CDispParam}

theorem dispRefs_text {s : Bytes} (h : ∀ c ∈ s, c ≠ ch '=' ∧ c ≠ ch ';') (p : Bytes) :
    dispRefs len (s.length+k) n set refs (s ++ p) = dispRefs len k (n ++ s) set refs p := by
  induction s generalizing n with
  | nil => rw [List.length_nil,Nat.zero_add,List.nil_append,List.append_nil]
  | cons c s ih =>
    obtain ⟨⟨heq,hsemi⟩,hs⟩ := List.forall_mem_cons.mp h
    rw [List.length_cons,Nat.succ_add,List.cons_append,dispRefs,if_neg heq,if_neg hsemi,ih hs,List.append_assoc]
    rfl

theorem CDispParam.text_next (q : CDispParam) (p : Bytes) :
    ((q.text ++ p).drop 1).dropWhile isspace = q.inner ++ p := by
  rw [text,List.cons_append,List.drop_one,List.tail_cons,List.append_assoc,
    List.dropWhile_append_of_pos q.gap_blank,inner]
  cases hkey : q.key with
  | nil => exact List.dropWhile_cons_of_neg (by decide)
  | cons c s =>
    have hc := (q.key_plain c (by rw [hkey]; exact List.mem_cons_self)).1
    exact List.dropWhile_cons_of_neg (by rw [hc]; exact Bool.false_ne_true)

theorem rtrim_token {s : Bytes} (h : ∀ c ∈ s, isspace c = false) : rtrim s = s := by
  apply List.rdropWhile_eq_self_iff.mpr
  intro hne
  rw [h _ (List.getLast_mem hne)]
  exact Bool.false_ne_true

/-- A parameter in quotes. -/
theorem CDispParam.dispValue_quoted (hq : q.quoted = true) (set : Bool) (p : Bytes) :
    dispValue set ((q.written ++ p).dropWhile isspace) = some (q.left,(p.drop 1).dropWhile isspace) := by
  have hwritten : q.written ++ p = ch '"'::(q.value ++ ch '"'::p) := by simp [written,hq]
  rw [hwritten,Smx.dispValue_quoted (q.value_quoted hq),left,if_pos hq]

theorem CDispParam.dropWhile_token (hq : q.quoted = false) {p : Bytes} (hp : p = [] ∨ ∃ r, p = ch ';'::r) :
    (q.written ++ p).dropWhile isspace = q.value ++ p ∧ (q.value ++ p).head? ≠ some (ch '"') := by
  obtain ⟨hhead,hvalue⟩ := q.value_token hq
  have hwritten : q.written = q.value := by simp [written,hq]
  rw [hwritten]
  cases hv : q.value with
  | nil =>
    obtain rfl | ⟨r,rfl⟩ := hp
    · exact ⟨rfl,nofun⟩
    · exact ⟨List.dropWhile_cons_of_neg (by decide),by simp [ch]⟩
  | cons c s =>
    have hc := (hvalue c (by rw [hv]; exact List.mem_cons_self)).1
    rw [hv] at hhead
    exact ⟨List.dropWhile_cons_of_neg (by rw [hc]; exact Bool.false_ne_true),hhead⟩

/-- A token that the next parameter ends. -/
theorem CDispParam.dispValue_token (hq : q.quoted = false) (p : Bytes) :
    dispValue set ((q.written ++ ch ';'::p).dropWhile isspace) = some (q.left,[]) := by
  obtain ⟨hdrop,hhead⟩ := dropWhile_token hq (Or.inr ⟨p,rfl⟩)
  have hvalue := (q.value_token hq).2
  have hsemi : ch ';' ∈ q.value ++ ch ';'::p := List.mem_append_right _ List.mem_cons_self
  have hplain : ∀ c ∈ q.value, (c != ch ';') = true := fun c hc => bne_iff_ne.mpr (hvalue c hc).2
  rw [hdrop,dispValue,if_neg hhead,if_pos hsemi,List.takeWhile_append_of_pos hplain,
    List.takeWhile_cons_of_neg (by simp),List.append_nil,rtrim_token fun c hc => (hvalue c hc).1,left,hq]
  rfl

/-- A token at the end. -/
theorem CDispParam.dispValue_last (hq : q.quoted = false) :
    dispValue set (q.written.dropWhile isspace) = if set then some (q.left,[]) else none := by
  obtain ⟨hdrop,hhead⟩ := dropWhile_token hq (Or.inl rfl)
  have hsemi : ch ';' ∉ q.value := fun hc => ((q.value_token hq).2 _ hc).2 rfl
  rw [List.append_nil,List.append_nil] at hdrop
  rw [List.append_nil] at hhead
  rw [hdrop,dispValue,if_neg hhead,if_neg hsemi,left,hq]
  rfl

/-- How much of the string a value and the rest take. -/
theorem CDispParam.valueText_length (q : CDispParam) {p : Bytes} (hp : p = [] ∨ ∃ r, p = ch ';'::r) :
    (valueText (q.written ++ p)).length+(if q.quoted then 1 else 0) = (q.written ++ p).length := by
  cases hq : q.quoted with
  | true =>
    have hwritten : q.written ++ p = ch '"'::(q.value ++ ch '"'::p) := by simp [written,hq]
    rw [hwritten,valueText,List.dropWhile_cons_of_neg (by decide),if_pos List.head?_cons]
    rfl
  | false =>
    obtain ⟨hdrop,hhead⟩ := dropWhile_token hq hp
    have hwritten : q.written = q.value := by simp [written,hq]
    rw [valueText,hdrop,if_neg hhead,hwritten]
    rfl

/-- One parameter, from the start of its name. -/
theorem dispRefs_inner (set : Bool) (refs : DispRefs) {o : ℕ} {p : Bytes} (hp : p = [] ∨ ∃ r, p = ch ';'::r)
    (hlen : o+(q.text ++ p).length = len) (hk : (q.inner ++ p).length ≤ k) :
    ∃ j, p.length ≤ j ∧ dispRefs len k [] set refs (q.inner ++ p) =
      (dispValue set ((q.written ++ p).dropWhile isspace)).bind fun r =>
        dispRefs len j [] true (refs.put q.key (q.place o,r.1)) r.2 := by
  have hplace : len-(valueText (q.written ++ p)).length = q.place o := by
    have hvalue := q.valueText_length hp
    rw [CDispParam.place]
    simp only [CDispParam.text,CDispParam.inner,List.length_cons,List.length_append] at hlen hvalue
    omega
  have hinner : q.inner ++ p = q.key ++ ch '='::(q.written ++ p) := by simp [CDispParam.inner]
  rw [hinner] at hk ⊢
  obtain ⟨j,rfl⟩ : ∃ j, k = q.key.length+(j+1) := by
    rw [List.length_append,List.length_cons] at hk
    exact ⟨k-q.key.length-1,by omega⟩
  refine ⟨j,?_,?_⟩
  · simp only [List.length_append,List.length_cons] at hk
    omega
  · rw [dispRefs_text fun c hc => ⟨(q.key_plain c hc).2.1,(q.key_plain c hc).2.2.1⟩,dispRefs,if_pos rfl,hplace]
    rfl

theorem flatMap_text (r : CDispParam) (params : List CDispParam) :
    ∃ s, (r::params).flatMap CDispParam.text = ch ';'::s := ⟨_,rfl⟩

/-- What the loop reads of the parameters. -/
theorem dispRefs_params {o : ℕ} {params : List CDispParam} (hlen : o+((q::params).flatMap CDispParam.text).length = len)
    (hk : (q.inner ++ params.flatMap CDispParam.text).length ≤ k) :
    dispRefs len k [] set refs (q.inner ++ params.flatMap CDispParam.text) =
      dispRead set refs (located o (q::params)) := by
  rw [List.flatMap_cons] at hlen
  induction params generalizing q o k set refs with
  | nil =>
    rw [List.flatMap_nil] at hlen hk ⊢
    obtain ⟨j,-,heq⟩ := dispRefs_inner set refs (Or.inl rfl) hlen hk
    rw [heq,List.append_nil,located,located,dispRead]
    cases hq : q.quoted with
    | true =>
      have hvalue := CDispParam.dispValue_quoted hq set []
      rw [List.append_nil] at hvalue
      rw [hvalue,if_pos rfl,dispRead]
      exact dispRefs_nil ..
    | false =>
      rw [CDispParam.dispValue_last hq,if_neg Bool.false_ne_true]
      cases set with
      | true => exact dispRefs_nil ..
      | false => rfl
  | cons r params ih =>
    obtain ⟨s,hs⟩ := flatMap_text r params
    obtain ⟨j,hj,heq⟩ := dispRefs_inner set refs (Or.inr ⟨s,hs⟩) hlen hk
    rw [heq,located,dispRead]
    cases hq : q.quoted with
    | true =>
      have hnext := r.text_next (params.flatMap CDispParam.text)
      rw [CDispParam.dispValue_quoted hq,if_pos rfl,Option.bind_some,List.flatMap_cons,hnext]
      apply ih
      · rw [← hlen]
        simp only [List.flatMap_cons,List.length_append]
        omega
      · rw [← hnext]
        exact ((List.dropWhile_suffix _).trans (List.drop_suffix _ _)).length_le.trans hj
    | false =>
      have hne : located (o+q.text.length) (r::params) ≠ [] := List.cons_ne_nil _ _
      rw [hs,CDispParam.dispValue_token hq,if_neg Bool.false_ne_true,if_neg fun h => hne h.1]
      exact dispRefs_nil ..

/-- What `ParseCDisp` reads of a disposition. -/
theorem Disposition.dispRefs_eq (d : Disposition) :
    dispRefs d.text.length d.text.length [] false ⟨none,none⟩ (d.text.dropWhile isspace) =
      dispRead false ⟨none,none⟩ d.located := by
  have hkind : ∀ c ∈ d.kind.dropWhile isspace, c ≠ ch '=' ∧ c ≠ ch ';' := by
    intro c hc
    obtain ⟨heq,hsemi,-⟩ := d.kind_plain c ((List.dropWhile_sublist _).subset hc)
    exact ⟨heq,hsemi⟩
  have hle := (List.dropWhile_suffix (l := d.kind) isspace).length_le
  rw [located,text]
  cases hparams : d.params with
  | nil =>
    rw [List.flatMap_nil,List.append_nil]
    have htext := @dispRefs_text d.kind.length (d.kind.length-(d.kind.dropWhile isspace).length) [] false ⟨none,none⟩
      _ hkind []
    rw [List.append_nil,Nat.add_sub_cancel' hle] at htext
    exact htext.trans (dispRefs_nil ..)
  | cons q params =>
    have hdrop : (d.kind ++ (q::params).flatMap CDispParam.text).dropWhile isspace =
        d.kind.dropWhile isspace ++ (q::params).flatMap CDispParam.text := by
      rw [List.dropWhile_append]
      split_ifs with hall
      · rw [List.isEmpty_iff.mp hall]
        rfl
      · rfl
    obtain ⟨s,hs⟩ := flatMap_text q params
    have hnext := q.text_next (params.flatMap CDispParam.text)
    rw [← List.flatMap_cons,hs,List.drop_one,List.tail_cons] at hnext
    obtain ⟨m,hm⟩ : ∃ m, (d.kind ++ (q::params).flatMap CDispParam.text).length =
        (d.kind.dropWhile isspace).length+(m+1) := by
      refine ⟨d.kind.length+s.length-(d.kind.dropWhile isspace).length,?_⟩
      rw [List.length_append,hs,List.length_cons]
      omega
    have hshort : (q.inner ++ params.flatMap CDispParam.text).length ≤ m := by
      rw [← hnext]
      refine (List.dropWhile_suffix _).length_le.trans ?_
      rw [List.length_append,hs,List.length_cons] at hm
      omega
    rw [← dispRefs_params (List.length_append).symm hshort,hdrop,hm,dispRefs_text hkind,hs,dispRefs,
      if_neg (by decide),if_pos rfl,hnext]

end

/-! ### When that is right -/

section
variable {params : List (ℕ × CDispParam)} {o : ℕ}

theorem reached_sublist (params : List (ℕ × CDispParam)) : (reached params).Sublist params := by
  induction params with
  | nil => exact List.Sublist.slnil
  | cons r params ih =>
    rw [reached]
    split_ifs
    · exact ih.cons_cons r
    · exact (List.nil_sublist params).cons_cons r

theorem reached_append {before : List (ℕ × CDispParam)} (h : ∀ r ∈ before, r.2.quoted = true)
    (params : List (ℕ × CDispParam)) : reached (before ++ params) = before ++ reached params := by
  induction before with
  | nil => rfl
  | cons r before ih =>
    obtain ⟨hr,hbefore⟩ := List.forall_mem_cons.mp h
    rw [List.cons_append,reached,if_pos hr,ih hbefore,List.cons_append]

/-- What is reached has no token in front of it. -/
theorem quoted_of_reached {r : ℕ × CDispParam} {before after : List (ℕ × CDispParam)}
    (hnodup : (before ++ r::after).Nodup) (h : r ∈ reached (before ++ r::after)) :
    ∀ x ∈ before, x.2.quoted = true := by
  induction before with
  | nil => exact nofun
  | cons x before ih =>
    obtain ⟨hx,hnodup⟩ := List.nodup_cons.mp hnodup
    have hne : r ≠ x := by
      rintro rfl
      exact hx (List.mem_append_right _ List.mem_cons_self)
    rw [List.cons_append,reached] at h
    have h := (List.mem_cons.mp h).resolve_left hne
    split_ifs at h with hq
    · exact List.forall_mem_cons.mpr ⟨hq,ih hnodup h⟩
    · cases h

theorem lt_of_mem_located {params : List CDispParam} {r : ℕ × CDispParam} (h : r ∈ located o params) : o < r.1 := by
  induction params generalizing o with
  | nil => cases h
  | cons q params ih =>
    obtain rfl | h := List.mem_cons.mp h
    · rw [CDispParam.place]
      omega
    · exact (Nat.le_add_right o _).trans_lt (ih h)

theorem CDispParam.place_le (o : ℕ) (q : CDispParam) : q.place o ≤ o+q.text.length := by
  rw [place,text,List.length_cons,List.length_append,inner,List.length_append,List.length_cons,written]
  split_ifs
  · rw [List.length_cons]
    omega
  · omega

/-- No two values begin at one place. -/
theorem located_nodup (o : ℕ) (params : List CDispParam) : ((located o params).map Prod.fst).Nodup := by
  induction params generalizing o with
  | nil => exact List.nodup_nil
  | cons q params ih =>
    refine List.nodup_cons.mpr ⟨?_,ih _⟩
    intro hmem
    obtain ⟨r,hr,heq⟩ := List.mem_map.mp hmem
    have hlt := lt_of_mem_located hr
    have hle := q.place_le o
    dsimp only at heq
    omega

theorem located_snd (o : ℕ) (params : List CDispParam) : (located o params).map Prod.snd = params := by
  induction params generalizing o with
  | nil => rfl
  | cons q params ih => exact congrArg (q::·) (ih _)

/-- All of the parameters are read up to the first token, unless that has nothing around it. -/
theorem dispRead_eq (set : Bool) (refs : DispRefs) (params : List (ℕ × CDispParam))
    (h : ∀ r, params = [r] → r.2.quoted = false → set = true) :
    dispRead set refs params = some (refs.putAll (reached params)) := by
  induction params generalizing set refs with
  | nil => rfl
  | cons r params ih =>
    rw [dispRead,reached,DispRefs.putAll,List.foldl_cons]
    by_cases hq : r.2.quoted = true
    · rw [if_pos hq,if_pos hq]
      exact ih true _ fun _ _ _ => rfl
    · rw [if_neg hq,if_neg hq,if_neg]
      · rfl
      · rintro ⟨rfl,hset⟩
        rw [h r rfl (Bool.not_eq_true _ ▸ hq)] at hset
        cases hset

theorem dispRead_token {refs : DispRefs} {r : ℕ × CDispParam} (hq : r.2.quoted = false) :
    dispRead false refs [r] = none := by
  simp [dispRead,hq]

/-- What is left at the value of the last parameter with a name, and where. -/
def lastLeft (name : Bytes) (params : List (ℕ × CDispParam)) : Option (ℕ × Bytes) :=
  (params.filter fun r => SameName r.2.key name).getLast?.map fun r => (r.1,r.2.left)

theorem putAll_eq (params : List (ℕ × CDispParam)) :
    DispRefs.putAll ⟨none,none⟩ params = ⟨lastLeft (str "name") params,lastLeft (str "filename") params⟩ := by
  induction params using List.reverseRecOn with
  | nil => rfl
  | append_singleton params r ih =>
    have hother : ¬SameName (str "name") (str "filename") := by decide
    have hput : DispRefs.putAll ⟨none,none⟩ (params ++ [r]) =
        (DispRefs.putAll ⟨none,none⟩ params).put r.2.key (r.1,r.2.left) := List.foldl_concat ..
    rw [hput,ih,DispRefs.put,lastLeft,lastLeft,lastLeft,lastLeft,List.filter_append,List.filter_append]
    by_cases hname : SameName r.2.key (str "name")
    · have hfile : ¬SameName r.2.key (str "filename") := fun h => hother (hname.symm.trans h)
      simp [hname,hfile]
    · by_cases hfile : SameName r.2.key (str "filename")
      · simp [hname,hfile]
      · simp [hname,hfile]

/-- The last parameter with a name, if there is one. -/
theorem exists_last (name : Bytes) (params : List (ℕ × CDispParam)) :
    (∀ x ∈ params, ¬SameName x.2.key name) ∨ ∃ before r after, params = before ++ r::after ∧
      SameName r.2.key name ∧ ∀ x ∈ after, ¬SameName x.2.key name := by
  induction params with
  | nil => exact Or.inl nofun
  | cons x params ih =>
    obtain hnone | ⟨before,r,after,rfl,hr,hafter⟩ := ih
    · by_cases hx : SameName x.2.key name
      · exact Or.inr ⟨[],x,params,rfl,hx,hnone⟩
      · exact Or.inl (List.forall_mem_cons.mpr ⟨hx,hnone⟩)
    · exact Or.inr ⟨x::before,r,after,rfl,hr,hafter⟩

theorem filter_none {name : Bytes} (h : ∀ x ∈ params, ¬SameName x.2.key name) :
    (params.filter fun r => SameName r.2.key name) = [] := by
  rw [List.filter_eq_nil_iff]
  intro x hx
  simpa using h x hx

theorem getLast?_filter {name : Bytes} {r : ℕ × CDispParam} {before after : List (ℕ × CDispParam)}
    (hr : SameName r.2.key name) (hafter : ∀ x ∈ after, ¬SameName x.2.key name) :
    ((before ++ r::after).filter fun r => SameName r.2.key name).getLast? = some r := by
  rw [List.filter_append,List.filter_cons,filter_none hafter]
  simp [hr]

/-- The last parameter with a name is found as it was, exactly when it is reached and does not change. -/
theorem lastLeft_eq_iff (hnodup : (params.map Prod.fst).Nodup) (name : Bytes) :
    lastLeft name (reached params) = lastCalled name params ↔
      ∀ before r after, params = before ++ r::after → SameName r.2.key name →
        (∀ x ∈ after, ¬SameName x.2.key name) → (∀ x ∈ before, x.2.quoted = true) ∧ r.2.left = r.2.value := by
  constructor
  · intro heq before r after hparams hr hafter
    have hsub := reached_sublist params
    have hcalled : lastCalled name params = some (r.1,r.2.value) := by
      rw [lastCalled,hparams,getLast?_filter hr hafter]
      rfl
    rw [hcalled,lastLeft] at heq
    obtain ⟨x,hx,hxr⟩ := Option.map_eq_some_iff.mp heq
    obtain ⟨hplace,hleft⟩ := Prod.ext_iff.mp hxr
    have hmem : x ∈ reached params := (List.mem_filter.mp (List.mem_of_getLast? hx)).1
    have hrmem : r ∈ params := by
      rw [hparams]
      exact List.mem_append_right _ List.mem_cons_self
    obtain rfl : x = r := List.inj_on_of_nodup_map hnodup (hsub.subset hmem) hrmem hplace
    refine ⟨?_,hleft⟩
    have hnodup' := hnodup.of_map
    rw [hparams] at hmem hnodup'
    exact quoted_of_reached hnodup' hmem
  · intro h
    obtain hnone | ⟨before,r,after,rfl,hr,hafter⟩ := exists_last name params
    · rw [lastLeft,lastCalled,filter_none hnone,
        filter_none fun x hx => hnone x ((reached_sublist params).subset hx)]
      rfl
    · obtain ⟨hquoted,hleft⟩ := h before r after rfl hr hafter
      rw [lastLeft,lastCalled,reached_append hquoted,reached,getLast?_filter hr hafter,getLast?_filter hr,
        Option.map_some,Option.map_some,hleft]
      intro x hx
      split_ifs at hx
      · exact hafter x ((reached_sublist after).subset hx)
      · cases hx

end

theorem CDispParam.left_eq_iff (q : CDispParam) :
    q.left = q.value ↔ (q.quoted = true → ∀ c ∈ q.value.getLast?, isspace c = false) := by
  rw [left]
  by_cases hq : q.quoted = true
  · rw [if_pos hq,rtrim,List.rdropWhile_eq_self_iff]
    constructor
    · intro h _ c hc
      have hne : q.value ≠ [] := by
        intro hnil
        rw [hnil] at hc
        cases hc
      rw [List.getLast?_eq_some_getLast hne] at hc
      obtain rfl := Option.some.inj hc
      simpa using h hne
    · intro h hne
      simpa using h hq _ (List.getLast?_eq_some_getLast hne)
  · rw [if_neg hq]
    exact ⟨fun _ h => absurd h hq,fun _ => rfl⟩

theorem CDispParam.text_nul (q : CDispParam) : 0 ∉ q.text := by
  have hwritten : 0 ∉ q.written := by
    rw [written]
    split_ifs
    · simp [q.value_nul,ch]
    · exact q.value_nul
  have hgap : 0 ∉ q.gap := fun h => absurd (q.gap_blank 0 h) (by decide)
  have hkey : 0 ∉ q.key := fun h => (q.key_plain 0 h).2.2.2 rfl
  simp [text,inner,hwritten,hgap,hkey,ch]

/-- What is said of the located parameters, of the parameters themselves. -/
theorem last_located_iff (o : ℕ) (params : List CDispParam) (name : Bytes) :
    (∀ before r after, located o params = before ++ r::after → SameName r.2.key name →
      (∀ x ∈ after, ¬SameName x.2.key name) → (∀ x ∈ before, x.2.quoted = true) ∧ r.2.left = r.2.value) ↔
    ∀ before q after, params = before ++ q::after → SameName q.key name →
      (∀ x ∈ after, ¬SameName x.key name) →
        (∀ x ∈ before, x.quoted = true) ∧ (q.quoted = true → ∀ c ∈ q.value.getLast?, isspace c = false) := by
  have hsnd := located_snd o params
  constructor
  · intro h before q after hparams hq hafter
    rw [hparams] at hsnd
    obtain ⟨before',rest,hlocated,rfl,hrest⟩ := List.map_eq_append_iff.mp hsnd
    obtain ⟨r,after',rfl,rfl,rfl⟩ := List.map_eq_cons_iff.mp hrest
    obtain ⟨hbefore,hleft⟩ := h before' r after' (hparams ▸ hlocated) hq
      fun x hx => hafter x.2 (List.mem_map_of_mem hx)
    refine ⟨?_,r.2.left_eq_iff.mp hleft⟩
    intro x hx
    obtain ⟨y,hy,rfl⟩ := List.mem_map.mp hx
    exact hbefore y hy
  · intro h before r after hlocated hr hafter
    rw [hlocated,List.map_append,List.map_cons] at hsnd
    have hafter' : ∀ x ∈ after.map Prod.snd, ¬SameName x.key name := by
      intro x hx
      obtain ⟨y,hy,rfl⟩ := List.mem_map.mp hx
      exact hafter y hy
    obtain ⟨hbefore,hleft⟩ := h _ r.2 _ hsnd.symm hr hafter'
    exact ⟨fun x hx => hbefore x.2 (List.mem_map_of_mem hx),r.2.left_eq_iff.mpr hleft⟩

namespace Disposition

theorem text_nul (d : Disposition) : 0 ∉ d.text := by
  intro h
  obtain h | h := List.mem_append.mp h
  · exact (d.kind_plain 0 h).2.2 rfl
  · obtain ⟨q,-,hq⟩ := List.mem_flatMap.mp h
    exact q.text_nul hq

/-- A token alone is read up to the end of the string, where nothing has closed a value yet. -/
theorem parseCDispIn_token {d : Disposition} {q : CDispParam} (hparams : d.params = [q]) (hq : q.quoted = false) :
    parseCDispIn d.text = none := by
  have hagree := parseCDispIn_eq d.text_nul
  rw [d.dispRefs_eq,located,hparams] at hagree
  have hread : dispRead false ⟨none,none⟩ (Smx.located d.kind.length [q]) = none := dispRead_token hq
  rw [hread] at hagree
  exact hagree

/-- Where the code stays inside the string, it is right about the values that it reaches and leaves alone. -/
theorem right_iff_lastLeft {d : Disposition} (hone : ∀ q, d.params = [q] → q.quoted = true) :
    d.Right ↔ ∀ name ∈ [str "name",str "filename"],
      lastLeft name (reached d.located) = lastCalled name d.located := by
  have hagree := parseCDispIn_eq d.text_nul
  have hset : ∀ r, d.located = [r] → r.2.quoted = false → false = true := by
    intro r hr hq
    have hparams := located_snd d.kind.length d.params
    rw [← located,hr] at hparams
    rw [hone r.2 hparams.symm] at hq
    cases hq
  rw [d.dispRefs_eq,dispRead_eq false _ _ hset,putAll_eq] at hagree
  obtain ⟨r,hr,hshown⟩ := hagree
  rw [List.forall_mem_cons,List.forall_mem_singleton]
  constructor
  · rintro ⟨r',hr',hright⟩
    obtain rfl := Option.some.inj (hr.symm.trans hr')
    exact ⟨hshown.vname.unique hright.vname,hshown.fname.unique hright.fname⟩
  · rintro ⟨hname,hfile⟩
    rw [hname,hfile] at hshown
    exact ⟨r,hr,hshown⟩

/-- `ParseCDisp` does what it should on a disposition exactly when that is a plain one. -/
theorem right_iff (d : Disposition) : d.Right ↔ d.Plain := by
  by_cases hone : ∀ q, d.params = [q] → q.quoted = true
  · rw [right_iff_lastLeft hone,Plain,and_iff_right hone]
    refine forall_congr' fun name => imp_congr_right fun _ => ?_
    rw [located,lastLeft_eq_iff (located_nodup ..),last_located_iff]
  · refine iff_of_false ?_ fun h => hone h.1
    push Not at hone
    obtain ⟨q,hparams,hq⟩ := hone
    rintro ⟨r,hr,-⟩
    rw [parseCDispIn_token hparams (Bool.not_eq_true _ ▸ hq)] at hr
    cases hr

/-- A field whose name stands without quotes. -/
def bareName : Disposition where
  kind := str "form-data"
  params := [{
    gap := str " "
    key := str "name"
    quoted := false
    value := str "x"
    gap_blank := by simp [str,ch,isspace]
    key_plain := by simp [str,ch,isspace]
    value_nul := by simp [str,ch]
    value_quoted := nofun
    value_token := by simp [str,ch,isspace] }]
  kind_plain := by simp [str,ch]

theorem not_right : bareName.text = str "form-data; name=x" ∧ ¬bareName.Right := by
  refine ⟨rfl,?_⟩
  rintro ⟨r,hr,-⟩
  rw [parseCDispIn_token rfl rfl] at hr
  cases hr

end Disposition

end Smx
