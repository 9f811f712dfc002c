import Smx.Cgi.Query

/-! `EvalClientStateP`: the form written down as a query string. -/
namespace Smx

/-- `EvalClientStateP`. -/
def clientState (m : FormMap) : Bytes :=
  m.entries.flatMap fun e => e.2.flatMap fun value =>
    e.1 ++ ch '='::(urlEncode value ++ [ch '&'])

/-- A name that is read back as it is written. -/
def PlainName (name : Bytes) : Prop := NoSeparator name ∧ urlDecode name = name

instance (name : Bytes) : Decidable (PlainName name) := inferInstanceAs (Decidable (_ ∧ _))

/-- What a name adds to the size of a form; a plus sign counts twice, since it is decoded to
another byte. -/
def weight (name : Bytes) : ℕ := name.length + name.count (ch '+')

def totalWeight (entries : List (Bytes × List Bytes)) : ℕ :=
  (entries.map fun e => weight e.1 * e.2.length).sum

@[simp] theorem weight_nil : weight [] = 0 := rfl

theorem weight_cons (c : Byte) (s : Bytes) :
    weight (c::s) = weight s + if c = ch '+' then 2 else 1 := by
  rw [weight,weight,List.length_cons,List.count_cons]
  simp only [beq_iff_eq]
  split_ifs <;> omega

theorem weight_append (s t : Bytes) : weight (s ++ t) = weight s + weight t := by
  simp only [weight,List.length_append,List.count_append]
  omega

theorem weight_congr {a b : Bytes} (h : SameName a b) : weight a = weight b := by
  have hplus (c : Byte) : (tolower c == ch '+') = (c == ch '+') := by grind [tolower,ch]
  have hcount (s : Bytes) : s.count (ch '+') = (s.map tolower).count (ch '+') := by
    rw [List.count_eq_countP,List.count_eq_countP,List.countP_map]
    exact List.countP_congr fun c _ => by simp [hplus]
  have hlength := congrArg List.length h
  rw [List.length_map,List.length_map] at hlength
  rw [weight,weight,hlength,hcount a,hcount b,h]

theorem weight_cstr_le (s : Bytes) : weight (cstr s) ≤ weight s := by
  have hsub : List.Sublist (cstr s) s := List.takeWhile_sublist _
  exact Nat.add_le_add hsub.length_le (hsub.count_le _)

theorem totalWeight_insert (key val : Bytes) (entries : List (Bytes × List Bytes)) :
    totalWeight (FormMap.insert key val entries) = totalWeight entries + weight key := by
  induction entries with
  | nil => simp [FormMap.insert,totalWeight]
  | cons e entries ih =>
    rw [FormMap.insert]
    split_ifs with h
    · simp only [totalWeight,List.map_cons,List.sum_cons,List.length_append,List.length_singleton,
        Nat.mul_add,Nat.mul_one,weight_congr h]
      omega
    · simp only [totalWeight,List.map_cons,List.sum_cons] at ih ⊢
      omega

theorem totalWeight_set (m : FormMap) (key val : Bytes) :
    totalWeight (m.set key val).entries ≤ totalWeight m.entries + weight key := by
  have hset : totalWeight (m.set key val).entries = totalWeight m.entries + weight (cstr key) :=
    totalWeight_insert _ _ _
  have hcstr := weight_cstr_le key
  omega

/-- Decoding makes a name lighter, or leaves it alone. -/
theorem weight_urlDecode (s : Bytes) : weight (urlDecode s) < weight s ∨ urlDecode s = s := by
  have hcons (c : Byte) {t u : Bytes} (ih : weight t < weight u ∨ t = u) :
      weight (c::t) < weight (c::u) ∨ c::t = c::u := by
    obtain hlt | rfl := ih
    · left
      rw [weight_cons,weight_cons]
      omega
    · exact .inr rfl
  have hle {t u : Bytes} (ih : weight t < weight u ∨ t = u) : weight t ≤ weight u := by
    obtain hlt | rfl := ih
    · exact hlt.le
    · exact le_rfl
  fun_induction urlDecode s with
  | case1 => exact .inr rfl
  | case2 a b rest _ ih =>
    left
    have hrest := hle ih
    have hpct : T_PCT ≠ ch '+' := by decide
    simp only [weight_cons,if_neg hpct]
    split_ifs <;> omega
  | case3 a b rest _ ih => exact hcons T_PCT ih
  | case4 p _ ih => exact hcons T_PCT ih
  | case5 p _ ih =>
    left
    have hrest := hle ih
    have hblank : ch ' ' ≠ ch '+' := by decide
    rw [weight_cons,weight_cons,if_pos rfl,if_neg hblank]
    omega
  | case6 c p _ _ ih => exact hcons c ih

theorem weight_urlDecode_le (s : Bytes) : weight (urlDecode s) ≤ weight s := by
  obtain h | h := weight_urlDecode s
  · exact h.le
  · rw [h]

/-- A per cent sign in a value takes two hex digits with it, or stays. -/
theorem valueLoop_pct (q n v : Bytes) (m : FormMap) :
    (∃ a b rest, q = a::b::rest ∧ isxdigit a = true ∧ isxdigit b = true ∧
      valueLoop (T_PCT::q) n v m = valueLoop rest n (v ++ [hexByte a b]) m) ∨
    valueLoop (T_PCT::q) n v m = valueLoop q n (v ++ [T_PCT]) m := by
  have hsep : ¬(T_PCT = ch '=' ∨ T_PCT = ch '&') := by decide
  rw [valueLoop.eq_def]
  simp only [if_neg hsep,if_true]
  split
  · rename_i a b rest
    split_ifs with hhex
    · obtain ⟨ha,hb⟩ := Bool.and_eq_true_iff.mp hhex
      exact .inl ⟨a,b,rest,rfl,ha,hb,rfl⟩
    · exact .inr rfl
  · exact .inr rfl

/-- A value ends at the first equals sign or ampersand. -/
theorem valueLoop_until {t : Byte} (ht : t = ch '=' ∨ t = ch '&') (p n : Bytes) (m : FormMap) (k : ℕ) :
    ∀ (s v : Bytes), s.length ≤ k → (∀ c ∈ s, ¬(c = ch '=' ∨ c = ch '&')) →
      ∃ v', valueLoop (s ++ t::p) n v m = nameLoop p [] (some v') (m.set (urlDecode n) v') := by
  have hdigit : isxdigit t = false := by
    obtain rfl | rfl := ht <;> decide
  induction k with
  | zero =>
    intro s v hk _
    rw [List.length_eq_zero_iff.mp (Nat.le_zero.mp hk)]
    exact ⟨v,valueLoop_separator ht p n v m⟩
  | succ k ih =>
    intro s v hk hs
    cases s with
    | nil => exact ⟨v,valueLoop_separator ht p n v m⟩
    | cons c s =>
      obtain ⟨hc,hrest⟩ := List.forall_mem_cons.mp hs
      have hlen : s.length ≤ k := by simpa using hk
      rw [List.cons_append]
      by_cases hpct : c = T_PCT
      · subst hpct
        obtain ⟨a,b,rest,hq,ha,hb,h⟩ | h := valueLoop_pct (s ++ t::p) n v m
        · match s,hq with
          | [],hq =>
            obtain ⟨rfl,-⟩ := List.cons.inj hq
            rw [hdigit] at ha
            cases ha
          | [x],hq =>
            obtain ⟨rfl,-⟩ := List.cons.inj (List.cons.inj hq).2
            rw [hdigit] at hb
            cases hb
          | x::y::s,hq =>
            obtain rfl : s ++ t::p = rest := (List.cons.inj (List.cons.inj hq).2).2
            rw [h]
            refine ih s _ ?_ fun c hc => hrest c (List.mem_cons_of_mem _ (List.mem_cons_of_mem _ hc))
            simp only [List.length_cons] at hlen
            omega
        · rw [h]
          exact ih s _ hlen hrest
      · rw [valueLoop.eq_def]
        simp only [if_neg hc,if_neg hpct]
        split_ifs
        · exact ih s _ hlen hrest
        · exact ih s _ hlen hrest

/-- A name and its value as `EvalClientStateP` writes them, before `p`. -/
def chunk (name value p : Bytes) : Bytes := name ++ ch '='::(urlEncode value ++ ch '&'::p)

/-- A chunk with a plain name gives its pair. -/
theorem nameLoop_chunk {name : Bytes} (hname : PlainName name) {value : Bytes} (hvalue : 0 ∉ value)
    (p : Bytes) (v : Option Bytes) (m : FormMap) :
    nameLoop (chunk name value p) [] v m = nameLoop p [] (some value) (m.set name value) := by
  rw [chunk,nameLoop_noSeparator hname.1,List.nil_append,nameLoop,if_pos rfl,
    valueLoop_urlEncode hvalue,List.nil_append,valueLoop_separator (.inr rfl),hname.2]

/-- The map got no heavier than a name allows, and lighter when the name is not plain. -/
structure Heavier (name : Bytes) (m m' : FormMap) : Prop where
  le : totalWeight m'.entries ≤ totalWeight m.entries + weight name
  lt : ¬PlainName name → totalWeight m'.entries < totalWeight m.entries + weight name

/-- What is left of a value and its ampersand adds nothing when it is taken for a name. -/
theorem nameLoop_value (value p : Bytes) (v : Option Bytes) (m : FormMap) :
    nameLoop (urlEncode value ++ ch '&'::p) [] v m = nameLoop p [] v m := by
  rw [nameLoop_noSeparator (urlEncode_noSeparator value),nameLoop,if_neg (by decide),
    if_pos (.inl rfl)]

theorem heavier_set {s : Bytes} (hs : NoSeparator s) (value : Bytes) (m : FormMap) :
    Heavier s m (m.set (urlDecode s) value) := by
  have hset := totalWeight_set m (urlDecode s) value
  have hle := weight_urlDecode_le s
  refine ⟨by omega,fun hname => ?_⟩
  obtain hlt | heq := weight_urlDecode s
  · omega
  · exact absurd ⟨hs,heq⟩ hname

theorem heavier_of_lt {name : Bytes} {m m' : FormMap}
    (h : totalWeight m'.entries < totalWeight m.entries + weight name) : Heavier name m m' :=
  ⟨h.le,fun _ => h⟩

/-- What a chunk puts in, wherever its name is cut: `s` is what has been read of the name. -/
theorem nameLoop_heavier {value : Bytes} (hvalue : 0 ∉ value) (p name s : Bytes) (v : Option Bytes)
    (m : FormMap) (hs : NoSeparator s) :
    ∃ v' m', nameLoop (chunk name value p) s v m = nameLoop p [] v' m' ∧ Heavier (s ++ name) m m' := by
  induction hk : name.length using Nat.strong_induction_on generalizing name s v m with
  | _ k ih =>
    subst hk
    cases name with
    | nil =>
      refine ⟨some value,m.set (urlDecode s) value,?_,?_⟩
      · rw [chunk,List.nil_append,nameLoop,if_pos rfl,valueLoop_urlEncode hvalue,List.nil_append,
          valueLoop_separator (.inr rfl)]
      · rw [List.append_nil]
        exact heavier_set hs value m
    | cons c name =>
      have hweight : weight s + weight name < weight (s ++ c::name) := by
        rw [weight_append,weight_cons]
        split_ifs <;> omega
      have hset := totalWeight_set m (urlDecode s)
      have hdecode := weight_urlDecode_le s
      rw [chunk,List.cons_append,nameLoop]
      by_cases heq : c = ch '='
      · rw [if_pos heq]
        cases hfind : name.find? fun c => c = ch '=' ∨ c = ch '&' with
        | none =>
          -- The value begun in the name runs up to the equals sign behind the name.
          have hno : ∀ c ∈ name, ¬(c = ch '=' ∨ c = ch '&') := by
            simpa using List.find?_eq_none.mp hfind
          obtain ⟨v',h⟩ := valueLoop_until (.inl rfl) (urlEncode value ++ ch '&'::p) s m
            name.length name [] le_rfl hno
          refine ⟨some v',m.set (urlDecode s) v',?_,heavier_of_lt ?_⟩
          · rw [h,nameLoop_value]
          · have hset := hset v'
            omega
        | some t =>
          -- The value ends within the name, and what is behind it is the next name.
          obtain ⟨ht,w,rest,rfl,hw⟩ := List.find?_eq_some_iff_append.mp hfind
          have ht : t = ch '=' ∨ t = ch '&' := by simpa using ht
          have hno : ∀ c ∈ w, ¬(c = ch '=' ∨ c = ch '&') := by simpa using hw
          obtain ⟨v',h⟩ := valueLoop_until ht (chunk rest value p) s m w.length w [] le_rfl hno
          obtain ⟨v'',m',hrest,hheavy⟩ := ih rest.length (by simp; omega) rest [] (some v')
            (m.set (urlDecode s) v') (List.forall_mem_nil _) rfl
          refine ⟨v'',m',?_,heavier_of_lt ?_⟩
          · rw [List.append_assoc,List.cons_append]
            exact h.trans hrest
          · have hset := hset v'
            have hle := hheavy.le
            have hw : weight rest ≤ weight (w ++ t::rest) := by
              rw [weight_append,weight_cons]
              omega
            rw [List.nil_append] at hle
            omega
      · rw [if_neg heq]
        by_cases hsep : c = ch '&' ∨ c = ch '?'
        · rw [if_pos hsep]
          obtain ⟨v',m',h,hheavy⟩ := ih name.length (by simp) name [] v m (List.forall_mem_nil _) rfl
          refine ⟨v',m',h,heavier_of_lt ?_⟩
          have hle := hheavy.le
          rw [List.nil_append] at hle
          omega
        · rw [if_neg hsep]
          have hsc : NoSeparator (s ++ [c]) := by
            intro x hx
            obtain hx | hx := List.mem_append.mp hx
            · exact hs x hx
            · rw [List.mem_singleton.mp hx]
              exact ⟨heq,not_or.mp hsep⟩
          obtain ⟨v',m',h,hheavy⟩ := ih name.length (by simp) name (s ++ [c]) v m hsc rfl
          refine ⟨v',m',h,?_⟩
          rwa [List.append_assoc] at hheavy

/-- The pairs written one after the other. -/
def chunks (pairs : List (Bytes × Bytes)) : Bytes :=
  pairs.flatMap fun pair => chunk pair.1 pair.2 []

theorem chunks_cons (pair : Bytes × Bytes) (pairs : List (Bytes × Bytes)) :
    chunks (pair::pairs) = chunk pair.1 pair.2 (chunks pairs) := by
  simp [chunks,chunk]

theorem clientState_eq (m : FormMap) : clientState m = chunks (FormMap.pairs m.entries) := by
  simp [clientState,chunks,chunk,FormMap.pairs,List.flatMap_assoc,List.flatMap_map]

/-- With plain names every pair is put in. -/
theorem nameLoop_chunks {pairs : List (Bytes × Bytes)}
    (h : ∀ pair ∈ pairs, PlainName pair.1 ∧ 0 ∉ pair.2) (v : Option Bytes) (m : FormMap) :
    nameLoop (chunks pairs) [] v m = m.setAll pairs := by
  induction pairs generalizing v m with
  | nil => cases v <;> rfl
  | cons pair pairs ih =>
    obtain ⟨⟨hname,hvalue⟩,hrest⟩ := List.forall_mem_cons.mp h
    rw [chunks_cons,nameLoop_chunk hname hvalue,ih hrest,FormMap.setAll_cons]

/-- What all pairs put in. -/
theorem nameLoop_chunks_le {pairs : List (Bytes × Bytes)} (h : ∀ pair ∈ pairs, 0 ∉ pair.2)
    (v : Option Bytes) (m : FormMap) :
    totalWeight (nameLoop (chunks pairs) [] v m).entries ≤
        totalWeight m.entries + (pairs.map fun pair => weight pair.1).sum ∧
      ((∃ pair ∈ pairs, ¬PlainName pair.1) →
        totalWeight (nameLoop (chunks pairs) [] v m).entries <
          totalWeight m.entries + (pairs.map fun pair => weight pair.1).sum) := by
  induction pairs generalizing v m with
  | nil =>
    have hsame : nameLoop (chunks []) [] v m = m := by cases v <;> rfl
    rw [hsame]
    refine ⟨le_rfl,?_⟩
    rintro ⟨pair,hpair,-⟩
    exact absurd hpair List.not_mem_nil
  | cons pair pairs ih =>
    obtain ⟨hvalue,hrest⟩ := List.forall_mem_cons.mp h
    obtain ⟨v',m',heq,hheavy⟩ := nameLoop_heavier hvalue (chunks pairs) pair.1 [] v m nofun
    obtain ⟨hle,hlt⟩ := ih hrest v' m'
    have hfirst := hheavy.le
    rw [List.nil_append] at hfirst hheavy
    rw [chunks_cons,heq,List.map_cons,List.sum_cons]
    refine ⟨by omega,?_⟩
    rintro ⟨x,hx,hplain⟩
    obtain rfl | hx := List.mem_cons.mp hx
    · have hless := hheavy.lt hplain
      omega
    · have hless := hlt ⟨x,hx,hplain⟩
      omega

theorem sum_pairs (entries : List (Bytes × List Bytes)) :
    ((FormMap.pairs entries).map fun pair => weight pair.1).sum = totalWeight entries := by
  induction entries with
  | nil => rfl
  | cons e entries ih =>
    have hsplit : FormMap.pairs (e::entries) =
        e.2.map (fun val => (e.1,val)) ++ FormMap.pairs entries := List.flatMap_cons
    have hconst : (e.2.map fun val => (e.1,val)).map (fun pair => weight pair.1) =
        List.replicate e.2.length (weight e.1) := by
      rw [List.map_map]
      simp only [Function.comp_def,List.map_const']
    rw [hsplit,List.map_append,List.sum_append,ih,hconst,List.sum_replicate_nat,
      Nat.mul_comm]
    rfl

theorem mem_pairs {entries : List (Bytes × List Bytes)} {pair : Bytes × Bytes} :
    pair ∈ FormMap.pairs entries ↔ ∃ e ∈ entries, e.1 = pair.1 ∧ pair.2 ∈ e.2 := by
  constructor
  · intro h
    obtain ⟨e,he,h⟩ := List.mem_flatMap.mp h
    obtain ⟨val,hval,rfl⟩ := List.mem_map.mp h
    exact ⟨e,he,rfl,hval⟩
  · rintro ⟨e,he,hname,hval⟩
    exact List.mem_flatMap.mpr ⟨e,he,List.mem_map.mpr ⟨pair.2,hval,Prod.ext hname rfl⟩⟩

theorem nul_not_mem_clientState (m : FormMap) : 0 ∉ clientState m := by
  rw [clientState_eq]
  intro h
  obtain ⟨pair,hpair,h⟩ := List.mem_flatMap.mp h
  obtain ⟨e,he,hname,-⟩ := mem_pairs.mp hpair
  have hnul := m.nul_free e he
  rw [hname] at hnul
  obtain h | h := List.mem_append.mp h
  · exact hnul h
  · obtain h | h := List.mem_cons.mp h
    · exact absurd h (by decide)
    · obtain h | h := List.mem_append.mp h
      · exact (urlEncode_bytes _ 0 h).1 rfl
      · exact absurd h (by decide)

/-- A form with one field, as many do. -/
def oneField (name value : Bytes) (h : 0 ∉ name) : FormMap where
  entries := [(name,[value])]
  distinct := List.pairwise_singleton _ _
  filled := by
    intro e he
    rw [List.mem_singleton.mp he]
    exact List.cons_ne_nil _ _
  nul_free := by
    intro e he
    rw [List.mem_singleton.mp he]
    exact h

end Smx
