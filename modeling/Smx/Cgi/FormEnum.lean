import Mathlib.Data.List.Perm.Basic
import Smx.Base.Number
import Smx.Cgi.FormHeap

/-! `%enumform` in its two orders: name after name, or one value of each name in turn. -/
namespace Smx

namespace FormMap

/-- The `i`th value of each name. -/
def column (i : ℕ) (entries : List (Bytes × List Bytes)) : List (Bytes × Bytes) :=
  entries.flatMap fun e => e.2[i]?.toList.map fun val => (e.1,val)

/-- The first `n` values of each name, one of each name in turn. -/
def columns (entries : List (Bytes × List Bytes)) : ℕ → List (Bytes × Bytes)
  | 0 => []
  | n+1 => columns entries n ++ column n entries

variable {entries : List (Bytes × List Bytes)} {name : Bytes}

theorem columns_perm (n : ℕ) :
    (columns entries n).Perm (entries.flatMap fun e => (e.2.take n).map fun val => (e.1,val)) := by
  induction n with
  | zero => simp [columns]
  | succ n ih =>
    refine (ih.append_right _).trans ((List.flatMap_append_perm ..).trans ?_)
    apply List.Perm.of_eq
    apply List.flatMap_congr
    intro e _
    rw [List.take_add_one,List.map_append]

theorem columns_perm_pairs {n : ℕ} (hn : ∀ e ∈ entries, e.2.length ≤ n) :
    (columns entries n).Perm (pairs entries) := by
  refine (columns_perm n).trans (List.Perm.of_eq ?_)
  apply List.flatMap_congr
  intro e he
  rw [List.take_of_length_le (hn e he)]

theorem length_lookup_le {n : ℕ} (hn : ∀ e ∈ entries, e.2.length ≤ n) : (lookup name entries).length ≤ n := by
  induction entries with
  | nil => exact Nat.zero_le n
  | cons x entries ih =>
    obtain ⟨hx,hrest⟩ := List.forall_mem_cons.mp hn
    rw [lookup]
    split_ifs
    · exact hx
    · exact ih hrest

theorem valuesOf_append (ps ps' : List (Bytes × Bytes)) :
    valuesOf name (ps ++ ps') = valuesOf name ps ++ valuesOf name ps' := by
  simp [valuesOf]

theorem valuesOf_map {key : Bytes} (hnul : 0 ∉ key) (vals : List Bytes) :
    valuesOf name (vals.map fun val => (key,val)) = if SameName key name then vals else [] := by
  by_cases h : SameName key name
  · have hall : ∀ pair ∈ vals.map fun val => (key,val), decide (SameName (cstr pair.1) name) = true := by
      intro pair hpair
      obtain ⟨val,-,rfl⟩ := List.mem_map.mp hpair
      simpa [cstr_of_nul_free hnul] using h
    rw [valuesOf,List.filter_eq_self.mpr hall,List.map_map,if_pos h]
    exact List.map_id vals
  · have hnone : ∀ pair ∈ vals.map fun val => (key,val), ¬decide (SameName (cstr pair.1) name) = true := by
      intro pair hpair
      obtain ⟨val,-,rfl⟩ := List.mem_map.mp hpair
      simpa [cstr_of_nul_free hnul] using h
    rw [valuesOf,List.filter_eq_nil_iff.mpr hnone,if_neg h]
    rfl

/-- What is taken of each entry is found again under its name. -/
theorem valuesOf_flatMap {g : List Bytes → List Bytes} (hg : g [] = []) (hnul : ∀ e ∈ entries, 0 ∉ e.1)
    (hdistinct : entries.Pairwise fun a b => ¬SameName a.1 b.1) :
    valuesOf name (entries.flatMap fun e => (g e.2).map fun val => (e.1,val)) = g (lookup name entries) := by
  induction entries with
  | nil => exact hg.symm
  | cons x entries ih =>
    obtain ⟨hx,hrest⟩ := List.pairwise_cons.mp hdistinct
    obtain ⟨hxnul,hnul⟩ := List.forall_mem_cons.mp hnul
    rw [List.flatMap_cons,valuesOf_append,valuesOf_map hxnul,ih hnul hrest,lookup]
    by_cases hname : SameName x.1 name
    · have hnone : lookup name entries = [] :=
        lookup_none fun e he h => hx e he (hname.trans h.symm)
      rw [if_pos hname,if_pos hname,hnone,hg,List.append_nil]
    · rw [if_neg hname,if_neg hname,List.nil_append]

theorem valuesOf_pairs (hnul : ∀ e ∈ entries, 0 ∉ e.1)
    (hdistinct : entries.Pairwise fun a b => ¬SameName a.1 b.1) :
    valuesOf name (pairs entries) = lookup name entries :=
  valuesOf_flatMap (g := id) rfl hnul hdistinct

theorem valuesOf_columns (hnul : ∀ e ∈ entries, 0 ∉ e.1)
    (hdistinct : entries.Pairwise fun a b => ¬SameName a.1 b.1) (n : ℕ) :
    valuesOf name (columns entries n) = (lookup name entries).take n := by
  induction n with
  | zero => rfl
  | succ n ih =>
    have hcolumn : valuesOf name (column n entries) = (lookup name entries)[n]?.toList :=
      valuesOf_flatMap (g := fun vals => vals[n]?.toList) rfl hnul hdistinct
    rw [columns,valuesOf_append,ih,hcolumn,List.take_add_one]

end FormMap

open TailList (Node Chain advance)

/-- What an enumeration has done: its evaluations of the body, each with a name and a value, and
whether `%break` was one of the things evaluated. -/
structure Evals where
  done : List (Bytes × Bytes) := []
  brk : Bool := false

section
variable (breaks : List (Bytes × Bytes) → Bool) (node : ℕ → Node Bytes)

/-- The body with a name and a value; `breaks` tells whether it breaks then. -/
def Evals.eval (s : Evals) (name value : Bytes) : Evals where
  done := s.done ++ [(name,value)]
  brk := s.brk || breaks (s.done ++ [(name,value)])

/-- One list, to its end. -/
def walk : ℕ → Bytes → Option ℕ → Evals → Option Evals
  | 0,_,_,_ => none
  | fuel+1,name,list,s =>
    match list with
    | none => some s
    | some a => if s.brk then some s else walk fuel name (node a).next (s.eval breaks name (node a).data)

/-- `EvalFormEnumPFast` on what the scan of the map meets. -/
def evalFormEnumPFast (fuel : ℕ) : List (Bytes × ℕ) → Evals → Option Evals
  | [],s => some s
  | (name,list)::scan,s => (walk breaks node fuel name (some list) s).bind (evalFormEnumPFast fuel scan)

/-- One round of `EvalFormEnumPCollated`, with its `ok`. -/
def round (index : ℤ) : List (Bytes × ℕ) → Bool → Evals → Bool × Evals
  | [],ok,s => (ok,s)
  | (name,list)::scan,ok,s =>
    if s.brk then (ok,s)
    else
      match advance node index.toNat (some list) with
      | some a => round index scan true (s.eval breaks name (node a).data)
      | none => round index scan ok s

/-- The rounds of `EvalFormEnumPCollated`, whose `index` is an `int`. -/
def evalFormEnumPCollated (scan : List (Bytes × ℕ)) : ℕ → ℤ → Bool → Evals → Option Evals
  | 0,_,_,_ => none
  | fuel+1,index,ok,s =>
    if ok && !s.brk then
      let (ok,s) := round breaks node index scan false s
      evalFormEnumPCollated scan fuel (int32 (index+1)) ok s
    else some s

end

section
variable {breaks : List (Bytes × Bytes) → Bool} {node : ℕ → Node Bytes} {scan : List (Bytes × ℕ)}
  {form : List (Bytes × List Bytes)}

theorem Evals.eval_brk (hbody : ∀ done, breaks done = false) (done : List (Bytes × Bytes)) (name value : Bytes) :
    Evals.eval breaks ⟨done,false⟩ name value = ⟨done ++ [(name,value)],false⟩ := by
  simp [Evals.eval,hbody]

theorem walk_eq (hbody : ∀ done, breaks done = false) {p : Option ℕ} {as : List ℕ} (hc : Chain node p as)
    {fuel : ℕ} (hfuel : as.length < fuel) (name : Bytes) (done : List (Bytes × Bytes)) :
    walk breaks node fuel name p ⟨done,false⟩ = some ⟨done ++ as.map fun a => (name,(node a).data),false⟩ := by
  induction hc generalizing fuel done with
  | nil =>
    obtain ⟨fuel,rfl⟩ := Nat.exists_eq_add_one.mpr hfuel
    simp [walk]
  | @cons a as hnext ih =>
    obtain ⟨fuel,rfl⟩ := Nat.exists_eq_add_one.mpr (Nat.zero_lt_of_lt hfuel)
    rw [walk]
    dsimp only
    rw [if_neg Bool.false_ne_true,Evals.eval_brk hbody,ih (by simpa using hfuel)]
    simp

/-- Name after name. -/
theorem evalFormEnumPFast_eq (hbody : ∀ done, breaks done = false)
    (hform : List.Forall₂ (FormHeap.Entry node) scan form) {fuel : ℕ} (hfuel : ∀ f ∈ form, f.2.length < fuel)
    (done : List (Bytes × Bytes)) : evalFormEnumPFast breaks node fuel scan ⟨done,false⟩ =
      some ⟨done ++ FormMap.pairs form,false⟩ := by
  induction hform generalizing done with
  | nil => simp [evalFormEnumPFast,FormMap.pairs]
  | @cons e f scan form hentry _ ih =>
    obtain ⟨hf,hrest⟩ := List.forall_mem_cons.mp hfuel
    obtain ⟨name,list⟩ := e
    obtain ⟨hname,as,hchain,hvals⟩ := hentry
    dsimp only at hname hchain
    have hlen : as.length < fuel := by
      rw [← hvals,List.length_map] at hf
      exact hf
    rw [evalFormEnumPFast,walk_eq hbody hchain hlen,Option.bind_some,ih hrest]
    simp [FormMap.pairs,← hvals,hname,Function.comp_def]

/-- A round meets the value at its index of each name, and is `ok` if there is one. -/
theorem round_eq (hbody : ∀ done, breaks done = false) (index : ℤ)
    (hform : List.Forall₂ (FormHeap.Entry node) scan form) (ok : Bool) (done : List (Bytes × Bytes)) :
    round breaks node index scan ok ⟨done,false⟩ =
      (ok || form.any fun f => index.toNat < f.2.length,
        ⟨done ++ FormMap.column index.toNat form,false⟩) := by
  induction hform generalizing ok done with
  | nil => simp [round,FormMap.column]
  | @cons e f scan form hentry _ ih =>
    obtain ⟨name,list⟩ := e
    obtain ⟨hname,as,hchain,hvals⟩ := hentry
    dsimp only at hname hchain
    have hlen : f.2.length = as.length := by rw [← hvals,List.length_map]
    have hadv := (hchain.advance index.toNat).eq_head?
    rw [List.head?_drop] at hadv
    rw [round]
    dsimp only
    rw [if_neg Bool.false_ne_true,hadv]
    by_cases hi : index.toNat < as.length
    · rw [List.getElem?_eq_getElem hi]
      dsimp only
      rw [Evals.eval_brk hbody,ih]
      simp [FormMap.column,← hvals,hname,hi]
    · rw [List.getElem?_eq_none (Nat.le_of_not_lt hi)]
      dsimp only
      rw [ih]
      simp [FormMap.column,← hvals,hi]

/-- A round of the loop, from the columns before it to those with its own. -/
theorem evalFormEnumPCollated_step (hbody : ∀ done, breaks done = false)
    (hform : List.Forall₂ (FormHeap.Entry node) scan form) (i fuel : ℕ) :
    evalFormEnumPCollated breaks node scan (fuel+1) i true ⟨FormMap.columns form i,false⟩ =
      evalFormEnumPCollated breaks node scan fuel (int32 (i+1)) (form.any fun f => i < f.2.length)
        ⟨FormMap.columns form (i+1),false⟩ := by
  rw [evalFormEnumPCollated,round_eq hbody i hform]
  simp [FormMap.columns]

/-- The last round finds nothing. -/
theorem evalFormEnumPCollated_last (hbody : ∀ done, breaks done = false)
    (hform : List.Forall₂ (FormHeap.Entry node) scan form) {i fuel : ℕ}
    (hlast : (form.any fun f => i < f.2.length) = false) (hfuel : 2 ≤ fuel) :
    (∀ f ∈ form, f.2.length ≤ i+1) ∧
      evalFormEnumPCollated breaks node scan fuel i true ⟨FormMap.columns form i,false⟩ =
        some ⟨FormMap.columns form (i+1),false⟩ := by
  obtain ⟨fuel,rfl⟩ := Nat.exists_eq_add_of_le' hfuel
  constructor
  · intro f hf
    have hle : f.2.length ≤ i := by simpa using List.any_eq_false.mp hlast f hf
    exact hle.trans (Nat.le_succ i)
  · rw [evalFormEnumPCollated_step hbody hform,hlast]
    rfl

/-- The rounds end with a column that is empty, as long as the index is an `int` until then. -/
theorem evalFormEnumPCollated_eq (hbody : ∀ done, breaks done = false)
    (hform : List.Forall₂ (FormHeap.Entry node) scan form) {i k fuel : ℕ} (hbound : i+k < 2^31)
    (hlen : ∀ f ∈ form, f.2.length ≤ i+k) (hfuel : k+2 ≤ fuel) :
    ∃ n, (∀ f ∈ form, f.2.length ≤ n) ∧
      evalFormEnumPCollated breaks node scan fuel i true ⟨FormMap.columns form i,false⟩ =
        some ⟨FormMap.columns form n,false⟩ := by
  induction k generalizing i fuel with
  | zero =>
    have hlast : (form.any fun f => i < f.2.length) = false := by
      rw [List.any_eq_false]
      intro f hf
      simpa using hlen f hf
    exact ⟨i+1,evalFormEnumPCollated_last hbody hform hlast hfuel⟩
  | succ k ih =>
    cases hok : form.any fun f => i < f.2.length with
    | false => exact ⟨i+1,evalFormEnumPCollated_last hbody hform hok (by omega)⟩
    | true =>
      obtain ⟨fuel,rfl⟩ := Nat.exists_eq_add_of_le' (Nat.one_le_of_lt hfuel)
      have hint : int32 (i+1) = ((i+1 : ℕ) : ℤ) := by
        rw [int32_of_mem (by omega)]
        push_cast
        rfl
      rw [evalFormEnumPCollated_step hbody hform,hok,hint]
      apply ih
      · omega
      · intro f hf
        exact (hlen f hf).trans_eq (by omega)
      · omega

/-- A round whose index is an `int` finds a value where there are `2^31` of them. -/
theorem evalFormEnumPCollated_none (hbody : ∀ done, breaks done = false)
    (hform : List.Forall₂ (FormHeap.Entry node) scan form) (hlong : ∃ f ∈ form, 2^31 ≤ f.2.length)
    (fuel : ℕ) {index : ℤ} (hindex : index < 2^31) (done : List (Bytes × Bytes)) :
    evalFormEnumPCollated breaks node scan fuel index true ⟨done,false⟩ = none := by
  induction fuel generalizing index done with
  | zero => rfl
  | succ fuel ih =>
    have hok : (form.any fun f => index.toNat < f.2.length) = true := by
      obtain ⟨f,hf,hlen⟩ := hlong
      refine List.any_eq_true.mpr ⟨f,hf,?_⟩
      rw [decide_eq_true_iff]
      omega
    rw [evalFormEnumPCollated,round_eq hbody index hform,hok]
    exact ih (int32_mem _).2 _

end

/-- With one body and one scan of a form's lists, both enumerations end, what they have evaluated
is what the form has, and each name has got its values in the order that they were set in. -/
def EnumsAgree (breaks : List (Bytes × Bytes) → Bool) (calls : List (Bytes × Bytes))
    (scan : List (Bytes × ℕ)) : Prop :=
  ∃ n, ∀ fuel ≥ n, ∃ fast collated,
    evalFormEnumPFast breaks (FormHeap.empty.setAll calls).node fuel scan {} = some fast ∧
    evalFormEnumPCollated breaks (FormHeap.empty.setAll calls).node scan fuel 0 true {} = some collated ∧
    fast.done.Perm (FormMap.pairs (FormMap.empty.setAll calls).entries) ∧
    collated.done.Perm (FormMap.pairs (FormMap.empty.setAll calls).entries) ∧
    ∀ name, FormMap.valuesOf name fast.done = FormMap.valuesOf name calls ∧
      FormMap.valuesOf name collated.done = FormMap.valuesOf name calls

/-- The scan of the lists, with what they hold. -/
theorem scan_forall₂ {calls : List (Bytes × Bytes)} {scan : List (Bytes × ℕ)}
    (hscan : scan.Perm (FormHeap.empty.setAll calls).entries) :
    ∃ form, form.Perm (FormMap.empty.setAll calls).entries ∧
      List.Forall₂ (FormHeap.Entry (FormHeap.empty.setAll calls).node) scan form := by
  obtain ⟨form,hforall,hperm⟩ := List.perm_comp_forall₂ hscan (FormHeap.refines_empty.setAll calls).forall₂
  exact ⟨form,hperm,hforall⟩

section
variable {breaks : List (Bytes × Bytes) → Bool} {calls : List (Bytes × Bytes)} {scan : List (Bytes × ℕ)}

theorem enumsAgree_of_lt (hbody : ∀ done, breaks done = false)
    (hscan : scan.Perm (FormHeap.empty.setAll calls).entries)
    (hlen : ∀ name, (FormMap.valuesOf name calls).length < 2^31) : EnumsAgree breaks calls scan := by
  obtain ⟨form,hperm,hform⟩ := scan_forall₂ hscan
  have hdistinct : form.Pairwise fun a b => ¬SameName a.1 b.1 :=
    hperm.symm.pairwise (FormMap.empty.setAll calls).distinct fun h h' => h h'.symm
  have hnul : ∀ f ∈ form, 0 ∉ f.1 := fun f hf =>
    (FormMap.empty.setAll calls).nul_free f (hperm.subset hf)
  have hvalues : ∀ name, FormMap.lookup name form = FormMap.valuesOf name calls := by
    intro name
    rw [FormMap.lookup_perm (FormMap.empty.setAll calls).distinct hperm]
    exact FormMap.values_setAll FormMap.empty calls name
  have hshort : ∀ f ∈ form, f.2.length ≤ 2^31-1 := by
    intro f hf
    have h := hlen f.1
    rw [← hvalues,FormMap.lookup_of_mem hdistinct hf rfl] at h
    exact Nat.le_sub_one_of_lt h
  have hpairs : (FormMap.pairs form).Perm (FormMap.pairs (FormMap.empty.setAll calls).entries) :=
    hperm.flatMap_right _
  refine ⟨2^31+1,fun fuel hfuel => ?_⟩
  have hlong : ∀ f ∈ form, f.2.length < fuel := by
    intro f hf
    have h := hshort f hf
    omega
  have hfast : evalFormEnumPFast breaks (FormHeap.empty.setAll calls).node fuel scan {} =
      some ⟨FormMap.pairs form,false⟩ := evalFormEnumPFast_eq hbody hform hlong []
  have hrounds : 2^31-1+2 ≤ fuel := hfuel
  obtain ⟨n,hn,hcollated⟩ := evalFormEnumPCollated_eq hbody hform (i := 0) (k := 2^31-1)
    (by omega) (fun f hf => (hshort f hf).trans_eq (Nat.zero_add _).symm) hrounds
  refine ⟨_,_,hfast,hcollated,hpairs,(FormMap.columns_perm_pairs hn).trans hpairs,fun name => ⟨?_,?_⟩⟩
  · rw [← hvalues]
    exact FormMap.valuesOf_pairs hnul hdistinct
  · rw [FormMap.valuesOf_columns hnul hdistinct,List.take_of_length_le (FormMap.length_lookup_le hn)]
    exact hvalues name

/-- A name with more values than the index can count keeps the rounds going for ever. -/
theorem not_enumsAgree_of_le (hbody : ∀ done, breaks done = false)
    (hscan : scan.Perm (FormHeap.empty.setAll calls).entries) {name : Bytes}
    (hname : 2^31 ≤ (FormMap.valuesOf name calls).length) : ¬EnumsAgree breaks calls scan := by
  obtain ⟨form,hperm,hform⟩ := scan_forall₂ hscan
  have hlong : ∃ f ∈ form, 2^31 ≤ f.2.length := by
    by_contra hshort
    push Not at hshort
    have hlookup : FormMap.lookup name form = FormMap.valuesOf name calls := by
      rw [FormMap.lookup_perm (FormMap.empty.setAll calls).distinct hperm]
      exact FormMap.values_setAll FormMap.empty calls name
    have hle : (FormMap.lookup name form).length ≤ 2^31-1 :=
      FormMap.length_lookup_le fun f hf => Nat.le_sub_one_of_lt (hshort f hf)
    rw [hlookup] at hle
    omega
  rintro ⟨n,hn⟩
  obtain ⟨fast,collated,-,hcollated,-⟩ := hn n le_rfl
  have hindex : (0 : ℤ) < 2^31 := by norm_num
  have hstuck := evalFormEnumPCollated_none hbody hform hlong n hindex []
  rw [hstuck] at hcollated
  cases hcollated

end

/-- The two enumerations agree on a form exactly when no name has more values than an `int` counts. -/
theorem enumsAgree_iff (breaks : List (Bytes × Bytes) → Bool) (hbody : ∀ done, breaks done = false)
    (calls : List (Bytes × Bytes)) (scan : List (Bytes × ℕ))
    (hscan : scan.Perm (FormHeap.empty.setAll calls).entries) :
    EnumsAgree breaks calls scan ↔ ∀ name, (FormMap.valuesOf name calls).length < 2^31 := by
  constructor
  · intro h name
    by_contra hname
    exact not_enumsAgree_of_le hbody hscan (Nat.le_of_not_lt hname) h
  · exact enumsAgree_of_lt hbody hscan

/-- Three values of two names, where the scan meets the second name first. -/
theorem enumsAgree_three : EnumsAgree (fun _ => false)
    [(str "a",str "1"),(str "b",str "2"),(str "A",str "3")] [(str "b",1),(str "a",0)] := by
  refine (enumsAgree_iff (fun _ => false) (fun _ => rfl) _ _ ?_).mpr fun name => ?_
  · exact List.Perm.swap _ _ _
  · rw [FormMap.valuesOf,List.length_map]
    exact (List.length_filter_le _ _).trans_lt (by norm_num)

theorem length_valuesOf_replicate (n : ℕ) (name val : Bytes) (hnul : 0 ∉ name) :
    (FormMap.valuesOf name (List.replicate n (name,val))).length = n := by
  simp [FormMap.valuesOf,cstr_of_nul_free hnul,SameName]

theorem not_enumsAgree : ¬∀ breaks, (∀ done, breaks done = false) → ∀ calls scan,
    scan.Perm (FormHeap.empty.setAll calls).entries → EnumsAgree breaks calls scan := by
  intro h
  obtain ⟨n,hn⟩ : ∃ n : ℕ, 2^31 ≤ n := ⟨2^31,le_rfl⟩
  have hvalues := length_valuesOf_replicate n (str "a") (str "1") (by decide)
  exact not_enumsAgree_of_le (fun _ => rfl) (List.Perm.refl _) (hn.trans_eq hvalues.symm)
    (h (fun _ => false) (fun _ => rfl) _ _ (List.Perm.refl _))

end Smx
