import Smx.Base.Bytes
import Mathlib.Algebra.BigOperators.Group.List.Basic

/-! `CMapStrLst`: the fields of a form, each name with the list of its values. -/
namespace Smx

namespace FormMap

/-- `Set` on the entries: one more value for a known name, or a new name. -/
def insert (key val : Bytes) : List (Bytes × List Bytes) → List (Bytes × List Bytes)
  | [] => [(key,[val])]
  | e::entries =>
    if SameName e.1 key then (e.1,e.2 ++ [val])::entries else e::insert key val entries

/-- The values under a name. -/
def lookup (name : Bytes) : List (Bytes × List Bytes) → List Bytes
  | [] => []
  | e::entries => if SameName e.1 name then e.2 else lookup name entries

variable {key val : Bytes} {entries : List (Bytes × List Bytes)}

theorem mem_insert {e : Bytes × List Bytes} (h : e ∈ insert key val entries) :
    e ∈ entries ∨ (∃ old ∈ entries, SameName old.1 key ∧ e = (old.1,old.2 ++ [val])) ∨
      e = (key,[val]) := by
  induction entries with
  | nil => exact .inr (.inr (by simpa [insert] using h))
  | cons x entries ih =>
    rw [insert] at h
    split_ifs at h with hx
    · obtain rfl | h := List.mem_cons.mp h
      · exact .inr (.inl ⟨x,List.mem_cons_self,hx,rfl⟩)
      · exact .inl (List.mem_cons_of_mem x h)
    · obtain rfl | h := List.mem_cons.mp h
      · exact .inl List.mem_cons_self
      · obtain hold | ⟨old,hold,heq⟩ | hnew := ih h
        · exact .inl (List.mem_cons_of_mem x hold)
        · exact .inr (.inl ⟨old,List.mem_cons_of_mem x hold,heq⟩)
        · exact .inr (.inr hnew)

theorem insert_distinct (h : entries.Pairwise fun a b => ¬SameName a.1 b.1) :
    (insert key val entries).Pairwise fun a b => ¬SameName a.1 b.1 := by
  induction entries with
  | nil => exact List.pairwise_singleton _ _
  | cons x entries ih =>
    obtain ⟨hx,hrest⟩ := List.pairwise_cons.mp h
    rw [insert]
    split_ifs with hkey
    · exact List.pairwise_cons.mpr ⟨hx,hrest⟩
    · refine List.pairwise_cons.mpr ⟨?_,ih hrest⟩
      intro e he
      obtain hold | ⟨old,hold,-,rfl⟩ | rfl := mem_insert he
      · exact hx e hold
      · exact hx old hold
      · exact hkey

theorem lookup_insert (name : Bytes) : lookup name (insert key val entries) =
    lookup name entries ++ if SameName key name then [val] else [] := by
  induction entries with
  | nil =>
    rw [insert,lookup,lookup]
    split_ifs <;> rfl
  | cons x entries ih =>
    rw [insert]
    by_cases hx : SameName x.1 key
    · rw [if_pos hx,lookup,lookup]
      by_cases hname : SameName x.1 name
      · rw [if_pos hname,if_pos hname,if_pos (hx.symm.trans hname)]
      · rw [if_neg hname,if_neg hname,if_neg fun h => hname (hx.trans h),List.append_nil]
    · rw [if_neg hx,lookup,lookup]
      by_cases hname : SameName x.1 name
      · rw [if_pos hname,if_pos hname,if_neg fun h => hx (hname.trans h.symm),List.append_nil]
      · rw [if_neg hname,if_neg hname,ih]

theorem insert_new (h : ∀ e ∈ entries, ¬SameName e.1 key) :
    insert key val entries = entries ++ [(key,[val])] := by
  induction entries with
  | nil => rfl
  | cons x entries ih =>
    obtain ⟨hx,hrest⟩ := List.forall_mem_cons.mp h
    rw [insert,if_neg hx,ih hrest]
    rfl

theorem insert_found {name : Bytes} (vals : List Bytes) (entries' : List (Bytes × List Bytes))
    (h : ∀ e ∈ entries, ¬SameName e.1 key) (hname : SameName name key) :
    insert key val (entries ++ (name,vals)::entries') = entries ++ (name,vals ++ [val])::entries' := by
  induction entries with
  | nil => exact if_pos hname
  | cons x entries ih =>
    obtain ⟨hx,hrest⟩ := List.forall_mem_cons.mp h
    rw [List.cons_append,insert,if_neg hx,ih hrest]
    rfl

theorem lookup_of_mem {e : Bytes × List Bytes} {name : Bytes}
    (hdistinct : entries.Pairwise fun a b => ¬SameName a.1 b.1) (he : e ∈ entries)
    (hname : SameName e.1 name) : lookup name entries = e.2 := by
  induction entries with
  | nil => cases he
  | cons x entries ih =>
    obtain ⟨hx,hrest⟩ := List.pairwise_cons.mp hdistinct
    rw [lookup]
    obtain rfl | he := List.mem_cons.mp he
    · exact if_pos hname
    · rw [if_neg fun h => hx e he (h.trans hname.symm)]
      exact ih hrest he

theorem lookup_none {name : Bytes} (h : ∀ e ∈ entries, ¬SameName e.1 name) : lookup name entries = [] := by
  induction entries with
  | nil => rfl
  | cons x entries ih =>
    obtain ⟨hx,hrest⟩ := List.forall_mem_cons.mp h
    rw [lookup,if_neg hx,ih hrest]

/-- What is under a name does not depend on the order of the entries. -/
theorem lookup_perm {scan : List (Bytes × List Bytes)}
    (hdistinct : entries.Pairwise fun a b => ¬SameName a.1 b.1) (hscan : scan.Perm entries) (name : Bytes) :
    lookup name scan = lookup name entries := by
  have hsymm : ∀ {a b : Bytes × List Bytes}, ¬SameName a.1 b.1 → ¬SameName b.1 a.1 := fun h h' => h h'.symm
  have hdistinct' := hscan.symm.pairwise hdistinct hsymm
  by_cases hex : ∃ e ∈ entries, SameName e.1 name
  · obtain ⟨e,he,hname⟩ := hex
    rw [lookup_of_mem hdistinct he hname,lookup_of_mem hdistinct' (hscan.symm.subset he) hname]
  · push Not at hex
    rw [lookup_none hex,lookup_none fun e he => hex e (hscan.subset he)]

end FormMap

/-- The entries of a `CMapStrLst`, in the order of a scan. -/
structure FormMap where
  entries : List (Bytes × List Bytes)
  distinct : entries.Pairwise fun a b => ¬SameName a.1 b.1
  filled : ∀ e ∈ entries, e.2 ≠ []
  nul_free : ∀ e ∈ entries, 0 ∉ e.1

namespace FormMap

def empty : FormMap := ⟨[],List.Pairwise.nil,nofun,nofun⟩

/-- `CMapStrLst::Set`; a key is a C string. -/
def set (m : FormMap) (key val : Bytes) : FormMap where
  entries := insert (cstr key) val m.entries
  distinct := insert_distinct m.distinct
  filled := by
    intro e he
    obtain hold | ⟨old,-,-,rfl⟩ | rfl := mem_insert he
    · exact m.filled e hold
    · exact List.append_ne_nil_of_right_ne_nil _ (List.cons_ne_nil _ _)
    · exact List.cons_ne_nil _ _
  nul_free := by
    intro e he
    obtain hold | ⟨old,hold,-,rfl⟩ | rfl := mem_insert he
    · exact m.nul_free e hold
    · exact m.nul_free old hold
    · exact nul_not_mem_cstr key

/-- The values that the map has for a name. -/
def values (m : FormMap) (name : Bytes) : List Bytes := lookup name m.entries

@[simp] theorem values_empty (name : Bytes) : empty.values name = [] := rfl

theorem values_set (m : FormMap) (key val name : Bytes) : (m.set key val).values name =
    m.values name ++ if SameName (cstr key) name then [val] else [] :=
  lookup_insert name

/-- The pairs put in one after the other. -/
def setAll (m : FormMap) (pairs : List (Bytes × Bytes)) : FormMap :=
  pairs.foldl (fun m pair => m.set pair.1 pair.2) m

/-- The values given to a name, in order. -/
def valuesOf (name : Bytes) (pairs : List (Bytes × Bytes)) : List Bytes :=
  (pairs.filter fun pair => SameName (cstr pair.1) name).map Prod.snd

@[simp] theorem setAll_nil (m : FormMap) : m.setAll [] = m := rfl

theorem setAll_cons (m : FormMap) (pair : Bytes × Bytes) (pairs : List (Bytes × Bytes)) :
    m.setAll (pair::pairs) = (m.set pair.1 pair.2).setAll pairs := rfl

theorem setAll_append (m : FormMap) (pairs pairs' : List (Bytes × Bytes)) :
    m.setAll (pairs ++ pairs') = (m.setAll pairs).setAll pairs' := List.foldl_append

theorem values_setAll (m : FormMap) (pairs : List (Bytes × Bytes)) (name : Bytes) :
    (m.setAll pairs).values name = m.values name ++ valuesOf name pairs := by
  induction pairs generalizing m with
  | nil => exact (List.append_nil _).symm
  | cons pair pairs ih =>
    rw [setAll_cons,ih,values_set,List.append_assoc,valuesOf,valuesOf,List.filter_cons]
    by_cases h : SameName (cstr pair.1) name
    · simp [h]
    · simp [h]

theorem valuesOf_concat {name : Bytes} {pair : Bytes × Bytes} (h : SameName (cstr pair.1) name)
    (pairs : List (Bytes × Bytes)) :
    valuesOf name (pairs ++ [pair]) = valuesOf name pairs ++ [pair.2] := by
  simp [valuesOf,h]

/-- All pairs of a name and one of its values, as a scan meets them. -/
def pairs (entries : List (Bytes × List Bytes)) : List (Bytes × Bytes) :=
  entries.flatMap fun e => e.2.map fun val => (e.1,val)

/-- An entry is rebuilt from its values. -/
theorem setAll_entry {m : FormMap} {name : Bytes} (hnul : 0 ∉ name)
    (hname : ∀ e ∈ m.entries, ¬SameName e.1 name) {vals : List Bytes} (hvals : vals ≠ []) :
    (m.setAll (vals.map fun val => (name,val))).entries = m.entries ++ [(name,vals)] := by
  induction vals using List.reverseRecOn with
  | nil => exact absurd rfl hvals
  | append_singleton vals val ih =>
    rw [List.map_append,setAll_append]
    change insert (cstr name) val (m.setAll (vals.map fun val => (name,val))).entries = _
    rw [cstr_of_nul_free hnul]
    cases vals with
    | nil => exact insert_new hname
    | cons v vals =>
      rw [ih (List.cons_ne_nil _ _)]
      exact insert_found (v::vals) [] hname rfl

/-- A map is rebuilt from its pairs. -/
theorem setAll_pairs {m : FormMap} {entries : List (Bytes × List Bytes)}
    (hdistinct : (m.entries ++ entries).Pairwise fun a b => ¬SameName a.1 b.1)
    (hfilled : ∀ e ∈ entries, e.2 ≠ []) (hnul : ∀ e ∈ entries, 0 ∉ e.1) :
    (m.setAll (pairs entries)).entries = m.entries ++ entries := by
  induction entries generalizing m with
  | nil => exact (List.append_nil _).symm
  | cons e entries ih =>
    obtain ⟨hfill,hfilled⟩ := List.forall_mem_cons.mp hfilled
    obtain ⟨hn,hnul⟩ := List.forall_mem_cons.mp hnul
    have hnew : ∀ x ∈ m.entries, ¬SameName x.1 e.1 := fun x hx =>
      (List.pairwise_append.mp hdistinct).2.2 x hx e List.mem_cons_self
    have hentry := setAll_entry hn hnew hfill
    have hsplit : pairs (e::entries) = e.2.map (fun val => (e.1,val)) ++ pairs entries :=
      List.flatMap_cons
    rw [hsplit,setAll_append,ih _ hfilled hnul,hentry,List.append_assoc]
    · rfl
    · rw [hentry,List.append_assoc]
      exact hdistinct

end FormMap

end Smx
