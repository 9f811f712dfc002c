import Mathlib.Data.List.Perm.Basic
import Smx.Cgi.FormMap
import Smx.Lib.TailList

/-! `CMapStrLst` with the linked lists that hold the values of a form. -/
namespace Smx

open TailList (Node Listed Chain create link)

/-- A `CMapStrLst` with the nodes of its lists. -/
structure FormHeap where
  node : ℕ → Node Bytes
  fresh : ℕ
  entries : List (Bytes × ℕ)

namespace FormHeap

def empty : FormHeap := ⟨fun _ => ⟨[],none,0⟩,0,[]⟩

/-- `CMapStrLst::Set`; a key is a C string. -/
def set (m : FormHeap) (key val : Bytes) : FormHeap :=
  match m.entries.find? fun e => SameName e.1 (cstr key) with
  | some top => { m with node := link m.node top.2 m.fresh val, fresh := m.fresh+1 }
  | none =>
    { node := create m.node m.fresh val
      fresh := m.fresh+1
      entries := m.entries ++ [(cstr key,m.fresh)] }

/-- The pairs put in one after the other. -/
def setAll (m : FormHeap) (pairs : List (Bytes × Bytes)) : FormHeap :=
  pairs.foldl (fun m pair => m.set pair.1 pair.2) m

/-- The lists of a map: whose they are and which nodes they have. -/
structure Lists (m : FormHeap) (cells : List (Bytes × List ℕ)) : Prop where
  entries : m.entries.map (fun e => (e.1,some e.2)) = cells.map fun c => (c.1,c.2.head?)
  listed : ∀ c ∈ cells, Listed m.node c.2
  disjoint : cells.Pairwise fun c c' => c.2.Disjoint c'.2
  old : ∀ c ∈ cells, ∀ a ∈ c.2, a < m.fresh

/-- What the lists hold. -/
def contents (node : ℕ → Node Bytes) (cells : List (Bytes × List ℕ)) : List (Bytes × List Bytes) :=
  cells.map fun c => (c.1,c.2.map fun a => (node a).data)

/-- The lists of a map hold what the form has. -/
def Refines (m : FormHeap) (form : FormMap) : Prop :=
  ∃ cells, Lists m cells ∧ contents m.node cells = form.entries

variable {m : FormHeap} {form : FormMap} {cells : List (Bytes × List ℕ)} {key val : Bytes}

theorem contents_congr {node node' : ℕ → Node Bytes}
    (h : ∀ c ∈ cells, ∀ a ∈ c.2, (node' a).data = (node a).data) : contents node' cells = contents node cells := by
  apply List.map_congr_left
  intro c hc
  rw [List.map_congr_left (h c hc)]

theorem mem_contents {node : ℕ → Node Bytes} (hkey : ∀ c ∈ cells, ¬SameName c.1 key) :
    ∀ f ∈ contents node cells, ¬SameName f.1 key := by
  intro f hf
  obtain ⟨c,hc,rfl⟩ := List.mem_map.mp hf
  exact hkey c hc

theorem Lists.create (hl : Lists m cells) (key val : Bytes) :
    Lists ⟨create m.node m.fresh val,m.fresh+1,m.entries ++ [(key,m.fresh)]⟩ (cells ++ [(key,[m.fresh])]) where
  entries := by
    rw [List.map_append,List.map_append,hl.entries]
    rfl
  listed := by
    intro c hc
    obtain hc | hc := List.mem_append.mp hc
    · apply (hl.listed c hc).frame
      intro a ha
      exact TailList.create_of_ne (hl.old c hc a ha).ne
    · obtain rfl := List.mem_singleton.mp hc
      exact TailList.listed_create
  disjoint := by
    refine List.pairwise_append.mpr ⟨hl.disjoint,List.pairwise_singleton _ _,?_⟩
    intro c hc c' hc' a ha ha'
    obtain rfl := List.mem_singleton.mp hc'
    obtain rfl := List.mem_singleton.mp ha'
    exact (hl.old c hc _ ha).false
  old := by
    intro c hc a ha
    obtain hc | hc := List.mem_append.mp hc
    · exact (hl.old c hc a ha).trans (Nat.lt_succ_self _)
    · obtain rfl := List.mem_singleton.mp hc
      obtain rfl := List.mem_singleton.mp ha
      exact Nat.lt_succ_self _

/-- No other list has a node of one that is in the map. -/
theorem Lists.apart {c : Bytes × List ℕ} {before after : List (Bytes × List ℕ)}
    (hl : Lists m (before ++ c::after)) :
    (∀ x ∈ before ++ after, c.2.Disjoint x.2) ∧
      (before ++ after).Pairwise fun c c' => c.2.Disjoint c'.2 := by
  have h : (c::(before ++ after)).Pairwise fun c c' => c.2.Disjoint c'.2 := by
    apply List.perm_middle.pairwise hl.disjoint
    intro x y h
    exact List.disjoint_comm.mp h
  exact List.pairwise_cons.mp h

theorem forall_mem_middle {c : Bytes × List ℕ} {before after : List (Bytes × List ℕ)}
    {p : Bytes × List ℕ → Prop} :
    (∀ x ∈ before ++ c::after, p x) ↔ p c ∧ ∀ x ∈ before ++ after, p x := by
  rw [← List.forall_mem_cons]
  apply forall_congr'
  intro x
  rw [List.perm_middle.mem_iff]

/-- The nodes of the other lists stay as they are. -/
theorem Lists.link_same {top : ℕ} {c : Bytes × List ℕ} {before after : List (Bytes × List ℕ)}
    (hl : Lists m (before ++ c::after)) (htop : c.2.head? = some top) (val : Bytes) :
    ∀ x ∈ before ++ after, ∀ a ∈ x.2, TailList.link m.node top m.fresh val a = m.node a := by
  obtain ⟨hlisted,-⟩ := forall_mem_middle.mp hl.listed
  obtain ⟨hold,holds⟩ := forall_mem_middle.mp hl.old
  have hmem : top ∈ c.2 := List.mem_of_mem_head? htop
  have hlast : (m.node top).last ∈ c.2 := List.mem_of_getLast? (hlisted.last top htop)
  intro x hx a ha
  apply TailList.link_of_ne (hold top hmem).ne (holds x hx a ha).ne
  · rintro rfl
    exact hl.apart.1 x hx hmem ha
  · rintro rfl
    exact hl.apart.1 x hx hlast ha

/-- A value for a name that the map has goes behind the last one. -/
theorem Lists.link {top : ℕ} {c : Bytes × List ℕ} {before after : List (Bytes × List ℕ)}
    (hl : Lists m (before ++ c::after)) (htop : c.2.head? = some top) (val : Bytes) :
    Lists { m with node := link m.node top m.fresh val, fresh := m.fresh+1 }
      (before ++ (c.1,c.2 ++ [m.fresh])::after) := by
  obtain ⟨hlisted,hlisteds⟩ := forall_mem_middle.mp hl.listed
  obtain ⟨hold,holds⟩ := forall_mem_middle.mp hl.old
  obtain ⟨hapart,hrest⟩ := hl.apart
  have hfresh : m.fresh ∉ c.2 := fun h => (hold _ h).false
  refine ⟨?_,forall_mem_middle.mpr ⟨hlisted.link htop hfresh,?_⟩,?_,forall_mem_middle.mpr ⟨?_,?_⟩⟩
  · refine hl.entries.trans ?_
    simp [htop]
  · intro x hx
    exact (hlisteds x hx).frame (hl.link_same htop val x hx)
  · refine List.perm_middle.symm.pairwise (List.pairwise_cons.mpr ⟨?_,hrest⟩) fun h => List.disjoint_comm.mp h
    intro x hx
    refine List.disjoint_append_left.mpr ⟨hapart x hx,?_⟩
    intro a ha ha'
    obtain rfl := List.mem_singleton.mp ha
    exact (holds x hx _ ha').false
  · intro a ha
    obtain ha | ha := List.mem_append.mp ha
    · exact (hold a ha).trans (Nat.lt_succ_self _)
    · obtain rfl := List.mem_singleton.mp ha
      exact Nat.lt_succ_self _
  · intro x hx a ha
    exact (holds x hx a ha).trans (Nat.lt_succ_self _)

theorem Lists.contents_link {top : ℕ} {c : Bytes × List ℕ} {before after : List (Bytes × List ℕ)}
    (hl : Lists m (before ++ c::after)) (htop : c.2.head? = some top) (val : Bytes) :
    contents (TailList.link m.node top m.fresh val) (before ++ (c.1,c.2 ++ [m.fresh])::after) =
      contents m.node before ++
        (c.1,(c.2.map fun a => (m.node a).data) ++ [val])::contents m.node after := by
  obtain ⟨hold,-⟩ := forall_mem_middle.mp hl.old
  have htf : top ≠ m.fresh := (hold top (List.mem_of_mem_head? htop)).ne
  have hsame := hl.link_same htop val
  have hself : (c.2.map fun a => (TailList.link m.node top m.fresh val a).data) =
      c.2.map fun a => (m.node a).data := by
    apply List.map_congr_left
    intro a ha
    exact TailList.link_data htf (hold a ha).ne
  have hbefore : contents (TailList.link m.node top m.fresh val) before = contents m.node before := by
    apply contents_congr
    intro x hx a ha
    rw [hsame x (List.mem_append_left _ hx) a ha]
  have hafter : contents (TailList.link m.node top m.fresh val) after = contents m.node after := by
    apply contents_congr
    intro x hx a ha
    rw [hsame x (List.mem_append_right _ hx) a ha]
  rw [← hbefore,← hafter,← hself,contents,List.map_append,List.map_cons,List.map_append,List.map_singleton,
    TailList.link_data_self htf]
  rfl

theorem contents_create (hl : Lists m cells) (key val : Bytes) :
    contents (TailList.create m.node m.fresh val) (cells ++ [(key,[m.fresh])]) =
      contents m.node cells ++ [(key,[val])] := by
  have hcells : contents (TailList.create m.node m.fresh val) cells = contents m.node cells := by
    apply contents_congr
    intro c hc a ha
    rw [TailList.create_of_ne (hl.old c hc a ha).ne]
  rw [← hcells]
  simp [contents]

/-- `Set` on the lists does what it does on the form. -/
theorem Refines.set (hr : Refines m form) (key val : Bytes) : Refines (m.set key val) (form.set key val) := by
  obtain ⟨cells,hl,hform⟩ := hr
  cases hfind : m.entries.find? fun e => SameName e.1 (cstr key) with
  | none =>
    have hset : m.set key val =
        ⟨TailList.create m.node m.fresh val,m.fresh+1,m.entries ++ [(cstr key,m.fresh)]⟩ := by
      rw [FormHeap.set,hfind]
    have hnew : ∀ c ∈ cells, ¬SameName c.1 (cstr key) := by
      intro c hc
      have hmem : (c.1,c.2.head?) ∈ m.entries.map fun e => (e.1,some e.2) := by
        rw [hl.entries]
        exact List.mem_map_of_mem hc
      obtain ⟨e,he,heq⟩ := List.mem_map.mp hmem
      rw [← (Prod.ext_iff.mp heq).1]
      simpa using List.find?_eq_none.mp hfind e he
    refine ⟨cells ++ [(cstr key,[m.fresh])],?_,?_⟩
    · rw [hset]
      exact hl.create (cstr key) val
    · rw [hset,contents_create hl,hform]
      refine (FormMap.insert_new ?_).symm
      rw [← hform]
      exact mem_contents hnew
  | some top =>
    have hset : m.set key val =
        { m with node := TailList.link m.node top.2 m.fresh val, fresh := m.fresh+1 } := by
      rw [FormHeap.set,hfind]
    obtain ⟨hname,first,last,hsplit,hfirst⟩ := List.find?_eq_some_iff_append.mp hfind
    have hcells := hl.entries
    rw [hsplit,List.map_append] at hcells
    obtain ⟨before,rest,rfl,hbefore,hrest⟩ := List.map_eq_append_iff.mp hcells.symm
    obtain ⟨c,after,rfl,hc,-⟩ := List.map_eq_cons_iff.mp hrest
    obtain ⟨hkey,hhead⟩ := Prod.ext_iff.mp hc
    have hnew : ∀ c ∈ before, ¬SameName c.1 (cstr key) := by
      intro x hx
      have hmem : (x.1,x.2.head?) ∈ first.map fun e => (e.1,some e.2) := by
        rw [← hbefore]
        exact List.mem_map_of_mem hx
      obtain ⟨e,he,heq⟩ := List.mem_map.mp hmem
      rw [← (Prod.ext_iff.mp heq).1]
      simpa using hfirst e he
    refine ⟨before ++ (c.1,c.2 ++ [m.fresh])::after,?_,?_⟩
    · rw [hset]
      exact hl.link hhead val
    · have hentries : form.entries = contents m.node before ++
          (c.1,c.2.map fun a => (m.node a).data)::contents m.node after := by
        rw [← hform,contents,List.map_append]
        rfl
      rw [hset,hl.contents_link hhead]
      change _ = FormMap.insert (cstr key) val form.entries
      rw [hentries]
      refine (FormMap.insert_found _ _ (mem_contents hnew) ?_).symm
      rw [hkey]
      simpa using hname

theorem refines_empty : Refines empty FormMap.empty :=
  ⟨[],⟨rfl,nofun,List.Pairwise.nil,nofun⟩,rfl⟩

theorem Refines.setAll (hr : Refines m form) (pairs : List (Bytes × Bytes)) :
    Refines (m.setAll pairs) (form.setAll pairs) := by
  induction pairs generalizing m form with
  | nil => exact hr
  | cons pair pairs ih => exact ih (hr.set pair.1 pair.2)

/-- What a list of the map holds, as its name and its values. -/
def Entry (node : ℕ → Node Bytes) (e : Bytes × ℕ) (f : Bytes × List Bytes) : Prop :=
  e.1 = f.1 ∧ ∃ as, Chain node (some e.2) as ∧ (as.map fun a => (node a).data) = f.2

theorem entries_forall₂ {node : ℕ → Node Bytes} {entries : List (Bytes × ℕ)}
    (hentries : entries.map (fun e => (e.1,some e.2)) = cells.map fun c => (c.1,c.2.head?))
    (hlisted : ∀ c ∈ cells, Listed node c.2) : List.Forall₂ (Entry node) entries (contents node cells) := by
  induction cells generalizing entries with
  | nil =>
    rw [List.map_eq_nil_iff.mp hentries]
    exact List.Forall₂.nil
  | cons c cells ih =>
    obtain ⟨hc,hcells⟩ := List.forall_mem_cons.mp hlisted
    obtain ⟨e,entries,rfl,he,hrest⟩ := List.map_eq_cons_iff.mp hentries
    obtain ⟨hname,hhead⟩ := Prod.ext_iff.mp he
    refine List.Forall₂.cons ⟨hname,c.2,?_,rfl⟩ (ih hrest hcells)
    dsimp only at hhead
    rw [hhead]
    exact hc.chain

theorem Refines.forall₂ (hr : Refines m form) : List.Forall₂ (Entry m.node) m.entries form.entries := by
  obtain ⟨cells,hl,hform⟩ := hr
  rw [← hform]
  exact entries_forall₂ hl.entries hl.listed

end FormHeap

end Smx
