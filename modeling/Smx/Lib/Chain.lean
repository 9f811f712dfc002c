import Smx.Lib.ParentChain
import Mathlib.Data.List.Perm.Subperm

/-! Chains of nodes in memory: which nodes are allocated, the pointer that each holds, and the loops
that go along the pointers. Reading or writing a node that is not allocated is a fault. A walk that
takes more steps than there are nodes has met one twice and does not end. -/
namespace Chain
open ParentChain
variable {κ : Type} [DecidableEq κ]

structure Mem (κ : Type) where
  live : List κ
  next : κ → Option κ

/-- `p->next` -/
def Mem.get (m : Mem κ) (p : κ) : Option (Option κ) := if p ∈ m.live then some (m.next p) else none

/-- The memory after `p->next = v`. -/
def Mem.put (m : Mem κ) (p : κ) (v : Option κ) : Mem κ := ⟨m.live,Function.update m.next p v⟩

/-- `p->next = v` -/
def Mem.set (m : Mem κ) (p : κ) (v : Option κ) : Option (Mem κ) := if p ∈ m.live then some (m.put p v) else none

/-- From `s` on hang the nodes `cs`, all of them allocated. -/
def Mem.Holds (m : Mem κ) (s : Option κ) (cs : List κ) : Prop := Path m.next s cs ∧ ∀ c ∈ cs, c ∈ m.live

/-- `for (; p; p = p->next) if (test(p)) return p;` -/
def find (m : Mem κ) (test : κ → Bool) : ℕ → Option κ → Option (Option κ)
  | _,none => some none
  | 0,some _ => none
  | fuel+1,some c => (m.get c).bind fun nx => if test c then some (some c) else find m test fuel nx

/-- `for (; p; p = p->next) { if (!ok(p)) return 0; n++; }`, where `none` is that return. -/
def count (m : Mem κ) (ok : κ → Bool) : ℕ → Option κ → ℕ → Option (Option ℕ)
  | _,none,n => some (some n)
  | 0,some _,_ => none
  | fuel+1,some c,n => (m.get c).bind fun nx => if ok c then count m ok fuel nx (n+1) else some none

/-- `while (p->next != node) p = p->next;` -/
def before (m : Mem κ) (node : κ) : ℕ → κ → Option κ
  | 0,_ => none
  | fuel+1,c => (m.get c).bind fun nx => if nx = some node then some c else nx.bind (before m node fuel)

/-- `while (p->next) p = p->next;` -/
def last (m : Mem κ) : ℕ → κ → Option κ
  | 0,_ => none
  | fuel+1,c => (m.get c).bind fun nx => nx.elim (some c) (last m fuel)

/-- The nodes from `p` on are put, one after the other, in front of one of two chains. -/
def split (hi : κ → Bool) : ℕ → Mem κ → Option κ → Option κ → Option κ → Option (Mem κ × Option κ × Option κ)
  | _,m,none,low,high => some (m,low,high)
  | 0,_,some _,_,_ => none
  | fuel+1,m,some c,low,high =>
    (m.get c).bind fun nx =>
      if hi c then (m.set c high).bind fun m' => split hi fuel m' nx low (some c)
      else (m.set c low).bind fun m' => split hi fuel m' nx (some c) high

section
variable {m m' : Mem κ} {s low high : Option κ} {c d : κ} {cs cs' ls hs : List κ} {test : κ → Bool} {fuel n : ℕ}

theorem Mem.get_of_mem (h : c ∈ m.live) : m.get c = some (m.next c) := if_pos h

theorem Mem.set_of_mem (h : c ∈ m.live) (v : Option κ) :
    m.set c v = some (m.put c v) := if_pos h

@[simp] theorem Mem.put_live (v : Option κ) : (m.put c v).live = m.live := rfl

theorem Mem.put_next_self (v : Option κ) : (m.put c v).next c = v := by
  simp [Mem.put]

theorem Mem.put_next_of_ne (h : d ≠ c) (v : Option κ) : (m.put c v).next d = m.next d := by
  simp [Mem.put,h]

namespace Mem.Holds

omit [DecidableEq κ] in
theorem nodup (h : m.Holds s cs) : cs.Nodup := h.1.nodup

omit [DecidableEq κ] in
/-- The number of allocated nodes bounds every walk. -/
theorem length_le (h : m.Holds s cs) : cs.length ≤ m.live.length :=
  (h.nodup.subperm h.2).length_le

omit [DecidableEq κ] in
@[simp] theorem nil_iff : m.Holds s [] ↔ s = none := by
  simp [Holds]

omit [DecidableEq κ] in
theorem cons_iff : m.Holds s (c::cs) ↔ s = some c ∧ c ∈ m.live ∧ m.Holds (m.next c) cs := by
  simp only [Holds,Path.cons_iff,List.forall_mem_cons]
  tauto

omit [DecidableEq κ] in
theorem congr (h : m.Holds s cs) (hlive : ∀ c ∈ cs, c ∈ m'.live) (hnext : ∀ c ∈ cs, m'.next c = m.next c) :
    m'.Holds s cs :=
  ⟨h.1.congr hnext,hlive⟩

omit [DecidableEq κ] in
/-- From a node in the middle hangs the rest of the chain. -/
theorem suffix {pre : List κ} (h : m.Holds s (pre ++ c::cs)) : m.Holds (some c) (c::cs) :=
  ⟨h.1.suffix,fun d hd => h.2 d (List.mem_append_right pre hd)⟩

/-- A node that is not on the chain is written to. -/
theorem set_of_not_mem (h : m.Holds s cs) (hc : c ∉ cs) (v : Option κ) :
    (m.put c v).Holds s cs :=
  ⟨h.1.update_of_not_mem hc v,h.2⟩

/-- A node is put in front of a chain. -/
theorem push (h : m.Holds s cs) (hc : c ∉ cs) (hlive : c ∈ m.live) :
    (m.put c s).Holds (some c) (c::cs) := by
  refine cons_iff.mpr ⟨rfl,hlive,?_⟩
  rw [Mem.put_next_self]
  exact h.set_of_not_mem hc s

/-- All that follows a node is replaced. -/
theorem redirect {pre post rest : List κ} {v : Option κ} (h : m.Holds s (pre ++ c::post))
    (hv : (m.put c v).Holds v rest) :
    (m.put c v).Holds s (pre ++ c::rest) := by
  refine ⟨h.1.redirect hv.1,fun d hd => ?_⟩
  rcases List.mem_append.mp hd with hpre | hd
  · exact h.2 d (List.mem_append_left _ hpre)
  · rcases List.mem_cons.mp hd with rfl | hrest
    · exact h.2 d (List.mem_append_right pre List.mem_cons_self)
    · exact hv.2 d hrest

end Mem.Holds

theorem find_eq (h : m.Holds s cs) (hfuel : cs.length ≤ fuel) : find m test fuel s = some (cs.find? test) := by
  induction cs generalizing s fuel with
  | nil =>
    rw [Mem.Holds.nil_iff.mp h]
    cases fuel <;> rfl
  | cons c cs ih =>
    obtain ⟨rfl,hc,hcs⟩ := Mem.Holds.cons_iff.mp h
    cases fuel with
    | zero => exact absurd hfuel (by simp)
    | succ fuel =>
      rw [find,Mem.get_of_mem hc,Option.bind_some,List.find?_cons]
      cases htest : test c with
      | true => rfl
      | false => exact ih hcs (Nat.le_of_succ_le_succ hfuel)

theorem count_eq (h : m.Holds s cs) (hfuel : cs.length ≤ fuel) (hok : ∀ c ∈ cs, test c = true) :
    count m test fuel s n = some (some (n+cs.length)) := by
  induction cs generalizing s fuel n with
  | nil =>
    rw [Mem.Holds.nil_iff.mp h]
    cases fuel <;> rfl
  | cons c cs ih =>
    obtain ⟨rfl,hc,hcs⟩ := Mem.Holds.cons_iff.mp h
    obtain ⟨hokc,hok⟩ := List.forall_mem_cons.mp hok
    cases fuel with
    | zero => exact absurd hfuel (by simp)
    | succ fuel =>
      rw [count,Mem.get_of_mem hc,Option.bind_some,if_pos hokc,
        ih hcs (Nat.le_of_succ_le_succ hfuel) hok,List.length_cons]
      congr 2
      omega

theorem before_eq {pre post : List κ} (h : m.Holds s (pre ++ c::d::post)) (hs : s = (pre ++ [c]).head?)
    (hfuel : pre.length < fuel) : s.bind (before m d fuel) = some c := by
  induction pre generalizing s fuel with
  | nil =>
    obtain ⟨rfl,hc,hcs⟩ := Mem.Holds.cons_iff.mp h
    obtain ⟨hd,-,-⟩ := Mem.Holds.cons_iff.mp hcs
    obtain ⟨fuel,rfl⟩ := Nat.exists_eq_add_one.mpr hfuel
    rw [Option.bind_some,before,Mem.get_of_mem hc,Option.bind_some,hd,if_pos rfl]
  | cons b pre ih =>
    obtain ⟨rfl,hb,hcs⟩ := Mem.Holds.cons_iff.mp h
    obtain ⟨fuel,rfl⟩ := Nat.exists_eq_add_one.mpr (Nat.zero_lt_of_lt hfuel)
    have hnext : m.next b = (pre ++ [c]).head? := by
      cases pre with
      | nil => exact (Mem.Holds.cons_iff.mp hcs).1
      | cons a pre => exact (Mem.Holds.cons_iff.mp hcs).1
    have hne : m.next b ≠ some d := by
      -- `d` stands further behind, and no node stands on the chain twice
      intro hd
      have hnd := hcs.nodup
      cases pre with
      | nil =>
        obtain rfl : c = d := by simpa [hnext] using hd
        simp at hnd
      | cons a pre =>
        obtain rfl : a = d := by simpa [hnext] using hd
        simp at hnd
    rw [Option.bind_some,before,Mem.get_of_mem hb,Option.bind_some,if_neg hne]
    exact ih hcs hnext (Nat.lt_of_succ_lt_succ hfuel)

theorem last_eq {pre : List κ} (h : m.Holds (some d) (pre ++ [c])) (hfuel : pre.length < fuel) :
    last m fuel d = some c := by
  induction pre generalizing d fuel with
  | nil =>
    obtain ⟨hd,hc,hcs⟩ := Mem.Holds.cons_iff.mp h
    obtain rfl := Option.some.inj hd
    obtain ⟨fuel,rfl⟩ := Nat.exists_eq_add_one.mpr hfuel
    rw [last,Mem.get_of_mem hc,Option.bind_some,Mem.Holds.nil_iff.mp hcs]
    rfl
  | cons b pre ih =>
    obtain ⟨hd,hb,hcs⟩ := Mem.Holds.cons_iff.mp h
    obtain rfl := Option.some.inj hd
    obtain ⟨fuel,rfl⟩ := Nat.exists_eq_add_one.mpr (Nat.zero_lt_of_lt hfuel)
    obtain ⟨a,ha⟩ : ∃ a, m.next d = some a := by
      cases pre with
      | nil => exact ⟨c,(Mem.Holds.cons_iff.mp hcs).1⟩
      | cons a pre => exact ⟨a,(Mem.Holds.cons_iff.mp hcs).1⟩
    rw [ha] at hcs
    rw [last,Mem.get_of_mem hb,Option.bind_some,ha]
    exact ih hcs (Nat.lt_of_succ_lt_succ hfuel)

/-- What `split` makes of three chains that have no node in common. -/
theorem split_spec (hi : κ → Bool) (h : m.Holds s cs) (hlow : m.Holds low ls) (hhigh : m.Holds high hs)
    (hcl : cs.Disjoint ls) (hch : cs.Disjoint hs) (hlh : ls.Disjoint hs) (hfuel : cs.length ≤ fuel) :
    ∃ m' low' high', split hi fuel m s low high = some (m',low',high') ∧ m'.live = m.live ∧
      (∀ d ∉ cs, m'.next d = m.next d) ∧
      m'.Holds low' ((cs.filter fun c => !hi c).reverse ++ ls) ∧ m'.Holds high' ((cs.filter hi).reverse ++ hs) := by
  induction cs generalizing m s low high ls hs fuel with
  | nil =>
    refine ⟨m,low,high,?_,rfl,fun _ _ => rfl,by simpa using hlow,by simpa using hhigh⟩
    rw [Mem.Holds.nil_iff.mp h]
    cases fuel <;> rfl
  | cons c cs ih =>
    obtain ⟨rfl,hc,hcs⟩ := Mem.Holds.cons_iff.mp h
    obtain ⟨hccs,-⟩ := List.nodup_cons.mp h.nodup
    obtain ⟨hcls,hcl⟩ := List.disjoint_cons_left.mp hcl
    obtain ⟨hchs,hch⟩ := List.disjoint_cons_left.mp hch
    cases fuel with
    | zero => exact absurd hfuel (by simp)
    | succ fuel =>
      have hfuel := Nat.le_of_succ_le_succ hfuel
      cases hhi : hi c with
      | true =>
        obtain ⟨m',low',high',hrun,hlive,hsame,hl,hh⟩ := ih (hcs.set_of_not_mem hccs high)
          (hlow.set_of_not_mem hcls high) (hhigh.push hchs hc) hcl
          (List.disjoint_cons_right.mpr ⟨hccs,hch⟩) (List.disjoint_cons_right.mpr ⟨hcls,hlh⟩) hfuel
        refine ⟨m',low',high',?_,hlive,fun d hd => ?_,by simpa [hhi] using hl,by simpa [hhi] using hh⟩
        · rw [split,Mem.get_of_mem hc,Option.bind_some,if_pos hhi,Mem.set_of_mem hc,Option.bind_some,hrun]
        · obtain ⟨hdc,hd⟩ := not_or.mp (mt List.mem_cons.mpr hd)
          rw [hsame d hd,Mem.put_next_of_ne hdc]
      | false =>
        obtain ⟨m',low',high',hrun,hlive,hsame,hl,hh⟩ := ih (hcs.set_of_not_mem hccs low)
          (hlow.push hcls hc) (hhigh.set_of_not_mem hchs low) (List.disjoint_cons_right.mpr ⟨hccs,hcl⟩)
          hch (List.disjoint_cons_left.mpr ⟨hchs,hlh⟩) hfuel
        refine ⟨m',low',high',?_,hlive,fun d hd => ?_,by simpa [hhi] using hl,by simpa [hhi] using hh⟩
        · rw [split,Mem.get_of_mem hc,Option.bind_some,hhi,if_neg Bool.false_ne_true,Mem.set_of_mem hc,
            Option.bind_some,hrun]
        · obtain ⟨hdc,hd⟩ := not_or.mp (mt List.mem_cons.mpr hd)
          rw [hsame d hd,Mem.put_next_of_ne hdc]

/-- `last->next = high` hangs one chain behind the other. -/
theorem Mem.Holds.append {pre : List κ} (h : m.Holds s (pre ++ [c])) (hhigh : m.Holds high hs)
    (hdisj : (pre ++ [c]).Disjoint hs) :
    (m.put c high).Holds s ((pre ++ [c]) ++ hs) := by
  have hc : c ∉ hs := fun hc => hdisj (List.mem_append_right pre List.mem_cons_self) hc
  rw [List.append_assoc]
  exact h.redirect (hhigh.set_of_not_mem hc high)

/-- `pred->next = node->next` takes `node` off the chain. -/
theorem Mem.Holds.unlink {pre post : List κ} (h : m.Holds s (pre ++ c::d::post)) :
    (m.put c (m.next d)).Holds s (pre ++ c::post) := by
  have hrest := (Mem.Holds.cons_iff.mp h.suffix).2.2
  have hpost := (Mem.Holds.cons_iff.mp hrest).2.2
  have hc : c ∉ post := fun hc => (List.nodup_cons.mp h.suffix.nodup).1 (List.mem_cons_of_mem d hc)
  exact h.redirect (hpost.set_of_not_mem hc _)

end

end Chain
