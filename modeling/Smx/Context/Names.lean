import Smx.Context.Bindings

/-! Names whose first character means something. Leading colons pop contexts: `FindC` counts
definitions outward, and when it finds none the lookup goes on as if the colons were part of
the name. A leading `<` marks internal objects. -/
namespace Smx
variable {κ ο : Type}

/-- The walk reports the last of the definitions it was allowed to count. -/
theorem popWalk_hit (T : Scopes κ ο) (p : Bytes) (cs : List κ) (pop : ℕ) (hit : Option (ο × κ))
    (first : Option κ) :
    (popWalk T p cs pop hit first).hit = ((definitions T p cs).take pop).getLast?.or hit := by
  induction cs generalizing pop hit first with
  | nil => simp [popWalk]
  | cons c cs ih =>
    cases pop with
    | zero => simp [popWalk]
    | succ pop =>
      cases hf : T.findL c p with
      | none => simp only [popWalk,hf,ih,definitions_cons_none hf]
      | some obj =>
        simp only [popWalk,hf,ih,definitions_cons_some hf,List.take_succ_cons]
        cases (definitions T p cs).take pop <;> simp [List.getLast?_cons]

theorem popWalk_first (T : Scopes κ ο) (p : Bytes) (cs : List κ) (pop : ℕ) (hit : Option (ο × κ))
    (first : Option κ) :
    (popWalk T p cs pop hit first).first =
      first.or (((definitions T p cs).take pop).head?.map Prod.snd) := by
  induction cs generalizing pop hit first with
  | nil => simp [popWalk]
  | cons c cs ih =>
    cases pop with
    | zero => simp [popWalk]
    | succ pop =>
      cases hf : T.findL c p with
      | none => simp only [popWalk,hf,ih,definitions_cons_none hf]
      | some obj =>
        simp only [popWalk,hf,ih,definitions_cons_some hf,List.take_succ_cons]
        cases first <;> simp

/-- Every definition the walk counted lies behind the point where it stopped. -/
theorem popWalk_ctx (T : Scopes κ ο) (p : Bytes) (cs : List κ) (pop : ℕ) (hit : Option (ο × κ))
    (first : Option κ) :
    ∃ pre, cs = pre ++ (popWalk T p cs pop hit first).ctx ∧
      ∀ r ∈ (definitions T p cs).take pop, r.2 ∈ pre := by
  induction cs generalizing pop hit first with
  | nil => exact ⟨[],by simp [popWalk]⟩
  | cons c cs ih =>
    cases pop with
    | zero => exact ⟨[],by simp [popWalk]⟩
    | succ pop =>
      cases hf : T.findL c p with
      | none =>
        obtain ⟨pre,hpre,hmem⟩ := ih (pop+1) hit first
        refine ⟨c::pre,by simpa [popWalk,hf] using hpre,?_⟩
        rw [definitions_cons_none hf]
        exact fun r hr => List.mem_cons_of_mem _ (hmem r hr)
      | some obj =>
        obtain ⟨pre,hpre,hmem⟩ := ih pop (some (obj,c)) (first.or (some c))
        refine ⟨c::pre,by simpa [popWalk,hf] using hpre,?_⟩
        rw [definitions_cons_some hf,List.take_succ_cons]
        intro r hr
        rcases List.mem_cons.mp hr with rfl | hr
        · exact List.mem_cons_self
        · exact List.mem_cons_of_mem _ (hmem r hr)

variable [DecidableEq κ]

/-- What a lookup finds is bound somewhere. -/
theorem exists_findL_of_find {T : Scopes κ ο} {name : Bytes} {top : Option κ} {cs : List κ} {r : ο × κ}
    (h : find T name top cs = some r) : ∃ p, T.findL r.2 p = some r.1 := by
  induction cs with
  | nil => cases h
  | cons this up ih =>
    simp only [find] at h
    cases hc : findC T name top (this::up) with
    | some s =>
      rw [hc] at h
      obtain rfl := Option.some.inj h
      simp only [findC] at hc
      split_ifs at hc
      rw [popWalk_hit,Option.or_none] at hc
      have hmem := List.mem_of_mem_take (List.mem_of_getLast? hc)
      obtain ⟨c,-,hfound⟩ := List.mem_filterMap.mp hmem
      obtain ⟨obj,hobj,rfl⟩ := Option.map_eq_some_iff.mp hfound
      exact ⟨_,hobj⟩
    | none =>
      rw [hc] at h
      cases hl : T.findL this name with
      | some obj =>
        rw [hl] at h
        obtain rfl := Option.some.inj h
        exact ⟨name,hl⟩
      | none =>
        rw [hl] at h
        simp only at h
        split_ifs at h
        exact ih h

/-- On a chain without repetition the test `first != ctx` never rejects a hit. -/
theorem popWalk_accepts (T : Scopes κ ο) (p : Bytes) {cs : List κ} (hcs : cs.Nodup) (pop : ℕ) :
    (if (popWalk T p cs pop none none).first ≠ (popWalk T p cs pop none none).ctx.head? then
      (popWalk T p cs pop none none).hit else none) = ((definitions T p cs).take pop).getLast? := by
  have hhit := popWalk_hit T p cs pop none none
  have hfirst := popWalk_first T p cs pop none none
  obtain ⟨pre,hpre,hmem⟩ := popWalk_ctx T p cs pop none none
  generalize popWalk T p cs pop none none = r at *
  rw [Option.or_none] at hhit
  rw [Option.none_or] at hfirst
  cases hd : (definitions T p cs).take pop with
  | nil => simp [hhit,hd]
  | cons d ds =>
    rw [hd] at hfirst hhit
    have hd' : d.2 ∈ pre := hmem d (by simp [hd])
    have hne : r.first ≠ r.ctx.head? := by
      rw [hfirst]
      intro he
      have hr : d.2 ∈ r.ctx := List.mem_of_mem_head? he.symm
      exact (List.nodup_append.mp (hpre ▸ hcs)).2.2 _ hd' _ hr rfl
    rw [if_pos hne,hhit]

def colons (k : ℕ) : Bytes := List.replicate k (ch ':')

theorem takeWhile_colons (k : ℕ) {n : Bytes} (hn : n.head? ≠ some (ch ':')) :
    (colons k ++ n).takeWhile isColon = colons k ∧ (colons k ++ n).dropWhile isColon = n := by
  induction k with
  | zero =>
    cases n with
    | nil => simp [colons]
    | cons c n =>
      have hc : c ≠ ch ':' := by simpa using hn
      simp [colons,isColon,hc]
  | succ k ih =>
    have h : colons (k+1) ++ n = ch ':'::(colons k ++ n) := rfl
    rw [h]
    simp only [List.takeWhile_cons,List.dropWhile_cons,isColon,beq_self_eq_true,if_true]
    exact ⟨by rw [ih.1]; rfl,ih.2⟩

/-- Outside safe mode `k` colons select the last of the first `k+1` definitions. -/
theorem findC_colons (T : Scopes κ ο) {n : Bytes} (hn : n.head? ≠ some (ch ':')) {k : ℕ} (hk : 1 ≤ k)
    {this : κ} {up : List κ} (hsafe : T.safeMode this = false) (hcs : (this::up).Nodup) :
    findC T (colons k ++ n) none (this::up) =
      ((definitions T n (this::up)).take (k+1)).getLast? := by
  obtain ⟨ht,hd⟩ := takeWhile_colons k hn
  have hhead : (colons k ++ n).head? = some (ch ':') := by
    obtain ⟨j,rfl⟩ : ∃ j, k = j+1 := ⟨k-1,by omega⟩
    rfl
  have hlt : (ch ':' = ch '<') = False := by simp; decide
  have hlen : (colons k).length = k := by simp [colons]
  simp only [findC,hhead,Option.some.injEq,hlt,false_and,if_false,hsafe,ht,hd,hlen]
  simpa using popWalk_accepts T n hcs (k+1)

omit [DecidableEq κ] in
theorem getLast?_take_succ {α : Type} (l : List α) (k : ℕ) :
    (l.take (k+1)).getLast? = l[min k (l.length-1)]? := by
  rw [List.getLast?_eq_getElem?,List.length_take,List.getElem?_take]
  cases l with
  | nil => simp
  | cons a l =>
    have hmin : min (k+1) (a::l).length - 1 = min k ((a::l).length-1) := by
      rw [List.length_cons]
      omega
    have hlt : min k ((a::l).length-1) < k+1 := by omega
    rw [hmin,if_pos hlt]

/-- The lookup of a popped name: the walk decides as long as the plain name is bound. -/
theorem find_colons (T : Scopes κ ο) {n : Bytes} (hn : n.head? ≠ some (ch ':')) {k : ℕ} (hk : 1 ≤ k)
    {cs : List κ} (hsafe : ∀ c ∈ cs, T.safeMode c = false) (hcs : cs.Nodup) :
    find T (colons k ++ n) none cs =
      (definitions T n cs)[min k ((definitions T n cs).length-1)]?.or
        (definitions T (colons k ++ n) cs).head? := by
  induction cs with
  | nil => rfl
  | cons this up ih =>
    have hthis := findC_colons T hn hk (hsafe this List.mem_cons_self) hcs
    rw [getLast?_take_succ] at hthis
    simp only [find,hthis]
    cases hd : (definitions T n (this::up))[min k ((definitions T n (this::up)).length-1)]? with
    | some r => simp
    | none =>
      have hnil : definitions T n (this::up) = [] := by
        rw [List.getElem?_eq_none_iff] at hd
        have := Nat.min_le_right k ((definitions T n (this::up)).length-1)
        exact List.eq_nil_of_length_eq_zero (by omega)
      have hup : definitions T n up = [] := by
        rw [definitions_eq_nil_iff] at hnil ⊢
        exact fun c hc => hnil c (List.mem_cons_of_mem _ hc)
      have ih := ih (fun c hc => hsafe c (List.mem_cons_of_mem _ hc)) (List.nodup_cons.mp hcs).2
      rw [hup] at ih
      simp only [reduceCtorEq,if_false,Option.none_or]
      cases hf : T.findL this (colons k ++ n) with
      | some obj => simp [definitions_cons_some hf]
      | none => simpa [definitions_cons_none hf] using ih

/-- Context popping: with `k` colons the `(k+1)`-th definition counted outward, or the
outermost one. Only when there is none are bindings of the whole text, colons included,
looked at, the nearest first. -/
theorem find_popped (T : Scopes κ ο) {n : Bytes} (hn : n.head? ≠ some (ch ':')) {k : ℕ} (hk : 1 ≤ k)
    {cs : List κ} (hsafe : ∀ c ∈ cs, T.safeMode c = false) (hcs : cs.Nodup) :
    (definitions T n cs ≠ [] →
      ∃ r ∈ definitions T n cs, find T (colons k ++ n) none cs = some r ∧
        (definitions T n cs)[min k ((definitions T n cs).length-1)]? = some r) ∧
    (definitions T n cs = [] →
      find T (colons k ++ n) none cs = (definitions T (colons k ++ n) cs).head?) ∧
    (find T (colons k ++ n) none cs = none ↔
      ∀ c ∈ cs, T.findL c n = none ∧ T.findL c (colons k ++ n) = none) := by
  have hfind := find_colons T hn hk hsafe hcs
  refine ⟨fun hne => ?_,fun hnil => ?_,?_⟩
  · have hlen := List.length_pos_iff.mpr hne
    have hlt : min k ((definitions T n cs).length-1) < (definitions T n cs).length := by omega
    refine ⟨_,List.getElem_mem hlt,?_,List.getElem?_eq_getElem hlt⟩
    rw [hfind,List.getElem?_eq_getElem hlt,Option.some_or]
  · simpa [hnil] using hfind
  · rw [hfind,Option.or_eq_none_iff,List.getElem?_eq_none_iff,List.head?_eq_none_iff,
      definitions_eq_nil_iff]
    have hnil : (definitions T n cs).length ≤ min k ((definitions T n cs).length-1) ↔
        definitions T n cs = [] := by
      rw [← List.length_eq_zero_iff]
      omega
    rw [hnil,definitions_eq_nil_iff]
    exact ⟨fun h c hc => ⟨h.1 c hc,h.2 c hc⟩,fun h => ⟨fun c hc => (h c hc).1,fun c hc => (h c hc).2⟩⟩

/-- Three contexts that all define `x`; the current one is 0. -/
def nested : Scopes ℕ ℕ :=
  plain (fun c key => if key = str "x" ∧ c < 3 then some c else none) fun _ => false

theorem find_popped_nested :
    definitions nested (str "x") [0,1,2] ≠ [] ∧
      ∃ r ∈ definitions nested (str "x") [0,1,2],
        find nested (colons 1 ++ str "x") none [0,1,2] = some r :=
  have hx : (str "x").head? ≠ some (ch ':') := by decide
  have hcs : [0,1,2].Nodup := by decide
  have h := find_popped nested hx (le_refl 1) (fun _ _ => rfl) hcs
  have hne : definitions nested (str "x") [0,1,2] ≠ [] := by decide
  ⟨hne,(h.1 hne).imp fun _ hr => ⟨hr.1,hr.2.1⟩⟩

/-- A context where a script did `%set(:x,5)`: it binds no `x`, yet `%:x%` is found. -/
def literalColon : Bindings ℕ Bytes := mapObj (fun _ _ => none) 0 (str "5") (str ":x")

theorem find_popped_literal : ¬ ∀ (m : Bindings ℕ Bytes) (n : Bytes) (k : ℕ) (cs : List ℕ),
    n.head? ≠ some (ch ':') → 1 ≤ k → cs.Nodup →
      (find (plain m fun _ => false) (colons k ++ n) none cs = none ↔
        ∀ c ∈ cs, (plain m fun _ => false).findL c n = none) := by
  intro h
  have h1 := (h literalColon (str "x") 1 [0] (by decide) (le_refl 1) (by decide)).mpr (by decide)
  exact absurd h1 (by decide)

/-- In safe mode a name starting with `<` is hidden exactly when no context that the search
reads binds it: `FindC` refuses such a name, and the search goes on regardless. -/
theorem find_internal_eq_none_iff (T : Scopes κ ο) {name : Bytes} (hname : name.head? = some (ch '<'))
    {cs : List κ} (_hsafe : ∀ c ∈ cs, T.safeMode c = true) (top : Option κ) :
    find T name top cs = none ↔ ∀ c ∈ searched top cs, T.findL c name = none := by
  have hcolon : name.head? ≠ some (ch ':') := by
    rw [hname]
    decide
  exact find_eq_none_iff T hcolon top cs

/-- The handle a module is filed under, bound in the root of a chain in safe mode. -/
def safeChain : Scopes ℕ ℕ :=
  plain (fun c key => if key = str "<lib.smx>" ∧ c = 1 then some 7 else none) fun _ => true

theorem find_internal_hidden_below :
    find safeChain (str "<lib.smx>") (some 0) [0,1] = none :=
  have hname : (str "<lib.smx>").head? = some (ch '<') := by decide
  have hsafe : ∀ c ∈ [0,1], safeChain.safeMode c = true := fun _ _ => rfl
  (find_internal_eq_none_iff safeChain hname hsafe (some 0)).mpr (by decide)

theorem find_internal_visible : ¬ ∀ (T : Scopes ℕ ℕ) (name : Bytes) (cs : List ℕ) (top : Option ℕ),
    (∀ c ∈ cs, T.safeMode c = true) → name.head? = some (ch '<') → find T name top cs = none := by
  intro h
  exact absurd (h safeChain (str "<lib.smx>") [0,1] none (fun _ _ => rfl) (by decide)) (by decide)

end Smx
