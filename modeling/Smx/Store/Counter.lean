import Smx.Base.Number
import Smx.Lib.Clients
import Smx.Lib.LittleEndian
import Smx.Store.HSet

/-! `qObjHCtx::Counter`: a number kept in the shared store, read and written in two operations. -/
namespace Smx
open Clients Clients.Sys LittleEndian

/-- `(char *) &val` with `sizeof(val)` bytes. -/
def intBytes (val : ℤ) : Bytes := toLE 4 (val % 2^32).toNat

/-- `*((int*)was.Data())`. -/
def readInt (was : Bytes) : ℤ := signed 32 (ofLE (was.take 4))

/-- `Get`: a missing key is an empty string. -/
def gotten (was : Option Bytes) : Bytes := was.getD []

/-- The store's key for a counter. -/
def counterKey (name : Bytes) : Bytes := keyClean (str "/counters/" ++ name)

/-- `Counter`; a store operation does not throw. -/
def counter : List Bytes → Prog Bytes Bytes Bytes
  | [] => .done []
  | name::args =>
    if name = [] then .done []
    else
      let var := counterKey name
      match args with
      | [] => .get var fun was =>
        let val := if gotten was = [] then 1 else int32 (readInt (gotten was)+1)
        .set var (intBytes val) (.done (itoa val))
      | arg::_ =>
        let val := atoi arg
        if val = 0 then .del var (.done [])
        else if val = -1 then .get var fun was =>
          .done (itoa (if gotten was = [] then 1 else readInt (gotten was)))
        else .set var (intBytes val) (.done (itoa val))

/-- The number that is stored; a counter starts at 0. -/
def stored (was : Option Bytes) : ℤ := if gotten was = [] then 0 else readInt (gotten was)

theorem readInt_mem (was : Bytes) : -2^31 ≤ readInt was ∧ readInt was < 2^31 := by
  have hlt : ofLE (was.take 4) < 2^32 := calc
    ofLE (was.take 4) < 256^(was.take 4).length := ofLE_lt _
    _ ≤ 256^4 := Nat.pow_le_pow_right (by decide) (List.length_take_le 4 was)
  unfold readInt signed
  split_ifs <;> omega

theorem stored_mem (was : Option Bytes) : -2^31 ≤ stored was ∧ stored was < 2^31 := by
  unfold stored
  split_ifs
  · decide
  · exact readInt_mem _

theorem readInt_intBytes {val : ℤ} (h : -2^31 ≤ val ∧ val < 2^31) : readInt (intBytes val) = val := by
  have hlt : (val % 2^32).toNat < 256^4 := by omega
  have htake : (intBytes val).take 4 = intBytes val := List.take_of_length_le (by simp [intBytes])
  rw [readInt,htake,intBytes,ofLE_toLE_of_lt hlt]
  unfold signed
  split_ifs <;> omega

theorem stored_intBytes {val : ℤ} (h : -2^31 ≤ val ∧ val < 2^31) :
    stored (some (intBytes val)) = val := by
  have hne : gotten (some (intBytes val)) ≠ [] := List.cons_ne_nil _ _
  rw [stored,if_neg hne]
  exact readInt_intBytes h

/-- A call with one argument reads the number and writes the next one. -/
theorem counter_single {name : Bytes} (h : name ≠ []) :
    counter [name] = .get (counterKey name) fun was =>
      .set (counterKey name) (intBytes (int32 (stored was+1)))
        (.done (itoa (int32 (stored was+1)))) := by
  have hval (was : Option Bytes) :
      (if gotten was = [] then 1 else int32 (readInt (gotten was)+1)) = int32 (stored was+1) := by
    unfold stored
    split_ifs
    · rfl
    · rfl
  simp only [counter,if_neg h,hval]

section
variable {ι : Type}

/-- Every client calls the counter. -/
def calling (name : Bytes) (store : Bytes → Option Bytes) : Sys ι Bytes Bytes Bytes :=
  ⟨store,fun _ => counter [name]⟩

/-- No update is lost: the calls that returned got different numbers, and the stored one has been
raised by as many as they are. -/
structure Counted (var : Bytes) (init : ℤ) (s : Sys ι Bytes Bytes Bytes) : Prop where
  distinct : ∀ i j r, s.procs i = .done r → s.procs j = .done r → i = j
  total : stored (s.store var) = init + s.completed.ncard

/-- The calls that returned got different numbers, all above `init` and up to `top`. -/
structure Numbered (init top : ℤ) (s : Sys ι Bytes Bytes Bytes) : Prop where
  range : ∀ i r, s.procs i = .done r → ∃ val, r = itoa val ∧ init < val ∧ val ≤ top
  distinct : ∀ i j r, s.procs i = .done r → s.procs j = .done r → i = j

/-- Client `i` is about to write `val`, where `value` is stored and at most `top`. -/
structure Writing (var : Bytes) (evs : List ι) (i : ι) (value top val : ℤ)
    (p : Prog Bytes Bytes Bytes) : Prop where
  next : p = .set var (intBytes val) (.done (itoa val))
  mem : -2^31 ≤ val ∧ val < 2^31
  fresh : Alone evs i → val = int32 (value+1)
  stale : ¬Alone evs i → val ≤ top

/-- What is known of the numbers after the steps `evs`. -/
structure Tally (name : Bytes) (init : ℤ) (evs : List ι) (value top : ℤ)
    (s : Sys ι Bytes Bytes Bytes) : Prop where
  value_eq : stored (s.store (counterKey name)) = value
  top_eq : init + s.completed.ncard = top
  idle : ∀ i, i ∉ evs → s.procs i = counter [name]
  busy : ∀ i ∈ evs, i ∉ s.completed →
    ∃ val, Writing (counterKey name) evs i value top val (s.procs i)
  bound : value ≤ top
  lost : ¬Undisturbed evs → value < top
  exact : Undisturbed evs → top < 2^31 → value = top ∧ Numbered init top s

variable {name : Bytes} {init value top : ℤ} {evs : List ι} {s t : Sys ι Bytes Bytes Bytes} {i : ι}

theorem tally_start (hname : name ≠ []) (store : Bytes → Option Bytes) :
    Tally name (stored (store (counterKey name))) ([] : List ι) (stored (store (counterKey name)))
      (stored (store (counterKey name))) (calling name store) := by
  have hnone : (calling name store : Sys ι Bytes Bytes Bytes).completed = ∅ := by
    ext i
    simp [completed,calling,counter_single hname]
  have hidle (i : ι) (r : Bytes) : (calling name store : Sys ι Bytes Bytes Bytes).procs i ≠ .done r := by
    intro hr
    have hi : i ∈ (calling name store : Sys ι Bytes Bytes Bytes).completed := ⟨r,hr⟩
    rw [hnone] at hi
    exact hi
  refine ⟨rfl,?_,fun _ _ => rfl,fun i hi => absurd hi List.not_mem_nil,le_rfl,?_,?_⟩
  · rw [hnone,Set.ncard_empty,Nat.cast_zero,add_zero]
  · intro h
    exact absurd undisturbed_nil h
  · intro _ _
    exact ⟨rfl,fun i r hr => absurd hr (hidle i r),fun i j r hr => absurd hr (hidle i r)⟩

theorem Tally.finite (h : Tally name init evs value top s) (hname : name ≠ []) :
    s.completed.Finite := by
  apply (List.finite_toSet evs).subset
  rintro i ⟨r,hr⟩
  by_contra hi
  rw [h.idle i hi,counter_single hname] at hr
  exact absurd hr nofun

/-- What a client is about to write is one more than the largest number seen, at most. -/
theorem Tally.le_succ (h : Tally name init evs value top s) {val : ℤ} {p : Prog Bytes Bytes Bytes}
    (hw : Writing (counterKey name) evs i value top val p) : val ≤ top+1 := by
  by_cases halone : Alone evs i
  · have hmem := stored_mem (s.store (counterKey name))
    rw [h.value_eq] at hmem
    have hsucc := int32_succ_le hmem
    have hbound := h.bound
    have hval := hw.fresh halone
    omega
  · exact (hw.stale halone).trans (by omega)

variable [DecidableEq ι]

/-- A first step reads the number and changes nothing else. -/
theorem Tally.read (h : Tally name init evs value top s) (hname : name ≠ []) (hi : i ∉ evs)
    (hstep : s.step i = some t) : Tally name init (evs ++ [i]) value top t := by
  have hproc := (h.idle i hi).trans (counter_single hname)
  rw [step_get hproc,h.value_eq] at hstep
  obtain rfl := Option.some.inj hstep
  have hidle : i ∉ s.completed := by
    rintro ⟨r,hr⟩
    exact absurd (hproc.symm.trans hr) nofun
  have hsame := completed_update s.store hidle (p := .set (counterKey name)
    (intBytes (int32 (value+1))) (.done (itoa (int32 (value+1))))) nofun
  have hund : Undisturbed (evs ++ [i]) ↔ Undisturbed evs :=
    undisturbed_append.trans (and_iff_left (alone_of_not_mem hi))
  refine ⟨h.value_eq,?_,?_,?_,h.bound,?_,?_⟩
  · rw [hsame]
    exact h.top_eq
  · intro j hj
    have hjevs : j ∉ evs := fun hj' => hj (List.mem_append_left _ hj')
    have hji : j ≠ i := by
      rintro rfl
      simp at hj
    simpa [hji] using h.idle j hjevs
  · intro j hj hjs
    rw [hsame] at hjs
    by_cases hji : j = i
    · subst hji
      refine ⟨int32 (value+1),by simp,int32_mem _,fun _ => rfl,fun hstale => ?_⟩
      exact absurd (alone_append_self hi) hstale
    · have hjevs : j ∈ evs := by simpa [hji] using hj
      obtain ⟨val,hw⟩ := h.busy j hjevs hjs
      have halone : Alone (evs ++ [i]) j ↔ Alone evs j :=
        (alone_append (Ne.symm hji)).trans (and_iff_left fun _ => hi)
      exact ⟨val,by simpa [hji] using hw.next,hw.mem,fun ha => hw.fresh (halone.mp ha),
        fun ha => hw.stale (mt halone.mpr ha)⟩
  · rw [hund]
    exact h.lost
  · rw [hund]
    intro hu hlt
    obtain ⟨hexact,hrange,hdistinct⟩ := h.exact hu hlt
    have hproc (j : ι) (r : Bytes) (hr : Function.update s.procs i (.set (counterKey name)
        (intBytes (int32 (value+1))) (.done (itoa (int32 (value+1))))) j = .done r) :
        s.procs j = .done r := by
      by_cases hji : j = i
      · subst hji
        simp at hr
      · simpa [hji] using hr
    exact ⟨hexact,fun j r hr => hrange j r (hproc j r hr),
      fun j k r hj hk => hdistinct j k r (hproc j r hj) (hproc k r hk)⟩

/-- A second step writes a number, and whoever was between his two steps holds an old one now. -/
theorem Tally.write (h : Tally name init evs value top s) (hname : name ≠ [])
    (hinit : -2^31 ≤ init) (hi : i ∈ evs)
    {val : ℤ} (hw : Writing (counterKey name) evs i value top val (s.procs i))
    (hstep : s.step i = some t) : Tally name init (evs ++ [i]) val (top+1) t := by
  rw [step_set hw.next] at hstep
  obtain rfl := Option.some.inj hstep
  have hidle : i ∉ s.completed := by
    rintro ⟨r,hr⟩
    exact absurd (hw.next.symm.trans hr) nofun
  have hmore := completed_update_done (s := s) (i := i)
    (Function.update s.store (counterKey name) (some (intBytes val))) (itoa val)
  have hle := h.le_succ hw
  refine ⟨?_,?_,?_,?_,hle,?_,?_⟩
  · simp [stored_intBytes hw.mem]
  · rw [hmore,Set.ncard_insert_of_notMem hidle (h.finite hname),← h.top_eq]
    push_cast
    omega
  · intro j hj
    have hjevs : j ∉ evs := fun hj' => hj (List.mem_append_left _ hj')
    have hji : j ≠ i := by
      rintro rfl
      exact hjevs hi
    simpa [hji] using h.idle j hjevs
  · intro j hj hjs
    rw [hmore,Set.mem_insert_iff,not_or] at hjs
    have hjevs : j ∈ evs := by simpa [hjs.1] using hj
    obtain ⟨val',hw'⟩ := h.busy j hjevs hjs.2
    have halone : ¬Alone (evs ++ [i]) j := fun ha =>
      ((alone_append (Ne.symm hjs.1)).mp ha).2 hjevs hi
    refine ⟨val',by simpa [hjs.1] using hw'.next,hw'.mem,fun ha => absurd ha halone,fun _ => ?_⟩
    exact h.le_succ hw'
  · intro hu
    by_cases halone : Alone evs i
    · have hlost := h.lost fun hevs => hu (undisturbed_append.mpr ⟨hevs,halone⟩)
      have hmem := stored_mem (s.store (counterKey name))
      rw [h.value_eq] at hmem
      have hsucc := int32_succ_le hmem
      have hval := hw.fresh halone
      omega
    · have hstale := hw.stale halone
      omega
  · intro hu hlt
    obtain ⟨hevs,halone⟩ := undisturbed_append.mp hu
    obtain ⟨hexact,hrange,hdistinct⟩ := h.exact hevs (by omega)
    have htop : init ≤ top := by
      rw [← h.top_eq]
      omega
    have hval : val = top+1 := by
      rw [hw.fresh halone,hexact]
      exact int32_of_mem ⟨by omega,hlt⟩
    have hother {j : ι} {r : Bytes} (hr : s.procs j = .done r) : r ≠ itoa val := by
      rintro rfl
      obtain ⟨v,hv,hlow,hhigh⟩ := hrange j _ hr
      have heq := itoa_inj ⟨by omega,by omega⟩ ⟨by omega,by omega⟩ hv
      omega
    refine ⟨hval,?_,?_⟩
    · intro j r hr
      by_cases hji : j = i
      · subst hji
        have hr' : itoa val = r := by simpa using hr
        exact ⟨val,hr'.symm,by omega,by omega⟩
      · obtain ⟨v,hv,hlow,hhigh⟩ := hrange j r (by simpa [hji] using hr)
        exact ⟨v,hv,hlow,by omega⟩
    · intro j k r hj hk
      by_cases hji : j = i
      · by_cases hki : k = i
        · rw [hji,hki]
        · have hr : itoa val = r := by simpa [hji] using hj
          exact absurd hr.symm (hother (by simpa [hki] using hk))
      · by_cases hki : k = i
        · have hr : itoa val = r := by simpa [hki] using hk
          exact absurd hr.symm (hother (by simpa [hji] using hj))
        · exact hdistinct j k r (by simpa [hji] using hj) (by simpa [hki] using hk)

/-- Every run of calls keeps the tally. -/
theorem tally_run (hname : name ≠ []) (store : Bytes → Option Bytes)
    (hrun : runFrom step (calling name store) evs = some t) :
    ∃ value top, Tally name (stored (store (counterKey name))) evs value top t := by
  induction evs using List.reverseRecOn generalizing t with
  | nil =>
    obtain rfl := Option.some.inj hrun
    exact ⟨_,_,tally_start hname store⟩
  | append_singleton evs i ih =>
    rw [runFrom_append] at hrun
    obtain ⟨s,hs,hstep⟩ := Option.bind_eq_some_iff.mp hrun
    rw [runFrom_cons] at hstep
    obtain ⟨u,hu,hnil⟩ := Option.bind_eq_some_iff.mp hstep
    obtain rfl := Option.some.inj hnil
    obtain ⟨value,top,h⟩ := ih hs
    by_cases hi : i ∈ evs
    · have hidle : i ∉ s.completed := by
        rintro ⟨r,hr⟩
        exact absurd ((step_done hr).symm.trans hu) nofun
      obtain ⟨val,hw⟩ := h.busy i hi hidle
      exact ⟨val,top+1,h.write hname (stored_mem _).1 hi hw hu⟩
    · exact ⟨value,top,h.read hname hi hu⟩

/-- However the calls interleave, no update is lost exactly when nobody writes between another
client's reading and writing and the number fits an `int`. -/
theorem counter_counts_iff (hname : name ≠ []) (store : Bytes → Option Bytes)
    (hrun : runFrom step (calling name store) evs = some t) :
    Counted (counterKey name) (stored (store (counterKey name))) t ↔
      Undisturbed evs ∧ stored (store (counterKey name)) + t.completed.ncard < 2^31 := by
  obtain ⟨value,top,h⟩ := tally_run hname store hrun
  constructor
  · intro hc
    have heq : value = top := by
      rw [← h.value_eq,hc.total,h.top_eq]
    refine ⟨?_,?_⟩
    · by_contra hu
      exact absurd heq (h.lost hu).ne
    · rw [← hc.total]
      exact (stored_mem _).2
  · rintro ⟨hu,hlt⟩
    rw [h.top_eq] at hlt
    obtain ⟨hexact,hnumbers⟩ := h.exact hu hlt
    refine ⟨hnumbers.distinct,?_⟩
    rw [h.value_eq,hexact,h.top_eq]

end

/-- Two clients that call one after the other lose nothing. -/
theorem counter_counts_sequential :
    ∃ t, runFrom step (calling (str "n") fun _ => none) [false,false,true,true] = some t ∧
      Counted (counterKey (str "n")) 0 t := by
  obtain ⟨t,hrun⟩ : ∃ t, runFrom step (calling (str "n") fun _ => none)
      [false,false,true,true] = some t := ⟨_,rfl⟩
  refine ⟨t,hrun,(counter_counts_iff (by decide) (fun _ => none) hrun).mpr ⟨?_,?_⟩⟩
  · have hfirst : Undisturbed [false,false] :=
      undisturbed_append.mpr ⟨undisturbed_append.mpr ⟨undisturbed_nil,alone_of_not_mem (by decide)⟩,
        alone_append_self (by decide)⟩
    exact undisturbed_append.mpr ⟨undisturbed_append.mpr ⟨hfirst,alone_of_not_mem (by decide)⟩,
      alone_append_self (by decide)⟩
  · have hcard : t.completed.ncard ≤ Nat.card Bool := Set.ncard_le_card t.completed
    have hstored : stored none = 0 := rfl
    rw [Nat.card_eq_fintype_card,Fintype.card_bool] at hcard
    omega

/-- Two clients that read before either writes both get 1. -/
theorem counter_loses_update :
    ∃ t, runFrom step (calling (str "n") fun _ => none) [false,true,false,true] = some t ∧
      ¬Counted (counterKey (str "n")) 0 t := by
  refine ⟨_,rfl,fun h => ?_⟩
  exact absurd (h.distinct false true (str "1") rfl rfl) nofun

end Smx
