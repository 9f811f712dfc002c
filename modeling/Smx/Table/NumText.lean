import Mathlib.Data.List.TakeWhile
import Smx.Table.NumFmt

/-! What `CTabFmt::NumFmt` returns when it stays in its buffer, and when that is the number as it is to be shown. -/
namespace Smx

open Memory

section
variable {tho c : Byte} {cs ds : Bytes} {t d n : ℕ}

theorem group_zero (ds : Bytes) : group 0 ds = ds := by
  induction ds with
  | nil => rfl
  | cons c cs ih => simp [group,ih]

theorem group_of_length_le (h : ds.length ≤ 3) : group tho ds = ds := by
  induction ds with
  | nil => rfl
  | cons c cs ih =>
    rw [List.length_cons] at h
    have hsep : ¬(tho ≠ 0 ∧ cs ≠ [] ∧ cs.length % 3 = 0) := by
      rintro ⟨-,hne,hmod⟩
      have hpos := List.length_pos_iff.mpr hne
      omega
    rw [group,if_neg hsep,ih (by omega)]

theorem length_group_append (tho : Byte) (ds cs : Bytes) :
    ds.length+(group tho cs).length ≤ (group tho (ds ++ cs)).length := by
  induction ds with
  | nil => simp
  | cons c ds ih =>
    rw [List.cons_append,group,List.length_cons,List.length_cons]
    split_ifs
    · rw [List.length_cons]
      omega
    · omega

theorem length_le_group (tho : Byte) (ds : Bytes) : ds.length ≤ (group tho ds).length := by
  simpa [group] using length_group_append tho ds []

theorem length_lt_group (htho : tho ≠ 0) (h : 3 < ds.length) : ds.length < (group tho ds).length := by
  induction ds with
  | nil => simp at h
  | cons c cs ih =>
    rw [List.length_cons] at h
    have hle := length_le_group tho cs
    rw [group,List.length_cons,List.length_cons]
    split_ifs with hsep
    · rw [List.length_cons]
      omega
    · have hlt : 3 < cs.length := by
        by_contra hn
        refine hsep ⟨htho,List.length_pos_iff.mp (by omega),?_⟩
        have hthree : cs.length = 3 := by omega
        rw [hthree]
      have := ih hlt
      omega

theorem group_eq_self_iff : group tho ds = ds ↔ tho = 0 ∨ ds.length ≤ 3 := by
  constructor
  · intro h
    by_contra hn
    obtain ⟨htho,hlen⟩ := not_or.mp hn
    exact (length_lt_group htho (not_le.mp hlen)).ne' (congrArg List.length h)
  · rintro (rfl | hlen)
    · exact group_zero ds
    · exact group_of_length_le hlen

theorem mem_group (h : c ∈ group tho ds) : c ∈ ds ∨ (tho ≠ 0 ∧ c = tho) := by
  induction ds with
  | nil => cases h
  | cons d ds ih =>
    rw [group] at h
    split_ifs at h with hsep
    · rcases List.mem_cons.mp h with rfl | h
      · exact Or.inl List.mem_cons_self
      · rcases List.mem_cons.mp h with rfl | h
        · exact Or.inr ⟨hsep.1,rfl⟩
        · exact (ih h).imp_left (List.mem_cons_of_mem d)
    · rcases List.mem_cons.mp h with rfl | h
      · exact Or.inl List.mem_cons_self
      · exact (ih h).imp_left (List.mem_cons_of_mem d)

theorem blanked_zero (ds : Bytes) : blanked 0 ds = ds := by simp [blanked]

theorem blanked_nil (t : ℕ) : blanked t [] = [] := by simp [blanked]

theorem blanked_concat_zero (t : ℕ) (ds : Bytes) :
    blanked (t+1) (ds ++ [ch '0']) = blanked t ds ++ [ch ' '] := by
  have hlen : ds.length+1-(min t (ds.reverse.takeWhile (· == ch '0')).length+1) =
      ds.length-min t (ds.reverse.takeWhile (· == ch '0')).length := by omega
  simp only [blanked,List.reverse_append,List.reverse_singleton,List.singleton_append,List.takeWhile_cons,
    beq_self_eq_true,if_true,List.length_cons,Nat.succ_min_succ,List.length_append,List.length_nil,Nat.zero_add,hlen]
  rw [List.take_append_of_le_length (Nat.sub_le _ _),List.replicate_succ',List.append_assoc]

theorem blanked_concat (hc : c ≠ ch '0') (t : ℕ) (ds : Bytes) : blanked t (ds ++ [c]) = ds ++ [c] := by
  simp [blanked,hc]

theorem length_blanked (t : ℕ) (ds : Bytes) : (blanked t ds).length = ds.length := by
  have hle : (ds.reverse.takeWhile (· == ch '0')).length ≤ ds.length := by
    simpa using (List.takeWhile_prefix (p := (· == ch '0')) (l := ds.reverse)).length_le
  simp only [blanked,List.length_append,List.length_take,List.length_replicate]
  omega

theorem mem_blanked (h : c ∈ blanked t ds) : c ∈ ds ∨ c = ch ' ' := by
  rcases List.mem_append.mp h with h | h
  · exact Or.inl (List.mem_of_mem_take h)
  · exact Or.inr (List.eq_of_mem_replicate h)

theorem lastDigits_spec (d n : ℕ) : (lastDigits d n).length = d ∧ ∀ c ∈ lastDigits d n, isdigit c = true := by
  induction d generalizing n with
  | zero => simp [lastDigits]
  | succ d ih =>
    obtain ⟨hlen,hdigit⟩ := ih (n/10)
    refine ⟨by rw [lastDigits,List.length_append,hlen,List.length_singleton],?_⟩
    intro c hc
    rcases List.mem_append.mp hc with hc | hc
    · exact hdigit c hc
    · rw [List.mem_singleton.mp hc]
      have hmod : n % 10 < 10 := Nat.mod_lt n (by decide)
      refine isdigit_of_digitOf ?_
      rw [digitOf_digitChar (by omega)]
      exact hmod

theorem itoaLoop_length {fuel : ℕ} {num : ℤ} (h0 : 0 < num) (hfuel : num < 10^fuel) (text : Bytes) (k : ℕ) :
    (itoaLoop fuel num text).length ≤ text.length+k ↔ num < 10^k := by
  induction fuel generalizing num text k with
  | zero =>
    rw [pow_zero] at hfuel
    omega
  | succ fuel ih =>
    rw [itoaLoop,if_neg h0.ne',Int.tdiv_eq_ediv_of_nonneg h0.le,Int.tmod_eq_emod_of_nonneg h0.le]
    have hq : num/10 < 10^fuel := by
      rw [pow_succ] at hfuel
      omega
    by_cases hz : num/10 = 0
    · have hnext : itoaLoop fuel 0 (UInt8.ofInt (48+num % 10)::text) = UInt8.ofInt (48+num % 10)::text := by
        cases fuel <;> simp [itoaLoop]
      rw [hz,hnext,List.length_cons]
      cases k with
      | zero =>
        rw [pow_zero]
        omega
      | succ k =>
        have hpow : (10 : ℤ) ≤ 10^(k+1) := le_self_pow₀ (by norm_num) (Nat.succ_ne_zero k)
        constructor <;> intro <;> omega
    · have hpos : 0 < num/10 := by omega
      cases k with
      | zero =>
        have hmore := (ih hpos hq (UInt8.ofInt (48+num % 10)::text) 0).not.mpr (by rw [pow_zero]; omega)
        rw [List.length_cons] at hmore
        rw [pow_zero]
        constructor <;> intro <;> omega
      | succ k =>
        have hrest := ih hpos hq (UInt8.ofInt (48+num % 10)::text) k
        rw [List.length_cons,Nat.add_assoc,Nat.add_comm 1 k] at hrest
        rw [hrest,pow_succ]
        omega

theorem length_decDigits_le (n : ℕ) {k : ℕ} (hk : 0 < k) : (decDigits n).length ≤ k ↔ n < 10^k := by
  rw [decDigits]
  split_ifs with hz
  · rw [hz]
    exact iff_of_true hk (by positivity)
  · have hlt : (n : ℤ) < 10^(n+1) := by
      have h : n < 10^(n+1) := (Nat.lt_pow_self (by decide)).trans (Nat.pow_lt_pow_right (by decide) n.lt_succ_self)
      exact_mod_cast h
    have hloop := itoaLoop_length (Int.natCast_pos.mpr (Nat.pos_of_ne_zero hz)) hlt [] k
    rw [List.length_nil,Nat.zero_add] at hloop
    rw [hloop]
    exact_mod_cast Iff.rfl

end

section
variable {size i n p : ℕ} {mem : ℕ → Byte} {tho c stop : Byte} {pre ds cs rest sign whole out : Bytes}

theorem blankZeros_eq (hstop : stop ≠ ch '0') (t : ℕ) (h : Cells mem 0 (pre ++ [stop] ++ ds ++ rest))
    (hsize : (pre ++ [stop] ++ ds).length ≤ size) :
    ∃ mem', blankZeros size t (pre ++ [stop] ++ ds).length mem = some mem' ∧
      Cells mem' 0 (pre ++ [stop] ++ blanked t ds ++ rest) ∧
      ∀ q, (pre ++ [stop] ++ ds).length ≤ q → mem' q = mem q := by
  induction t generalizing ds rest mem with
  | zero =>
    rw [blanked_zero]
    exact ⟨mem,rfl,h,fun _ _ => rfl⟩
  | succ t ih =>
    cases ds using List.reverseRecOn with
    | nil =>
      rw [List.append_nil] at h hsize ⊢
      have hlast := (cells_concat.mp (cells_append.mp h).1).2
      rw [Nat.zero_add] at hlast
      rw [List.length_append,List.length_singleton] at hsize ⊢
      refine ⟨mem,?_,?_,fun _ _ => rfl⟩
      · rw [blankZeros,fetchBack,fetch_of_lt hsize,hlast]
        exact if_neg hstop
      · rw [blanked_nil,List.append_nil]
        exact h
    | append_singleton ds c =>
      have hpre : pre ++ [stop] ++ (ds ++ [c]) = (pre ++ [stop] ++ ds) ++ [c] := (List.append_assoc ..).symm
      rw [hpre] at h hsize ⊢
      have hlast := (cells_concat.mp (cells_append.mp h).1).2
      rw [Nat.zero_add] at hlast
      have hlen : ((pre ++ [stop] ++ ds) ++ [c]).length = (pre ++ [stop] ++ ds).length+1 := by
        rw [List.length_append,List.length_singleton]
      rw [hlen] at hsize ⊢
      rw [blankZeros,fetchBack,fetch_of_lt hsize,hlast]
      by_cases hc : c = ch '0'
      · have hs : storeBack size mem ((pre ++ [stop] ++ ds).length+1) (ch ' ') =
            some (Function.update mem (pre ++ [stop] ++ ds).length (ch ' ')) := store_of_lt hsize
        have hcells : Cells (Function.update mem (pre ++ [stop] ++ ds).length (ch ' ')) 0
            (pre ++ [stop] ++ ds ++ ch ' '::rest) := by
          rw [List.append_assoc (pre ++ [stop] ++ ds),List.singleton_append] at h
          obtain ⟨hfront,-,hrest⟩ := cells_append.mp h
          rw [Nat.zero_add] at hrest
          refine cells_append.mpr ⟨hfront.update (Or.inr (by rw [Nat.zero_add])),?_,?_⟩
          · rw [Nat.zero_add,Function.update_self]
          · rw [Nat.zero_add]
            exact hrest.update (Or.inl (Nat.lt_succ_self _))
        obtain ⟨mem',hloop,hcells',hframe⟩ := ih hcells (by omega)
        refine ⟨mem',?_,?_,?_⟩
        · change (if c = ch '0' then storeBack size mem _ (ch ' ') >>= _ else some mem) = some mem'
          rw [if_pos hc,hs]
          exact hloop
        · rw [hc,blanked_concat_zero]
          simpa using hcells'
        · intro q hq
          rw [hframe q (by omega),Function.update_of_ne (by omega)]
      · refine ⟨mem,if_neg hc,?_,fun _ _ => rfl⟩
        rw [blanked_concat hc,hpre]
        exact h

theorem copyPoint_eq (hds : ch '.' ∉ ds) (h : Copying size mem n p (pre ++ ch '.'::ds) out) :
    ∃ n' mem', copyPoint size n p mem = some (n',pre.length,mem') ∧ n = n'+(ds.length+1) ∧
      Copying size mem' n' pre.length pre (ch '.'::ds ++ out) ∧ ∀ q, q < n' → mem' q = mem q := by
  induction ds using List.reverseRecOn generalizing n p mem out with
  | nil =>
    obtain rfl := h.eq_succ
    have hfetch := h.fetch
    have hroom := h.room
    obtain ⟨mem',hs,hnext,hframe⟩ := h.move
    refine ⟨n-1,mem',?_,?_,hnext,fun q hq => hframe q (by omega)⟩
    · rw [copyPoint]
      change (fetchBack size mem (pre.length+1) >>= _) = _
      rw [hfetch]
      change (storeBack size mem n (ch '.') >>= _) = _
      rw [hs]
      rfl
    · rw [List.length_nil]
      omega
  | append_singleton ds c ih =>
    obtain ⟨hds,hc⟩ := not_or.mp (mt List.mem_append.mpr hds)
    have hc : c ≠ ch '.' := fun heq => hc (List.mem_singleton.mpr heq.symm)
    rw [← List.cons_append,← List.append_assoc] at h
    obtain rfl := h.eq_succ
    have hfetch := h.fetch
    have hroom := h.room
    obtain ⟨mem₁,hs,hnext,hframe⟩ := h.move
    rw [Nat.add_sub_cancel] at hnext
    obtain ⟨n',mem',hloop,hn,hrest,hframe'⟩ := ih hds hnext
    refine ⟨n',mem',?_,?_,?_,?_⟩
    · rw [copyPoint]
      change (fetchBack size mem ((pre ++ ch '.'::ds).length+1) >>= _) = _
      rw [hfetch]
      change (storeBack size mem n c >>= _) = _
      rw [hs]
      change (if c = ch '.' then _ else _) = _
      rw [if_neg hc,hloop]
    · rw [List.length_append,List.length_singleton]
      omega
    · simpa using hrest
    · intro q hq
      rw [hframe' q hq]
      exact hframe q (by omega)

theorem copyGroups_insert {mem₁ mem₂ : ℕ → Byte} (hfetch : fetch size mem p = some c) (hne : c ≠ 0)
    (hdigit : isdigit c = true) (htho : tho ≠ 0) (hmod : (i+1) % 3 = 0) (hs : storeBack size mem n tho = some mem₁)
    (hfetch₁ : fetch size mem₁ p = some c) (hs₁ : storeBack size mem₁ (n-1) c = some mem₂) :
    copyGroups size tho i n (p+1) mem = copyGroups size tho (i+1) (n-2) p mem₂ := by
  simp [copyGroups,hfetch,hne,hdigit,htho,hmod,hs,hfetch₁,hs₁]

theorem copyGroups_move {mem₁ : ℕ → Byte} (hfetch : fetch size mem p = some c) (hne : c ≠ 0)
    (hsep : ¬((tho ≠ 0 ∧ isdigit c = true) ∧ (i+1) % 3 = 0)) (hs : storeBack size mem n c = some mem₁) :
    copyGroups size tho i n (p+1) mem =
      copyGroups size tho (if tho ≠ 0 ∧ isdigit c = true then i+1 else i) (n-1) p mem₁ := by
  by_cases hcount : tho ≠ 0 ∧ isdigit c = true
  · have hmod : ¬(i+1) % 3 = 0 := fun hmod => hsep ⟨hcount,hmod⟩
    simp [copyGroups,hfetch,hne,hcount,hmod,hs]
  · simp only [copyGroups,hfetch,hne,hcount,hs,if_false,Option.bind_eq_bind,Option.bind_some]

theorem copyGroups_digits (hds : ∀ c ∈ ds, isdigit c = true) (hcs : cs ≠ []) (hi : tho ≠ 0 → cs.length = i+1)
    (h : Copying size mem n p (pre ++ ds) (group tho cs ++ rest))
    (hroom : pre.length+(group tho (ds ++ cs) ++ rest).length ≤ size) :
    ∃ i' n' mem', copyGroups size tho i n p mem = copyGroups size tho i' n' pre.length mem' ∧
      Copying size mem' n' pre.length pre (group tho (ds ++ cs) ++ rest) := by
  induction ds using List.reverseRecOn generalizing i n p mem cs with
  | nil =>
    rw [List.append_nil] at h
    obtain rfl := h.src_end
    exact ⟨i,n,mem,rfl,h⟩
  | append_singleton ds c ih =>
    obtain ⟨hds,hc⟩ := List.forall_mem_append.mp hds
    have hdigit : isdigit c = true := hc c (List.mem_singleton_self c)
    have hne : c ≠ 0 := by
      rintro rfl
      exact absurd hdigit (by decide)
    have hlist : ds ++ [c] ++ cs = ds ++ c::cs := List.append_cons .. |>.symm
    rw [hlist] at hroom ⊢
    rw [← List.append_assoc] at h
    obtain rfl := h.eq_succ
    have hfetch : fetch size mem (pre ++ ds).length = some c := h.fetch
    by_cases hsep : tho ≠ 0 ∧ (i+1) % 3 = 0
    · -- a separator is put out first
      have hgroup : group tho (c::cs) = c::tho::group tho cs := by
        rw [group,if_pos ⟨hsep.1,hcs,by rw [hi hsep.1]; exact hsep.2⟩]
      have hfree : (pre ++ ds).length+1 < n := by
        have hlen := length_group_append tho ds (c::cs)
        have hend := h.out_end
        rw [hgroup,List.length_cons,List.length_cons] at hlen
        simp only [List.length_append] at hroom hend ⊢
        omega
      obtain ⟨mem₁,hs,hput⟩ := h.insert hfree tho
      obtain ⟨mem₂,hs',hnext,-⟩ := hput.move
      have hfetch₁ : fetch size mem₁ (pre ++ ds).length = some c := hput.fetch
      have hout : c::tho::(group tho cs ++ rest) = group tho (c::cs) ++ rest := by
        rw [hgroup]
        rfl
      rw [hout] at hnext
      obtain ⟨i',n',mem',hloop,hrest⟩ := ih hds (List.cons_ne_nil c cs)
        (fun htho => by rw [List.length_cons,hi htho]) hnext hroom
      refine ⟨i',n',mem',?_,hrest⟩
      rw [copyGroups_insert hfetch hne hdigit hsep.1 hsep.2 hs hfetch₁ hs',← hloop]
      rfl
    · have hgroup : group tho (c::cs) = c::group tho cs := by
        rw [group,if_neg]
        rintro ⟨htho,-,hmod⟩
        rw [hi htho] at hmod
        exact hsep ⟨htho,hmod⟩
      obtain ⟨mem₁,hs,hnext,-⟩ := h.move
      have hout : c::(group tho cs ++ rest) = group tho (c::cs) ++ rest := by
        rw [hgroup]
        rfl
      rw [hout] at hnext
      have hcount : tho ≠ 0 → (c::cs).length = (if tho ≠ 0 ∧ isdigit c = true then i+1 else i)+1 := by
        intro htho
        rw [if_pos ⟨htho,hdigit⟩,List.length_cons,hi htho]
      obtain ⟨i',n',mem',hloop,hrest⟩ := ih hds (List.cons_ne_nil c cs) hcount hnext hroom
      refine ⟨i',n',mem',?_,hrest⟩
      rw [copyGroups_move hfetch hne (fun h => hsep ⟨h.1.1,h.2⟩) hs]
      exact hloop

/-- The sign, and the NUL in front of it. -/
theorem copyGroups_sign (hsign : ∀ c ∈ sign, c ≠ 0 ∧ isdigit c = false)
    (h : Copying size mem n p (0::sign) out) :
    ∃ n' mem', copyGroups size tho i n p mem = some (n',mem') ∧ Copying size mem' n' 1 [0] (sign ++ out) := by
  induction sign using List.reverseRecOn generalizing n p mem out with
  | nil =>
    obtain rfl : p = 1 := h.src_end.symm
    have hnul : Copying size mem n 1 ([] ++ [0]) out := h
    have hfetch : fetch size mem 0 = some 0 := hnul.fetch
    refine ⟨n,mem,?_,h⟩
    rw [copyGroups,hfetch]
    rfl
  | append_singleton sign c ih =>
    obtain ⟨hsign,hc⟩ := List.forall_mem_append.mp hsign
    obtain ⟨hne,hdigit⟩ := hc c (List.mem_singleton_self c)
    rw [← List.cons_append] at h
    obtain rfl := h.eq_succ
    have hfetch : fetch size mem (0::sign).length = some c := h.fetch
    obtain ⟨mem₁,hs,hnext,-⟩ := h.move
    obtain ⟨n',mem',hloop,hrest⟩ := ih hsign hnext
    refine ⟨n',mem',?_,?_⟩
    · rw [copyGroups_move hfetch hne (by simp [hdigit]) hs,if_neg (by simp [hdigit])]
      exact hloop
    · simpa using hrest

theorem copyWhole_eq (tho : Byte) (hwhole : ∀ c ∈ whole, isdigit c = true) (hnil : whole ≠ [])
    (hsign : ∀ c ∈ sign, c ≠ 0 ∧ isdigit c = false) (h : Copying size mem n p (0::sign ++ whole) rest)
    (hroom : (sign ++ group tho whole ++ rest).length < size) :
    ∃ n' mem', copyWhole size tho n p mem = some (n',mem') ∧
      Copying size mem' n' 1 [0] (sign ++ group tho whole ++ rest) := by
  obtain ⟨ds,c,rfl⟩ := (List.eq_nil_or_concat' whole).resolve_left hnil
  obtain ⟨hds,hc⟩ := List.forall_mem_append.mp hwhole
  have hne : c ≠ 0 := by
    rintro rfl
    exact absurd (hc 0 (List.mem_singleton_self 0)) (by decide)
  rw [← List.append_assoc] at h
  have hfetch := h.fetch
  obtain ⟨mem₁,hs,hnext,-⟩ := h.move
  have hroom' : (0::sign).length+(group tho (ds ++ [c]) ++ rest).length ≤ size := by
    simp only [List.length_append,List.length_cons] at hroom ⊢
    omega
  have hone : c::rest = group tho [c] ++ rest := by simp [group]
  rw [hone] at hnext
  obtain ⟨i',n₁,mem₂,hloop,hdigits⟩ := copyGroups_digits hds (List.cons_ne_nil c []) (fun _ => rfl) hnext hroom'
  obtain ⟨n',mem',hloop',hrest⟩ := copyGroups_sign hsign hdigits
  refine ⟨n',mem',?_,?_⟩
  · rw [copyWhole,hfetch]
    change (if c ≠ 0 then storeBack size mem n c >>= _ else _) = _
    rw [if_pos hne,hs]
    exact hloop.trans hloop'
  · simpa using hrest

/-- The end of the copy: the other digits are put out, and the text is read. -/
theorem readBack_eq (tho : Byte) {frac : Bytes} (hwhole : ∀ c ∈ whole, isdigit c = true) (hnil : whole ≠ [])
    (hsign : ∀ c ∈ sign, c ≠ 0 ∧ isdigit c = false) (hfrac : ∀ c ∈ frac, c ≠ 0)
    (h : Copying size mem n p (0::sign ++ whole) (frac ++ [0]))
    (hroom : (sign ++ group tho whole ++ frac).length+2 ≤ size) :
    (copyWhole size tho n p mem).bind (fun s => text size s.2 (· == 0) size s.1) =
      some (sign ++ group tho whole ++ frac) := by
  obtain ⟨n',mem',hloop,hrest⟩ := copyWhole_eq tho hwhole hnil hsign h (by
    rw [← List.append_assoc,List.length_append,List.length_singleton]
    omega)
  have hend := hrest.out_end
  have hcells := hrest.out_cells
  rw [← List.append_assoc] at hend hcells
  rw [List.length_append,List.length_singleton] at hend
  rw [hloop]
  refine text_eq hcells ?_ (beq_self_eq_true (0 : Byte)) (by omega) (by omega)
  intro c hc
  refine beq_false_of_ne ?_
  rcases List.mem_append.mp hc with hc | hc
  · rcases List.mem_append.mp hc with hc | hc
    · exact (hsign c hc).1
    · rcases mem_group hc with hc | ⟨htho,rfl⟩
      · rintro rfl
        exact absurd (hwhole 0 hc) (by decide)
      · exact htho
  · exact hfrac c hc

theorem replacePoint_point (dch : Byte) (hn : 1 ≤ n) (h : Copying size mem n p pre (ch '.'::out)) :
    ∃ mem', replacePoint size dch n mem = some mem' ∧
      Copying size mem' n p pre ((if mem (n-1) ≠ 0 ∧ dch ≠ 0 then dch else ch '.')::out) := by
  obtain ⟨n,rfl⟩ := Nat.exists_eq_add_one.mpr hn
  obtain ⟨hsrc,rfl,hroom,hend,hpoint,hout⟩ := h
  rw [List.length_cons] at hend
  have hfetch : fetchBack size mem (n+1) = some (mem n) := fetch_of_lt (by omega)
  have hfetch' : fetchBack size mem (n+1+1) = some (ch '.') := by
    rw [← hpoint]
    exact fetch_of_lt (by omega)
  by_cases hseen : mem n ≠ 0 ∧ dch ≠ 0
  · have hs : storeBack size mem (n+1+1) dch = some (Function.update mem (n+1) dch) := store_of_lt (by omega)
    refine ⟨Function.update mem (n+1) dch,?_,?_⟩
    · simp [replacePoint,hfetch,hfetch',hseen,hs]
    · rw [Nat.add_sub_cancel,if_pos hseen]
      exact ⟨hsrc.update (Or.inr (by omega)),rfl,hroom,hend,Function.update_self ..,
        hout.update (Or.inl (Nat.lt_succ_self _))⟩
  · refine ⟨mem,?_,?_⟩
    · by_cases hz : mem n = 0
      · simp [replacePoint,hfetch,hz]
      · have hdch : dch = 0 := not_ne_iff.mp (fun hdch => hseen ⟨hz,hdch⟩)
        simp [replacePoint,hfetch,hfetch',hdch]
    · rw [Nat.add_sub_cancel,if_neg hseen]
      exact ⟨hsrc,rfl,hroom,hend,hpoint,hout⟩

theorem groupText_point {col : ColFmt} (hdec : 0 < col.dec) (hwhole : ∀ c ∈ whole, isdigit c = true)
    (hnil : whole ≠ []) (hsign : ∀ c ∈ sign, c ≠ 0 ∧ isdigit c = false) (hds : ∀ c ∈ ds, c ≠ 0 ∧ c ≠ ch '.')
    (h : Cells mem 0 (0::sign ++ whole ++ ch '.'::ds))
    (hroom : (sign ++ group col.tho whole ++ ch '.'::ds).length+2 ≤ size) :
    groupText size col (0::sign ++ whole ++ ch '.'::ds).length mem = some (sign ++ group col.tho whole ++
      (if mem (size-3-ds.length) ≠ 0 ∧ col.dch ≠ 0 then col.dch else ch '.')::ds) := by
  have hle := length_le_group col.tho whole
  have hpos := List.length_pos_iff.mpr hnil
  have hlen : (0::sign ++ whole ++ ch '.'::ds).length+1 ≤ size := by
    simp only [List.length_append,List.length_cons] at hroom ⊢
    omega
  obtain ⟨m,rfl⟩ := Nat.exists_eq_add_one.mpr (Nat.zero_lt_of_lt hlen)
  have hs : storeBack (m+1) mem (m+1) 0 = some (Function.update mem m 0) := store_of_lt (Nat.lt_succ_self m)
  have hcopy : Copying (m+1) (Function.update mem m 0) m (0::sign ++ whole ++ ch '.'::ds).length
      (0::sign ++ whole ++ ch '.'::ds) [0] :=
    ⟨h.update (Or.inr (by omega)),rfl,by omega,rfl,Function.update_self ..,trivial⟩
  obtain ⟨n,mem₁,hpoint,hn,hcopied,hframe⟩ := copyPoint_eq (fun hmem => (hds _ hmem).2 rfl) hcopy
  have hn1 : 1 ≤ n := by
    simp only [List.length_append,List.length_cons] at hroom
    omega
  obtain ⟨mem₂,hreplace,hfrac⟩ := replacePoint_point col.dch hn1 hcopied
  have hcell : mem₁ (n-1) = mem (m+1-3-ds.length) := by
    have hq : n-1 = m+1-3-ds.length := by omega
    rw [hframe (n-1) (by omega),Function.update_of_ne (by omega),hq]
  rw [hcell] at hfrac
  have hshown : ∀ c ∈ (if mem (m+1-3-ds.length) ≠ 0 ∧ col.dch ≠ 0 then col.dch else ch '.')::ds, c ≠ 0 := by
    intro c hc
    rcases List.mem_cons.mp hc with rfl | hc
    · split_ifs with hseen
      · exact hseen.2
      · decide
    · exact (hds c hc).1
  have hread := readBack_eq col.tho hwhole hnil hsign hshown hfrac (by
    simp only [List.length_append,List.length_cons] at hroom ⊢
    exact hroom)
  rw [groupText,hs]
  change (copyDecimals (m+1) col.dec m _ (Function.update mem m 0) >>= _) = _
  rw [copyDecimals,if_pos hdec,hpoint]
  change (replacePoint (m+1) col.dch n mem₁ >>= _) = _
  rw [hreplace]
  exact hread

theorem groupText_whole {col : ColFmt} (hdec : ¬0 < col.dec) (hwhole : ∀ c ∈ whole, isdigit c = true)
    (hnil : whole ≠ []) (hsign : ∀ c ∈ sign, c ≠ 0 ∧ isdigit c = false) (h : Cells mem 0 (0::sign ++ whole))
    (hroom : (sign ++ group col.tho whole).length+2 ≤ size) :
    groupText size col (0::sign ++ whole).length mem = some (sign ++ group col.tho whole) := by
  have hle := length_le_group col.tho whole
  have hpos := List.length_pos_iff.mpr hnil
  have hlen : (0::sign ++ whole).length+1 ≤ size := by
    simp only [List.length_append,List.length_cons] at hroom ⊢
    omega
  obtain ⟨m,rfl⟩ := Nat.exists_eq_add_one.mpr (Nat.zero_lt_of_lt hlen)
  have hs : storeBack (m+1) mem (m+1) 0 = some (Function.update mem m 0) := store_of_lt (Nat.lt_succ_self m)
  have hcopy : Copying (m+1) (Function.update mem m 0) m (0::sign ++ whole).length (0::sign ++ whole) [0] :=
    ⟨h.update (Or.inr (by omega)),rfl,by omega,rfl,Function.update_self ..,trivial⟩
  obtain ⟨w,c,rfl⟩ := (List.eq_nil_or_concat' whole).resolve_left hnil
  have hc : c ≠ ch '.' := by
    rintro rfl
    exact absurd (hwhole _ (List.mem_append_right w (List.mem_singleton_self _))) (by decide)
  have hfetch : fetchBack (m+1) (Function.update mem m 0) (0::sign ++ (w ++ [c])).length = some c := by
    have hcopy' := hcopy
    rw [← List.append_assoc] at hcopy' ⊢
    exact hcopy'.fetch
  have hnone : ∀ c ∈ ([] : Bytes), c ≠ 0 := by simp
  have hread := readBack_eq col.tho hwhole hnil hsign hnone hcopy (by simpa using hroom)
  have hreplace : replacePoint (m+1) col.dch m (Function.update mem m 0) = some (Function.update mem m 0) := by
    obtain ⟨k,rfl⟩ := Nat.exists_eq_add_one.mpr (Nat.lt_of_lt_of_le Nat.zero_lt_one (by omega : 1 ≤ m))
    have hk : fetchBack (k+1+1) (Function.update mem (k+1) 0) (k+1) = some (mem k) := by
      rw [fetchBack,fetch_of_lt (by omega),Function.update_of_ne (by omega)]
    have hnul : fetchBack (k+1+1) (Function.update mem (k+1) 0) (k+1+1) = some 0 := by
      rw [fetchBack,fetch_of_lt (by omega),Function.update_self]
    have hdot : (0 : Byte) ≠ ch '.' := by decide
    simp [replacePoint,hk,hnul,hdot]
  rw [groupText,hs]
  change (copyDecimals (m+1) col.dec m _ (Function.update mem m 0) >>= _) = _
  rw [copyDecimals,if_neg hdec,hfetch]
  change (replacePoint (m+1) col.dch m (Function.update mem m 0) >>= fun mem' => (copyWhole (m+1) col.tho m
    (if c = ch '.' then (0::sign ++ (w ++ [c])).length-1 else (0::sign ++ (w ++ [c])).length) mem').bind _) = _
  rw [hreplace,if_neg hc]
  simpa using hread

theorem putPoint_point {dch : Byte} (hpre : ∀ c ∈ pre, c ≠ 0 ∧ c ≠ ch '.') (h : Cells mem 1 (pre ++ ch '.'::out))
    (hsize : pre.length+1 < size) :
    ∃ mem', putPoint size dch mem = some mem' ∧ Cells mem' 1 (pre ++ (if dch = 0 then ch '.' else dch)::out) := by
  obtain ⟨hfront,hpoint,hout⟩ := cells_append.mp h
  by_cases hdch : dch ≠ 0 ∧ dch ≠ ch '.'
  · have hskip : ∀ c ∈ pre, (c != 0 && c != ch '.') = true := by
      intro c hc
      simpa using hpre c hc
    have hscan : scan size mem (fun c => c != 0 && c != ch '.') size 1 = some (1+pre.length) :=
      scan_eq (cells_concat.mpr ⟨hfront,hpoint⟩) hskip (by decide) (by omega) (by omega)
    have hfetch : fetch size mem (1+pre.length) = some (ch '.') := by
      rw [fetch_of_lt (by omega),hpoint]
    refine ⟨Function.update mem (1+pre.length) dch,?_,?_⟩
    · simp [putPoint,hdch,hscan,hfetch,store_of_lt (show 1+pre.length < size by omega)]
    · rw [if_neg hdch.1]
      exact cells_append.mpr ⟨hfront.update (Or.inr le_rfl),Function.update_self ..,
        hout.update (Or.inl (Nat.lt_succ_self _))⟩
  · refine ⟨mem,if_neg hdch,?_⟩
    have hsame : (if dch = 0 then ch '.' else dch) = ch '.' := by
      split_ifs with hz
      · rfl
      · by_contra hne
        exact hdch ⟨hz,hne⟩
    rw [hsame]
    exact h

theorem putPoint_whole {dch : Byte} (hpre : ∀ c ∈ pre, c ≠ 0 ∧ c ≠ ch '.') (h : Cells mem 1 (pre ++ [0]))
    (hsize : pre.length+1 < size) : putPoint size dch mem = some mem := by
  rw [putPoint]
  split_ifs with hdch
  · have hskip : ∀ c ∈ pre, (c != 0 && c != ch '.') = true := by
      intro c hc
      simpa using hpre c hc
    have hscan : scan size mem (fun c => c != 0 && c != ch '.') size 1 = some (1+pre.length) :=
      scan_eq h hskip (by decide) (by omega) (by omega)
    have hfetch : fetch size mem (1+pre.length) = some 0 := by
      rw [fetch_of_lt (by omega),(cells_concat.mp h).2]
    have hne : (0 : Byte) ≠ ch '.' := by decide
    simp [hscan,hfetch,hne]
  · rfl

end

section
variable {col : ColFmt} {val : ℚ} {cb : ℕ} {mem : ℕ → Byte} {point c : Byte}

theorem wholeText_digits (dec : ℕ) (val : ℚ) : ∀ c ∈ wholeText dec val, isdigit c = true := (decDigits_spec _).1

theorem plain_digit (h : isdigit c = true) : c ≠ 0 ∧ c ≠ ch '.' := by
  constructor <;> rintro rfl <;> exact absurd h (by decide)

theorem signText_plain (val : ℚ) : ∀ c ∈ signText val, c ≠ 0 ∧ isdigit c = false := by
  intro c hc
  rw [signText] at hc
  split_ifs at hc
  · rw [List.mem_singleton.mp hc]
    decide
  · cases hc

theorem decimals_plain (col : ColFmt) (val : ℚ) : ∀ c ∈ decimals col val, c ≠ 0 ∧ c ≠ ch '.' := by
  intro c hc
  have hdigit := (lastDigits_spec col.dec.toNat (scaled col.dec.toNat val)).2
  rw [decimals] at hc
  split_ifs at hc
  · exact plain_digit (hdigit c hc)
  · rcases mem_blanked hc with hc | rfl
    · exact plain_digit (hdigit c hc)
    · decide

theorem length_decimals (col : ColFmt) (val : ℚ) : (decimals col val).length = col.dec.toNat := by
  have hlen := (lastDigits_spec col.dec.toNat (scaled col.dec.toNat val)).1
  rw [decimals]
  split_ifs
  · exact hlen
  · rw [length_blanked,hlen]

theorem whole_plain (dec : ℕ) (val : ℚ) : ∀ c ∈ signText val ++ wholeText dec val, c ≠ 0 ∧ c ≠ ch '.' := by
  intro c hc
  rcases List.mem_append.mp hc with hc | hc
  · rw [signText] at hc
    split_ifs at hc
    · rw [List.mem_singleton.mp hc]
      decide
    · cases hc
  · exact plain_digit (wholeText_digits dec val c hc)

/-- The number as it stands in the buffer, with its zeros blanked. -/
def plainText (col : ColFmt) (val : ℚ) : Bytes :=
  signText val ++ wholeText col.dec.toNat val ++ fraction (ch '.') col val

theorem printed_eq (hdec : 0 ≤ col.dec) : printed col.dec.toNat val = signText val ++ wholeText col.dec.toNat val ++
    if col.dec = 0 then [] else ch '.'::lastDigits col.dec.toNat (scaled col.dec.toNat val) := by
  have hz : col.dec.toNat = 0 ↔ col.dec = 0 := by omega
  simp only [printed,hz]

theorem length_plainText (hdec : 0 ≤ col.dec) (val : ℚ) :
    (plainText col val).length = (printed col.dec.toNat val).length := by
  have hds := (lastDigits_spec col.dec.toNat (scaled col.dec.toNat val)).1
  rw [printed_eq hdec,plainText,fraction]
  split_ifs
  · rfl
  · simp [length_decimals,hds]

theorem plainText_ne_zero (col : ColFmt) (val : ℚ) : ∀ c ∈ plainText col val, c ≠ 0 := by
  intro c hc
  rcases List.mem_append.mp hc with hc | hc
  · exact (whole_plain _ val c hc).1
  · rw [fraction] at hc
    split_ifs at hc
    · cases hc
    · rcases List.mem_cons.mp hc with rfl | hc
      · decide
      · exact (decimals_plain col val c hc).1

/-- What the buffer holds after the printing. -/
theorem exists_trimmed (hdec : 0 ≤ col.dec) (hcb : cb < 2^31) (mem : ℕ → Byte)
    (hlen : (printed col.dec.toNat val).length+2 ≤ cb) :
    ∃ mem', trimZeros cb col (printedEnd (printed col.dec.toNat val))
        (snprintf cb (Function.update mem 0 0) (printed col.dec.toNat val)) = some mem' ∧
      Cells mem' 0 (0::plainText col val ++ [0]) ∧
      ∀ q, (printed col.dec.toNat val).length+1 < q → mem' q = mem q := by
  have htake : (printed col.dec.toNat val).take (cb-2) = printed col.dec.toNat val :=
    List.take_of_length_le (by omega)
  have hprinted : Cells (snprintf cb (Function.update mem 0 0) (printed col.dec.toNat val)) 0
      (0::printed col.dec.toNat val ++ [0]) := by
    rw [snprintf,htake]
    refine ⟨?_,cells_write ..⟩
    rw [write_of_lt Nat.zero_lt_one,Function.update_self]
  have hframe : ∀ q, (printed col.dec.toNat val).length+1 < q →
      snprintf cb (Function.update mem 0 0) (printed col.dec.toNat val) q = mem q := by
    intro q hq
    rw [snprintf,htake,write_of_le,Function.update_of_ne (by omega)]
    rw [List.length_append,List.length_singleton]
    omega
  have hend : printedEnd (printed col.dec.toNat val) = (0::printed col.dec.toNat val).length :=
    if_pos (by omega)
  rw [trimZeros,hend]
  split_ifs with htrim
  · have hds := (lastDigits_spec col.dec.toNat (scaled col.dec.toNat val)).1
    have hshown : 0::printed col.dec.toNat val = (0::(signText val ++ wholeText col.dec.toNat val)) ++ [ch '.'] ++
        lastDigits col.dec.toNat (scaled col.dec.toNat val) := by
      rw [printed_eq hdec,if_neg htrim.1.ne']
      simp
    rw [hshown] at hprinted
    obtain ⟨mem',hloop,hcells,hsame⟩ := blankZeros_eq (by decide) (col.dec-col.trz+1).toNat hprinted (by
      rw [← hshown,List.length_cons]
      omega : _ ≤ cb)
    refine ⟨mem',?_,?_,?_⟩
    · rw [hshown]
      exact hloop
    · rw [plainText,fraction,if_neg htrim.1.ne',decimals,if_neg htrim.2]
      simpa using hcells
    · intro q hq
      rw [hsame q (by rw [← hshown,List.length_cons]; omega),hframe q hq]
  · refine ⟨_,rfl,?_,hframe⟩
    have hsame : plainText col val = printed col.dec.toNat val := by
      rw [plainText,printed_eq hdec,fraction,decimals]
      by_cases hz : col.dec = 0
      · rw [if_pos hz,if_pos hz]
      · have htrz : col.trz = 0 := not_ne_iff.mp (fun h => htrim ⟨by omega,h⟩)
        rw [if_neg hz,if_neg hz,if_pos htrz]
    rw [hsame]
    exact hprinted

theorem pointSeen_iff {mem' : ℕ → Byte} (hcells : Cells mem' 0 (0::plainText col val ++ [0])) (hdec : 0 ≤ col.dec)
    (hframe : ∀ q, (printed col.dec.toNat val).length+1 < q → mem' q = mem q) (hq : 1 ≤ cb-3-col.dec.toNat) :
    mem' (cb-3-col.dec.toNat) ≠ 0 ↔ PointSeen col val cb mem := by
  have hlen := length_plainText hdec val
  obtain ⟨q,hq'⟩ := Nat.exists_eq_add_of_le' hq
  rw [PointSeen,hq']
  rcases Nat.lt_trichotomy q (printed col.dec.toNat val).length with hlt | heq | hgt
  · refine iff_of_true ?_ (Or.inl hlt)
    have hbehind : Cells mem' 1 (plainText col val ++ [0]) := hcells.2
    have hget := cells_getElem hbehind (by rw [List.length_append,hlen,List.length_singleton]; omega : q < _)
    rw [Nat.add_comm 1 q,List.getElem_append_left (by omega)] at hget
    rw [hget]
    exact plainText_ne_zero col val _ (List.getElem_mem _)
  · refine iff_of_false ?_ (by omega)
    have hnul := (cells_concat.mp hcells).2
    rw [List.length_cons,hlen,← heq,Nat.zero_add] at hnul
    exact not_not.mpr hnul
  · rw [hframe (q+1) (by omega)]
    refine ⟨fun h => Or.inr ⟨by omega,h⟩,?_⟩
    rintro (hle | h)
    · omega
    · exact h.2

theorem length_printed_le (hdec : 0 ≤ col.dec) (val : ℚ) :
    (printed col.dec.toNat val).length ≤ (numText col val).length := by
  have hle := length_le_group col.tho (wholeText col.dec.toNat val)
  rw [← length_plainText hdec,plainText,numText,fraction,fraction]
  split_ifs <;> simp only [List.length_append,List.length_cons] <;> omega

theorem valueFmt_small (hdec : 0 ≤ col.dec) (hcb : cb < 2^31) (hfit : (numText col val).length+2 ≤ cb)
    (hsmall : ¬1000 ≤ |val|) : valueFmt col val cb mem = some (signText val ++ wholeText col.dec.toNat val ++
      fraction (if col.dch = 0 then ch '.' else col.dch) col val) := by
  have hprinted := (Nat.add_le_add_right (length_printed_le hdec val) 2).trans hfit
  obtain ⟨mem₁,htrim,hcells,-⟩ := exists_trimmed hdec hcb mem hprinted
  have hplain := whole_plain col.dec.toNat val
  have hlen := length_plainText hdec val
  have hbehind : Cells mem₁ 1 (plainText col val ++ [0]) := hcells.2
  -- the point is replaced where it stands
  have hput : ∃ mem', putPoint cb col.dch mem₁ = some mem' ∧ Cells mem' 1 (signText val ++
      wholeText col.dec.toNat val ++ fraction (if col.dch = 0 then ch '.' else col.dch) col val ++ [0]) := by
    rw [plainText,fraction] at hbehind hlen
    rw [fraction]
    by_cases hz : col.dec = 0
    · rw [if_pos hz,List.append_nil] at hbehind hlen ⊢
      exact ⟨mem₁,putPoint_whole hplain hbehind (by omega),hbehind⟩
    · rw [if_neg hz,List.append_assoc,List.cons_append] at hbehind ⊢
      rw [if_neg hz,List.length_append,List.length_cons] at hlen
      exact putPoint_point hplain hbehind (by omega)
  obtain ⟨mem',hpoint,htext⟩ := hput
  have hsame : (signText val ++ wholeText col.dec.toNat val ++
      fraction (if col.dch = 0 then ch '.' else col.dch) col val).length = (plainText col val).length := by
    rw [plainText,fraction,fraction]
    split_ifs <;> simp
  rw [valueFmt,htrim]
  change (if 1000 ≤ |val| then _ else putPoint cb col.dch mem₁ >>= fun mem => text cb mem (· == 0) cb 1) = _
  rw [if_neg hsmall,hpoint]
  refine text_eq htext ?_ (beq_self_eq_true (0 : Byte)) (by omega) (by omega)
  intro c hc
  refine beq_false_of_ne ?_
  rcases List.mem_append.mp hc with hc | hc
  · exact (hplain c hc).1
  · rw [fraction] at hc
    split_ifs at hc with hz hd
    · cases hc
    · rcases List.mem_cons.mp hc with rfl | hc
      · decide
      · exact (decimals_plain col val c hc).1
    · rcases List.mem_cons.mp hc with rfl | hc
      · exact hd
      · exact (decimals_plain col val c hc).1

theorem valueFmt_large (mem : ℕ → Byte) (hdec : 0 ≤ col.dec) (hcb : cb < 2^31) (hfit : (numText col val).length+2 ≤ cb)
    (hlarge : 1000 ≤ |val|) : ∃ b : Byte, (0 < col.dec → (b ≠ 0 ↔ PointSeen col val cb mem)) ∧
      valueFmt col val cb mem = some (signText val ++ group col.tho (wholeText col.dec.toNat val) ++
        fraction (if b ≠ 0 ∧ col.dch ≠ 0 then col.dch else ch '.') col val) := by
  have hprinted := (Nat.add_le_add_right (length_printed_le hdec val) 2).trans hfit
  obtain ⟨mem₁,htrim,hcells,hframe⟩ := exists_trimmed hdec hcb mem hprinted
  have hlen := length_plainText hdec val
  have hend : printedEnd (printed col.dec.toNat val) = (0::plainText col val).length := by
    rw [printedEnd,if_pos (by omega),List.length_cons,hlen]
  have hfront := (cells_append.mp hcells).1
  have hvalue : valueFmt col val cb mem = groupText cb col (0::plainText col val).length mem₁ := by
    rw [valueFmt,htrim]
    change (if 1000 ≤ |val| then groupText cb col (printedEnd _) mem₁ else _) = _
    rw [if_pos hlarge,hend]
  have hne : wholeText col.dec.toNat val ≠ [] := decDigits_ne_nil _
  have hpos := List.length_pos_iff.mpr hne
  have hle := length_le_group col.tho (wholeText col.dec.toNat val)
  rw [hvalue]
  by_cases hz : col.dec = 0
  · refine ⟨0,fun h => absurd hz h.ne',?_⟩
    rw [numText,fraction,if_pos hz,List.append_nil] at hfit
    rw [plainText,fraction,if_pos hz,List.append_nil] at hfront ⊢
    rw [fraction,if_pos hz,List.append_nil]
    exact groupText_whole (by omega) (wholeText_digits _ val) hne (signText_plain val) hfront hfit
  · have hq : 1 ≤ cb-3-col.dec.toNat := by
      rw [numText,fraction,if_neg hz] at hfit
      simp only [List.length_append,List.length_cons,length_decimals] at hfit
      omega
    refine ⟨mem₁ (cb-3-col.dec.toNat),fun _ => pointSeen_iff hcells hdec hframe hq,?_⟩
    have hfit' : (signText val ++ group col.tho (wholeText col.dec.toNat val) ++ ch '.'::decimals col val).length+2 ≤
        cb := by
      rw [numText,fraction,if_neg hz] at hfit
      simpa using hfit
    have htext := groupText_point (by omega) (wholeText_digits _ val) hne (signText_plain val) (decimals_plain col val)
      (by simpa [plainText,fraction,hz] using hfront) hfit'
    rw [length_decimals] at htext
    rw [plainText,fraction,if_neg hz,fraction,if_neg hz]
    simpa using htext

theorem fraction_eq_iff {point' : Byte} (col : ColFmt) (val : ℚ) :
    fraction point col val = fraction point' col val ↔ col.dec = 0 ∨ point = point' := by
  rw [fraction,fraction]
  split_ifs with hz
  · simp [hz]
  · simp [hz]

theorem shownPoint_eq_iff (b dch : Byte) :
    (if b ≠ 0 ∧ dch ≠ 0 then dch else ch '.') = (if dch = 0 then ch '.' else dch) ↔
      dch = 0 ∨ dch = ch '.' ∨ b ≠ 0 := by
  by_cases hd : dch = 0
  · simp [hd]
  · by_cases hb : b = 0
    · simp [hd,hb,eq_comm]
    · simp [hd,hb]

theorem rounded_lt_iff (dec : ℕ) (val : ℚ) :
    (wholeText dec val).length ≤ 3 ↔ scaled dec val/10^dec < 1000 := length_decDigits_le _ (by decide)

/-- A number is formatted as it is to be exactly when there is room for it, it is not rounded up to a thousand that is
to be grouped, and the cell in front of the point is not NUL when the point is to be replaced. -/
theorem numFmt_eq_iff (col : ColFmt) (szDat : Bytes) (val : ℚ) (cb : ℕ) (mem : ℕ → Byte) (hval : val ≠ 0)
    (hdec : 0 ≤ col.dec) (hcb : cb < 2^31) :
    numFmt col szDat val cb mem = some (numText col val) ↔
      (numText col val).length+2 ≤ cb ∧
      (|val| < 1000 → col.tho = 0 ∨ scaled col.dec.toNat val/10^col.dec.toNat < 1000) ∧
      (1000 ≤ |val| → 0 < col.dec → col.dch = 0 ∨ col.dch = ch '.' ∨ PointSeen col val cb mem) := by
  have hvalue : numFmt col szDat val cb mem = valueFmt col val cb mem := by
    rw [numFmt,if_pos (by omega),if_neg hval]
  rw [hvalue]
  by_cases hfit : (numText col val).length+2 ≤ cb
  · rw [and_iff_right hfit]
    by_cases hlarge : 1000 ≤ |val|
    · obtain ⟨b,hb,hlong⟩ := valueFmt_large mem hdec hcb hfit hlarge
      rw [hlong,Option.some.injEq,numText,List.append_cancel_left_eq,fraction_eq_iff,shownPoint_eq_iff]
      constructor
      · intro h
        refine ⟨fun hsmall => absurd hlarge hsmall.not_ge,fun _ hpos => ?_⟩
        rw [← hb hpos]
        exact h.resolve_left hpos.ne'
      · rintro ⟨-,h⟩
        rcases hdec.eq_or_lt with hz | hpos
        · exact Or.inl hz.symm
        · rw [hb hpos]
          exact Or.inr (h hlarge hpos)
    · rw [valueFmt_small hdec hcb hfit hlarge,Option.some.injEq,numText,List.append_cancel_right_eq,
        List.append_cancel_left_eq,eq_comm,group_eq_self_iff,rounded_lt_iff]
      exact ⟨fun h => ⟨fun _ => h,fun h => absurd h hlarge⟩,fun h => h.1 (not_le.mp hlarge)⟩
  · exact ⟨fun h => absurd (valueFmt_length h) hfit,fun h => absurd h.1 hfit⟩

theorem numFmt_eq_million :
    numFmt { dec := 2, trz := 1, tho := ch ',', dch := ch '.' } [] (-1234567800/1000) 256 dirty =
    some (numText { dec := 2, trz := 1, tho := ch ',', dch := ch '.' } (-1234567800/1000)) := by
  refine (numFmt_eq_iff _ [] (-1234567800/1000) 256 dirty (by norm_num) (by decide) (by norm_num)).mpr ⟨?_,?_,?_⟩
  · decide +kernel
  · intro hsmall
    norm_num at hsmall
  · exact fun _ _ => Or.inr (Or.inl rfl)

/-- A number below a thousand is not grouped when it is rounded up to it. -/
theorem not_numFmt_eq : ¬∀ (col : ColFmt) (szDat : Bytes) (val : ℚ) (cb : ℕ) (mem : ℕ → Byte), val ≠ 0 → 0 ≤ col.dec →
    cb = 256 ∨ cb = 512 → numFmt col szDat val cb mem = some (numText col val) := by
  intro h
  have hvalue : (999999/1000 : ℚ) ≠ 0 := by norm_num
  have := h { dec := 2, tho := ch ',', dch := ch '.' } [] (999999/1000) 256 dirty hvalue (by decide) (Or.inl rfl)
  exact absurd this (by decide +kernel)

end

end Smx
