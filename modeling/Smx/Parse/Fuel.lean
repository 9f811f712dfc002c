import Smx.Parse.Direct

/-! Termination of the parser: what it leaves is never longer than what it was given, and
from four units of fuel a character on more fuel changes nothing. -/
namespace Smx
open EmitM (Returns returns_pure returns_bind returns_capture bind_congr_of_returns)

theorem scanName_length_le (name inp : Bytes) : (scanName name inp).2.2.length ≤ inp.length := by
  induction inp generalizing name with
  | nil => simp [scanName]
  | cons c inp ih =>
    simp only [scanName]
    split_ifs
    · exact Nat.le_succ_of_le (ih _)
    · exact Nat.le_succ _

/-- A name ended by a character takes that character from the input. -/
theorem scanName_length_lt {name inp : Bytes} (h : (scanName name inp).2.1 ≠ EOF) :
    (scanName name inp).2.2.length < inp.length := by
  induction inp generalizing name with
  | nil => simp [scanName] at h
  | cons c inp ih =>
    simp only [scanName] at h ⊢
    split_ifs at h ⊢
    · exact Nat.lt_succ_of_lt (ih h)
    · exact Nat.lt_succ_self _

theorem skipSpace_length_lt {inp : Bytes} (h : (skipSpace inp).1 ≠ EOF) :
    (skipSpace inp).2.length < inp.length := by
  induction inp with
  | nil => simp [skipSpace] at h
  | cons c inp ih =>
    simp only [skipSpace] at h ⊢
    split_ifs at h ⊢
    · exact Nat.lt_succ_of_lt (ih h)
    · exact Nat.lt_succ_self _

theorem argHead_length_le (inp : Bytes) : (argHead inp).2.2.length ≤ inp.length := by
  simp only [argHead]
  split_ifs
  · exact (getC_length_le _).trans (skipSpace_length_le inp)
  · exact skipSpace_length_le inp

theorem argHead_length_lt {inp : Bytes} (h : (argHead inp).2.1 ≠ EOF) :
    (argHead inp).2.2.length < inp.length := by
  simp only [argHead] at h ⊢
  split_ifs at h ⊢
  · exact (getC_length_lt h).trans_le (skipSpace_length_le inp)
  · exact skipSpace_length_lt h

theorem argOpen_length_le (c : Byte) (inp : Bytes) : (argOpen c inp).2.2.length ≤ inp.length := by
  unfold argOpen
  split_ifs
  · exact getC_length_le inp
  · exact getC_length_le inp
  · exact le_refl _

theorem parseArgEscaped_length_le (eq : Byte) (pct : Bool) (inp : Bytes) :
    (parseArgEscaped eq pct inp).2.2.length ≤ inp.length := by
  fun_induction parseArgEscaped eq pct inp with
  | case1 => exact le_refl _
  | case2 => exact Nat.le_succ _
  | case3 => simp
  | case4 => rename_i ih; exact Nat.le_succ_of_le (Nat.le_succ_of_le ih)
  | case5 => rename_i ih; exact Nat.le_succ_of_le (Nat.le_succ_of_le ih)
  | case6 => rename_i ih; exact Nat.le_succ_of_le ih
  | case7 => exact Nat.le_succ _
  | case8 => exact Nat.le_succ_of_le (parseArgsLPar_length_le true .blank 0 _)
  | case9 =>
    rename_i ih
    exact Nat.le_succ_of_le (ih.trans (parseArgsLPar_length_le true .blank 0 _))
  | case10 => rename_i ih; exact Nat.le_succ_of_le ih

theorem quotedLoop_length_le (trim : Bool) (cur : Bytes) (c : Byte) (inp : Bytes) :
    (quotedLoop trim cur c inp).2.2.length ≤ inp.length := by
  fun_induction quotedLoop trim cur c inp with
  | case1 cur c inp close more cur' rest hs =>
    have hle := quotedStep_length_le cur c inp
    rwa [hs] at hle
  | case2 cur c inp close cur' hs => simp
  | case3 cur c inp close cur' rest hs =>
    have hle := quotedStep_length_le cur c inp
    rw [hs] at hle
    exact (Nat.le_succ _).trans hle
  | case4 cur c inp cur' d rest hs hd ih =>
    have hle := quotedStep_length_le cur c inp
    rw [hs] at hle
    exact ih.trans ((Nat.le_succ _).trans hle)

theorem parseArgQuoted_length_le (c : Byte) (inp : Bytes) :
    (parseArgQuoted c inp).2.2.length ≤ inp.length := by
  simp only [parseArgQuoted]
  by_cases hq : c = T_DQ ∨ c = T_LC
  · rw [if_pos hq]
    generalize (if c = T_DQ then T_DQ else T_RC) = eq
    have hesc := parseArgEscaped_length_le eq false inp
    split_ifs
    · exact hesc
    · exact (quotedLoop_length_le ..).trans ((skipSpace_length_le _).trans hesc)
  · rw [if_neg hq]
    exact quotedLoop_length_le ..

namespace Host
variable {σ ο : Type} (H : Host σ ο)

/-- With `n` units of fuel no function leaves more than it was given. -/
structure RestLe (n : ℕ) : Prop where
  func : ∀ inp rest, Returns (H.parseFunc n inp) rest → rest.length ≤ inp.length
  name : ∀ name inp rest, Returns (H.parseName n name inp) rest → rest.length ≤ inp.length
  args : ∀ qmode map inp r, Returns (H.parseArgsQmap n qmode map inp) r → r.2.length ≤ inp.length
  arg : ∀ c inp r, Returns (H.parseArg n c inp) r → r.2.2.length ≤ inp.length
  turn : ∀ st cur c inp r, Returns (H.argTurn n st cur c inp) r → r.2.2.length ≤ inp.length
  loop : ∀ st cur inp r, Returns (H.argLoop n st cur inp) r → r.2.2.length ≤ inp.length

theorem restLe_zero : H.RestLe 0 where
  func inp rest h := by rw [returns_pure h]
  name name inp rest h := by rw [returns_pure h]
  args qmode map inp r h := by rw [returns_pure h]
  arg c inp r h := by rw [returns_pure h]
  turn st cur c inp r h := by rw [returns_pure h]
  loop st cur inp r h := by rw [returns_pure h]

variable {H} {n : ℕ} (ih : H.RestLe n)
include ih

theorem RestLe.func_succ (inp rest : Bytes) (h : Returns (H.parseFunc (n+1) inp) rest) :
    rest.length ≤ inp.length := by
  simp only [parseFunc] at h
  split_ifs at h with hsym heof hpunct
  · exact (ih.name _ _ _ h).trans (getC_length_le inp)
  · obtain ⟨-,-,h⟩ := returns_bind h
    rw [returns_pure h]
    exact getC_length_le inp
  · obtain ⟨-,-,h⟩ := returns_bind h
    obtain ⟨-,-,h⟩ := returns_bind h
    have hne : (getC inp).1 ≠ EOF := fun he => heof (.inl he)
    rw [returns_pure h]
    exact getC_length_lt hne
  · obtain ⟨-,-,h⟩ := returns_bind h
    rw [returns_pure h]
    exact getC_length_le inp

omit ih in
theorem copyCall_length_le {name inp rest : Bytes}
    (h : Returns (copyCall name inp : SmxM σ Bytes) rest) : rest.length ≤ inp.length := by
  obtain ⟨-,-,h⟩ := returns_bind h
  obtain ⟨-,-,h⟩ := returns_bind h
  rw [returns_pure h]
  exact parseArgsLPar_length_le true .blank 0 inp

theorem RestLe.name_succ (name inp rest : Bytes) (h : Returns (H.parseName (n+1) name inp) rest) :
    rest.length ≤ inp.length := by
  refine le_trans ?_ (scanName_length_le name inp)
  simp only [parseName] at h
  obtain ⟨s,-,h⟩ := returns_bind h
  by_cases hlp : (scanName name inp).2.1 = T_LP
  · rw [if_pos hlp] at h
    split at h
    · next obj hobj =>
      obtain ⟨a,ha,h⟩ := returns_bind h
      obtain ⟨-,-,h⟩ := returns_bind h
      rw [returns_pure h]
      exact ih.args _ _ _ _ ha
    · split_ifs at h
      · obtain ⟨-,-,h⟩ := returns_bind h
        exact ih.name _ _ _ h
      · exact copyCall_length_le h
  rw [if_neg hlp] at h
  split_ifs at h
  · obtain ⟨-,-,h⟩ := returns_bind h
    rw [returns_pure h]
  · obtain ⟨-,-,h⟩ := returns_bind h
    rw [returns_pure h]

theorem RestLe.args_succ (qmode : Bool) (map inp : Bytes) (r : List Arg × Bytes)
    (h : Returns (H.parseArgsQmap (n+1) qmode map inp) r) : r.2.length ≤ inp.length := by
  have hhead := argHead_length_le inp
  simp only [parseArgsQmap] at h
  obtain ⟨a,ha,h⟩ := returns_bind h
  have hrest : a.2.2.length ≤ inp.length := by
    split_ifs at ha
    · rw [returns_pure ha]
      exact (parseArgQuoted_length_le _ _).trans hhead
    · exact (ih.arg _ _ _ ha).trans hhead
  by_cases hmore : a.2.1 = true ∧ (argHead inp).2.1 ≠ EOF
  · rw [if_pos hmore] at h
    obtain ⟨q,hq,h⟩ := returns_bind h
    rw [returns_pure h]
    exact (ih.args _ _ _ _ hq).trans hrest
  · rw [if_neg hmore] at h
    rw [returns_pure h]
    exact hrest

theorem RestLe.turn_succ (st : ArgSt) (cur : Bytes) (c : Byte) (inp : Bytes)
    (r : Bytes × Bool × Bytes) (h : Returns (H.argTurn (n+1) st cur c inp) r) :
    r.2.2.length ≤ inp.length := by
  simp only [argTurn] at h
  by_cases hesc : c = T_ESC
  · rw [if_pos hesc] at h
    exact (ih.loop _ _ _ _ h).trans (getC_length_le inp)
  rw [if_neg hesc] at h
  by_cases hpct : c = T_PCT
  · rw [if_pos hpct] at h
    obtain ⟨f,hf,h⟩ := returns_bind h
    exact (ih.loop _ _ _ _ h).trans (ih.func _ _ (returns_capture hf))
  · rw [if_neg hpct] at h
    split at h
    · exact ih.loop _ _ _ _ h
    · exact ih.loop _ _ _ _ h
    · rw [returns_pure h]

theorem RestLe.succ : H.RestLe (n+1) where
  func := ih.func_succ
  name := ih.name_succ
  args := ih.args_succ
  arg c inp r h := by
    simp only [parseArg] at h
    exact (ih.turn _ _ _ _ _ h).trans (argOpen_length_le c inp)
  turn := ih.turn_succ
  loop st cur inp r h := by
    simp only [argLoop] at h
    split_ifs at h
    · rw [returns_pure h]
      exact getC_length_le inp
    · exact (ih.turn _ _ _ _ _ h).trans (getC_length_le inp)

omit ih in
theorem restLe (n : ℕ) : H.RestLe n := by
  induction n with
  | zero => exact H.restLe_zero
  | succ n ih => exact ih.succ

variable (H) in
/-- More fuel changes nothing where `n` units are enough. -/
structure FuelOk (n m : ℕ) : Prop where
  func : ∀ inp, 4*inp.length+1 ≤ n → H.parseFunc n inp = H.parseFunc m inp
  name : ∀ name inp, 4*inp.length+1 ≤ n → H.parseName n name inp = H.parseName m name inp
  args : ∀ qmode map inp, 4*inp.length+4 ≤ n →
    H.parseArgsQmap n qmode map inp = H.parseArgsQmap m qmode map inp
  arg : ∀ c inp, 4*inp.length+3 ≤ n → H.parseArg n c inp = H.parseArg m c inp
  turn : ∀ st cur c inp, 4*inp.length+2 ≤ n →
    H.argTurn n st cur c inp = H.argTurn m st cur c inp
  loop : ∀ st cur inp, 4*inp.length+1 ≤ n → H.argLoop n st cur inp = H.argLoop m st cur inp

omit ih
variable {m : ℕ} (ok : H.FuelOk n m)

theorem fuelOk_zero : H.FuelOk 0 m where
  func inp h := by omega
  name name inp h := by omega
  args qmode map inp h := by omega
  arg c inp h := by omega
  turn st cur c inp h := by omega
  loop st cur inp h := by omega

include ok

theorem FuelOk.func_succ (inp : Bytes) (h : 4*inp.length+1 ≤ n+1) :
    H.parseFunc (n+1) inp = H.parseFunc (m+1) inp := by
  simp only [parseFunc]
  by_cases hsym : isqsymf (getC inp).1
  · rw [if_pos hsym,if_pos hsym]
    have hne : (getC inp).1 ≠ EOF := fun he => by simp [he,isqsymf,EOF,T_LC,T_RP,ch] at hsym
    have hlt := getC_length_lt hne
    exact ok.name _ _ (by omega)
  · rw [if_neg hsym,if_neg hsym]

theorem FuelOk.name_succ (name inp : Bytes) (h : 4*inp.length+1 ≤ n+1) :
    H.parseName (n+1) name inp = H.parseName (m+1) name inp := by
  simp only [parseName]
  refine bind_congr fun s => ?_
  by_cases hlp : (scanName name inp).2.1 = T_LP
  · have hne : (scanName name inp).2.1 ≠ EOF := fun he => by simp [hlp,T_LP,EOF,ch] at he
    have hlt := scanName_length_lt hne
    rw [if_pos hlp,if_pos hlp,ok.name _ _ (by omega)]
    split
    · rw [ok.args _ _ _ (by omega)]
    · rfl
  · rw [if_neg hlp,if_neg hlp]

theorem FuelOk.args_succ (qmode : Bool) (map inp : Bytes) (h : 4*inp.length+4 ≤ n+1) :
    H.parseArgsQmap (n+1) qmode map inp = H.parseArgsQmap (m+1) qmode map inp := by
  have hhead := argHead_length_le inp
  simp only [parseArgsQmap]
  rw [ok.arg _ _ (by omega)]
  refine bind_congr_of_returns fun a ha => ?_
  have hrest : a.2.2.length ≤ (argHead inp).2.2.length := by
    split_ifs at ha
    · rw [returns_pure ha]
      exact parseArgQuoted_length_le _ _
    · exact (H.restLe _).arg _ _ _ ha
  by_cases hmore : a.2.1 = true ∧ (argHead inp).2.1 ≠ EOF
  · have hlt := argHead_length_lt hmore.2
    rw [if_pos hmore,if_pos hmore,ok.args _ _ _ (by omega)]
  · rw [if_neg hmore,if_neg hmore]

theorem FuelOk.turn_succ (st : ArgSt) (cur : Bytes) (c : Byte) (inp : Bytes)
    (h : 4*inp.length+2 ≤ n+1) :
    H.argTurn (n+1) st cur c inp = H.argTurn (m+1) st cur c inp := by
  have hget := getC_length_le inp
  simp only [argTurn]
  by_cases hesc : c = T_ESC
  · rw [if_pos hesc,if_pos hesc]
    exact ok.loop _ _ _ (by omega)
  rw [if_neg hesc,if_neg hesc]
  by_cases hpct : c = T_PCT
  · rw [if_pos hpct,if_pos hpct,ok.func _ (by omega)]
    refine bind_congr_of_returns fun f hf => ?_
    have hrest := (H.restLe _).func _ _ (returns_capture hf)
    exact ok.loop _ _ _ (by omega)
  · rw [if_neg hpct,if_neg hpct]
    split
    · exact ok.loop _ _ _ (by omega)
    · exact ok.loop _ _ _ (by omega)
    · rfl

theorem FuelOk.succ : H.FuelOk (n+1) (m+1) where
  func := ok.func_succ
  name := ok.name_succ
  args := ok.args_succ
  arg c inp h := by
    have hopen := argOpen_length_le c inp
    simp only [parseArg]
    exact ok.turn _ _ _ _ (by omega)
  turn := ok.turn_succ
  loop st cur inp h := by
    simp only [argLoop]
    split_ifs with heof
    · rfl
    · have hlt := getC_length_lt heof
      exact ok.turn _ _ _ _ (by omega)

omit ok in
theorem fuelOk (h : n ≤ m) : H.FuelOk n m := by
  induction n generalizing m with
  | zero => exact fuelOk_zero
  | succ n ih =>
    cases m with
    | zero => omega
    | succ m => exact (ih (by omega)).succ

omit ok in
theorem parseLoop_fuel {inp : Bytes} (h : 4*inp.length+1 ≤ n) (hm : n ≤ m) :
    H.parseLoop n inp = H.parseLoop m inp := by
  induction n generalizing m inp with
  | zero => omega
  | succ n ih =>
    cases m with
    | zero => omega
    | succ m =>
      simp only [parseLoop]
      split_ifs with heof
      · rfl
      · have hlt := getC_length_lt heof
        rw [(fuelOk (H := H) (show n ≤ m by omega)).func _ (by omega)]
        refine bind_congr_of_returns fun rest hrest => ?_
        have hle := (H.restLe _).func _ _ hrest
        exact ih (by omega) (by omega)
      · have hlt := getC_length_lt heof
        exact bind_congr fun _ => ih (by omega) (by omega)

end Host
end Smx
