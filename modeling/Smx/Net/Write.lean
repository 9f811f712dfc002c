import Mathlib.Algebra.Order.Ring.Int
import Mathlib.Data.List.Range
import Smx.Net.Sock

/-! `Sock::_Write`: the loop around `send`, and which bytes of the buffer it hands to the transport. -/
namespace Smx

/-- How a wait for the socket and the `send` behind it end. -/
inductive Sent
  | taken (n : ℕ)
  | error
  | timeout

/-- The loop of `_Write`, with the places of the bytes that were handed over. -/
def writeLoop (len : ℤ) (results : ℕ → Sent) : ℕ → ℕ → ℤ → List ℕ → Option (ℤ × List ℕ)
  | 0,_,_,_ => none
  | fuel+1,round,soFar,handed =>
    if soFar < len then
      match results round with
      | .timeout => some (ERR_TIMEOUT,handed)
      | .error => some (SOCKET_ERROR,handed)
      -- every `send` is given `buf` and `len`, whatever the ones before it took
      | .taken n => writeLoop len results fuel (round+1) (asInt (soFar+n)) (handed ++ List.range n)
    else some (soFar,handed)

/-- `_Write` -/
def writeSock (len : ℕ) (results : ℕ → Sent) (fuel : ℕ) : Option (ℤ × List ℕ) := writeLoop len results fuel 0 0 []

/-- The call returns, the bytes handed over are the first ones of the buffer, each once, and without an error they
are all. -/
def Delivered (len : ℕ) (results : ℕ → Sent) : Prop :=
  ∃ fuel r, writeSock len results fuel = some r ∧ (∃ k ≤ len, r.2 = List.range k) ∧
    (r.1 ≠ ERR_TIMEOUT → r.1 ≠ SOCKET_ERROR → r.2 = List.range len ∧ r.1 = len)

/-- A `send` takes one byte at least, and not more than it is given. -/
def Takes (len : ℕ) (results : ℕ → Sent) : Prop := ∀ round n, results round = .taken n → 1 ≤ n ∧ n ≤ len

/-- The first `send` takes a part of the buffer, and there is a second one. -/
def SentAgain (len : ℕ) (results : ℕ → Sent) : Prop :=
  ∃ n m, n < len ∧ results 0 = .taken n ∧ results 1 = .taken m

section
variable {len : ℤ} {results : ℕ → Sent} {fuel round n : ℕ} {soFar : ℤ} {handed : List ℕ} {r : ℤ × List ℕ}

theorem writeLoop_done (h : len ≤ soFar) :
    writeLoop len results (fuel+1) round soFar handed = some (soFar,handed) := by
  rw [writeLoop,if_neg h.not_gt]

theorem writeLoop_taken (h : soFar < len) (hround : results round = .taken n) :
    writeLoop len results (fuel+1) round soFar handed =
      writeLoop len results fuel (round+1) (asInt (soFar+n)) (handed ++ List.range n) := by
  rw [writeLoop,if_pos h,hround]

theorem writeLoop_timeout (h : soFar < len) (hround : results round = .timeout) :
    writeLoop len results (fuel+1) round soFar handed = some (ERR_TIMEOUT,handed) := by
  rw [writeLoop,if_pos h,hround]

theorem writeLoop_error (h : soFar < len) (hround : results round = .error) :
    writeLoop len results (fuel+1) round soFar handed = some (SOCKET_ERROR,handed) := by
  rw [writeLoop,if_pos h,hround]

/-- What was handed over stays handed over. -/
theorem writeLoop_handed (h : writeLoop len results fuel round soFar handed = some r) : handed <+: r.2 := by
  induction fuel generalizing round soFar handed with
  | zero => exact absurd h (by simp [writeLoop])
  | succ fuel ih =>
    rcases lt_or_ge soFar len with hlen | hlen
    · cases hround : results round with
      | taken n =>
        rw [writeLoop_taken hlen hround] at h
        exact (List.prefix_append _ _).trans (ih h)
      | error =>
        rw [writeLoop_error hlen hround] at h
        cases h
        exact List.prefix_rfl
      | timeout =>
        rw [writeLoop_timeout hlen hround] at h
        cases h
        exact List.prefix_rfl
    · rw [writeLoop_done hlen] at h
      cases h
      exact List.prefix_rfl

end

section
variable {len : ℕ} {results : ℕ → Sent}

theorem delivered_of_error {n k : ℕ} {e : ℤ} (h : writeSock len results k = some (e,List.range n))
    (hlen : n ≤ len) (he : e = ERR_TIMEOUT ∨ e = SOCKET_ERROR) : Delivered len results := by
  refine ⟨k,_,h,⟨n,hlen,rfl⟩,?_⟩
  intro htimeout herror
  exact absurd he (not_or.mpr ⟨htimeout,herror⟩)

theorem asInt_natCast {n : ℕ} (h : n < 2^31) : asInt n = n := by
  unfold asInt
  exact Int.bmod_eq_of_le (by omega) (by omega)

theorem delivered_of_all (hlen : len < 2^31) (hpos : 0 < len) (h : results 0 = .taken len) :
    Delivered len results := by
  have hall : asInt ((0 : ℤ)+len) = len := by
    rw [Int.zero_add,asInt_natCast hlen]
  refine ⟨2,((len : ℤ),List.range len),?_,⟨len,le_rfl,rfl⟩,fun _ _ => ⟨rfl,rfl⟩⟩
  rw [writeSock,writeLoop_taken (Int.natCast_pos.mpr hpos) h,hall,writeLoop_done le_rfl,List.nil_append]

/-- A first byte that was sent twice is not undone. -/
theorem not_delivered_of_again (htakes : Takes len results) (h : SentAgain len results) (hlen : len < 2^31) :
    ¬Delivered len results := by
  obtain ⟨n,m,hn,hfirst,hsecond⟩ := h
  rintro ⟨fuel,r,hr,⟨k,-,hk⟩,-⟩
  have hsoFar : asInt ((0 : ℤ)+n) = n := by
    rw [Int.zero_add,asInt_natCast (by omega)]
  have hnext : (n : ℤ) < len := Int.ofNat_lt.mpr hn
  rw [writeSock] at hr
  rcases fuel with _ | _ | fuel
  · exact absurd hr (by simp [writeLoop])
  · rw [writeLoop_taken (by omega) hfirst] at hr
    exact absurd hr (by simp [writeLoop])
  · rw [writeLoop_taken (by omega) hfirst,hsoFar,writeLoop_taken hnext hsecond] at hr
    have hpre := writeLoop_handed hr
    rw [hk] at hpre
    have hnodup := hpre.sublist.nodup List.nodup_range
    rw [List.nil_append,List.nodup_append] at hnodup
    have hzero : 0 ∈ List.range n := List.mem_range.mpr (htakes 0 n hfirst).1
    have hzero' : 0 ∈ List.range m := List.mem_range.mpr (htakes 1 m hsecond).1
    exact hnodup.2.2 0 hzero 0 hzero' rfl

/-- `_Write` delivers its buffer unless it has to send a second time. -/
theorem delivered_iff (hlen : len < 2^31) (htakes : Takes len results) :
    Delivered len results ↔ ¬SentAgain len results := by
  refine ⟨fun h hagain => not_delivered_of_again htakes hagain hlen h,fun h => ?_⟩
  rcases Nat.eq_zero_or_pos len with rfl | hpos
  · refine ⟨1,((0 : ℤ),[]),writeLoop_done (le_refl (0 : ℤ)),⟨0,le_rfl,rfl⟩,fun _ _ => ⟨rfl,rfl⟩⟩
  have hfirst : (0 : ℤ) < len := Int.natCast_pos.mpr hpos
  cases hround : results 0 with
  | error =>
    apply delivered_of_error (n := 0) (k := 1) (e := SOCKET_ERROR) _ hpos.le (Or.inr rfl)
    rw [writeSock,writeLoop_error hfirst hround,List.range_zero]
  | timeout =>
    apply delivered_of_error (n := 0) (k := 1) (e := ERR_TIMEOUT) _ hpos.le (Or.inl rfl)
    rw [writeSock,writeLoop_timeout hfirst hround,List.range_zero]
  | taken n =>
    rcases (htakes 0 n hround).2.eq_or_lt with rfl | hn
    · exact delivered_of_all hlen hpos hround
    have hsoFar : asInt ((0 : ℤ)+n) = n := by
      rw [Int.zero_add,asInt_natCast (by omega)]
    have hnext : (n : ℤ) < len := Int.ofNat_lt.mpr hn
    cases hround' : results 1 with
    | taken m => exact absurd ⟨n,m,hn,hround,hround'⟩ h
    | error =>
      apply delivered_of_error (n := n) (k := 2) (e := SOCKET_ERROR) _ hn.le (Or.inr rfl)
      rw [writeSock,writeLoop_taken hfirst hround,hsoFar,writeLoop_error hnext hround',List.nil_append]
    | timeout =>
      apply delivered_of_error (n := n) (k := 2) (e := ERR_TIMEOUT) _ hn.le (Or.inl rfl)
      rw [writeSock,writeLoop_taken hfirst hround,hsoFar,writeLoop_timeout hnext hround',List.nil_append]

end

/-- Three bytes, of which the first `send` takes two and the second one. -/
def shortSend : ℕ → Sent
  | 0 => .taken 2
  | _ => .taken 1

theorem takes_shortSend : Takes 3 shortSend := by
  intro round n h
  rcases round with _ | round <;> cases h <;> decide

-- the third byte is not sent, and the first one is sent again
example : writeSock 3 shortSend 3 = some (3,[0,1,0]) := by decide

theorem not_delivered_shortSend : ¬(∀ len results, len < 2^31 → Takes len results → Delivered len results) := by
  intro h
  exact not_delivered_of_again takes_shortSend ⟨2,1,by decide,rfl,rfl⟩ (by decide) (h 3 shortSend (by decide)
    takes_shortSend)

theorem delivered_iff_shortSend : Delivered 3 shortSend ↔ ¬SentAgain 3 shortSend :=
  delivered_iff (by decide) takes_shortSend

end Smx
