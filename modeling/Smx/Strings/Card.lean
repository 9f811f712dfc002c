import Mathlib.Data.Nat.Bitwise
import Smx.Base.Number
import Smx.Mail.SmtpMail

/-! `VerifyCard`: a card number is cleaned of its separators, and its type, its length and its checksum are
looked at. -/
namespace Smx

/-- `CC_TYPES` -/
inductive CardType
  | unknown
  | enroute
  | diners
  | amex
  | visa
  | mc
  | discover
  | jcb
  | switch
  | bankcard
  deriving DecidableEq

/-- `CC_NAMES` -/
def getCardName : CardType → Bytes
  | .unknown => str "unknown"
  | .enroute => str "enroute"
  | .diners => str "diners"
  | .amex => str "amex"
  | .visa => str "visa"
  | .mc => str "mc"
  | .discover => str "discover"
  | .jcb => str "jcb"
  | .switch => str "switch"
  | .bankcard => str "bankcard"

/-- `CC_PREFIX` and `CC_MAP`, in the order in which they are searched. -/
def cardMap : List (Bytes × CardType) :=
  [(str "1800",.jcb),(str "2014",.enroute),(str "2131",.jcb),(str "2149",.enroute),(str "300",.diners),
   (str "301",.diners),(str "302",.diners),(str "303",.diners),(str "304",.diners),(str "305",.diners),
   (str "34",.amex),(str "36",.diners),(str "37",.amex),(str "38",.diners),(str "4",.visa),(str "51",.mc),
   (str "52",.mc),(str "53",.mc),(str "54",.mc),(str "55",.mc),(str "56",.bankcard),(str "6011",.discover)]

/-- A `char` as a number. -/
def charValue (c : Byte) : ℤ := (c.toNat : ℤ).bmod 256

/-- `*p` in a C string. -/
def charAt (p : Bytes) : Byte := p.headD 0

/-- `while (*p2 && *p2 == *p) ++p2, ++p;`, and what is left of both. -/
def skipCommon : Bytes → Bytes → Bytes × Bytes
  | c::p,d::p2 => if d = c then skipCommon p p2 else (c::p,d::p2)
  | p,p2 => (p,p2)

/-- The binary search of `GetCardType`. -/
def searchCard (b : Bytes) : ℕ → ℤ → ℤ → Option CardType
  | 0,_,_ => none
  | n+1,l,h =>
    if l ≤ h then
      let m := (h+l)/2
      let entry := cardMap.getD m.toNat ([],.unknown)
      let (p,p2) := skipCommon b entry.1
      if charAt p2 = 0 then some entry.2
      else if charValue (charAt p2) < charValue (charAt p) then searchCard b n (m+1) h
      else searchCard b n l (m-1)
    else none

def getCardType (b : Bytes) (len : ℕ) : CardType :=
  match searchCard b cardMap.length 0 (cardMap.length-1) with
  | some type => type
  | none =>
    if len = 16 ∧ charAt b = ch '3' then .jcb
    else if len = 18 ∨ len = 19 then .switch
    else .unknown

example : getCardType (str "2131") 4 = .jcb ∧ getCardType (str "57") 2 = .unknown := by decide

def shiftMask (n : ℕ) : ℕ := 1 <<< (n-12)

/-- The lengths that a card of a type may have, a bit each. -/
def getMask : CardType → ℕ
  | .mc => shiftMask 16
  | .visa => shiftMask 13 ||| shiftMask 16
  | .amex => shiftMask 15
  | .diners => shiftMask 14
  | .discover => shiftMask 16
  | .jcb => shiftMask 16 ||| shiftMask 15
  | .switch => shiftMask 16 ||| shiftMask 18 ||| shiftMask 19
  | .bankcard => shiftMask 16
  | _ => shiftMask 13 ||| shiftMask 14 ||| shiftMask 15 ||| shiftMask 16

/-- The loop of `ConfirmChecksum`, from the last character to the first. -/
def checkLoop (text : Bytes) : ℕ → Bool → ℤ → ℤ
  | 0,_,sum => sum
  | k+1,flag,sum =>
    let number := charValue (text.getD k 0) - 48
    let number := if flag then if 10 ≤ number*2 then number*2-9 else number*2 else number
    checkLoop text k (!flag) (int32 (sum+number))

def confirmChecksum (text : Bytes) : Bool := (checkLoop text text.length false 0).tmod 10 = 0

/-- What stands between the digits. -/
def cardSeps : List Byte := [ch '-',ch ' ',ch '.']

/-- `CleanCard` -/
def cleanCard (s : Bytes) : Bytes := cardSeps.foldl (fun s c => replaceStr s [c]) s

def verifyCard (s : Bytes) : Bytes :=
  let number := cleanCard s
  if number.length = 0 then []
  else
    let b := cstr number
    if b.all isdigit then
      let l := b.length
      if 28 < l then []
      else
        let type := getCardType b l
        -- `ShiftMask(l) && mask` asks whether both are there, not whether they have a bit in common
        if l < 12 ∨ ¬(shiftMask l ≠ 0 ∧ getMask type ≠ 0) then []
        else if type ≠ .enroute ∧ ¬confirmChecksum number then []
        else getCardName type
    else []

/-! ### What is meant -/

/-- What a digit adds to the sum, where every second one is doubled. -/
def luhnValue (double : Bool) (c : Byte) : ℕ :=
  let n := c.toNat-48
  if double then 2*n/10 + 2*n%10 else n

/-- The sum over digits from the last to the first. -/
def luhnFrom : Bool → Bytes → ℕ
  | _,[] => 0
  | double,c::digits => luhnValue double c + luhnFrom (!double) digits

def luhn (digits : Bytes) : ℕ := luhnFrom false digits.reverse

/-- The length is one that the mask of the type has. -/
def AllowedLength (digits : Bytes) : Prop :=
  12 ≤ digits.length ∧ shiftMask digits.length &&& getMask (getCardType digits digits.length) ≠ 0

/-- The characters besides the separators. -/
def withoutSeps (s : Bytes) : Bytes := s.filter (· ∉ cardSeps)

/-- A number that is a card's. -/
def IsCard (digits : Bytes) : Prop :=
  (∀ c ∈ digits, isdigit c = true) ∧ AllowedLength digits ∧
    (getCardType digits digits.length = .enroute ∨ 10 ∣ luhn digits)

/-- The name of the type for the numbers of cards, and nothing for other texts. -/
def VerifiesCard (s : Bytes) : Prop :=
  (IsCard (withoutSeps s) →
    verifyCard s = getCardName (getCardType (withoutSeps s) (withoutSeps s).length)) ∧
  (¬IsCard (withoutSeps s) → verifyCard s = [])

/-- The text ends in a separator. -/
def EndsInSep (s : Bytes) : Prop := 0 ∉ s ∧ ∃ c ∈ s.getLast?, c ∈ cardSeps

/-- From 12 to 28 digits with a checksum that fits, when the text `more` is added to them. -/
def CardFits (digits more : Bytes) : Prop :=
  (∀ c ∈ digits, isdigit c = true) ∧ 12 ≤ digits.length ∧ digits.length ≤ 28 ∧
    (getCardType digits digits.length = .enroute ∨ confirmChecksum (digits ++ more) = true)

/-- The digits up to a NUL fit, and are no card's: the length is not one of the type, or there is a NUL. -/
def LooksLikeCard (s : Bytes) : Prop :=
  CardFits (withoutSeps (cstr s)) (behind s) ∧ (0 ∈ s ∨ ¬AllowedLength (withoutSeps (cstr s)))

section
variable {s digits : Bytes}

/-! ### Cleaning -/

theorem nul_mem_append_behind {u : Bytes} (hu : 0 ∉ u) : 0 ∈ u ++ behind s ↔ 0 ∈ s := by
  rw [List.mem_append,or_iff_right hu]
  refine ⟨fun h => List.mem_of_mem_drop h,fun h => ?_⟩
  obtain ⟨r,hr⟩ := exists_of_nul_mem h
  rw [List.append_cancel_left ((cstr_append_behind s).trans hr)]
  exact List.mem_cons_self

theorem getLast?_filter_of_pos {d : Byte} {p : Byte → Bool} (h : s.getLast? = some d) (hd : p d = true) :
    (s.filter p).getLast? = some d := by
  obtain ⟨t,rfl⟩ := List.getLast?_eq_some_iff.mp h
  rw [List.filter_append,List.filter_cons_of_pos hd]
  exact List.getLast?_concat

/-- Nothing stays of the characters that are taken out, unless one of them is the last. -/
theorem clean_of_not_last {cs : List Byte} (hcs : 0 ∉ cs) (h : 0 ∈ s ∨ ∀ d ∈ s.getLast?, d ∉ cs) :
    cs.foldl (fun s c => replaceStr s [c]) s = (cstr s).filter (· ∉ cs) ++ behind s := by
  induction cs generalizing s with
  | nil => simp [cstr_append_behind]
  | cons c cs ih =>
    obtain ⟨hc,hcs⟩ := not_or.mp (mt List.mem_cons.mpr hcs)
    have hu := nul_not_mem_filter (· ≠ c) s
    have hfirst : replaceStr s [c] = (cstr s).filter (· ≠ c) ++ behind s := by
      rw [replaceStr_eq (Ne.symm hc),if_neg]
      rintro ⟨hnul,hlast⟩
      exact h.resolve_left hnul c hlast List.mem_cons_self
    have hnext : 0 ∈ (cstr s).filter (· ≠ c) ++ behind s ∨
        ∀ d ∈ ((cstr s).filter (· ≠ c) ++ behind s).getLast?, d ∉ cs := by
      by_cases hnul : 0 ∈ s
      · exact Or.inl ((nul_mem_append_behind hu).mpr hnul)
      · right
        rw [(behind_eq_nil_iff s).mpr hnul,List.append_nil,cstr_of_nul_free hnul]
        cases hlast : s.getLast? with
        | none =>
          rw [List.getLast?_eq_none_iff.mp hlast]
          simp
        | some d =>
          obtain ⟨hdc,hd⟩ := not_or.mp (mt List.mem_cons.mpr (h.resolve_left hnul d hlast))
          rw [getLast?_filter_of_pos hlast (by simpa using hdc)]
          rintro d' ⟨⟩
          exact hd
    rw [List.foldl_cons,hfirst,ih hcs hnext,cstr_append hu (cstr_behind s),behind_append hu (cstr_behind s),
      List.filter_filter]
    congr 2
    funext d
    simp [Bool.and_comm]

/-- A character that is taken out stays where it is the last. -/
theorem clean_of_last (cs : List Byte) {d : Byte} (hcs : 0 ∉ cs) (hnul : 0 ∉ s) (h : s.getLast? = some d) :
    0 ∉ cs.foldl (fun s c => replaceStr s [c]) s ∧ (cs.foldl (fun s c => replaceStr s [c]) s).getLast? = some d := by
  induction cs generalizing s with
  | nil => exact ⟨hnul,h⟩
  | cons c cs ih =>
    obtain ⟨hc,hcs⟩ := not_or.mp (mt List.mem_cons.mpr hcs)
    rw [List.foldl_cons,replaceStr_eq (Ne.symm hc)]
    by_cases hd : d = c
    · rw [if_pos ⟨hnul,hd ▸ h⟩]
      exact ih hcs hnul h
    · rw [if_neg (fun hlast => hd (Option.some.inj (h.symm.trans hlast.2))),(behind_eq_nil_iff s).mpr hnul,
        List.append_nil,cstr_of_nul_free hnul]
      apply ih hcs (fun hmem => hnul (List.mem_of_mem_filter hmem))
      exact getLast?_filter_of_pos h (by simpa using hd)

theorem cleanCard_eq (h : ¬EndsInSep s) : cleanCard s = withoutSeps (cstr s) ++ behind s := by
  apply clean_of_not_last (by decide)
  by_cases hnul : 0 ∈ s
  · exact Or.inl hnul
  · exact Or.inr fun d hd hsep => h ⟨hnul,d,hd,hsep⟩

/-! ### The checksum -/

theorem charValue_digit {c : Byte} (h : isdigit c = true) : charValue c - 48 = (c.toNat-48 : ℕ) ∧ c.toNat-48 ≤ 9 := by
  simp only [isdigit,Bool.and_eq_true,decide_eq_true_eq,UInt8.le_iff_toNat_le] at h
  obtain ⟨hlow,hhigh⟩ := h
  have h48 : (48 : UInt8).toNat = 48 := rfl
  have h57 : (57 : UInt8).toNat = 57 := rfl
  rw [h48] at hlow
  rw [h57] at hhigh
  have hvalue : charValue c = c.toNat := by
    unfold charValue
    exact Int.bmod_eq_of_le (by omega) (by omega)
  omega

theorem luhnValue_le {c : Byte} (h : isdigit c = true) (double : Bool) : luhnValue double c ≤ 9 := by
  have hle := (charValue_digit h).2
  cases double with
  | false => exact hle
  | true =>
    show 2*(c.toNat-48)/10 + 2*(c.toNat-48)%10 ≤ 9
    omega

/-- One digit of the loop adds what it is to add. -/
theorem checkDigit_eq {c : Byte} (h : isdigit c = true) (flag : Bool) :
    (if flag then if 10 ≤ (charValue c - 48)*2 then (charValue c - 48)*2-9 else (charValue c - 48)*2
      else charValue c - 48) = (luhnValue flag c : ℤ) := by
  obtain ⟨hvalue,hle⟩ := charValue_digit h
  rw [hvalue]
  unfold luhnValue
  cases flag with
  | false => simp
  | true =>
    simp only [if_true]
    split <;> omega

theorem checkLoop_eq {flag : Bool} {sum : ℕ} (h : ∀ c ∈ digits, isdigit c = true)
    (hsum : sum+9*digits.length < 2^31) (rest : Bytes) :
    checkLoop (digits ++ rest) digits.length flag sum = (sum+luhnFrom flag digits.reverse : ℕ) := by
  induction digits using List.reverseRecOn generalizing flag sum rest with
  | nil => rfl
  | append_singleton digits c ih =>
    obtain ⟨hdigits,hc⟩ := List.forall_mem_append.mp h
    have hc := hc c (List.mem_singleton.mpr rfl)
    rw [List.length_append,List.length_singleton] at hsum
    have hle := luhnValue_le hc flag
    have hlen : (digits ++ [c]).length = digits.length+1 := by
      rw [List.length_append,List.length_singleton]
    have hget : (digits ++ [c] ++ rest).getD digits.length 0 = c := by
      simp [List.getD]
    have hint : int32 ((sum : ℤ)+(luhnValue flag c : ℤ)) = (sum+luhnValue flag c : ℕ) := by
      rw [int32_of_mem (by omega)]
      rfl
    rw [hlen,checkLoop,hget]
    simp only [checkDigit_eq hc,hint,List.append_assoc]
    rw [ih hdigits (by omega),List.reverse_append,List.reverse_singleton,List.singleton_append,luhnFrom,Nat.add_assoc]

theorem confirmChecksum_iff (h : ∀ c ∈ digits, isdigit c = true) (hlen : digits.length ≤ 28) :
    confirmChecksum digits = true ↔ 10 ∣ luhn digits := by
  have hloop : checkLoop (digits ++ []) digits.length false (0 : ℕ) = (0+luhnFrom false digits.reverse : ℕ) :=
    checkLoop_eq h (by omega) []
  rw [List.append_nil,Nat.zero_add] at hloop
  have hloop : checkLoop digits digits.length false 0 = (luhn digits : ℕ) := hloop
  rw [confirmChecksum,hloop,decide_eq_true_eq,Int.tmod_eq_emod_of_nonneg (Int.natCast_nonneg _)]
  omega

/-! ### The lengths -/

theorem getMask_ne_zero (type : CardType) : getMask type ≠ 0 := by
  cases type <;> decide

theorem shiftMask_ne_zero (n : ℕ) : shiftMask n ≠ 0 := by
  rw [shiftMask,Nat.one_shiftLeft]
  exact (Nat.two_pow_pos _).ne'

theorem getMask_lt (type : CardType) : getMask type < 2^8 := by
  cases type <;> decide

/-- No type has more than nineteen digits. -/
theorem length_of_allowed (h : AllowedLength digits) : digits.length ≤ 28 := by
  by_contra hlong
  apply h.2
  have hmask := getMask_lt (getCardType digits digits.length)
  rw [shiftMask,Nat.one_shiftLeft,Nat.and_comm,Nat.and_two_pow]
  have hbit : (getMask (getCardType digits digits.length)).testBit (digits.length-12) = false := by
    apply Nat.testBit_lt_two_pow
    exact hmask.trans_le (Nat.pow_le_pow_right (by decide) (by omega))
  rw [hbit,Bool.toNat_false,Nat.zero_mul]

theorem getCardName_ne_nil (type : CardType) : getCardName type ≠ [] := by
  cases type <;> decide

/-- On a text that does not end in a separator, the call takes every number of 12 to 28 digits whose checksum
fits. -/
theorem verifyCard_of_fits (h : ¬EndsInSep s) (hfits : CardFits (withoutSeps (cstr s)) (behind s)) :
    verifyCard s = getCardName (getCardType (withoutSeps (cstr s)) (withoutSeps (cstr s)).length) := by
  have hnul : 0 ∉ withoutSeps (cstr s) := nul_not_mem_filter _ s
  rw [verifyCard,cleanCard_eq h,cstr_append hnul (cstr_behind s)]
  generalize withoutSeps (cstr s) = digits at *
  obtain ⟨hdigits,hlow,hhigh,hsum⟩ := hfits
  have hall : digits.all isdigit = true := List.all_eq_true.mpr hdigits
  have hne : ¬(digits ++ behind s).length = 0 := by
    rw [List.length_append]
    omega
  have hmask : ¬(digits.length < 12 ∨
      ¬(shiftMask digits.length ≠ 0 ∧ getMask (getCardType digits digits.length) ≠ 0)) :=
    not_or.mpr ⟨hlow.not_gt,not_not.mpr ⟨shiftMask_ne_zero _,getMask_ne_zero _⟩⟩
  have hcheck : ¬(getCardType digits digits.length ≠ .enroute ∧ ¬confirmChecksum (digits ++ behind s) = true) :=
    fun h => hsum.elim h.1 h.2
  simp only [if_neg hne,if_pos hall,if_neg hhigh.not_gt,if_neg hmask,if_neg hcheck]

theorem verifyCard_of_not_fits (h : ¬EndsInSep s) (hfits : ¬CardFits (withoutSeps (cstr s)) (behind s)) :
    verifyCard s = [] := by
  have hnul : 0 ∉ withoutSeps (cstr s) := nul_not_mem_filter _ s
  rw [verifyCard,cleanCard_eq h,cstr_append hnul (cstr_behind s)]
  generalize withoutSeps (cstr s) = digits at *
  dsimp only
  split_ifs with hempty hall hlong hmask hcheck
  · rfl
  · rfl
  · rfl
  · rfl
  · -- every test is passed
    refine absurd ⟨List.all_eq_true.mp hall,not_lt.mp (not_or.mp hmask).1,not_lt.mp hlong,?_⟩ hfits
    by_contra hsum
    exact hcheck (not_or.mp hsum)
  · rfl

/-- A separator at the end stays, and is no digit. -/
theorem verifyCard_of_endsInSep (h : EndsInSep s) : verifyCard s = [] := by
  obtain ⟨hnul,d,hd,hsep⟩ := h
  obtain ⟨hnul,hlast⟩ := clean_of_last cardSeps (by decide) hnul hd
  have hseps : (cardSeps.all fun c => !isdigit c) = true := rfl
  have hdigit : isdigit d = false := by
    simpa using List.all_eq_true.mp hseps d hsep
  have hall : ¬(cleanCard s).all isdigit = true := by
    intro hall
    have hd := List.all_eq_true.mp hall d (List.mem_of_getLast? hlast)
    rw [hdigit] at hd
    exact Bool.false_ne_true hd
  have hcstr : cstr (cleanCard s) = cleanCard s := cstr_of_nul_free hnul
  simp only [verifyCard,hcstr,if_neg hall,ite_self]

theorem withoutSeps_of_nul (h : 0 ∈ s) : 0 ∈ withoutSeps s := List.mem_filter.mpr ⟨h,rfl⟩

theorem fits_of_isCard (h : IsCard digits) : CardFits digits [] := by
  obtain ⟨hdigits,hallowed,hsum⟩ := h
  have hlen := length_of_allowed hallowed
  refine ⟨hdigits,hallowed.1,hlen,hsum.imp_right fun hluhn => ?_⟩
  rw [List.append_nil]
  exact (confirmChecksum_iff hdigits hlen).mpr hluhn

theorem isCard_of_fits (h : CardFits digits []) (hallowed : AllowedLength digits) : IsCard digits := by
  obtain ⟨hdigits,-,hlen,hsum⟩ := h
  rw [List.append_nil] at hsum
  exact ⟨hdigits,hallowed,hsum.imp_right (confirmChecksum_iff hdigits hlen).mp⟩

/-- Exactly these texts are taken wrongly: cards that end in a separator, and what only looks like a card. -/
theorem verifiesCard_iff (s : Bytes) :
    VerifiesCard s ↔ ¬(EndsInSep s ∧ IsCard (withoutSeps s)) ∧ ¬(¬EndsInSep s ∧ LooksLikeCard s) := by
  by_cases hend : EndsInSep s
  · rw [and_iff_left (fun h => h.1 hend),VerifiesCard,verifyCard_of_endsInSep hend]
    refine ⟨fun h hcard => getCardName_ne_nil _ (h.1 hcard.2).symm,fun h => ⟨fun hcard => ?_,fun _ => rfl⟩⟩
    exact absurd ⟨hend,hcard⟩ h
  rw [and_iff_right (fun h => hend h.1),and_iff_right hend]
  by_cases hfits : CardFits (withoutSeps (cstr s)) (behind s)
  · have htaken := verifyCard_of_fits hend hfits
    by_cases hnul : 0 ∈ s
    · have hcard : ¬IsCard (withoutSeps s) := fun h => absurd (h.1 0 (withoutSeps_of_nul hnul)) (by decide)
      refine iff_of_false (fun h => ?_) (not_not.mpr ⟨hfits,Or.inl hnul⟩)
      exact getCardName_ne_nil _ (htaken.symm.trans (h.2 hcard))
    · rw [LooksLikeCard,VerifiesCard,htaken]
      rw [(behind_eq_nil_iff s).mpr hnul,cstr_of_nul_free hnul] at hfits
      rw [(behind_eq_nil_iff s).mpr hnul,cstr_of_nul_free hnul]
      constructor
      · rintro ⟨-,hno⟩ ⟨-,hlooks⟩
        exact getCardName_ne_nil _ (hno fun hcard => hlooks.elim hnul fun h => h hcard.2.1)
      · intro h
        have hallowed : AllowedLength (withoutSeps s) := by
          by_contra hnot
          exact h ⟨hfits,Or.inr hnot⟩
        exact ⟨fun _ => rfl,fun hcard => absurd (isCard_of_fits hfits hallowed) hcard⟩
  · refine iff_of_true ⟨fun hcard => ?_,fun _ => verifyCard_of_not_fits hend hfits⟩ (fun h => hfits h.1)
    have hnul : 0 ∉ s := fun hnul => absurd (hcard.1 0 (withoutSeps_of_nul hnul)) (by decide)
    rw [(behind_eq_nil_iff s).mpr hnul,cstr_of_nul_free hnul] at hfits
    exact absurd (fits_of_isCard hcard) hfits

-- the dash at the end stays in the text
example : verifyCard (str "4111-1111-1111-1111") = str "visa" ∧ verifyCard (str "4111111111111111-") = [] := by
  decide +kernel

/-- Twelve digits are no card's number. -/
theorem not_verifiesCard : ¬∀ s, VerifiesCard s := by
  intro h
  have hcard : ¬IsCard (withoutSeps (str "400000000002")) := fun hcard => hcard.2.1.2 (by decide)
  have hempty := (h (str "400000000002")).2 hcard
  exact absurd hempty (by decide +kernel)

end

end Smx
