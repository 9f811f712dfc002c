import Mathlib.Data.List.GetD
import Mathlib.Tactic.Common

/-! Groups of three octets as groups of four sextets, each with a character of its own. -/
namespace Sextet
variable {α : Type} {chr : ℕ → α} {pad : α} {val : α → ℕ} {s : List UInt8}

/-- The octets of 24 bits. -/
def octets (v : ℕ) : List UInt8 := [UInt8.ofNat (v/65536),UInt8.ofNat (v/256),UInt8.ofNat v]

/-- Four sextets as 24 bits. -/
def join (w x y z : ℕ) : ℕ := w*262144+x*4096+y*64+z

/-- The text of octets; the last group is padded. -/
def encode (chr : ℕ → α) (pad : α) : List UInt8 → List α
  | [] => []
  | [a] => [chr (a.toNat/4),chr (a.toNat % 4*16),pad,pad]
  | [a,b] => [chr (a.toNat/4),chr (a.toNat % 4*16+b.toNat/16),chr (b.toNat % 16*4),pad]
  | a::b::c::s => chr (a.toNat/4)::chr (a.toNat % 4*16+b.toNat/16)::chr (b.toNat % 16*4+c.toNat/64)::
      chr (c.toNat % 64)::encode chr pad s

/-- The octets of a text's whole groups. -/
def decode (val : α → ℕ) : List α → List UInt8
  | w::x::y::z::t => octets (join (val w) (val x) (val y) (val z)) ++ decode val t
  | _ => []

/-- How many characters pad the text of `n` octets. -/
def pads (n : ℕ) : ℕ := (3-n % 3) % 3

theorem pads_add_three (n : ℕ) : pads (n+3) = pads n := by
  rw [pads,pads]
  omega

theorem pads_lt (n : ℕ) : pads n < 3 := Nat.mod_lt _ (by decide)

@[simp] theorem length_encode (chr : ℕ → α) (pad : α) (s : List UInt8) :
    (encode chr pad s).length = 4*((s.length+2)/3) := by
  fun_induction encode chr pad s with
  | case1 => rfl
  | case2 a => simp
  | case3 a b => simp
  | case4 a b c s ih =>
    simp only [List.length_cons,ih]
    omega

@[simp] theorem length_decode (val : α → ℕ) (t : List α) : (decode val t).length = 3*(t.length/4) := by
  fun_induction decode val t with
  | case1 w x y z t ih =>
    rw [List.length_append,ih]
    simp only [octets,List.length_cons,List.length_nil]
    omega
  | case2 t h =>
    match t with
    | [] => simp
    | [w] => simp
    | [w,x] => simp
    | [w,x,y] => simp
    | w::x::y::z::t => exact absurd rfl (h w x y z t)

/-- Whole groups are written one after the other. -/
theorem encode_append {t : List UInt8} (h : 3 ∣ s.length) :
    encode chr pad (s ++ t) = encode chr pad s ++ encode chr pad t := by
  fun_induction encode chr pad s with
  | case1 => rfl
  | case2 a => simp at h
  | case3 a b => simp at h
  | case4 a b c s ih =>
    have hs : 3 ∣ s.length := by
      simp only [List.length_cons] at h
      omega
    simp only [List.cons_append,encode,ih hs]

/-- Three octets are what their four sextets stand for. -/
theorem octets_join (a b c : UInt8) : octets (join (a.toNat/4) (a.toNat % 4*16+b.toNat/16)
    (b.toNat % 16*4+c.toNat/64) (c.toNat % 64)) = [a,b,c] := by
  have ha := a.toNat_lt
  have hb := b.toNat_lt
  have hc := c.toNat_lt
  have hv : join (a.toNat/4) (a.toNat % 4*16+b.toNat/16) (b.toNat % 16*4+c.toNat/64) (c.toNat % 64) =
      a.toNat*65536+b.toNat*256+c.toNat := by
    rw [join]
    omega
  have hoctet {n : ℕ} {u : UInt8} (h : n % 256 = u.toNat) : UInt8.ofNat n = u := by
    apply UInt8.toNat_inj.mp
    rw [UInt8.toNat_ofNat']
    exact h
  rw [hv,octets,hoctet (u := a) (by omega),hoctet (u := b) (by omega),hoctet (u := c) (by omega)]

/-- The text of octets stands for them and a zero for each character of padding. -/
theorem decode_encode (hval : ∀ i < 64, val (chr i) = i) (hpad : val pad = 0) (s : List UInt8) :
    decode val (encode chr pad s) = s ++ List.replicate (pads s.length) 0 := by
  fun_induction encode chr pad s with
  | case1 => rfl
  | case2 a =>
    have ha := a.toNat_lt
    rw [decode,hval _ (by omega),hval _ (by omega),hpad]
    exact octets_join a 0 0
  | case3 a b =>
    have ha := a.toNat_lt
    have hb := b.toNat_lt
    rw [decode,hval _ (by omega),hval _ (by omega),hval _ (by omega),hpad]
    exact octets_join a b 0
  | case4 a b c s ih =>
    have ha := a.toNat_lt
    have hb := b.toNat_lt
    have hc := c.toNat_lt
    rw [decode,hval _ (by omega),hval _ (by omega),hval _ (by omega),hval _ (by omega),octets_join,ih]
    simp only [List.length_cons,pads_add_three,List.cons_append,List.nil_append]

/-- The padding stands behind the characters of sextets. -/
theorem encode_eq (chr : ℕ → α) (pad : α) (s : List UInt8) : ∃ body,
    encode chr pad s = body ++ List.replicate (pads s.length) pad ∧ ∀ c ∈ body, ∃ i < 64, c = chr i := by
  fun_induction encode chr pad s with
  | case1 => exact ⟨[],rfl,nofun⟩
  | case2 a =>
    have ha := a.toNat_lt
    refine ⟨_::[_],rfl,?_⟩
    simp only [List.forall_mem_cons]
    exact ⟨⟨_,by omega,rfl⟩,⟨_,by omega,rfl⟩,nofun⟩
  | case3 a b =>
    have ha := a.toNat_lt
    have hb := b.toNat_lt
    refine ⟨_::_::[_],rfl,?_⟩
    simp only [List.forall_mem_cons]
    exact ⟨⟨_,by omega,rfl⟩,⟨_,by omega,rfl⟩,⟨_,by omega,rfl⟩,nofun⟩
  | case4 a b c s ih =>
    have ha := a.toNat_lt
    have hb := b.toNat_lt
    have hc := c.toNat_lt
    obtain ⟨body,heq,hbody⟩ := ih
    refine ⟨chr (a.toNat/4)::chr (a.toNat % 4*16+b.toNat/16)::chr (b.toNat % 16*4+c.toNat/64)::
      chr (c.toNat % 64)::body,?_,?_⟩
    · simp only [List.length_cons,pads_add_three,heq,List.cons_append]
    · simp only [List.forall_mem_cons]
      exact ⟨⟨_,by omega,rfl⟩,⟨_,by omega,rfl⟩,⟨_,by omega,rfl⟩,⟨_,by omega,rfl⟩,hbody⟩

end Sextet
