import Smx.Base.Error
import Smx.Lib.LittleEndian
import Smx.Strings.Radix

/-! `%pack` and `%unpack`. -/
namespace Smx
open LittleEndian

/-- The count behind a letter of a template, which is at least 1, what stands behind it, and whether there is one. -/
def templCount (w : LongSize) (p : Bytes) : ℕ × Bytes × Bool :=
  match p with
  | c::_ =>
    if isdigit c then
      let nlen := int32 (strtol0 w p)
      (if nlen ≤ 0 then 1 else nlen.toNat,(readNumber p).2.2,true)
    else (1,p,false)
  | [] => (1,[],false)

/-- `Grow`, and what is filled in. -/
def padTo (text : Bytes) (n : ℕ) (fill : Byte) : Bytes := (text ++ List.replicate (n-text.length) fill).take n

/-- The `DWORD` of an argument. -/
def dwordOf (w : LongSize) (lower : Bool) (sarg : Bytes) : ℕ :=
  if lower then strtoul0 w sarg else (strtol0 w sarg % 2^w.bits).toNat

/-- The loop over the arguments of a number item, from number `i` on; `none` where one is a null pointer. -/
def packNums (w : LongSize) (lower : Bool) (args : List Bytes) : ℕ → ℕ → Option Bytes
  | 0,_ => some []
  | n+1,i =>
    let sarg := args.getD i []
    if sarg = [] then none
    else (packNums w lower args n (i+1)).map fun out => toLE w.bytes (dwordOf w lower sarg) ++ out

/-- The loop of `EvalPack`: what is put out, and the number of the next argument. `junk` is what a `DWORD` is that has not
been set. -/
def packLoop (w : LongSize) (junk : ℕ → ℕ) (args : List Bytes) : ℕ → Bytes → ℕ → Option (Bytes × ℕ)
  | _,[],i => some ([],i)
  | 0,_::_,_ => none
  | k+1,c::p,i =>
    if c = ch 'a' ∨ c = ch 'A' then
      let (nlen,p,counted) := templCount w p
      -- with a count, the letter is not looked at any more
      let text := padTo (args.getD i []) nlen (if c = ch 'a' ∧ counted = false then ch ' ' else 0)
      -- no `break`: the case of numbers follows
      let (n,p,_) := templCount w p
      (packLoop w junk args k p (i+1+n)).map fun (out,i') =>
        (text ++ (List.range n).flatMap (fun j => toLE w.bytes (junk (i+1+j))) ++ out,i')
    else if c = ch 'l' ∨ c = ch 'L' then
      let (nlen,p,_) := templCount w p
      (packNums w (c = ch 'l') args nlen i).bind fun text =>
        (packLoop w junk args k p (i+nlen)).map fun (out,i') => (text ++ out,i')
    else packLoop w junk args k p i

/-- `EvalPack`. -/
def evalPack (w : LongSize) (junk : ℕ → ℕ) (args : List Bytes) : Option (Except CtxEx (Bytes × ℕ)) :=
  match validArgm "pack" 2 args.length with
  | some ex => some (.error ex)
  | none =>
    let templ := cstr (args.getD 0 [])
    (packLoop w junk args templ.length templ 1).map .ok

/-- What one `PutS` or `PutN` puts out, a number in decimal. -/
inductive PackField
  | bytes (b : Bytes)
  | num (x : ℤ)
  deriving DecidableEq

/-- A `long` or an `unsigned int` at `d`; `none` where it is not in the data. -/
def readNum (w : LongSize) (data : Bytes) (d : ℕ) (lower : Bool) : Option ℤ :=
  let n := if lower then w.bytes else 4
  if d+n ≤ data.length then
    let v := ofLE ((data.drop d).take n)
    some (if lower then signed w.bits v else v)
  else none

/-- The loop of `EvalUnpack`; `none` where it reads outside of the data. -/
def unpackLoop (w : LongSize) (data : Bytes) : ℕ → Bytes → ℕ → ℤ → Option (List PackField)
  | _,[],_,_ => some []
  | 0,_::_,_,_ => none
  | k+1,c::p,d,dlen =>
    if c = ch 'a' ∨ c = ch 'A' then
      let (nlen,p,_) := templCount w p
      let n := min (nlen : ℤ) dlen
      if n < 0 ∨ data.length < d+n.toNat then none
      else
        let dlen := dlen-4
        -- no `break`, but the letter is none of a number
        let p := if 4 ≤ dlen then (templCount w p).2.1 else p
        (unpackLoop w data k p (d+n.toNat) dlen).map (.bytes ((data.drop d).take n.toNat)::·)
    else if (c = ch 'l' ∨ c = ch 'L') ∧ 4 ≤ dlen then
      let (nlen,p,_) := templCount w p
      (readNum w data d (c = ch 'l')).bind fun x =>
        (unpackLoop w data k p d dlen).map (List.replicate nlen (.num x) ++ ·)
    else unpackLoop w data k p d dlen

/-- `EvalUnpack`. -/
def evalUnpack (w : LongSize) (args : List Bytes) : Option (Except CtxEx (List PackField)) :=
  match validArgm "unpack" 2 args.length with
  | some ex => some (.error ex)
  | none =>
    let templ := cstr (args.getD 0 [])
    let data := args.getD 1 []
    (unpackLoop w data templ.length templ 0 data.length).map .ok

/-- An item of a template with the values for it. -/
inductive PackItem
  | text (upper : Bool) (count : Option ℕ) (arg : Bytes)
  | nums (upper counted : Bool) (vals : List ℤ)

namespace PackItem

/-- A count is positive, and says how many numbers there are, which are unsigned or signed ones of 32 bits. -/
def Ok : PackItem → Prop
  | text _ count _ => ∀ n ∈ count, 0 < n
  | nums upper counted vals => vals ≠ [] ∧ (counted = false → vals.length = 1) ∧
      ∀ v ∈ vals, if upper then -2^31 ≤ v ∧ v < 2^31 else 0 ≤ v ∧ v < 2^32

def template : PackItem → Bytes
  | text upper count _ => (if upper then ch 'A' else ch 'a')::(count.map decDigits).getD []
  | nums upper counted vals => (if upper then ch 'L' else ch 'l')::if counted then decDigits vals.length else []

def args : PackItem → List Bytes
  | text _ _ arg => [arg]
  | nums _ _ vals => vals.map decText

def packed : PackItem → Bytes
  | text upper count arg => padTo arg (count.getD 1) (if upper then 0 else ch ' ')
  | nums _ _ vals => vals.flatMap fun v => toLE 4 (v % 2^32).toNat

def fields : PackItem → List PackField
  | text upper count arg => [.bytes (padTo arg (count.getD 1) (if upper then 0 else ch ' '))]
  | nums _ _ vals => vals.map .num

/-- A number item whose values are all `v`. -/
def IsNums (v : ℤ) : PackItem → Prop
  | text _ _ _ => False
  | nums _ _ vals => ∀ x ∈ vals, x = v

end PackItem

/-- A template and the arguments that match it, whose number is an `int`. -/
structure PackCall where
  items : List PackItem
  ok : ∀ it ∈ items, it.Ok
  isInt : (items.flatMap PackItem.args).length+1 < 2^31

namespace PackCall

def template (c : PackCall) : Bytes := c.items.flatMap PackItem.template
def args (c : PackCall) : List Bytes := c.items.flatMap PackItem.args
def packed (c : PackCall) : Bytes := c.items.flatMap PackItem.packed
def fields (c : PackCall) : List PackField := c.items.flatMap PackItem.fields

end PackCall

/-- `%pack` puts out the items and uses up the arguments, and `%unpack` gives the fields back. -/
structure PacksBack (w : LongSize) (junk : ℕ → ℕ) (c : PackCall) : Prop where
  pack : evalPack w junk (c.template::c.args) = some (.ok (c.packed,1+c.args.length))
  unpack : evalUnpack w [c.template,c.packed] = some (.ok c.fields)

variable {w : LongSize} {junk : ℕ → ℕ} {args : List Bytes} {rest out : Bytes} {n k i i' : ℕ}

/-- What may stand behind a count. -/
def Stops (rest : Bytes) : Prop := ∀ c ∈ rest.head?, isdigit c = false ∧ c ≠ ch 'x' ∧ c ≠ ch 'X'

theorem stops_template (items : List PackItem) : Stops (items.flatMap PackItem.template) := by
  intro c hc
  cases items with
  | nil => cases hc
  | cons it items =>
    cases it with
    | text upper count arg =>
      obtain rfl := Option.some.inj hc
      cases upper <;> decide
    | nums upper counted vals =>
      obtain rfl := Option.some.inj hc
      cases upper <;> decide

theorem templCount_none (h : Stops rest) : templCount w rest = (1,rest,false) := by
  cases rest with
  | nil => rfl
  | cons c rest => simp [templCount,(h c rfl).1]

theorem decDigits_cons (n : ℕ) : ∃ c r, decDigits n = c::r ∧ isdigit c = true := by
  have hdigits := (decDigits_spec n).1
  have hne : decDigits n ≠ [] := decDigits_ne_nil n
  obtain ⟨c,r,hcons⟩ := List.exists_cons_of_ne_nil hne
  exact ⟨c,r,hcons,hdigits c (by simp [hcons])⟩

theorem strtol0_decDigits (h : Stops rest) (hn : n < 2^31) : strtol0 w (decDigits n ++ rest) = n := by
  have hle : (n : ℤ) ≤ 2^(w.bits-1)-1 := by
    cases w <;> simp [LongSize.bits,LongSize.bytes] <;> omega
  rw [strtol0,readNumber_decDigits h]
  exact min_eq_right hle

theorem strtoul0_decDigits (h : Stops rest) (hn : n < 2^32) : strtoul0 w (decDigits n ++ rest) = n := by
  have hlt : ¬2^w.bits ≤ n := by
    cases w <;> simp [LongSize.bits,LongSize.bytes] <;> omega
  rw [strtoul0,readNumber_decDigits h]
  exact if_neg hlt

/-- A count is passed as a whole. -/
theorem templCount_digits (h : Stops rest) : ∃ m, 0 < m ∧ templCount w (decDigits n ++ rest) = (m,rest,true) := by
  obtain ⟨c,r,hcons,hc⟩ := decDigits_cons n
  have hread := readNumber_decDigits (n := n) h
  rw [hcons,List.cons_append] at hread ⊢
  rw [templCount,if_pos hc,hread]
  refine ⟨_,?_,rfl⟩
  split_ifs with h0
  · exact Nat.one_pos
  · omega

theorem templCount_of_lt (h : Stops rest) (h0 : 0 < n) (hn : n < 2^31) :
    templCount w (decDigits n ++ rest) = (n,rest,true) := by
  obtain ⟨c,r,hcons,hc⟩ := decDigits_cons n
  have hread := readNumber_decDigits (n := n) h
  have hval := strtol0_decDigits (w := w) h hn
  have hint : int32 n = n := int32_of_mem (by omega)
  rw [hcons,List.cons_append] at hread hval ⊢
  rw [templCount,if_pos hc,hread,hval]
  simp only [hint]
  rw [if_neg (by omega),Int.toNat_natCast]

/-- The count of a number item, which is as many as its values. -/
theorem templCount_nums {counted : Bool} {vals : List ℤ} (h : Stops rest) (hne : vals ≠ [])
    (hone : counted = false → vals.length = 1) (hlt : vals.length < 2^31) :
    templCount w ((if counted then decDigits vals.length else []) ++ rest) = (vals.length,rest,counted) := by
  cases counted with
  | false =>
    rw [if_neg Bool.false_ne_true,List.nil_append,templCount_none h,hone rfl]
  | true => exact templCount_of_lt h (List.length_pos_iff.mpr hne) hlt

theorem length_args_nums (upper counted : Bool) (vals : List ℤ) :
    (PackItem.nums upper counted vals).args.length = vals.length := List.length_map _

/-- The letter of a number item, which no text has. -/
theorem nums_letter (upper : Bool) :
    ¬((if upper then ch 'L' else ch 'l') = ch 'a' ∨ (if upper then ch 'L' else ch 'l') = ch 'A') ∧
      ((if upper then ch 'L' else ch 'l') = ch 'l' ∨ (if upper then ch 'L' else ch 'l') = ch 'L') ∧
      decide ((if upper then ch 'L' else ch 'l') = ch 'l') = !upper := by
  cases upper <;> decide

theorem packLoop_nums {upper counted : Bool} {vals : List ℤ} (hok : (PackItem.nums upper counted vals).Ok)
    (hlt : vals.length < 2^31) (h : Stops rest) :
    packLoop w junk args (k+1) ((PackItem.nums upper counted vals).template ++ rest) i =
      (packNums w (!upper) args vals.length i).bind fun text =>
        (packLoop w junk args k rest (i+vals.length)).map fun (out,i') => (text ++ out,i') := by
  obtain ⟨hne,hone,-⟩ := hok
  obtain ⟨hnot,hletter,hlower⟩ := nums_letter upper
  rw [PackItem.template,List.cons_append,packLoop,if_neg hnot,if_pos hletter,templCount_nums h hne hone hlt,hlower]

/-- An `a` or `A` uses up two arguments. -/
theorem packLoop_text {upper : Bool} {count : Option ℕ} {arg : Bytes} (h : Stops rest)
    (hrun : packLoop w junk args (k+1) ((PackItem.text upper count arg).template ++ rest) i = some (out,i')) :
    ∃ out', packLoop w junk args k rest (i+2) = some (out',i') := by
  have hread : ∃ m b, templCount w ((count.map decDigits).getD [] ++ rest) = (m,rest,b) := by
    cases count with
    | none => exact ⟨1,false,templCount_none h⟩
    | some n =>
      obtain ⟨m,-,hm⟩ := templCount_digits (w := w) (n := n) h
      exact ⟨m,true,hm⟩
  have hletter : (if upper then ch 'A' else ch 'a') = ch 'a' ∨ (if upper then ch 'A' else ch 'a') = ch 'A' := by
    cases upper <;> decide
  obtain ⟨m,b,hm⟩ := hread
  rw [PackItem.template,List.cons_append,packLoop,if_pos hletter,hm] at hrun
  simp only [templCount_none h,Option.map_eq_some_iff] at hrun
  obtain ⟨⟨out',i''⟩,hloop,heq⟩ := hrun
  have hi : i'' = i' := (Prod.mk.inj heq).2
  exact ⟨out',by rw [hloop,hi]⟩

theorem packNums_length {lower : Bool} (hrun : packNums w lower args n i = some out) : out.length = w.bytes*n := by
  induction n generalizing i out with
  | zero =>
    obtain rfl := Option.some.inj hrun
    rfl
  | succ n ih =>
    rw [packNums] at hrun
    split_ifs at hrun with hnull
    obtain ⟨out',hout,rfl⟩ := Option.map_eq_some_iff.mp hrun
    rw [List.length_append,length_toLE,ih hout,Nat.mul_succ,Nat.add_comm]

/-- A run uses up the arguments, and more of them where there is a text; a number takes the bytes of a `long`. -/
theorem packLoop_uses (items : List PackItem) (hok : ∀ it ∈ items, it.Ok)
    (hlt : (items.flatMap PackItem.args).length < 2^31)
    (hrun : packLoop w junk args k (items.flatMap PackItem.template) i = some (out,i')) :
    i+(items.flatMap PackItem.args).length ≤ i' ∧
      (i' = i+(items.flatMap PackItem.args).length →
        (∀ it ∈ items, ∃ upper counted vals, it = .nums upper counted vals) ∧
          out.length = w.bytes*(items.flatMap PackItem.args).length) := by
  induction items generalizing k i out with
  | nil =>
    have hnil : some ([],i) = some (out,i') := by
      cases k <;> exact hrun
    obtain ⟨rfl,rfl⟩ := Prod.mk.inj (Option.some.inj hnil)
    exact ⟨le_rfl,fun _ => ⟨nofun,rfl⟩⟩
  | cons it items ih =>
    have hstops := stops_template items
    rw [List.flatMap_cons,List.length_append] at hlt ⊢
    rw [List.flatMap_cons] at hrun
    cases k with
    | zero => cases it <;> cases hrun
    | succ k =>
      cases it with
      | text upper count arg =>
        obtain ⟨out',hloop⟩ := packLoop_text hstops hrun
        have hle := (ih (fun it h => hok it (List.mem_cons_of_mem _ h)) (by omega) hloop).1
        simp only [PackItem.args,List.length_singleton]
        exact ⟨by omega,by omega⟩
      | nums upper counted vals =>
        have hlen := length_args_nums upper counted vals
        rw [hlen] at hlt ⊢
        rw [packLoop_nums (hok _ List.mem_cons_self) (by omega) hstops] at hrun
        obtain ⟨text,htext,hrun⟩ := Option.bind_eq_some_iff.mp hrun
        obtain ⟨⟨out',i''⟩,hloop,heq⟩ := Option.map_eq_some_iff.mp hrun
        obtain ⟨rfl,rfl⟩ := Prod.mk.inj heq
        obtain ⟨hle,hall⟩ := ih (fun it h => hok it (List.mem_cons_of_mem _ h)) (by omega) hloop
        refine ⟨by omega,fun hi => ?_⟩
        obtain ⟨hnums,hout⟩ := hall (by omega)
        refine ⟨?_,?_⟩
        · rintro it (_ | ⟨_,h⟩)
          · exact ⟨upper,counted,vals,rfl⟩
          · exact hnums it h
        · rw [List.length_append,packNums_length htext,hout,Nat.mul_add]

/-- A number from 0 up to `2^31` is read the same with a sign and without. -/
theorem dwordOf_decText {v : ℤ} (h0 : 0 ≤ v) (hv : v < 2^31) (lower : Bool) :
    dwordOf .four lower (decText v) = v.toNat := by
  have hdec : decText v = decDigits v.toNat ++ [] := by rw [decText,if_neg h0.not_gt,List.append_nil]
  have hstops : Stops [] := nofun
  rw [dwordOf,hdec,strtol0_decDigits hstops (by omega),strtoul0_decDigits hstops (by omega)]
  have hmod : ((v.toNat : ℤ) % 2^LongSize.four.bits).toNat = v.toNat := by
    simp only [LongSize.bits,LongSize.bytes]
    omega
  rw [hmod,ite_self]

theorem decText_ne_nil (v : ℤ) : decText v ≠ [] := by
  rw [decText]
  split_ifs
  · exact List.cons_ne_nil _ _
  · exact decDigits_ne_nil _

theorem packNums_of_eq {v : ℤ} {lower : Bool} (h0 : 0 ≤ v) (hv : v < 2^31)
    (hargs : ∀ j, i ≤ j → j < i+n → args.getD j [] = decText v) :
    packNums .four lower args n i = some (List.replicate n (toLE 4 v.toNat)).flatten := by
  induction n generalizing i with
  | zero => rfl
  | succ n ih =>
    have hne := decText_ne_nil v
    rw [packNums,hargs i le_rfl (by omega),if_neg hne,ih fun j hj hlt => hargs j (by omega) (by omega),
      dwordOf_decText h0 hv]
    rfl

theorem packed_of_isNums {v : ℤ} (h0 : 0 ≤ v) (hv : v < 2^31) {it : PackItem} (h : it.IsNums v) :
    it.packed = (List.replicate it.args.length (toLE 4 v.toNat)).flatten := by
  cases it with
  | text upper count arg => cases h
  | nums upper counted vals =>
    have hvals : vals = List.replicate vals.length v := List.eq_replicate_iff.mpr ⟨rfl,h⟩
    have hmod : (v % 2^32).toNat = v.toNat := by omega
    rw [length_args_nums,PackItem.packed,hvals,List.flatMap_replicate,List.length_replicate,hmod]

/-- Where all values are `v`, the items are put out. -/
theorem packLoop_of_isNums {v : ℤ} (junk : ℕ → ℕ) (h0 : 0 ≤ v) (hv : v < 2^31) (items : List PackItem) (hok : ∀ it ∈ items, it.Ok)
    (hnums : ∀ it ∈ items, it.IsNums v) (hlt : (items.flatMap PackItem.args).length < 2^31) (hk : items.length ≤ k)
    (hargs : ∀ j, i ≤ j → j < i+(items.flatMap PackItem.args).length → args.getD j [] = decText v) :
    packLoop .four junk args k (items.flatMap PackItem.template) i =
      some (items.flatMap PackItem.packed,i+(items.flatMap PackItem.args).length) := by
  induction items generalizing k i with
  | nil => cases k <;> rfl
  | cons it items ih =>
    have hit := hnums it List.mem_cons_self
    have hpacked := packed_of_isNums h0 hv hit
    cases it with
    | text upper count arg => cases hit
    | nums upper counted vals =>
      have hlen := length_args_nums upper counted vals
      obtain ⟨k,rfl⟩ := Nat.exists_eq_succ_of_ne_zero (Nat.ne_of_gt (Nat.lt_of_lt_of_le (Nat.succ_pos _) hk))
      rw [List.flatMap_cons,List.length_append,hlen] at hlt hargs
      rw [List.flatMap_cons,List.flatMap_cons,List.flatMap_cons,List.length_append,hlen,hpacked,hlen,
        packLoop_nums (hok _ List.mem_cons_self) (by omega) (stops_template items),
        packNums_of_eq h0 hv fun j hj hlt => hargs j hj (by omega)]
      have hrest := ih (k := k) (i := i+vals.length) (fun it h => hok it (List.mem_cons_of_mem _ h))
        (fun it h => hnums it (List.mem_cons_of_mem _ h)) (by omega) (Nat.le_of_succ_le_succ hk)
        fun j hj hlt => hargs j (by omega) (by omega)
      simp only [Option.bind_some,hrest,Option.map_some,Nat.add_assoc]

/-- What `%unpack` makes of an item of numbers, which stays at the same place of the data. -/
def PackItem.read (x : Bool → ℤ) : PackItem → List PackField
  | text _ _ _ => []
  | nums upper _ vals => List.replicate vals.length (.num (x (!upper)))

theorem unpackLoop_nums {data : Bytes} {d : ℕ} {dlen : ℤ} {upper counted : Bool} {vals : List ℤ}
    (hok : (PackItem.nums upper counted vals).Ok) (hlt : vals.length < 2^31) (h : Stops rest) (hlen : 4 ≤ dlen) :
    unpackLoop w data (k+1) ((PackItem.nums upper counted vals).template ++ rest) d dlen =
      (readNum w data d (!upper)).bind fun x =>
        (unpackLoop w data k rest d dlen).map (List.replicate vals.length (.num x) ++ ·) := by
  obtain ⟨hne,hone,-⟩ := hok
  obtain ⟨hnot,hletter,hlower⟩ := nums_letter upper
  rw [PackItem.template,List.cons_append,unpackLoop,if_neg hnot,if_pos ⟨hletter,hlen⟩,templCount_nums h hne hone hlt,
    hlower]

theorem unpackLoop_of_read {data : Bytes} {d : ℕ} {dlen : ℤ} {x : Bool → ℤ} (hlen : 4 ≤ dlen)
    (hx : ∀ lower, readNum w data d lower = some (x lower)) (items : List PackItem) (hok : ∀ it ∈ items, it.Ok)
    (hnums : ∀ it ∈ items, ∃ upper counted vals, it = .nums upper counted vals)
    (hlt : (items.flatMap PackItem.args).length < 2^31) (hk : items.length ≤ k) :
    unpackLoop w data k (items.flatMap PackItem.template) d dlen = some (items.flatMap (PackItem.read x)) := by
  induction items generalizing k with
  | nil => cases k <;> rfl
  | cons it items ih =>
    obtain ⟨upper,counted,vals,rfl⟩ := hnums it List.mem_cons_self
    have hargs := length_args_nums upper counted vals
    obtain ⟨k,rfl⟩ := Nat.exists_eq_succ_of_ne_zero (Nat.ne_of_gt (Nat.lt_of_lt_of_le (Nat.succ_pos _) hk))
    rw [List.flatMap_cons,List.length_append,hargs] at hlt
    rw [List.flatMap_cons,List.flatMap_cons,
      unpackLoop_nums (hok _ List.mem_cons_self) (by omega) (stops_template items) hlen,hx,
      ih (fun it h => hok it (List.mem_cons_of_mem _ h)) (fun it h => hnums it (List.mem_cons_of_mem _ h)) (by omega)
        (Nat.le_of_succ_le_succ hk)]
    rfl

/-- A number that a data begins with, as `%unpack` reads it. -/
theorem readNum_toLE {x : ℕ} (hx : x < 2^32) (rest : Bytes) (lower : Bool) :
    readNum .four (toLE 4 x ++ rest) 0 lower = some (if lower then signed 32 x else x) := by
  have hlen : 4 ≤ (toLE 4 x ++ rest).length := by simp
  have hn : (if lower then LongSize.four.bytes else 4) = 4 := ite_self 4
  have htake : ((toLE 4 x ++ rest).drop 0).take 4 = toLE 4 x := List.take_left' (length_toLE 4 x)
  rw [readNum,hn]
  simp only [Nat.zero_add,hlen,if_true,htake,ofLE_toLE_of_lt (k := 4) hx]
  rfl

theorem flatMap_inj {α β : Type*} {f g : α → List β} (items : List α) (hlen : ∀ a ∈ items, (f a).length = (g a).length)
    (h : items.flatMap f = items.flatMap g) : ∀ a ∈ items, f a = g a := by
  induction items with
  | nil => nofun
  | cons a items ih =>
    obtain ⟨ha,hrest⟩ := List.append_inj h (hlen a List.mem_cons_self)
    rintro b (_ | ⟨_,hb⟩)
    · exact ha
    · exact ih (fun a h => hlen a (List.mem_cons_of_mem _ h)) hrest b hb

theorem length_le_template (items : List PackItem) : items.length ≤ (items.flatMap PackItem.template).length := by
  induction items with
  | nil => exact le_rfl
  | cons it items ih =>
    have hit : 0 < it.template.length := by cases it <;> exact Nat.succ_pos _
    rw [List.flatMap_cons,List.length_append,List.length_cons]
    omega

theorem nul_not_mem_template (it : PackItem) : 0 ∉ it.template := by
  have hzero : ∀ n, 0 ∉ decDigits n := by
    intro n h
    exact absurd ((decDigits_spec n).1 0 h) (by decide)
  cases it with
  | text upper count arg =>
    rw [PackItem.template,List.mem_cons,not_or]
    refine ⟨by cases upper <;> decide,?_⟩
    cases count with
    | none => exact List.not_mem_nil
    | some n => exact hzero n
  | nums upper counted vals =>
    rw [PackItem.template,List.mem_cons,not_or]
    refine ⟨by cases upper <;> decide,?_⟩
    cases counted with
    | false => exact List.not_mem_nil
    | true => exact hzero vals.length

theorem packed_length (items : List PackItem) (hnums : ∀ it ∈ items, ∃ upper counted vals, it = .nums upper counted vals) :
    (items.flatMap PackItem.packed).length = 4*(items.flatMap PackItem.args).length := by
  induction items with
  | nil => rfl
  | cons it items ih =>
    obtain ⟨upper,counted,vals,rfl⟩ := hnums it List.mem_cons_self
    have hit : (PackItem.nums upper counted vals).packed.length = 4*vals.length := by
      simp [PackItem.packed,List.length_flatMap,Nat.mul_comm]
    rw [List.flatMap_cons,List.flatMap_cons,List.length_append,List.length_append,hit,
      ih fun it h => hnums it (List.mem_cons_of_mem _ h),PackItem.args,List.length_map,Nat.mul_add]

namespace PackCall

variable {c : PackCall}

theorem cstr_template (c : PackCall) : cstr c.template = c.template := by
  apply cstr_of_nul_free
  intro h
  obtain ⟨it,-,hit⟩ := List.mem_flatMap.mp h
  exact nul_not_mem_template it hit

theorem args_ne_nil (h : c.items ≠ []) : c.args ≠ [] := by
  obtain ⟨it,items,hcons⟩ := List.exists_cons_of_ne_nil h
  have hok := c.ok it (by simp [hcons])
  rw [args,hcons,List.flatMap_cons]
  cases it with
  | text upper count arg => exact List.cons_ne_nil _ _
  | nums upper counted vals => simp [PackItem.args,hok.1]

theorem evalPack_eq (h : c.args ≠ []) :
    evalPack w junk (c.template::c.args) = (packLoop w junk (c.template::c.args) c.template.length c.template 1).map .ok := by
  have hlen : ¬(c.template::c.args).length < 2 := by
    have := List.length_pos_iff.mpr h
    rw [List.length_cons]
    omega
  rw [evalPack,validArgm,if_neg hlen]
  simp only [List.getD_cons_zero,cstr_template]

theorem evalUnpack_eq (c : PackCall) (data : Bytes) :
    evalUnpack w [c.template,data] = (unpackLoop w data c.template.length c.template 0 data.length).map .ok := by
  rw [evalUnpack,validArgm,if_neg (by simp)]
  simp only [List.getD_cons_zero,List.getD_cons_succ,cstr_template]

/-- What a call that is packed has in it. -/
theorem of_pack (h : evalPack w junk (c.template::c.args) = some (.ok (c.packed,1+c.args.length))) :
    w = .four ∧ c.items ≠ [] ∧ ∀ it ∈ c.items, ∃ upper counted vals, it = .nums upper counted vals := by
  have hargs : c.args ≠ [] := by
    intro hnil
    rw [evalPack,hnil,validArgm,if_pos (by simp)] at h
    cases Option.some.inj h
  have hitems : c.items ≠ [] := by
    intro hnil
    exact hargs (by rw [args,hnil]; rfl)
  rw [evalPack_eq hargs] at h
  obtain ⟨r,hloop,hr⟩ := Option.map_eq_some_iff.mp h
  obtain rfl := Except.ok.inj hr
  have hlt := c.isInt
  obtain ⟨-,huses⟩ := packLoop_uses c.items c.ok (by omega) hloop
  obtain ⟨hnums,hlen⟩ := huses rfl
  refine ⟨?_,hitems,hnums⟩
  have hpos := List.length_pos_iff.mpr hargs
  have hfour := packed_length c.items hnums
  rw [packed,hfour] at hlen
  cases w with
  | four => rfl
  | eight =>
    rw [args] at hpos
    rw [LongSize.bytes] at hlen
    omega

theorem args_eq {v : ℤ} (h : ∀ it ∈ c.items, it.IsNums v) : ∀ a ∈ c.args, a = decText v := by
  intro a ha
  obtain ⟨it,hit,ha⟩ := List.mem_flatMap.mp ha
  have hv := h it hit
  cases it with
  | text upper count arg => cases hv
  | nums upper counted vals =>
    obtain ⟨x,hx,rfl⟩ := List.mem_map.mp ha
    rw [hv x hx]

theorem packed_cons (hne : c.items ≠ []) (hnums : ∀ it ∈ c.items, ∃ upper counted vals, it = .nums upper counted vals) :
    ∃ upper counted v vals rest, .nums upper counted (v::vals) ∈ c.items ∧ c.packed = toLE 4 (v % 2^32).toNat ++ rest := by
  obtain ⟨it,items,hcons⟩ := List.exists_cons_of_ne_nil hne
  have hmem : it ∈ c.items := by simp [hcons]
  obtain ⟨upper,counted,vals,rfl⟩ := hnums it hmem
  obtain ⟨v,vals,rfl⟩ := List.exists_cons_of_ne_nil (c.ok _ hmem).1
  have hpacked : c.packed = toLE 4 (v % 2^32).toNat ++
      (vals.flatMap (fun v => toLE 4 (v % 2^32).toNat) ++ items.flatMap PackItem.packed) := by
    rw [packed,hcons,List.flatMap_cons,PackItem.packed,List.flatMap_cons,List.append_assoc]
  exact ⟨upper,counted,v,vals,_,hmem,hpacked⟩

theorem unpack_packed {x : ℕ} (hx : x < 2^32) (hpacked : c.packed = toLE 4 x ++ rest)
    (hnums : ∀ it ∈ c.items, ∃ upper counted vals, it = .nums upper counted vals) :
    evalUnpack .four [c.template,c.packed] =
      some (.ok (c.items.flatMap (PackItem.read fun lower => if lower then signed 32 x else x))) := by
  have hlt := c.isInt
  have hlen : (4 : ℤ) ≤ c.packed.length := by
    rw [hpacked,List.length_append,length_toLE]
    omega
  have hread : ∀ lower, readNum .four c.packed 0 lower = some (if lower then signed 32 x else x) := by
    intro lower
    rw [hpacked,readNum_toLE hx]
  rw [evalUnpack_eq,template,unpackLoop_of_read hlen hread c.items c.ok hnums (by omega) (length_le_template c.items)]
  rfl

end PackCall

theorem PackItem.fields_eq_read_iff {upper counted : Bool} {vals : List ℤ} {x : Bool → ℤ} :
    (PackItem.nums upper counted vals).fields = (PackItem.nums upper counted vals).read x ↔ ∀ v ∈ vals, v = x (!upper) := by
  rw [fields,read,List.eq_replicate_iff]
  simp

/-- `%pack` and `%unpack` agree for equal numbers only, which are not negative as signed ones, with a `long` of 4 bytes. -/
theorem packsBack_iff (w : LongSize) (junk : ℕ → ℕ) (c : PackCall) :
    PacksBack w junk c ↔
      w = .four ∧ c.items ≠ [] ∧ ∃ v, 0 ≤ v ∧ v < 2^31 ∧ ∀ it ∈ c.items, it.IsNums v := by
  have hlt := c.isInt
  constructor
  · intro h
    obtain ⟨rfl,hne,hnums⟩ := PackCall.of_pack h.pack
    obtain ⟨upper,counted,v,vals,rest,hmem,hpacked⟩ := PackCall.packed_cons hne hnums
    have hx : (v % 2^32).toNat < 2^32 := by omega
    have hunpack := h.unpack
    rw [PackCall.unpack_packed hx hpacked hnums] at hunpack
    have hfields := Except.ok.inj (Option.some.inj hunpack)
    have hall := flatMap_inj c.items (by
      intro it hit
      obtain ⟨upper,counted,vals,rfl⟩ := hnums it hit
      simp [PackItem.read,PackItem.fields]) hfields
    -- the first value fixes what both letters read
    have hfirst := PackItem.fields_eq_read_iff.mp (hall _ hmem).symm v List.mem_cons_self
    have hrange := (c.ok _ hmem).2.2 v List.mem_cons_self
    have hv : 0 ≤ v ∧ v < 2^31 := by
      cases upper with
      | false =>
        simp only [Bool.not_false,if_true,signed] at hfirst
        simp only [Bool.false_eq_true,if_false] at hrange
        split_ifs at hfirst <;> omega
      | true =>
        simp only [Bool.not_true,Bool.false_eq_true,if_false] at hfirst
        simp only [if_true] at hrange
        omega
    refine ⟨rfl,hne,v,hv.1,hv.2,fun it hit => ?_⟩
    obtain ⟨upper',counted',vals',rfl⟩ := hnums it hit
    intro y hy
    rw [PackItem.fields_eq_read_iff.mp (hall _ hit).symm y hy,signed_of_lt 32 (by omega),ite_self]
    omega
  · rintro ⟨rfl,hne,v,h0,hv,hall⟩
    have hnums : ∀ it ∈ c.items, ∃ upper counted vals, it = .nums upper counted vals := by
      intro it hit
      have hit := hall it hit
      cases it with
      | text upper count arg => cases hit
      | nums upper counted vals => exact ⟨upper,counted,vals,rfl⟩
    constructor
    · have hargs : ∀ j, 1 ≤ j → j < 1+(c.items.flatMap PackItem.args).length →
          (c.template::c.args).getD j [] = decText v := by
        intro j h1 hj
        obtain ⟨j,rfl⟩ := Nat.exists_eq_succ_of_ne_zero (Nat.ne_of_gt h1)
        have hlt : j < c.args.length := by
          rw [PackCall.args]
          omega
        rw [List.getD_cons_succ,List.getD_eq_getElem?_getD,List.getElem?_eq_getElem hlt]
        exact PackCall.args_eq hall _ (List.getElem_mem hlt)
      have hrun := packLoop_of_isNums junk h0 hv c.items c.ok hall (by omega) (length_le_template c.items) hargs
      rw [PackCall.evalPack_eq (PackCall.args_ne_nil hne)]
      exact congrArg (Option.map Except.ok) hrun
    · obtain ⟨upper,counted,v',vals,rest,hmem,hpacked⟩ := PackCall.packed_cons hne hnums
      obtain rfl := hall _ hmem v' List.mem_cons_self
      have hx : (v' % 2^32).toNat < 2^32 := by omega
      rw [PackCall.unpack_packed hx hpacked hnums,PackCall.fields]
      congr 2
      apply List.flatMap_congr
      intro it hit
      obtain ⟨upper,counted,vals,rfl⟩ := hnums it hit
      refine (PackItem.fields_eq_read_iff.mpr ?_).symm
      intro y hy
      rw [hall _ hit y hy,signed_of_lt 32 (by omega),ite_self]
      omega

/-- `%pack(a,x)` puts out a number behind the text that no argument gave. -/
theorem packsBack_text :
    ¬PacksBack .four (fun _ => 0) ⟨[.text false none (str "x")],by simp [PackItem.Ok],by decide⟩ ∧
      ¬PacksBack .eight (fun _ => 0) ⟨[.text false none (str "x")],by simp [PackItem.Ok],by decide⟩ := by
  constructor
  · intro h
    exact absurd h.pack (by decide)
  · intro h
    exact absurd h.pack (by decide)
end Smx
