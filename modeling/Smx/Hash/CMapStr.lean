import Smx.Hash.CMap
import Smx.Context.Bindings
import Smx.Strings.EnumSort

/-! `CMapStr`, a map from names: how names are hashed and compared, and what the program may rely on when it
asks for a name in another spelling or goes through all entries of a map. -/
namespace Smx
variable {κ γ ν σ : Type}

/-- The key may be a null pointer. -/
def HashCaseCharPtr (key : Option Bytes) : ℕ :=
  key.elim 0 fun str => (cstr str).foldl (fun acc c => hashChar acc (tolower c)) 0

/-- Null pointers are not equal to each other, and equal to every text. -/
def EqualCaseCharPtr (x y : Option Bytes) : ℤ :=
  x.elim (if y = none then 1 else 0) fun a => y.elim 0 fun b => stricmp a b

/-- The copy of a key that a `CMapStr` keeps. -/
def CMapStr.CopyKey (k : Option Bytes) : Bytes := k.elim [] cstr

/-- Names that differ in case only have one hash value: that of the lower case name. -/
theorem HashCaseCharPtr_eq (name : Bytes) : HashCaseCharPtr (some name) = hash_fun_default (mapKey name) := by
  have hnul : 0 ∉ mapKey name := by
    rw [mapKey,List.mem_map]
    rintro ⟨c,hc,hlow⟩
    have hne : c ≠ 0 := ne_of_mem_of_not_mem hc (nul_not_mem_cstr name)
    exact tolower_toNat_ne_zero hne (congrArg UInt8.toNat hlow)
  rw [hash_fun_default,cstr_of_nul_free hnul,mapKey,List.foldl_map]
  rfl

/-- What a `CMapStr` is constructed with, for names that are there. -/
def cmapStrFns : MapFns Bytes Bytes where
  compare a b := EqualCaseCharPtr (some a) (some b)
  function a := HashCaseCharPtr (some a)
  cls := mapKey
  compare_eq _ _ := stricmp_eq_zero
  function_congr a b h := by rw [HashCaseCharPtr_eq,h,HashCaseCharPtr_eq]
  CopyKey k := CMapStr.CopyKey (some k)
  cls_CopyKey k := by
    change (cstr (cstr k)).map tolower = (cstr k).map tolower
    rw [cstr_of_nul_free (nul_not_mem_cstr k)]

/-- Calls that differ in the spelling of names only. -/
inductive SameCall : MapEv Bytes ν → MapEv Bytes ν → Prop
  | find {k k' : Bytes} (h : mapKey k = mapKey k') : SameCall (.find k) (.find k')
  | set {k k' : Bytes} (h : mapKey k = mapKey k') (d : ν) (new new' : ℕ) (nt nt' : Newtable) :
      SameCall (.set k d new nt) (.set k' d new' nt')
  | add {k k' : Bytes} (h : mapKey k = mapKey k') (new new' : ℕ) (nt nt' : Newtable) :
      SameCall (.add k new nt) (.add k' new' nt')
  | del {k k' : Bytes} (h : mapKey k = mapKey k') (nt nt' : Newtable) : SameCall (.del k nt) (.del k' nt')
  | clear (junk junk' : ℕ) : SameCall (.clear junk) (.clear junk')

theorem SameCall.after_eq {ev ev' : MapEv Bytes ν} (h : SameCall ev ev') (d₀ : ν) (m : MapSpec Bytes ν) :
    m.after cmapStrFns d₀ ev = m.after cmapStrFns d₀ ev' := by
  have hcls {k k' : Bytes} (hk : mapKey k = mapKey k') : cmapStrFns.cls k = cmapStrFns.cls k' := hk
  cases h with
  | find hk => rw [MapSpec.after,MapSpec.after,hcls hk]
  | set hk => rw [MapSpec.after,MapSpec.after,hcls hk]
  | add hk => rw [MapSpec.after,MapSpec.after,hcls hk]
  | del hk => rw [MapSpec.after,MapSpec.after,hcls hk]
  | clear => rfl

end Smx
