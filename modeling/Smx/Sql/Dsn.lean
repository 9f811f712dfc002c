import Smx.Base.Bytes

/-! `ParseDSN`: data source, user, password and further settings. -/
namespace Smx

/-- The strings that `ParseDSN` points to; `none` is a null pointer. -/
structure DsnParts where
  dsn : Bytes
  uid : Option Bytes
  pwd : Option Bytes
  etc : Option Bytes
  deriving DecidableEq

/-- The string in front of the first `;`, which is overwritten, and what stands behind it and the blanks there. -/
def cutDsn (p : Bytes) : Bytes × Option Bytes :=
  match p.dropWhile (· != ch ';') with
  | [] => (p,none)
  | _::q => (p.takeWhile (· != ch ';'),some (q.dropWhile isspace))

/-- `while (p[1]) { p[0] = p[1]; ++p; }`: the last character stays where it is. -/
def shiftDown : Bytes → Bytes
  | _::d::p => d::shiftDown (d::p)
  | p => p

theorem length_shiftDown (p : Bytes) : (shiftDown p).length = p.length := by
  induction p with
  | nil => rfl
  | cons c p ih =>
    cases p with
    | nil => rfl
    | cons d p => simpa [shiftDown] using ih

/-- The search for `etc` from `q` on, behind the bytes of `pwd` in `front`: `pwd`, and what stands behind it. -/
def etcLoop (front : Bytes) : Bytes → Bytes × Option Bytes
  | [] => (front,none)
  | c::q =>
    if c = ch ';' then
      if q.head? = some (ch ';') then etcLoop (front ++ [ch ';']) (shiftDown q) else (front,some q)
    else etcLoop (front ++ [c]) q
termination_by q => q.length
decreasing_by
  · rw [length_shiftDown]
    exact Nat.lt_succ_self _
  · exact Nat.lt_succ_self _

/-- `ParseDSN`. -/
def parseDSN (cstr : Bytes) : DsnParts :=
  match cutDsn (cstr.dropWhile isspace) with
  | (dsn,none) => ⟨dsn,none,none,none⟩
  | (dsn,some uid) =>
    match cutDsn uid with
    | (uid,none) => ⟨dsn,some uid,none,none⟩
    | (uid,some pwd) =>
      let (pwd,etc) := etcLoop [] pwd
      ⟨dsn,some uid,some pwd,etc.map (·.dropWhile isspace)⟩

/-- A part that does not begin with a blank. -/
def Unblank (p : Bytes) : Prop := ∀ c ∈ p.head?, isspace c = false

/-- The parts that can be written, with the forms that leave off `etc`, or `pwd` and `etc`. -/
structure DsnForm where
  dsn : Bytes
  uid : Bytes
  pwd : Option Bytes
  etc : Option Bytes
  nul_free : 0 ∉ dsn ∧ 0 ∉ uid ∧ (∀ p ∈ pwd, 0 ∉ p) ∧ ∀ p ∈ etc, 0 ∉ p
  etc_pwd : etc.isSome → pwd.isSome
  dsn_sep : ch ';' ∉ dsn
  uid_sep : ch ';' ∉ uid
  dsn_blank : Unblank dsn
  uid_blank : Unblank uid
  pwd_blank : ∀ p ∈ pwd, Unblank p
  etc_blank : ∀ p ∈ etc, Unblank p
  etc_sep : ∀ p ∈ etc, p.head? ≠ some (ch ';')

/-- `pwd` with every `;` doubled. -/
def doubleSemi (pwd : Bytes) : Bytes := pwd.flatMap fun c => if c = ch ';' then [ch ';',ch ';'] else [c]

/-- A part that is given, behind a `;`. -/
def behindSep : Option Bytes → Bytes
  | none => []
  | some p => ch ';'::p

namespace DsnForm

def text (f : DsnForm) : Bytes :=
  f.dsn ++ ch ';'::(f.uid ++ behindSep (f.pwd.map fun pwd => doubleSemi pwd ++ behindSep f.etc))

def parts (f : DsnForm) : DsnParts := ⟨f.dsn,some f.uid,f.pwd,f.etc⟩

end DsnForm

variable {a p q x front pwd : Bytes} {c : Byte} {etc : Option Bytes}

theorem Unblank.dropWhile (h : Unblank p) : p.dropWhile isspace = p := by
  cases p with
  | nil => rfl
  | cons c p => exact List.dropWhile_cons_of_neg (by simp [h c rfl])

theorem Unblank.append (ha : Unblank a) (hp : Unblank p) : Unblank (a ++ p) := by
  cases a with
  | nil => exact hp
  | cons c a => exact ha

theorem unblank_behindSep (etc : Option Bytes) : Unblank (behindSep etc) := by
  cases etc with
  | none => exact fun c hc => by cases hc
  | some p => exact fun c hc => by rw [← Option.some.inj hc]; decide

theorem cutDsn_none (h : ch ';' ∉ a) : cutDsn a = (a,none) := by
  have hdrop : a.dropWhile (· != ch ';') = [] := by
    rw [List.dropWhile_eq_nil_iff]
    exact fun c hc => by simpa using ne_of_mem_of_not_mem hc h
  rw [cutDsn,hdrop]

theorem cutDsn_append (h : ch ';' ∉ a) : cutDsn (a ++ ch ';'::q) = (a,some (q.dropWhile isspace)) := by
  have hpos : ∀ c ∈ a, (c != ch ';') = true := fun c hc => by simpa using ne_of_mem_of_not_mem hc h
  rw [cutDsn,List.dropWhile_append_of_pos hpos,List.dropWhile_cons_of_neg (by simp),List.takeWhile_append_of_pos hpos,
    List.takeWhile_cons_of_neg (by simp),List.append_nil]

theorem shiftDown_cons (c : Byte) (p : Bytes) : shiftDown (c::p) = p ++ [(c::p).getLast (List.cons_ne_nil c p)] := by
  induction p generalizing c with
  | nil => rfl
  | cons d p ih =>
    rw [shiftDown,ih,List.getLast_cons (List.cons_ne_nil d p)]
    rfl

theorem etcLoop_char (h : c ≠ ch ';') : etcLoop front (c::q) = etcLoop (front ++ [c]) q := by
  rw [etcLoop,if_neg h]

theorem etcLoop_shift (h : q.head? = some (ch ';')) :
    etcLoop front (ch ';'::q) = etcLoop (front ++ [ch ';']) (shiftDown q) := by
  rw [etcLoop,if_pos rfl,if_pos h]

theorem etcLoop_stop (h : q.head? ≠ some (ch ';')) : etcLoop front (ch ';'::q) = (front,some q) := by
  rw [etcLoop,if_pos rfl,if_neg h]

theorem doubleSemi_cons : doubleSemi (c::pwd) = (if c = ch ';' then [ch ';',ch ';'] else [c]) ++ doubleSemi pwd := rfl

theorem Unblank.doubleSemi (h : Unblank pwd) : Unblank (doubleSemi pwd) := by
  cases pwd with
  | nil => exact h
  | cons c pwd =>
    rw [doubleSemi_cons]
    split_ifs with hc
    · exact fun d hd => by rw [← Option.some.inj hd]; decide
    · exact h

/-- The search passes over the password, and repeats the last character of the string for every `;` in it. -/
theorem etcLoop_doubled (front pwd r : Bytes) : ∃ e : Bytes, e.length = pwd.count (ch ';') ∧
    (∀ c ∈ e, c ∈ (doubleSemi pwd ++ r).getLast?) ∧
      etcLoop front (doubleSemi pwd ++ r) = etcLoop (front ++ pwd) (r ++ e) := by
  induction pwd generalizing front r with
  | nil => exact ⟨[],rfl,by simp,by simp [doubleSemi]⟩
  | cons c pwd ih =>
    by_cases hc : c = ch ';'
    · subst hc
      have hshift := shiftDown_cons (ch ';') (doubleSemi pwd ++ r)
      have hlast : (ch ';'::(doubleSemi pwd ++ r)).getLast? =
          some ((ch ';'::(doubleSemi pwd ++ r)).getLast (List.cons_ne_nil _ _)) := List.getLast?_eq_some_getLast _
      generalize (ch ';'::(doubleSemi pwd ++ r)).getLast (List.cons_ne_nil _ _) = l at hshift hlast
      obtain ⟨e,hlen,hmem,heq⟩ := ih (front ++ [ch ';']) (r ++ [l])
      refine ⟨l::e,by simp [hlen],?_,?_⟩
      · have hl : (doubleSemi (ch ';'::pwd) ++ r).getLast? = some l := by
          rw [doubleSemi_cons,if_pos rfl]
          simpa using hlast
        rw [hl]
        intro d hd
        rcases List.mem_cons.mp hd with rfl | hd
        · rfl
        · simpa using hmem d hd
      · have htext : doubleSemi (ch ';'::pwd) ++ r = ch ';'::ch ';'::(doubleSemi pwd ++ r) := by
          rw [doubleSemi_cons,if_pos rfl]
          rfl
        rw [htext,etcLoop_shift rfl,hshift,List.append_assoc,heq]
        simp
    · obtain ⟨e,hlen,hmem,heq⟩ := ih (front ++ [c]) r
      have htext : doubleSemi (c::pwd) ++ r = c::(doubleSemi pwd ++ r) := by
        rw [doubleSemi_cons,if_neg hc]
        rfl
      refine ⟨e,by simp [hlen,hc],?_,?_⟩
      · intro d hd
        have hl := hmem d hd
        rw [htext]
        cases hq : doubleSemi pwd ++ r with
        | nil =>
          rw [hq] at hl
          cases hl
        | cons y q =>
          rw [hq] at hl
          rw [List.getLast?_cons_cons]
          exact hl
      · rw [htext,etcLoop_char hc,heq]
        simp

/-- What is found to be the password has everything that was passed over. -/
theorem etcLoop_length (front q : Bytes) : front.length ≤ (etcLoop front q).1.length ∧
    ((etcLoop front q).2 = none → (etcLoop front q).1.length = front.length+q.length) := by
  fun_induction etcLoop front q with
  | case1 front => exact ⟨le_rfl,fun _ => rfl⟩
  | case2 front q hq ih =>
    rw [List.length_append,length_shiftDown] at ih
    simp only [List.length_cons,List.length_nil] at ih ⊢
    exact ⟨by omega,fun h => by rw [ih.2 h]; omega⟩
  | case3 front q hq => exact ⟨le_rfl,fun h => by cases h⟩
  | case4 front c q hc ih =>
    rw [List.length_append] at ih
    simp only [List.length_cons,List.length_nil] at ih ⊢
    exact ⟨by omega,fun h => by rw [ih.2 h]; omega⟩

/-- The two strings behind the user are found just if there is no `;` in the password. -/
theorem etcLoop_eq_iff (hblank : ∀ p ∈ etc, Unblank p) (hsep : ∀ p ∈ etc, p.head? ≠ some (ch ';')) :
    (etcLoop [] (doubleSemi pwd ++ behindSep etc)).1 = pwd ∧
      (etcLoop [] (doubleSemi pwd ++ behindSep etc)).2.map (·.dropWhile isspace) = etc ↔ ch ';' ∉ pwd := by
  obtain ⟨e,hlen,hmem,heq⟩ := etcLoop_doubled [] pwd (behindSep etc)
  rw [heq,List.nil_append]
  by_cases hpwd : ch ';' ∈ pwd
  · refine iff_of_false ?_ (not_not.mpr hpwd)
    have hpos : 0 < e.length := by
      rw [hlen]
      exact List.count_pos_iff.mpr hpwd
    obtain ⟨l,e,rfl⟩ := List.exists_cons_of_ne_nil (List.ne_nil_of_length_pos hpos)
    rintro ⟨hp,hetc⟩
    cases etc with
    | none =>
      have hlength := (etcLoop_length pwd (behindSep none ++ l::e)).2 (Option.map_eq_none_iff.mp hetc)
      rw [hp] at hlength
      simp [behindSep] at hlength
    | some x =>
      cases x with
      | nil =>
        have hl : l = ch ';' := by
          have hlast := hmem l List.mem_cons_self
          simpa [behindSep,eq_comm] using hlast
        have hlength := (etcLoop_length (pwd ++ [ch ';']) (shiftDown (l::e))).1
        rw [behindSep,List.cons_append,List.nil_append,etcLoop_shift (by rw [hl]; rfl)] at hp
        rw [hp,List.length_append,List.length_singleton] at hlength
        omega
      | cons d x =>
        have hstop : ((d::x) ++ l::e).head? ≠ some (ch ';') := hsep (d::x) rfl
        rw [behindSep,List.cons_append,etcLoop_stop hstop] at hetc
        have hd : isspace d = false := hblank (d::x) rfl d rfl
        rw [Option.map_some,List.cons_append,List.dropWhile_cons_of_neg (by simp [hd])] at hetc
        have hlength := congrArg (Option.map List.length) hetc
        simp at hlength
  · have hnil : e = [] := by
      rw [← List.length_eq_zero_iff,hlen,List.count_eq_zero]
      exact hpwd
    refine iff_of_true ?_ hpwd
    rw [hnil,List.append_nil]
    cases etc with
    | none => simp [behindSep,etcLoop]
    | some x =>
      rw [behindSep,etcLoop_stop (hsep x rfl),Option.map_some,(hblank x rfl).dropWhile]
      exact ⟨rfl,rfl⟩

theorem parseDSN_text_none (f : DsnForm) (h : f.pwd = none) : parseDSN f.text = ⟨f.dsn,some f.uid,none,none⟩ := by
  have hblank : Unblank f.text := f.dsn_blank.append fun c hc => by rw [← Option.some.inj hc]; decide
  have htext : f.text = f.dsn ++ ch ';'::f.uid := by simp [DsnForm.text,h,behindSep]
  rw [parseDSN,hblank.dropWhile,htext,cutDsn_append f.dsn_sep,f.uid_blank.dropWhile]
  simp only [cutDsn_none f.uid_sep]

theorem parseDSN_text_some (f : DsnForm) (h : f.pwd = some pwd) : parseDSN f.text =
    ⟨f.dsn,some f.uid,some (etcLoop [] (doubleSemi pwd ++ behindSep f.etc)).1,
      (etcLoop [] (doubleSemi pwd ++ behindSep f.etc)).2.map (·.dropWhile isspace)⟩ := by
  have hsemi (q : Bytes) : Unblank (ch ';'::q) := fun c hc => by rw [← Option.some.inj hc]; decide
  have htext : f.text = f.dsn ++ ch ';'::(f.uid ++ ch ';'::(doubleSemi pwd ++ behindSep f.etc)) := by
    simp [DsnForm.text,h,behindSep]
  have hpwd : Unblank (doubleSemi pwd ++ behindSep f.etc) :=
    (f.pwd_blank pwd h).doubleSemi.append (unblank_behindSep f.etc)
  rw [parseDSN,htext,(f.dsn_blank.append (hsemi _)).dropWhile,cutDsn_append f.dsn_sep,
    (f.uid_blank.append (hsemi _)).dropWhile]
  simp only [cutDsn_append f.uid_sep,hpwd.dropWhile]

/-- The parts are recovered just if there is no `;` in the password. -/
theorem parseDSN_iff (f : DsnForm) : parseDSN f.text = f.parts ↔ ∀ pwd ∈ f.pwd, ch ';' ∉ pwd := by
  cases hpwd : f.pwd with
  | none =>
    have hetc : f.etc = none := by
      by_contra h
      have hsome := f.etc_pwd (Option.isSome_iff_ne_none.mpr h)
      rw [hpwd] at hsome
      cases hsome
    rw [parseDSN_text_none f hpwd,DsnForm.parts,hpwd,hetc]
    simp
  | some pwd =>
    rw [parseDSN_text_some f hpwd,DsnForm.parts,hpwd,DsnParts.mk.injEq]
    simpa using etcLoop_eq_iff f.etc_blank f.etc_sep

/-- A password `;`, with settings `x`. -/
def semicolonForm : DsnForm where
  dsn := str "d"
  uid := str "u"
  pwd := some (str ";")
  etc := some (str "x")
  nul_free := by simp [str,ch]
  etc_pwd := fun _ => rfl
  dsn_sep := by decide
  uid_sep := by decide
  dsn_blank := by simp [Unblank,str,ch,isspace]
  uid_blank := by simp [Unblank,str,ch,isspace]
  pwd_blank := by simp [Unblank,str,ch,isspace]
  etc_blank := by simp [Unblank,str,ch,isspace]
  etc_sep := by simp [str,ch]

/-- The last character of the settings is read twice. -/
theorem settings_repeated : parseDSN semicolonForm.text = ⟨str "d",some (str "u"),some (str ";"),some (str "xx")⟩ ∧
    parseDSN semicolonForm.text ≠ semicolonForm.parts := by
  have hloop : etcLoop [] (doubleSemi (str ";") ++ behindSep (some (str "x"))) = (str ";",some (str "xx")) := by
    have hshift : etcLoop [] (str ";;;x") = etcLoop [ch ';'] (str ";xx") := etcLoop_shift rfl
    have hstop : etcLoop [ch ';'] (str ";xx") = ([ch ';'],some (str "xx")) := etcLoop_stop (by decide)
    exact hshift.trans hstop
  have hparse : parseDSN semicolonForm.text = ⟨str "d",some (str "u"),some (str ";"),some (str "xx")⟩ := by
    rw [parseDSN_text_some semicolonForm rfl]
    simp only [semicolonForm,hloop]
    rfl
  refine ⟨hparse,?_⟩
  rw [hparse]
  decide

end Smx
