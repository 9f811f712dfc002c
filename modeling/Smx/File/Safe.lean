import Smx.Base.Error
import Smx.Lib.Emitted

/-! The built-ins that change files, and the check that keeps a script in safe mode to the
directories of its owner. -/
namespace Smx
open EmitM (get throw Emits Keeps run_bind_ok run_get)

/-- What `stat` tells of a path. -/
structure Stat where
  uid : UInt32
  mode : ℕ

def S_IROTH : ℕ := 4
def S_IXOTH : ℕ := 1

def EPERM : ℤ := 1
def ENOENT : ℤ := 2
def EACCES : ℤ := 13
def EINVAL : ℤ := 22

/-- The bits by which a directory is open to all. -/
def worldReadable (mode : ℕ) : Bool := mode &&& S_IROTH != 0 && mode &&& S_IXOTH != 0

/-- The calls by which files are changed. -/
inductive SysCall
  | fopen (path mode : Bytes)
  /-- what is put into a file that is open -/
  | put (path content : Bytes)
  | remove (path : Bytes)
  | rename (path path_new : Bytes)
  | mkdir (path : Bytes)
  | rmdir (path : Bytes)

/-- The paths a call opens for writing, creates, renames or removes. -/
def SysCall.touched : SysCall → List Bytes
  | .fopen path _ | .remove path | .mkdir path | .rmdir path => [path]
  | .rename path path_new => [path,path_new]
  | .put _ _ => []

/-- An operating system, whose files are in one of the states `φ`. -/
structure System (φ : Type) where
  stat : φ → Bytes → Option Stat
  stat_nil : ∀ fs, stat fs [] = none
  readFile : φ → Bytes → Option Bytes
  /-- the files after a call, and its error -/
  call : φ → SysCall → φ × Option ℤ
  strerror : ℤ → Bytes

/-- What the built-ins read of their context, and of memory that they do not own: the mode in a `stat`
buffer that was not filled, and what stands behind the text of an argument. -/
structure SafeCtx where
  safeMode : Bool
  safeUID : UInt32
  junk : ℕ
  heap : Bytes

/-- A built-in changes the files, and leaves a trace of the calls that succeed. -/
abbrev FileM (φ : Type) := EmitM CtxEx (φ × SysCall) φ

/-- What stands before the last `/`, or `.`. -/
def dirOf (path : Bytes) : Bytes :=
  if ch '/' ∈ path then (path.rdropWhile (· != ch '/')).dropLast else str "."

namespace System
variable {φ : Type} (S : System φ) (C : SafeCtx)

/-- `safe_fcheck`. An empty `CStr` has no buffer, and a text in one ends at its first zero byte. -/
def safe_fcheck (fs : φ) (path : Bytes) (rw : Byte) : Bool :=
  if path = [] then false
  else if C.safeMode = false then true
  else if C.safeUID = 0 then true
  else if C.safeUID = -1 then false
  else
    match S.stat fs (dirOf (cstr path)) with
    | some s => C.safeUID = s.uid || rw == ch 'r' && worldReadable s.mode
    -- `s` has not been filled
    | none => rw == ch 'r' && worldReadable C.junk

/-- A call; gives its error. -/
def sys (c : SysCall) : FileM φ (Option ℤ) := fun fs =>
  ⟨.ok (S.call fs c).2,(S.call fs c).1,if (S.call fs c).2 = none then [(fs,c)] else []⟩

/-- `safe_fopen` for writing, where `mode` does not begin with `r`. -/
def safe_fopen (path mode : Bytes) : FileM φ (Option ℤ) := do
  let fs ← get
  if S.safe_fcheck C fs path (ch 'w') then S.sys (.fopen (cstr path) mode) else pure (some EPERM)

/-- `EvalFileWrite`, after its arguments have been evaluated. -/
def evalFileWrite (mode : Bytes) (args : List Bytes) : FileM φ Unit :=
  let path := args.getD 0 []
  if path = [] then pure ()
  else do
    let err ← S.safe_fopen C path mode
    match err with
    | some err => throw ⟨601,str "Failed to open file for writing. " ++ S.strerror err⟩
    | none => do
      let _ ← S.sys (.put (cstr path) (args.getD 1 []))
      pure ()

/-- What `WriteCSV` writes; a field without text has no buffer to search, and in one with a double quote
the search for the next one never ends. -/
def csvText (forceQuoted : Bool) : List Bytes → Bytes
  | [] => str "\n"
  | bo::rest =>
    if bo = [] ∨ T_DQ ∈ cstr bo then []
    else
      (if forceQuoted ∨ T_COMMA ∈ cstr bo then T_DQ::bo ++ [T_DQ] else bo) ++
        (if rest = [] then [] else [T_COMMA]) ++ csvText forceQuoted rest

/-- `WriteCSV`. -/
def writeCSV (mode : Bytes) (forceQuoted : Bool) (args : List Bytes) : FileM φ Unit :=
  let path := args.getD 0 []
  if path = [] then pure ()
  else do
    let err ← S.safe_fopen C path mode
    match err with
    | some err => throw ⟨601,str "Failed to open file for writing. " ++ S.strerror err⟩
    | none => do
      let _ ← S.sys (.put (cstr path) (csvText forceQuoted args.tail))
      pure ()

/-- `EvalFileDelete`. -/
def evalFileDelete (args : List Bytes) : FileM φ Unit :=
  let path := args.getD 0 []
  if path = [] then pure ()
  else do
    let fs ← get
    if S.safe_fcheck C fs path (ch 'w') then
      let _ ← S.sys (.remove (cstr path))
      pure ()
    else throw ⟨632,str "Error deleting file, " ++ S.strerror EPERM⟩

/-- `EvalFileCopy`. -/
def evalFileCopy (args : List Bytes) : FileM φ Unit :=
  match validArgc "copy" 2 2 args.length with
  | some ex => throw ex
  | none => do
    let from_ := args.getD 0 []
    let to_ := args.getD 1 []
    let fs ← get
    if S.safe_fcheck C fs from_ (ch 'r') ∧ (S.readFile fs (cstr from_)).isSome then
      let err ← S.safe_fopen C to_ (str "wb")
      match err with
      | some _ => throw ⟨602,str "Failed to open file for copy."⟩
      | none => do
        let fs ← get
        let _ ← S.sys (.put (cstr to_) ((S.readFile fs (cstr from_)).getD []))
        pure ()
    else throw ⟨603,str "Failed to open file for reading."⟩

/-- What `EvalFileRename` says to an error. -/
def renameError (err : ℤ) : CtxEx :=
  if err = ENOENT then ⟨632,str "Rename failed, file or path specified not found."⟩
  else if err = EACCES then ⟨633,str "Rename failed, file already exists."⟩
  else if err = EINVAL then ⟨634,str "Rename failed, invalid filename."⟩
  else ⟨635,str "Rename failed."⟩

/-- `EvalFileRename`. -/
def evalFileRename (args : List Bytes) : FileM φ Unit :=
  match validArgc "rename" 2 3 args.length with
  | some ex => throw ex
  | none => do
    let path := args.getD 0 []
    let path_new := args.getD 1 []
    let fs ← get
    if S.safe_fcheck C fs path (ch 'w') then
      if S.safe_fcheck C fs path_new (ch 'w') then
        let err ← S.sys (.rename (cstr path) (cstr path_new))
        match err with
        | some err => throw (renameError err)
        | none => pure ()
      else throw ⟨632,str "Access denied to destination"⟩
    else throw ⟨632,str "Access denied to source"⟩

end System

def isDirSep (c : Byte) : Bool := c == ch '/' || c == ch '\\'

/-- The paths `EvalDirMakePath` makes of the text in front of each separator and of the terminator. Past
the terminator the loop goes on in what stands behind it, where the path is the whole text again. -/
def mkpathDirs : Bool → Bytes → Bytes → List Bytes
  | _,_,[] => []
  | atTop,pre,c::rest =>
    if atTop ∧ c = 0 then []
    else if c = 0 ∨ isDirSep c then
      (if pre = [] then [] else [cstr pre]) ++ mkpathDirs true (pre ++ [c]) rest
    else mkpathDirs false (pre ++ [c]) rest

def bslash (s : Bytes) : Bytes := s.map fun c => if c = ch '/' then ch '\\' else c

/-- The built-ins. -/
inductive FileOp
  | create_file
  | text_append
  | csv_append
  | csv_appendq
  | copy
  | delete
  | rename
  | mkdir
  | mkpath
  | rmdir
  deriving DecidableEq, Repr

/-- The directory of a path as it is meant: what stands before the last `/`, the root where nothing
does, and `.` where there is none. -/
def container (path : Bytes) : Bytes := if dirOf path = [] then str "/" else dirOf path

namespace System
variable {φ : Type} (S : System φ) (C : SafeCtx)

/-- Calls made one after the other, whatever they say. -/
def sysAll : List SysCall → FileM φ Unit
  | [] => pure ()
  | c::cs => do
    let _ ← S.sys c
    sysAll cs

/-- `EvalDirMake`. -/
def evalDirMake (args : List Bytes) : FileM φ Unit :=
  match validArgc "mkdir" 1 1 args.length with
  | some ex => throw ex
  | none => S.sysAll [.mkdir (cstr (args.getD 0 []))]

/-- `EvalDirMakePath`. -/
def evalDirMakePath (args : List Bytes) : FileM φ Unit :=
  match validArgc "mkpath" 1 1 args.length with
  | some ex => throw ex
  | none => S.sysAll ((mkpathDirs true [] (cstr (args.getD 0 []) ++ 0::C.heap)).map .mkdir)

/-- `EvalDirRemove`. -/
def evalDirRemove (args : List Bytes) : FileM φ Unit :=
  match validArgc "rmdir" 1 1 args.length with
  | some ex => throw ex
  | none =>
    let path := args.getD 0 []
    S.sysAll (if path = [] then [] else [.rmdir (bslash (cstr path))])

/-- The evaluation of a built-in on its arguments. -/
def evalFile (args : List Bytes) : FileOp → FileM φ Unit
  | .create_file => S.evalFileWrite C (str "wb") args
  | .text_append => S.evalFileWrite C (str "ab") args
  | .csv_append => S.writeCSV C (str "a") false args
  | .csv_appendq => S.writeCSV C (str "a") true args
  | .copy => S.evalFileCopy C args
  | .delete => S.evalFileDelete C args
  | .rename => S.evalFileRename C args
  | .mkdir => S.evalDirMake args
  | .mkpath => S.evalDirMakePath C args
  | .rmdir => S.evalDirRemove args

/-- The containing directory of the path is there, and belongs to the user. -/
def Owned (uid : UInt32) (fs : φ) (path : Bytes) : Prop :=
  ∃ s, S.stat fs (container path) = some s ∧ s.uid = uid

/-- The paths a built-in checks, each for reading or for writing. -/
def checked (args : List Bytes) : FileOp → List (Bytes × Byte)
  | .create_file | .text_append | .csv_append | .csv_appendq | .delete =>
    [(args.getD 0 [],ch 'w')]
  | .copy => [(args.getD 0 [],ch 'r'),(args.getD 1 [],ch 'w')]
  | .rename => [(args.getD 0 [],ch 'w'),(args.getD 1 [],ch 'w')]
  | .mkdir | .mkpath | .rmdir => []

/-- A call touches paths in directories of the user only. -/
def Allowed (ev : φ × SysCall) : Prop := ∀ p ∈ ev.2.touched, S.Owned C.safeUID ev.1 p

/-- Nothing is touched outside of directories of the user, and a path that is refused leaves the files as
they were. -/
structure Isolated (fs : φ) (args : List Bytes) (op : FileOp) : Prop where
  touched : ∀ ev ∈ ((S.evalFile C args op).run fs).out, S.Allowed C ev
  refused : ∀ check ∈ checked args op, S.safe_fcheck C fs check.1 check.2 = false →
    ((S.evalFile C args op).run fs).state = fs

/-- A path is accepted for reading only when its directory is there, and belongs to the user or is open
to all. -/
def ReadsSafely (fs : φ) (path : Bytes) : Prop :=
  S.safe_fcheck C fs path (ch 'r') = true →
    ∃ s, S.stat fs (container (cstr path)) = some s ∧ (s.uid = C.safeUID ∨ worldReadable s.mode = true)

/-- The calls that are made without a check. -/
def unchecked (args : List Bytes) : FileOp → List SysCall
  | .mkdir => if args.length = 1 then [.mkdir (cstr (args.getD 0 []))] else []
  | .mkpath =>
    if args.length = 1 then (mkpathDirs true [] (cstr (args.getD 0 []) ++ 0::C.heap)).map .mkdir else []
  | .rmdir =>
    if args.length = 1 then
      if args.getD 0 [] = [] then [] else [.rmdir (bslash (cstr (args.getD 0 [])))]
    else []
  | _ => []

/-- Each of the calls fails, or touches paths in directories of the user. -/
def Suits : φ → List SysCall → Prop
  | _,[] => True
  | fs,c::cs => ((S.call fs c).2 = none → S.Allowed C (fs,c)) ∧ Suits (S.call fs c).1 cs

variable {S C} {fs : φ} {args : List Bytes} {path : Bytes}

/-- In safe mode the check for writing passes paths in directories of the user only. -/
theorem owned_of_check (hsafe : C.safeMode = true) (hroot : C.safeUID ≠ 0)
    (h : S.safe_fcheck C fs path (ch 'w') = true) : S.Owned C.safeUID fs (cstr path) := by
  have hw : (ch 'w' == ch 'r') = false := by decide
  have hmode : C.safeMode ≠ false := ne_false_of_eq_true hsafe
  rw [safe_fcheck,if_neg hmode,if_neg hroot] at h
  split_ifs at h
  cases hstat : S.stat fs (dirOf (cstr path)) with
  | none => simp [hstat,hw] at h
  | some s =>
    have hdir : dirOf (cstr path) ≠ [] := by
      intro hnil
      rw [hnil,S.stat_nil] at hstat
      cases hstat
    have huid : C.safeUID = s.uid := by simpa [hstat,hw] using h
    exact ⟨s,by rw [container,if_neg hdir,hstat],huid.symm⟩

theorem emits_sys {c : SysCall} (h : S.Allowed C (fs,c)) :
    Emits (S.Allowed C) (S.sys c) fs := by
  intro ev hev
  change ev ∈ (if (S.call fs c).2 = none then [(fs,c)] else []) at hev
  split_ifs at hev
  · rw [List.mem_singleton.mp hev]
    exact h
  · cases hev

theorem emits_put (path content : Bytes) :
    Emits (S.Allowed C) (S.sys (.put (cstr path) content)) fs := by
  apply emits_sys
  intro p hp
  cases hp

/-- A call that touches one path, which has been checked. -/
theorem emits_checked (hsafe : C.safeMode = true) (hroot : C.safeUID ≠ 0) {c : SysCall}
    (hc : c.touched = [cstr path]) (h : S.safe_fcheck C fs path (ch 'w') = true) :
    Emits (S.Allowed C) (S.sys c) fs := by
  apply emits_sys
  intro p hp
  rw [hc] at hp
  rw [List.mem_singleton.mp hp]
  exact owned_of_check hsafe hroot h

theorem emits_safe_fopen (hsafe : C.safeMode = true) (hroot : C.safeUID ≠ 0) (mode : Bytes) :
    Emits (S.Allowed C) (S.safe_fopen C path mode) fs := by
  apply Emits.get_bind
  split_ifs with h
  · exact emits_checked hsafe hroot rfl h
  · exact Emits.pure _

theorem safe_fopen_refused (mode : Bytes) (h : S.safe_fcheck C fs path (ch 'w') = false) :
    (S.safe_fopen C path mode).run fs = ⟨.ok (some EPERM),fs,[]⟩ := by
  rw [safe_fopen,run_bind_ok (run_get fs),h]
  rfl

theorem emits_evalFileWrite (hsafe : C.safeMode = true) (hroot : C.safeUID ≠ 0) (mode : Bytes) :
    Emits (S.Allowed C) (S.evalFileWrite C mode args) fs := by
  rw [evalFileWrite]
  split_ifs
  · exact Emits.pure _
  · apply Emits.bind (emits_safe_fopen hsafe hroot mode)
    intro err s' b _
    cases err with
    | none => exact Emits.bind (emits_put _ _) fun _ _ _ _ => Emits.pure _
    | some err => exact Emits.throw _

theorem emits_writeCSV (hsafe : C.safeMode = true) (hroot : C.safeUID ≠ 0) (mode : Bytes)
    (forceQuoted : Bool) : Emits (S.Allowed C) (S.writeCSV C mode forceQuoted args) fs := by
  rw [writeCSV]
  split_ifs
  · exact Emits.pure _
  · apply Emits.bind (emits_safe_fopen hsafe hroot mode)
    intro err s' b _
    cases err with
    | none => exact Emits.bind (emits_put _ _) fun _ _ _ _ => Emits.pure _
    | some err => exact Emits.throw _

theorem emits_evalFileDelete (hsafe : C.safeMode = true) (hroot : C.safeUID ≠ 0) :
    Emits (S.Allowed C) (S.evalFileDelete C args) fs := by
  rw [evalFileDelete]
  split_ifs
  · exact Emits.pure _
  · apply Emits.get_bind
    split_ifs with h
    · exact Emits.bind (emits_checked hsafe hroot rfl h) fun _ _ _ _ => Emits.pure _
    · exact Emits.throw _

theorem emits_evalFileCopy (hsafe : C.safeMode = true) (hroot : C.safeUID ≠ 0) :
    Emits (S.Allowed C) (S.evalFileCopy C args) fs := by
  unfold evalFileCopy
  cases validArgc "copy" 2 2 args.length with
  | some ex => exact Emits.throw _
  | none =>
    apply Emits.get_bind
    split_ifs
    · apply Emits.bind (emits_safe_fopen hsafe hroot _)
      intro err s' b _
      cases err with
      | some err => exact Emits.throw _
      | none =>
        apply Emits.get_bind
        exact Emits.bind (emits_put _ _) fun _ _ _ _ => Emits.pure _
    · exact Emits.throw _

theorem emits_evalFileRename (hsafe : C.safeMode = true) (hroot : C.safeUID ≠ 0) :
    Emits (S.Allowed C) (S.evalFileRename C args) fs := by
  unfold evalFileRename
  cases validArgc "rename" 2 3 args.length with
  | some ex => exact Emits.throw _
  | none =>
    apply Emits.get_bind
    split_ifs with hold hnew
    · apply Emits.bind
      · apply emits_sys
        intro p hp
        obtain rfl | hp := List.mem_cons.mp hp
        · exact owned_of_check hsafe hroot hold
        · rw [List.mem_singleton.mp hp]
          exact owned_of_check hsafe hroot hnew
      · intro err s' b _
        cases err with
        | some err => exact Emits.throw _
        | none => exact Emits.pure _
    · exact Emits.throw _
    · exact Emits.throw _

/-- Calls without a check are as safe as the calls themselves. -/
theorem emits_sysAll_iff (cs : List SysCall) :
    Emits (S.Allowed C) (S.sysAll cs) fs ↔ S.Suits C fs cs := by
  induction cs generalizing fs with
  | nil => exact iff_of_true (Emits.pure _) trivial
  | cons c cs ih =>
    have hrun : ((S.sysAll (c::cs)).run fs).out =
        (if (S.call fs c).2 = none then [(fs,c)] else []) ++
          ((S.sysAll cs).run (S.call fs c).1).out := rfl
    rw [Emits,hrun,Suits,← ih]
    constructor
    · intro h
      constructor
      · intro hok
        apply h
        rw [if_pos hok]
        exact List.mem_append_left _ (List.mem_singleton_self _)
      · exact fun ev hev => h ev (List.mem_append_right _ hev)
    · intro ⟨hc,hcs⟩ ev hev
      obtain hev | hev := List.mem_append.mp hev
      · split_ifs at hev with hok
        · rw [List.mem_singleton.mp hev]
          exact hc hok
        · cases hev
      · exact hcs ev hev

theorem validArgc_one (name : String) (n : ℕ) : validArgc name 1 1 n = none ↔ n = 1 := by
  rw [validArgc_eq_none]
  omega

/-- An operation of one argument that makes calls and checks nothing. -/
theorem sysAll_of_one (name : String) (cs : List SysCall) :
    ((match validArgc name 1 1 args.length with
      | some ex => throw ex
      | none => S.sysAll cs : FileM φ Unit).run fs).out =
      ((S.sysAll (if args.length = 1 then cs else [])).run fs).out := by
  cases hv : validArgc name 1 1 args.length with
  | none => rw [if_pos ((validArgc_one _ _).mp hv)]
  | some ex =>
    rw [if_neg]
    · rfl
    · intro hargs
      rw [(validArgc_one _ _).mpr hargs] at hv
      cases hv

/-- What the three operations that check nothing do. -/
theorem evalFile_out_unchecked {op : FileOp} (h : checked args op = []) :
    ((S.evalFile C args op).run fs).out = ((S.sysAll (unchecked C args op)).run fs).out := by
  cases op with
  | mkdir => exact sysAll_of_one _ _
  | mkpath => exact sysAll_of_one _ _
  | rmdir => exact sysAll_of_one _ _
  | _ => cases h

/-- The operations that check their paths call nothing without a check. -/
theorem suits_of_checked {op : FileOp} (h : checked args op ≠ []) :
    S.Suits C fs (unchecked C args op) := by
  cases op with
  | mkdir => exact absurd rfl h
  | mkpath => exact absurd rfl h
  | rmdir => exact absurd rfl h
  | _ => trivial

/-- They touch what they have checked. -/
theorem emits_evalFile (hsafe : C.safeMode = true) (hroot : C.safeUID ≠ 0) {op : FileOp}
    (h : checked args op ≠ []) : Emits (S.Allowed C) (S.evalFile C args op) fs := by
  cases op with
  | create_file => exact emits_evalFileWrite hsafe hroot _
  | text_append => exact emits_evalFileWrite hsafe hroot _
  | csv_append => exact emits_writeCSV hsafe hroot _ _
  | csv_appendq => exact emits_writeCSV hsafe hroot _ _
  | copy => exact emits_evalFileCopy hsafe hroot
  | delete => exact emits_evalFileDelete hsafe hroot
  | rename => exact emits_evalFileRename hsafe hroot
  | _ => exact absurd rfl h

theorem emits_evalFile_iff (hsafe : C.safeMode = true) (hroot : C.safeUID ≠ 0) (op : FileOp) :
    Emits (S.Allowed C) (S.evalFile C args op) fs ↔ S.Suits C fs (unchecked C args op) := by
  by_cases h : checked args op = []
  · rw [Emits,evalFile_out_unchecked h]
    exact emits_sysAll_iff _
  · exact iff_of_true (emits_evalFile hsafe hroot h) (suits_of_checked h)

theorem keeps_evalFileWrite (mode : Bytes)
    (h : S.safe_fcheck C fs (args.getD 0 []) (ch 'w') = false) :
    Keeps (S.evalFileWrite C mode args) fs := by
  rw [evalFileWrite]
  split_ifs
  · exact Keeps.pure _
  · rw [Keeps,run_bind_ok (safe_fopen_refused mode h)]
    rfl

theorem keeps_writeCSV (mode : Bytes) (forceQuoted : Bool)
    (h : S.safe_fcheck C fs (args.getD 0 []) (ch 'w') = false) :
    Keeps (S.writeCSV C mode forceQuoted args) fs := by
  rw [writeCSV]
  split_ifs
  · exact Keeps.pure _
  · rw [Keeps,run_bind_ok (safe_fopen_refused mode h)]
    rfl

theorem keeps_evalFileDelete (h : S.safe_fcheck C fs (args.getD 0 []) (ch 'w') = false) :
    Keeps (S.evalFileDelete C args) fs := by
  rw [evalFileDelete]
  split_ifs
  · exact Keeps.pure _
  · apply Keeps.get_bind
    rw [h]
    exact Keeps.throw _

theorem keeps_evalFileCopy (h : S.safe_fcheck C fs (args.getD 0 []) (ch 'r') = false ∨
    S.safe_fcheck C fs (args.getD 1 []) (ch 'w') = false) : Keeps (S.evalFileCopy C args) fs := by
  rw [evalFileCopy]
  cases validArgc "copy" 2 2 args.length with
  | some ex => exact Keeps.throw _
  | none =>
    apply Keeps.get_bind
    split_ifs with hread
    · obtain h | h := h
      · rw [h] at hread
        exact absurd hread.1 Bool.false_ne_true
      · rw [Keeps,run_bind_ok (safe_fopen_refused _ h)]
        rfl
    · exact Keeps.throw _

theorem keeps_evalFileRename (h : S.safe_fcheck C fs (args.getD 0 []) (ch 'w') = false ∨
    S.safe_fcheck C fs (args.getD 1 []) (ch 'w') = false) : Keeps (S.evalFileRename C args) fs := by
  rw [evalFileRename]
  cases validArgc "rename" 2 3 args.length with
  | some ex => exact Keeps.throw _
  | none =>
    apply Keeps.get_bind
    split_ifs with hold hnew
    · rw [hold,hnew] at h
      obtain h | h := h
      · cases h
      · cases h
    · exact Keeps.throw _
    · exact Keeps.throw _

/-- A path that is refused leaves the files as they were. -/
theorem keeps_evalFile {op : FileOp} {check : Bytes × Byte} (hmem : check ∈ checked args op)
    (h : S.safe_fcheck C fs check.1 check.2 = false) : Keeps (S.evalFile C args op) fs := by
  cases op with
  | create_file =>
    obtain rfl := List.mem_singleton.mp hmem
    exact keeps_evalFileWrite _ h
  | text_append =>
    obtain rfl := List.mem_singleton.mp hmem
    exact keeps_evalFileWrite _ h
  | csv_append =>
    obtain rfl := List.mem_singleton.mp hmem
    exact keeps_writeCSV _ _ h
  | csv_appendq =>
    obtain rfl := List.mem_singleton.mp hmem
    exact keeps_writeCSV _ _ h
  | delete =>
    obtain rfl := List.mem_singleton.mp hmem
    exact keeps_evalFileDelete h
  | copy =>
    apply keeps_evalFileCopy
    obtain rfl | hmem := List.mem_cons.mp hmem
    · exact .inl h
    · obtain rfl := List.mem_singleton.mp hmem
      exact .inr h
  | rename =>
    apply keeps_evalFileRename
    obtain rfl | hmem := List.mem_cons.mp hmem
    · exact .inl h
    · obtain rfl := List.mem_singleton.mp hmem
      exact .inr h
  | _ => cases hmem

/-- The check for reading, where the directory's `stat` succeeds and where it does not. -/
theorem readsSafely_iff_junk (hsafe : C.safeMode = true) (hroot : C.safeUID ≠ 0)
    (hlow : C.safeUID ≠ -1) (path : Bytes) :
    S.ReadsSafely C fs path ↔
      path = [] ∨ (S.stat fs (dirOf (cstr path)) = none → worldReadable C.junk = true →
        ∃ s, S.stat fs (container (cstr path)) = some s ∧
          (s.uid = C.safeUID ∨ worldReadable s.mode = true)) := by
  have hmode : C.safeMode ≠ false := ne_false_of_eq_true hsafe
  by_cases hpath : path = []
  · simp [ReadsSafely,safe_fcheck,hpath]
  · rw [ReadsSafely,safe_fcheck,if_neg hpath,if_neg hmode,if_neg hroot,if_neg hlow]
    cases hstat : S.stat fs (dirOf (cstr path)) with
    | none => simp [hpath]
    | some s =>
      have hdir : dirOf (cstr path) ≠ [] := by
        intro hnil
        rw [hnil,S.stat_nil] at hstat
        cases hstat
      apply iff_of_true
      · intro h
        refine ⟨s,by rw [container,if_neg hdir,hstat],?_⟩
        obtain h | h := Bool.or_eq_true_iff.mp h
        · exact .inl (of_decide_eq_true h).symm
        · exact .inr (Bool.and_eq_true_iff.mp h).2
      · right
        intro hnone
        cases hnone

end System

/-- In safe mode a built-in stays in the directories of its user exactly when each call it makes without
a check fails or does; the check for reading does exactly when the directory's `stat` succeeds, or the
mode that it leaves unfilled does not look open to all. -/
theorem isolated_iff {φ : Type} (S : System φ) (C : SafeCtx) (hsafe : C.safeMode = true)
    (hroot : C.safeUID ≠ 0) (hlow : C.safeUID ≠ -1) (fs : φ) :
    (∀ args op, S.Isolated C fs args op ↔ S.Suits C fs (System.unchecked C args op)) ∧
      ∀ path, S.ReadsSafely C fs path ↔
        path = [] ∨ (S.stat fs (dirOf (cstr path)) = none → worldReadable C.junk = true →
          ∃ s, S.stat fs (container (cstr path)) = some s ∧
            (s.uid = C.safeUID ∨ worldReadable s.mode = true)) := by
  constructor
  · intro args op
    rw [← System.emits_evalFile_iff hsafe hroot op]
    constructor
    · exact fun h => h.touched
    · exact fun h => ⟨h,fun check hmem hcheck => System.keeps_evalFile hmem hcheck⟩
  · exact System.readsSafely_iff_junk hsafe hroot hlow

/-- A disk where all directories belong to root, and no call fails. -/
def rootOnly : System Unit where
  stat _ path := if path = [] then none else some ⟨0,0⟩
  stat_nil _ := rfl
  readFile _ _ := none
  call fs _ := (fs,none)
  strerror _ := []

theorem rootOnly_stat {path : Bytes} (h : path ≠ []) : rootOnly.stat () path = some ⟨0,0⟩ :=
  if_neg h

def hostedUser : SafeCtx := ⟨true,1000,0,[]⟩

theorem isolated_hosted :
    (rootOnly.Isolated hostedUser () [str "d/f"] .delete ↔ True) ∧
      (rootOnly.ReadsSafely hostedUser () (str "d/f") ↔ True) := by
  have h := isolated_iff rootOnly hostedUser rfl (by decide) (by decide) ()
  constructor
  · rw [h.1]
    exact Iff.rfl
  · rw [h.2]
    apply iff_of_true
    · right
      intro hstat
      have hsome : rootOnly.stat () (dirOf (cstr (str "d/f"))) = some ⟨0,0⟩ :=
        rootOnly_stat (by decide)
      rw [hsome] at hstat
      cases hstat
    · trivial

/-- `%mkdir` asks nobody. -/
theorem mkdir_elsewhere : ¬ rootOnly.Isolated hostedUser () [str "d"] .mkdir := by
  intro h
  obtain ⟨s,hstat,huid⟩ := h.touched ((),.mkdir (str "d")) (List.mem_singleton_self _) (str "d")
    (List.mem_singleton_self _)
  have hs : rootOnly.stat () (container (str "d")) = some ⟨0,0⟩ :=
    rootOnly_stat (by decide)
  rw [hs] at hstat
  cases hstat
  exact absurd huid (by decide)

end Smx
