import Smx.Base.Bytes
import Mathlib.Data.Int.Basic

/-! `%sql-trans`: a body whose `%sql` calls share the connections of a pool, and what becomes of
their transactions when it is left. -/
namespace Smx

/-- `SQL_COMMIT` and `SQL_ROLLBACK`. -/
inductive Completion
  | commit
  | rollback
  deriving DecidableEq

/-- `CDbConn`. A connection that could not be opened has no handle; `ended` tells how the driver
completed the transaction that was open while `autocommit` was off. -/
structure CDbConn where
  handle : Bool
  autocommit : Bool
  ended : Option Completion
  deriving DecidableEq

namespace CDbConn

def beginTrans (conn : CDbConn) : CDbConn :=
  if conn.handle then { conn with autocommit := false } else conn

/-- `EndTrans`; without an open transaction `SQLEndTran` does nothing. -/
def endTrans (completionType : Completion) (conn : CDbConn) : CDbConn :=
  if conn.handle && !conn.autocommit then
    { conn with autocommit := true, ended := some completionType }
  else conn

end CDbConn

/-- `myConnMap` of a `CDbPool`. -/
abbrev CDbPool := List (Bytes × CDbConn)

namespace CDbPool

def find (pool : CDbPool) (dsn : Bytes) : Option CDbConn :=
  (pool.find? fun entry => SameName entry.1 (cstr dsn)).map Prod.snd

/-- `Connect`; `connects` tells whether the data source can be reached. -/
def connect (pool : CDbPool) (dsn : Bytes) (connects : Bool) : CDbConn × CDbPool :=
  match pool.find dsn with
  | some conn => (conn,pool)
  | none =>
    let conn := CDbConn.beginTrans ⟨connects,true,none⟩
    (conn,pool ++ [(cstr dsn,conn)])

def endTrans (completionType : Completion) (pool : CDbPool) : CDbPool :=
  pool.map fun entry => (entry.1,entry.2.endTrans completionType)

/-- `Free`, the last reference: the destructor rolls back. -/
def free (pool : CDbPool) : CDbPool := pool.endTrans .rollback

end CDbPool

/-- How the evaluation of a text is left: a `qCtxEx`, a `qCtxExAbort` or some other exception. -/
inductive Exit
  | normal
  | error (id : ℤ) (msg : Bytes)
  | abort
  | foreign
  deriving DecidableEq

/-- How two texts in a row are left. -/
def Exit.andThen : Exit → Exit → Exit
  | .normal,exit => exit
  | exit,_ => exit

/-- The body of `%sql-trans`. In a call of `%sql`, `connects` tells whether the data source can be
reached, `runs` whether it executes the statement, `diag` is the driver's message if not, and `rows`
is what head, body and foot come to over all rows. -/
inductive Body
  | done
  | rollback (rest : Body)
  | throw (id : ℤ) (msg : Bytes)
  | abort
  | foreign
  | sql (dsn : Bytes) (connects runs : Bool) (diag : Bytes) (rows rest : Body)

/-- The pool and the flag `ok` of `EvalSqlTrans`. -/
structure Trans where
  pool : CDbPool
  ok : Bool

/-- The handlers of `EvalSql`: an error is raised again if its number is not 0. -/
def sqlCatch : Exit → Exit
  | .error id msg => if id = 0 then .normal else .error id msg
  | .foreign => .error 303 (str "Unknown SQL Library error.")
  | exit => exit

/-- `EvalSql` with an ODBC data source and the pool; a call that does not reach its data source
executes no statement either. -/
def evalSql (dsn : Bytes) (connects runs : Bool) (diag : Bytes) (rows : Trans → Trans × Exit)
    (s : Trans) : Trans × Exit :=
  let dsn := trim dsn
  if dsn = [] then (s,.error 358 (str "No datasource specified"))
  else
    let (conn,pool) := s.pool.connect dsn connects
    let s := { s with pool := pool }
    if conn.handle && connects && runs then
      let (s,exit) := rows s
      (s,sqlCatch exit)
    else (s,sqlCatch (.error 302 diag))

/-- What is behind an exception is not reached. -/
def andThen (r : Trans × Exit) (rest : Trans → Trans × Exit) : Trans × Exit :=
  match r with
  | (s,.normal) => rest s
  | r => r

/-- `Parse` of the body. -/
def evalBody : Body → Trans → Trans × Exit
  | .done,s => (s,.normal)
  | .rollback rest,s => evalBody rest { s with ok := false }
  | .throw id msg,s => (s,.error id msg)
  | .abort,s => (s,.abort)
  | .foreign,s => (s,.foreign)
  | .sql dsn connects runs diag rows rest,s =>
    andThen (evalSql dsn connects runs diag (evalBody rows) s) (evalBody rest)

/-- The end of `EvalSqlTrans`, when the pool has been completed. -/
def transEnd (errCode : ℤ) (errMsg : Bytes) : Exit :=
  if errCode > 0 then .error errCode (errMsg ++ str "\nTransaction was rolled back.") else .normal

/-- `EvalSqlTrans`; an abort is thrown on from its handler. -/
def evalSqlTrans (body : Body) : CDbPool × Exit :=
  let (s,exit) := evalBody body ⟨[],true⟩
  let complete (ok : Bool) : CDbPool :=
    (s.pool.endTrans (if ok then .commit else .rollback)).free
  match exit with
  | .normal => (complete s.ok,transEnd 0 [])
  | .error id msg => (complete false,transEnd id msg)
  | .abort => (s.pool,.abort)
  | .foreign => (complete false,transEnd 999 (str "SqlTrans Unhandled exception."))

namespace Body

/-- How a call of `%sql` is left when its rows are left by `exit`. -/
def sqlExit (dsn : Bytes) (connects runs : Bool) (diag : Bytes) (exit : Exit) : Exit :=
  if trim dsn = [] then .error 358 (str "No datasource specified")
  else if connects && runs then sqlCatch exit
  else sqlCatch (.error 302 diag)

/-- How a body is left. -/
def exit : Body → Exit
  | .done => .normal
  | .rollback rest => rest.exit
  | .throw id msg => .error id msg
  | .abort => .abort
  | .foreign => .foreign
  | .sql dsn connects runs diag rows rest =>
    (sqlExit dsn connects runs diag rows.exit).andThen rest.exit

/-- What a body does that matters for its transaction. -/
inductive Event
  | rollback
  | error
  | connection
  deriving DecidableEq

/-- What happens in a call of `%sql`, where `rows` is what happens in its rows: it gets its
connection, or an error is raised. -/
def callEvents (dsn : Bytes) (connects runs : Bool) (rows : List Event) : List Event :=
  if trim dsn = [] then [.error]
  else (if connects then [.connection] else []) ++ if connects && runs then rows else [.error]

/-- What happens in a body, in order. -/
def events : Body → List Event
  | .done => []
  | .rollback rest => .rollback::rest.events
  | .throw _ _ => [.error]
  | .abort => []
  | .foreign => [.error]
  | .sql dsn connects runs diag rows rest =>
    callEvents dsn connects runs rows.events ++
      if sqlExit dsn connects runs diag rows.exit = .normal then rest.events else []

end Body

namespace CDbPool

/-- Every connection is open and has begun its transaction. -/
def Begun (pool : CDbPool) : Prop := ∀ entry ∈ pool, entry.2 = ⟨true,false,none⟩

/-- The same, with connections that could not be opened. -/
def Tried (pool : CDbPool) : Prop :=
  ∀ entry ∈ pool, entry.2 = ⟨true,false,none⟩ ∨ entry.2 = ⟨false,true,none⟩

def Opened (pool : CDbPool) : Prop := ∃ entry ∈ pool, entry.2.handle = true

variable {pool : CDbPool}

theorem Begun.tried (h : Begun pool) : Tried pool := fun entry he => .inl (h entry he)

theorem find_mem {dsn : Bytes} {conn : CDbConn} (h : pool.find dsn = some conn) :
    ∃ entry ∈ pool, entry.2 = conn := by
  obtain ⟨entry,hentry,heq⟩ := Option.map_eq_some_iff.mp h
  exact ⟨entry,List.mem_of_find?_eq_some hentry,heq⟩

/-- A data source that can be reached leads to an open connection. -/
theorem connect_reached (h : Begun pool) (dsn : Bytes) :
    (pool.connect dsn true).1.handle = true ∧ Begun (pool.connect dsn true).2 ∧
      Opened (pool.connect dsn true).2 := by
  unfold connect
  cases hfind : pool.find dsn with
  | some conn =>
    obtain ⟨entry,hentry,rfl⟩ := find_mem hfind
    have hopen : entry.2.handle = true := by rw [h entry hentry]
    exact ⟨hopen,h,entry,hentry,hopen⟩
  | none =>
    refine ⟨rfl,?_,_,List.mem_append_right _ (List.mem_singleton_self _),rfl⟩
    intro entry he
    obtain he | he := List.mem_append.mp he
    · exact h entry he
    · rw [List.mem_singleton.mp he]
      rfl

theorem connect_unreached (h : Begun pool) (dsn : Bytes) :
    Tried (pool.connect dsn false).2 ∧ (Opened (pool.connect dsn false).2 ↔ Opened pool) := by
  unfold connect
  cases hfind : pool.find dsn with
  | some conn => exact ⟨h.tried,Iff.rfl⟩
  | none =>
    refine ⟨?_,?_,?_⟩
    · intro entry he
      obtain he | he := List.mem_append.mp he
      · exact h.tried entry he
      · rw [List.mem_singleton.mp he]
        exact .inr rfl
    · rintro ⟨entry,he,hopen⟩
      obtain he | he := List.mem_append.mp he
      · exact ⟨entry,he,hopen⟩
      · rw [List.mem_singleton.mp he] at hopen
        cases hopen
    · rintro ⟨entry,he,hopen⟩
      exact ⟨entry,List.mem_append_left _ he,hopen⟩

/-- The first completion of a transaction is the one that counts. -/
theorem complete_spec (h : Tried pool) (type : Completion) :
    ∀ entry ∈ (pool.endTrans type).free, entry.2.handle = true →
      entry.2.autocommit = true ∧ entry.2.ended = some type := by
  intro entry he hopen
  obtain ⟨mid,hmid,rfl⟩ := List.mem_map.mp he
  obtain ⟨first,hfirst,rfl⟩ := List.mem_map.mp hmid
  obtain heq | heq := h first hfirst
  · simp [heq,CDbConn.endTrans]
  · simp [heq,CDbConn.endTrans] at hopen

end CDbPool

open CDbPool Body

/-- What evaluating something in the state `s` comes to, when it is left by `exit` and `events`
happen in it. -/
structure Evaluated (exit : Exit) (events : List Event) (s : Trans) (r : Trans × Exit) : Prop where
  exit_eq : r.2 = exit
  ok_eq : r.1.ok = (s.ok && !decide (.rollback ∈ events))
  tried : Tried r.1.pool
  begun : sqlCatch exit = .normal → Begun r.1.pool
  opened : Opened r.1.pool ↔ Opened s.pool ∨ .connection ∈ events

theorem sqlCatch_sqlCatch (exit : Exit) : sqlCatch (sqlCatch exit) = sqlCatch exit := by
  cases exit with
  | error id msg =>
    by_cases hid : id = 0
    · simp [sqlCatch,hid]
    · simp [sqlCatch,hid]
  | normal => rfl
  | abort => rfl
  | foreign => rfl

theorem evaluated_here {exit : Exit} {s : Trans} (hs : Begun s.pool) {events : List Event}
    (hrollback : .rollback ∉ events) (hconnection : .connection ∉ events) :
    Evaluated exit events s (s,exit) :=
  ⟨rfl,by simp [hrollback],hs.tried,fun _ => hs,by simp [hconnection]⟩

theorem evalSql_spec {dsn : Bytes} {connects runs : Bool} {diag : Bytes}
    {rows : Trans → Trans × Exit} {exit : Exit} {events : List Event}
    (hrows : ∀ {s}, Begun s.pool → Evaluated exit events s (rows s)) {s : Trans}
    (hs : Begun s.pool) : Evaluated (sqlExit dsn connects runs diag exit)
      (callEvents dsn connects runs events) s (evalSql dsn connects runs diag rows s) := by
  unfold sqlExit callEvents evalSql
  by_cases hdsn : trim dsn = []
  · simp only [if_pos hdsn]
    exact evaluated_here hs (by decide) (by decide)
  · simp only [if_neg hdsn]
    cases connects with
    | false =>
      obtain ⟨htried,hopened⟩ := connect_unreached hs (trim dsn)
      refine ⟨by simp,by simp,by simpa using htried,?_,by simpa using hopened⟩
      intro h
      simp [sqlCatch] at h
    | true =>
      obtain ⟨hhandle,hbegun,hopened⟩ := connect_reached hs (trim dsn)
      cases runs with
      | false =>
        refine ⟨by simp,by simp,by simpa using hbegun.tried,?_,by simpa using hopened⟩
        intro h
        simp [sqlCatch] at h
      | true =>
        obtain ⟨hexit,hok,htried,hnext,hmore⟩ :=
          hrows (s := { s with pool := (s.pool.connect (trim dsn) true).2 }) hbegun
        simp only [hhandle,Bool.and_true,if_true]
        refine ⟨congrArg sqlCatch hexit,by simpa using hok,htried,?_,?_⟩
        · rw [sqlCatch_sqlCatch]
          exact hnext
        · simp [hmore,hopened]

/-- What is behind a call is reached when the call is left normally. -/
theorem evaluated_seq {exit exit' : Exit} {events events' : List Event} {s : Trans}
    {r : Trans × Exit} {rest : Trans → Trans × Exit} (h : Evaluated exit events s r)
    (hrest : ∀ {s}, Begun s.pool → Evaluated exit' events' s (rest s)) :
    Evaluated (exit.andThen exit') (events ++ if exit = .normal then events' else []) s
      (andThen r rest) := by
  obtain ⟨t,e⟩ := r
  obtain ⟨rfl,hok,htried,hbegun,hopened⟩ := h
  cases e with
  | normal =>
    obtain ⟨hexit',hok',htried',hbegun',hopened'⟩ := hrest (hbegun rfl)
    refine ⟨hexit',?_,htried',hbegun',?_⟩
    · have hok : t.ok = (s.ok && !decide (.rollback ∈ events)) := hok
      simp only [andThen,hok',hok,if_true,List.mem_append,Bool.decide_or,Bool.not_or,Bool.and_assoc]
    · have hopened : Opened t.pool ↔ Opened s.pool ∨ .connection ∈ events := hopened
      simp only [andThen,hopened',hopened,if_true,List.mem_append,or_assoc]
  | error id msg => exact ⟨rfl,by simpa [andThen] using hok,htried,hbegun,by simpa [andThen] using hopened⟩
  | abort => exact ⟨rfl,by simpa [andThen] using hok,htried,hbegun,by simpa [andThen] using hopened⟩
  | foreign => exact ⟨rfl,by simpa [andThen] using hok,htried,hbegun,by simpa [andThen] using hopened⟩

theorem evalBody_spec (body : Body) {s : Trans} (hs : Begun s.pool) :
    Evaluated body.exit body.events s (evalBody body s) := by
  induction body generalizing s with
  | done => exact evaluated_here hs (by simp [events]) (by simp [events])
  | rollback rest ih =>
    obtain ⟨hexit,hok,htried,hbegun,hopened⟩ := ih (s := { s with ok := false }) hs
    exact ⟨hexit,by simpa [evalBody,events] using hok,htried,hbegun,
      by simpa [evalBody,events] using hopened⟩
  | throw id msg => exact evaluated_here hs (by simp [events]) (by simp [events])
  | abort => exact evaluated_here hs (by simp [events]) (by simp [events])
  | foreign => exact evaluated_here hs (by simp [events]) (by simp [events])
  | sql dsn connects runs diag rows rest ihrows ihrest =>
    exact evaluated_seq (evalSql_spec ihrows hs) ihrest

/-- Every connection is completed as the body was left, and an error of the body is raised again. -/
structure Completed (body : Body) (r : CDbPool × Exit) : Prop where
  ended : ∀ entry ∈ r.1, entry.2.handle = true → entry.2.autocommit = true ∧ entry.2.ended =
    some (if body.exit = .normal ∧ .rollback ∉ body.events then .commit else .rollback)
  raised : .error ∈ body.events → ∃ id msg, r.2 = .error id msg

/-- A body left by an error with a positive number, or by an exception of another kind. -/
def RaisesAgain (exit : Exit) : Prop :=
  exit = .foreign ∨ ∃ id msg, exit = .error id msg ∧ 0 < id

theorem transEnd_error (errCode : ℤ) (errMsg : Bytes) :
    (∃ id msg, transEnd errCode errMsg = .error id msg) ↔ 0 < errCode := by
  unfold transEnd
  by_cases h : errCode > 0
  · simp [h]
  · simp [h]

/-- How a body's transactions are to be completed. -/
def Body.completion (body : Body) : Completion :=
  if body.exit = .normal ∧ .rollback ∉ body.events then .commit else .rollback

/-- Left in any way but by an abort, the body's connections are completed. -/
theorem evalSqlTrans_of_not_abort {body : Body} (h : body.exit ≠ .abort) :
    ∃ pool : CDbPool, Tried pool ∧
      (evalSqlTrans body).1 = (pool.endTrans body.completion).free ∧
      ((∃ id msg, (evalSqlTrans body).2 = .error id msg) ↔ RaisesAgain body.exit) := by
  have hstart : Begun (⟨[],true⟩ : Trans).pool := nofun
  obtain ⟨hexit,hok,htried,-,-⟩ := evalBody_spec body hstart
  unfold evalSqlTrans Body.completion
  generalize evalBody body ⟨[],true⟩ = r at hexit hok htried ⊢
  obtain ⟨s,exit⟩ := r
  change exit = body.exit at hexit
  have hflag : s.ok = !decide (.rollback ∈ body.events) := hok
  refine ⟨s.pool,htried,?_⟩
  rw [← hexit] at h ⊢
  cases exit with
  | normal =>
    have hpos : ¬RaisesAgain .normal := by simp [RaisesAgain]
    refine ⟨?_,iff_of_false (mt (transEnd_error 0 []).mp (by decide)) hpos⟩
    by_cases hback : .rollback ∈ body.events
    · simp [hflag,hback]
    · simp [hflag,hback]
  | error id msg =>
    refine ⟨rfl,(transEnd_error id msg).trans ?_⟩
    simp [RaisesAgain]
  | abort => exact absurd rfl h
  | foreign => exact ⟨rfl,iff_of_true ((transEnd_error 999 _).mpr (by decide)) (.inl rfl)⟩

/-- An abort leaves the pool as it is. -/
theorem evalSqlTrans_of_abort {body : Body} (h : body.exit = .abort) :
    (evalSqlTrans body).2 = .abort ∧ Tried (evalSqlTrans body).1 ∧
      (Opened (evalSqlTrans body).1 ↔ .connection ∈ body.events) := by
  have hstart : Begun (⟨[],true⟩ : Trans).pool := nofun
  obtain ⟨hexit,-,htried,-,hopened⟩ := evalBody_spec body hstart
  unfold evalSqlTrans
  generalize evalBody body ⟨[],true⟩ = r at hexit htried hopened ⊢
  obtain ⟨s,exit⟩ := r
  obtain rfl : exit = .abort := hexit.trans h
  exact ⟨rfl,htried,by simpa [Opened] using hopened⟩

/-- The transactions are completed and errors raised again exactly when an abort finds no
connection and a body that raised an error is left by one with a positive number. -/
theorem trans_completed_iff (body : Body) : Completed body (evalSqlTrans body) ↔
    (body.exit = .abort → .connection ∉ body.events) ∧
      (.error ∈ body.events → RaisesAgain body.exit) := by
  by_cases habort : body.exit = .abort
  · obtain ⟨hexit,htried,hopened⟩ := evalSqlTrans_of_abort habort
    have hagain : ¬RaisesAgain body.exit := by simp [RaisesAgain,habort]
    have hraised : ¬∃ id msg, (evalSqlTrans body).2 = .error id msg := by simp [hexit]
    constructor
    · intro h
      refine ⟨fun _ hconnection => ?_,fun herror => absurd (h.raised herror) hraised⟩
      obtain ⟨entry,hentry,hhandle⟩ := hopened.mpr hconnection
      have hauto := (h.ended entry hentry hhandle).1
      obtain heq | heq := htried entry hentry
      · rw [heq] at hauto
        cases hauto
      · rw [heq] at hhandle
        cases hhandle
    · rintro ⟨hnone,herror⟩
      refine ⟨fun entry hentry hhandle => ?_,fun h => absurd (herror h) hagain⟩
      exact absurd (hopened.mp ⟨entry,hentry,hhandle⟩) (hnone habort)
  · obtain ⟨pool,htried,heq,hraised⟩ := evalSqlTrans_of_not_abort habort
    constructor
    · intro h
      exact ⟨fun h' => absurd h' habort,fun herror => hraised.mp (h.raised herror)⟩
    · rintro ⟨-,herror⟩
      refine ⟨?_,fun h => hraised.mpr (herror h)⟩
      rw [heq]
      exact complete_spec htried _

/-- An abort behind a `%sql` leaves the transaction open. -/
theorem abort_leaves_transaction :
    ¬Completed (.sql (str "db") true true [] .done .abort)
      (evalSqlTrans (.sql (str "db") true true [] .done .abort)) := by
  intro h
  exact absurd (h.ended (str "db",⟨true,false,none⟩) (by decide) rfl).1 (by decide)

end Smx
