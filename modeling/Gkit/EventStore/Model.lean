import Gkit.Store.WithTx

/-!
# Package `eventstore`

The `events` and `snapshots` tables, the SQL statements of the package, and its
methods as programs over them.  `append` joins the transaction of its context,
if there is one; the other exported methods go to the pool.

JSON encoding is a parameter: `Codec.marshal` may reject a value.  Versions are
integers without bound, and the schema constraint that is modelled is the
primary key `(stream_id, version)`.
-/

namespace Gkit.EventStore

open Gkit.Lib Gkit.Store

/-! ## Tables and statements -/

/-- A row of `events`, and the Go type `Event`. -/
structure Event where
  streamID : String
  version : ℤ
  type : String
  data : String
  metadata : String
  createdAt : ℤ
  deriving DecidableEq, Repr

/-- A row of `snapshots`, and the Go type `Snapshot`. -/
structure Snapshot where
  streamID : String
  version : ℤ
  data : String
  createdAt : ℤ
  deriving DecidableEq, Repr

structure Tables where
  events : List Event
  snapshots : List Snapshot
  deriving DecidableEq, Repr

def Tables.empty : Tables := ⟨[], []⟩

/-- Primary keys of the two tables. -/
inductive Key where
  | event (streamID : String) (version : ℤ)
  | snapshot (streamID : String)
  deriving DecidableEq

inductive Write where
  | event (row : Event)
  | snapshot (row : Snapshot)
  deriving DecidableEq

inductive Stmt where
  /-- `SELECT COALESCE(MAX(version), -1) FROM events WHERE stream_id = $1` -/
  | maxVersion (streamID : String)
  /-- `INSERT INTO events (stream_id, version, type, data, metadata) VALUES …` -/
  | insertEvent (streamID : String) (version : ℤ) (type data metadata : String)
  /-- `SELECT … FROM events WHERE stream_id = $1 AND version >= $2 ORDER BY version` -/
  | selectEvents (streamID : String) (fromVersion : ℤ)
  /-- `INSERT INTO snapshots … ON CONFLICT (stream_id) DO UPDATE …` -/
  | upsertSnapshot (streamID : String) (version : ℤ) (data : String)
  /-- `SELECT … FROM snapshots WHERE stream_id = $1` -/
  | selectSnapshot (streamID : String)

@[reducible] def Stmt.Ret : Stmt → Type
  | .maxVersion _ => ℤ
  | .insertEvent .. => Unit
  | .selectEvents .. => List Event
  | .upsertSnapshot .. => Unit
  | .selectSnapshot _ => Option Snapshot

def Write.key : Write → Key
  | .event row => .event row.streamID row.version
  | .snapshot row => .snapshot row.streamID

def Tables.apply (d : Tables) : Write → Tables
  | .event row => { d with events := d.events ++ [row] }
  | .snapshot row =>
      { d with snapshots := d.snapshots.filter (fun r => r.streamID ≠ row.streamID) ++ [row] }

/-- The versions of one stream, in table order. -/
def versions (streamID : String) (rows : List Event) : List ℤ :=
  (rows.filter fun r => r.streamID = streamID).map Event.version

/-- `COALESCE(MAX(version), -1)`. -/
def maxVersion (streamID : String) (rows : List Event) : ℤ :=
  (versions streamID rows).max?.getD (-1)

/-- The rows of a stream from a version on, ordered by version. -/
def eventsFrom (streamID : String) (fromVersion : ℤ) (rows : List Event) : List Event :=
  (rows.filter fun r => r.streamID = streamID ∧ fromVersion ≤ r.version).insertionSort
    fun a b => a.version ≤ b.version

def errUniqueViolation : GoError :=
  .new "ERROR: duplicate key value violates unique constraint \"events_pkey\" (SQLSTATE 23505)"

/-- `NOW()` is the time at which the transaction started. -/
def Stmt.run (m : Moment ℤ) (d : Tables) (locked : Key → Bool) :
    (s : Stmt) → Verdict Key Write s.Ret
  | .maxVersion sid => .done (EventStore.maxVersion sid d.events) [] []
  | .insertEvent sid v type data metadata =>
      if v ∈ versions sid d.events then .fail errUniqueViolation
      else if locked (.event sid v) then .wait
      else .done () [.event ⟨sid, v, type, data, metadata, m.started⟩] [.event sid v]
  | .selectEvents sid v => .done (eventsFrom sid v d.events) [] []
  | .upsertSnapshot sid v data =>
      if locked (.snapshot sid) then .wait
      else .done () [.snapshot ⟨sid, v, data, m.started⟩] [.snapshot sid]
  | .selectSnapshot sid => .done (d.snapshots.find? fun r => r.streamID = sid) [] []

/-- What a statement that goes through writes and locks: nothing, or one row
whose key nobody else holds. -/
theorem Stmt.run_done {m : Moment ℤ} {d : Tables} {locked : Key → Bool} {s : Stmt} {r : s.Ret}
    {ws : List Write} {ks : List Key} (h : s.run m d locked = .done r ws ks) :
    (ws = [] ∧ ks = []) ∨ ∃ u : Write, ws = [u] ∧ ks = [u.key] ∧ locked u.key = false := by
  cases s with
  | maxVersion | selectEvents | selectSnapshot =>
      cases h
      exact .inl ⟨rfl, rfl⟩
  | insertEvent sid v type data metadata =>
      simp only [Stmt.run] at h
      split at h
      · cases h
      · split at h
        · cases h
        · rename_i hl
          cases h
          exact .inr ⟨_, rfl, rfl, by simpa [Write.key] using hl⟩
  | upsertSnapshot sid v data =>
      simp only [Stmt.run] at h
      split at h
      · cases h
      · rename_i hl
        cases h
        exact .inr ⟨_, rfl, rfl, by simpa [Write.key] using hl⟩

theorem Stmt.run_wait {m : Moment ℤ} {d : Tables} {locked : Key → Bool} {s : Stmt}
    (h : s.run m d locked = .wait) : ∃ k, locked k = true := by
  cases s with
  | maxVersion | selectEvents | selectSnapshot => cases h
  | insertEvent sid v type data metadata =>
      simp only [Stmt.run] at h
      split at h
      · cases h
      · split at h
        · exact ⟨_, ‹_›⟩
        · cases h
  | upsertSnapshot sid v data =>
      simp only [Stmt.run] at h
      split at h
      · exact ⟨_, ‹_›⟩
      · cases h

@[reducible] def schema : Schema where
  Data := Tables
  Key := Key
  Write := Write
  Stmt := Stmt
  Ret := Stmt.Ret
  Env := ℤ
  Ext := Empty
  ExtRet := fun _ => Unit
  decKey := inferInstance
  keyOf := Write.key
  apply := Tables.apply
  answer := fun _ _ => ()
  run := fun m s d locked => s.run m d locked
  run_locks := by
    intro m s d locked r ws ks h k hk
    rcases Stmt.run_done h with ⟨rfl, rfl⟩ | ⟨u, rfl, rfl, hu⟩
    · simp at hk
    · rwa [List.mem_singleton.mp hk]
  run_writes := by
    intro m s d locked r ws ks h u hu
    rcases Stmt.run_done h with ⟨rfl, rfl⟩ | ⟨v, rfl, rfl, -⟩
    · simp at hu
    · simp [List.mem_singleton.mp hu]
  run_wait := Stmt.run_wait

/-- A server with empty tables. -/
def emptyDB {ι : Type} : World schema Unit ι := World.initial fun _ => Tables.empty

/-- An outside in which nothing fails. -/
def calm : ℕ → Tick schema := fun _ => ⟨0, none⟩

/-! ## Methods -/

def errVersionConflict : GoError := .new "eventstore: version conflict"

def errStreamNotFound : GoError := .new "eventstore: stream not found"

/-- `pgx.ErrNoRows`. -/
def errNoRows : GoError := .new "no rows in result set"

def expectedVersionNew : ℤ := -1

def expectedVersionAny : ℤ := -2

/-- `encoding/json` on the values of the caller. -/
structure Codec (V : Type) where
  marshal : V → Except GoError String
  /-- `map[string]any` with no entries. -/
  emptyMap : V

/-- Texts marshal to themselves; `none` stands for a value that has no JSON form. -/
def textCodec : Codec (Option String) where
  marshal
    | some text => .ok text
    | none => .error (.new "json: unsupported type: chan int")
  emptyMap := some "\x7b\x7d"

structure EventData (V : Type) where
  type : String
  data : V
  metadata : Option V

/-- An event as it is sent to the server. -/
structure Document where
  type : String
  data : String
  metadata : String
  deriving DecidableEq, Repr

variable {V δ : Type}

/-- A statement on the transaction. -/
def txSQL (tx : Tx δ) (s : Stmt) : GoProg schema δ (Except GoError s.Ret) :=
  txExec (S := schema) tx s

/-- A statement on the pool. -/
def dbSQL (db : δ) (ctx : Context δ) (s : Stmt) : GoProg schema δ (Except GoError s.Ret) :=
  dbExec (S := schema) db ctx s

/-- The marshalling part of one round of the loop in `Append`. -/
def marshalEvent (codec : Codec V) (ed : EventData V) : Except GoError Document :=
  match codec.marshal ed.data with
  | .error err => .error (.wrapping ("eventstore: marshal data for " ++ quote ed.type) err)
  | .ok data =>
      match codec.marshal (ed.metadata.getD codec.emptyMap) with
      | .error err => .error (.wrapping ("eventstore: marshal metadata for " ++ quote ed.type) err)
      | .ok metaJSON => .ok ⟨ed.type, data, metaJSON⟩

/-- The optimistic concurrency check. -/
def checkVersion (streamID : String) (currentVersion expectedVersion : ℤ) : Option GoError :=
  if expectedVersion = expectedVersionNew then
    if currentVersion ≥ 0 then
      some (.wrap (errVersionConflict.error ++ ": stream " ++ quote streamID ++
        " already exists at version " ++ toString currentVersion) errVersionConflict)
    else none
  else if expectedVersion = expectedVersionAny then none
  else if currentVersion ≠ expectedVersion then
    some (.wrap (errVersionConflict.error ++ ": stream " ++ quote streamID ++ " at version " ++
      toString currentVersion ++ ", expected " ++ toString expectedVersion) errVersionConflict)
  else none

/-- The unexported method: the version as the transaction sees it. -/
def currentVersion (tx : Tx δ) (streamID : String) : GoProg schema δ (Except GoError ℤ) := do
  match ← txSQL tx (.maxVersion streamID) with
  | .error err => return .error (.wrapping ("eventstore: read version " ++ quote streamID) err)
  | .ok v => return .ok v

def insertEvents (codec : Codec V) (tx : Tx δ) (streamID : String) :
    ℤ → List (EventData V) → GoProg schema δ (Option GoError)
  | _, [] => return none
  | nextVersion, ed :: events => do
      match marshalEvent codec ed with
      | .error err => return some err
      | .ok doc =>
          match ← txSQL tx (.insertEvent streamID nextVersion doc.type doc.data doc.metadata) with
          | .error err => return some (.wrapping ("eventstore: insert event " ++ quote ed.type ++
              " v" ++ toString nextVersion) err)
          | .ok _ => insertEvents codec tx streamID (nextVersion + 1) events

theorem insertEvents_cons {codec : Codec V} {ed : EventData V} {doc : Document}
    (h : marshalEvent codec ed = .ok doc) (tx : Tx δ) (streamID : String) (nextVersion : ℤ)
    (events : List (EventData V)) :
    insertEvents codec tx streamID nextVersion (ed :: events) =
      .op (.exec tx (.insertEvent streamID nextVersion doc.type doc.data doc.metadata)) fun r =>
      match r with
      | .error err => .ret (some (.wrapping ("eventstore: insert event " ++ quote ed.type ++
          " v" ++ toString nextVersion) err))
      | .ok _ => insertEvents codec tx streamID (nextVersion + 1) events := by
  simp only [insertEvents, h]
  refine congrArg (Prog.op _) (funext fun r => ?_)
  cases r <;> rfl

/-- The arguments of `Append`. -/
structure AppendCall (V : Type) where
  streamID : String
  events : List (EventData V)
  expectedVersion : ℤ

/-- The callback of `Append`. -/
def appendTx (codec : Codec V) (a : AppendCall V) (_ctx : Context δ) (tx : Tx δ) :
    GoProg schema δ (Option GoError) := do
  match ← currentVersion tx a.streamID with
  | .error err => return some err
  | .ok version =>
      match checkVersion a.streamID version a.expectedVersion with
      | some err => return some err
      | none => insertEvents codec tx a.streamID (version + 1) a.events

theorem appendTx_eq (codec : Codec V) (a : AppendCall V) (ctx : Context δ) (tx : Tx δ) :
    appendTx codec a ctx tx = .op (.exec tx (.maxVersion a.streamID)) fun r =>
      match r with
      | .error err => .ret (some (.wrapping ("eventstore: read version " ++ quote a.streamID) err))
      | .ok version =>
          match checkVersion a.streamID version a.expectedVersion with
          | some err => .ret (some err)
          | none => insertEvents codec tx a.streamID (version + 1) a.events := by
  refine congrArg (Prog.op _) (funext fun r => ?_)
  cases r <;> rfl

/-- `Store.Append`. -/
def append (codec : Codec V) (db : δ) (ctx : Context δ) (a : AppendCall V) :
    GoProg schema δ (Option GoError) :=
  if a.events.isEmpty then return none
  else withTx db ctx (appendTx codec a)

/-- `Store.Load`.  An error of the query and one of the row scan are one here. -/
def load (db : δ) (ctx : Context δ) (streamID : String) (fromVersion : ℤ) :
    GoProg schema δ (Except GoError (List Event)) := do
  match ← dbSQL db ctx (.selectEvents streamID fromVersion) with
  | .error err => return .error (.wrapping ("eventstore: load " ++ quote streamID) err)
  | .ok events =>
      if events.isEmpty ∧ fromVersion = 0 then
        return .error (.wrap (errStreamNotFound.error ++ ": " ++ quote streamID) errStreamNotFound)
      else return .ok events

/-- `Store.CurrentVersion`; the source returns -1 beside an error. -/
def storeCurrentVersion (db : δ) (ctx : Context δ) (streamID : String) :
    GoProg schema δ (Except GoError ℤ) := do
  match ← dbSQL db ctx (.maxVersion streamID) with
  | .error err => return .error (.wrapping ("eventstore: current version " ++ quote streamID) err)
  | .ok v => return .ok v

/-- `Store.SaveSnapshot`. -/
def saveSnapshot (codec : Codec V) (db : δ) (ctx : Context δ) (streamID : String) (version : ℤ)
    (state : V) : GoProg schema δ (Option GoError) := do
  match codec.marshal state with
  | .error err => return some (.wrapping "eventstore: marshal snapshot" err)
  | .ok data =>
      match ← dbSQL db ctx (.upsertSnapshot streamID version data) with
      | .error err => return some (.wrapping ("eventstore: save snapshot " ++ quote streamID) err)
      | .ok _ => return none

/-- `Row.Scan` of a query for one row. -/
def scanRow {ρ : Type} : Except GoError (Option ρ) → Except GoError ρ
  | .error err => .error err
  | .ok none => .error errNoRows
  | .ok (some row) => .ok row

/-- `Store.LoadSnapshot`. -/
def loadSnapshot (db : δ) (ctx : Context δ) (streamID : String) :
    GoProg schema δ (Except GoError (Option Snapshot)) := do
  match scanRow (← dbSQL db ctx (.selectSnapshot streamID)) with
  | .error err =>
      if err.is errNoRows then return .ok none
      else return .error (.wrapping ("eventstore: load snapshot " ++ quote streamID) err)
  | .ok snap => return .ok (some snap)

end Gkit.EventStore
