import Gkit.Lib.Tables
import Gkit.Store.WithTx

/-!
# Package `outbox`

The table `outbox_events`, the SQL statements of the package, and `Store` and
`Relay.relay` as programs over them.  The statements that a business transaction
runs beside `Store` do not concern this table; only whether they fail matters,
and that is up to the outside, as is what the publisher answers.

An event id is a fresh number in place of a random UUID.  Instants are
nanoseconds.  Logging, the `onError` callback and the ticker are left out.
-/

namespace Gkit.Outbox

open Gkit.Lib Gkit.Store

/-! ## The table -/

structure EventRow where
  id : ℕ
  topic : String
  payload : String
  createdAt : ℤ
  publishedAt : Option ℤ
  deriving DecidableEq, Repr

/-- The local type `event` of `relay`. -/
structure Event where
  id : ℕ
  topic : String
  payload : String
  deriving DecidableEq, Repr

def EventRow.event (row : EventRow) : Event := ⟨row.id, row.topic, row.payload⟩

/-- `SET published_at = …` -/
def EventRow.mark (now : ℤ) (row : EventRow) : EventRow := { row with publishedAt := some now }

@[simp] theorem EventRow.mark_id (now : ℤ) (row : EventRow) : (row.mark now).id = row.id := rfl

inductive Stmt where
  /-- `INSERT INTO outbox_events (topic, payload) VALUES …` -/
  | insertEvent (topic payload : String)
  /-- `SELECT id, topic, payload FROM outbox_events WHERE published_at IS NULL
  ORDER BY created_at LIMIT … FOR UPDATE SKIP LOCKED` -/
  | selectUnpublished (limit : ℤ)
  /-- `UPDATE outbox_events SET published_at = NOW() WHERE id = ANY(…)` -/
  | markPublished (ids : List ℕ)
  /-- Any statement on the tables of the business. -/
  | business (sql : String)

@[reducible] def Stmt.Ret : Stmt → Type
  | .insertEvent .. => Unit
  | .selectUnpublished _ => List Event
  | .markPublished _ => Unit
  | .business _ => String

/-- The clock, the order in which a scan meets rows that `ORDER BY created_at`
does not tell apart, the result of a statement of the business, and the answer
of the publisher. -/
structure Env where
  clock : ℤ
  rank : ℕ → ℕ
  business : Except GoError String
  publish : Option GoError

def errUniqueViolation : GoError :=
  .new "ERROR: duplicate key value violates unique constraint \"outbox_events_pkey\" (SQLSTATE 23505)"

def errNegativeLimit : GoError := .new "ERROR: LIMIT must not be negative (SQLSTATE 2201W)"

/-- `ORDER BY created_at`. -/
def EventRow.before (rank : ℕ → ℕ) (a b : EventRow) : Prop :=
  a.createdAt < b.createdAt ∨ a.createdAt = b.createdAt ∧ rank a.id ≤ rank b.id

instance (rank : ℕ → ℕ) : DecidableRel (EventRow.before rank) := fun _ _ =>
  inferInstanceAs (Decidable (_ ∨ _ ∧ _))

def unpublished (events : Table EventRow.id) : List EventRow :=
  events.rows.filter fun r => r.publishedAt = none

def fetch (limit : ℕ) (rank : ℕ → ℕ) (events : Table EventRow.id) (locked : ℕ → Bool) :
    List EventRow :=
  ((events.rows.filter fun r => r.publishedAt = none ∧ locked r.id = false).insertionSort
    (EventRow.before rank)).take limit

def Stmt.run (m : Moment Env) (d : Table EventRow.id) (locked : ℕ → Bool) :
    (s : Stmt) → Verdict ℕ EventRow s.Ret
  | .insertEvent topic payload =>
      if (d.get m.serial).isSome then .fail errUniqueViolation
      else if locked m.serial then .wait
      else .done () [⟨m.serial, topic, payload, m.started.clock, none⟩] [m.serial]
  | .selectUnpublished limit =>
      if limit < 0 then .fail errNegativeLimit
      else
        let rows := fetch limit.toNat m.now.rank d locked
        .done (rows.map EventRow.event) [] (rows.map EventRow.id)
  | .markPublished ids =>
      let rows := d.rows.filter fun r => r.id ∈ ids
      if rows.any fun r => locked r.id then .wait
      else .done () (rows.map (EventRow.mark m.started.clock)) (rows.map EventRow.id)
  | .business _ =>
      match m.now.business with
      | .error err => .fail err
      | .ok res => .done res [] []

theorem mem_fetch {limit : ℕ} {rank : ℕ → ℕ} {events : Table EventRow.id} {locked : ℕ → Bool}
    {row : EventRow} (h : row ∈ fetch limit rank events locked) :
    row ∈ events.rows ∧ row.publishedAt = none ∧ locked row.id = false := by
  have hmem := (List.mem_insertionSort _).mp (List.mem_of_mem_take h)
  simpa using List.mem_filter.mp hmem

theorem nodup_fetch (limit : ℕ) (rank : ℕ → ℕ) (events : Table EventRow.id)
    (locked : ℕ → Bool) : ((fetch limit rank events locked).map EventRow.id).Nodup := by
  apply List.Nodup.sublist ((List.take_sublist _ _).map _)
  apply ((List.perm_insertionSort _ _).map EventRow.id).nodup_iff.mpr
  exact events.nodup.sublist (List.filter_sublist.map _)

section Run

variable {m : Moment Env} {d : Table EventRow.id} {locked : ℕ → Bool} {s : Stmt} {r : s.Ret}
  {ws : List EventRow} {ks : List ℕ}

theorem Stmt.run_locks (h : s.run m d locked = .done r ws ks) : ∀ k ∈ ks, locked k = false := by
  cases s with
  | insertEvent topic payload =>
      simp only [Stmt.run] at h
      split_ifs at h with hget hl
      cases h
      simpa using hl
  | selectUnpublished limit =>
      simp only [Stmt.run] at h
      split_ifs at h
      cases h
      intro k hk
      obtain ⟨row, hrow, rfl⟩ := List.mem_map.mp hk
      exact (mem_fetch hrow).2.2
  | markPublished ids =>
      simp only [Stmt.run] at h
      split_ifs at h with hl
      cases h
      intro k hk
      obtain ⟨row, hrow, rfl⟩ := List.mem_map.mp hk
      by_contra hlocked
      exact hl (List.any_eq_true.mpr ⟨row, hrow, by simpa using hlocked⟩)
  | business sql =>
      simp only [Stmt.run] at h
      split at h
      · cases h
      · cases h
        simp

theorem Stmt.run_writes (h : s.run m d locked = .done r ws ks) : ∀ u ∈ ws, u.id ∈ ks := by
  cases s with
  | insertEvent topic payload =>
      simp only [Stmt.run] at h
      split_ifs at h with hget hl
      cases h
      simp
  | selectUnpublished limit =>
      simp only [Stmt.run] at h
      split_ifs at h
      cases h
      simp
  | markPublished ids =>
      simp only [Stmt.run] at h
      split_ifs at h with hl
      cases h
      intro u hu
      obtain ⟨row, hrow, rfl⟩ := List.mem_map.mp hu
      exact List.mem_map.mpr ⟨row, hrow, rfl⟩
  | business sql =>
      simp only [Stmt.run] at h
      split at h
      · cases h
      · cases h
        simp

theorem Stmt.run_wait (h : s.run m d locked = .wait) : ∃ k, locked k = true := by
  cases s with
  | insertEvent topic payload =>
      simp only [Stmt.run] at h
      split_ifs at h with hget hl
      exact ⟨_, hl⟩
  | selectUnpublished limit =>
      simp only [Stmt.run] at h
      split_ifs at h
  | markPublished ids =>
      simp only [Stmt.run] at h
      split_ifs at h with hl
      obtain ⟨row, -, hrow⟩ := List.any_eq_true.mp hl
      exact ⟨row.id, hrow⟩
  | business sql =>
      simp only [Stmt.run] at h
      split at h <;> cases h

end Run

/-- `Publisher.Publish`.  The publisher is not told the id; it stands here for
the history. -/
inductive Ext where
  | publish (e : Event)

@[reducible] def schema : Schema where
  Data := Table EventRow.id
  Key := ℕ
  Write := EventRow
  Stmt := Stmt
  Ret := Stmt.Ret
  Env := Env
  Ext := Ext
  ExtRet := fun _ => Option GoError
  decKey := inferInstance
  keyOf := EventRow.id
  apply := Table.put
  answer := fun e _ => e.publish
  run := fun m s d locked => s.run m d locked
  run_locks := Stmt.run_locks
  run_writes := Stmt.run_writes
  run_wait := Stmt.run_wait

/-! ## The write side -/

variable {δ V : Type}

/-- `Store`.  JSON encoding is a parameter and may reject a value. -/
def store (marshal : V → Except GoError String) (_ctx : Context δ) (tx : Tx δ) (topic : String)
    (payload : V) : GoProg schema δ (Option GoError) := do
  match marshal payload with
  | .error err => return some (.wrapping "outbox: marshal payload" err)
  | .ok raw =>
      match ← txExec (S := schema) tx (.insertEvent topic raw) with
      | .error err => return some (.wrapping "outbox: insert event" err)
      | .ok _ => return none

/-! ## The relay -/

structure Relay (δ : Type) where
  db : δ
  batchSize : ℤ

def Relay.publishAll : List Event → GoProg schema δ (Option GoError)
  | [] => return none
  | e :: events => .op (.ext (.publish e)) fun r =>
      match r with
      | some err => .ret (some (.wrapping
          ("publish topic " ++ quote e.topic ++ " id " ++ toString e.id) err))
      | none => publishAll events

/-- The part of `relay` after the rows are read. -/
def Relay.deliver (tx : Tx δ) (ids : List ℕ) (events : List Event) :
    GoProg schema δ (Option GoError) := do
  match ← Relay.publishAll events with
  | some err => return some err
  | none =>
      match ← txExec (S := schema) tx (.markPublished ids) with
      | .error err => return some (.wrapping "mark published" err)
      | .ok _ => return none

/-- The callback of `relay`. -/
def Relay.relayTx (r : Relay δ) (_ctx : Context δ) (tx : Tx δ) :
    GoProg schema δ (Option GoError) := do
  match ← txExec (S := schema) tx (.selectUnpublished r.batchSize) with
  | .error err =>
      -- What the server says while it runs the query comes with the rows.
      return some (.wrapping (if err = errNegativeLimit then "scan" else "fetch") err)
  | .ok events =>
      if events = [] then return none
      else Relay.deliver tx (events.map Event.id) events

def Relay.relay (r : Relay δ) (ctx : Context δ) : GoProg schema δ (Option GoError) :=
  withTx r.db ctx r.relayTx

/-- `Relay.run` up to its `n`-th tick; the error of a cycle is only logged. -/
def Relay.run (r : Relay δ) (ctx : Context δ) : ℕ → GoProg schema δ Unit
  | 0 => return ()
  | n + 1 => do
      let _ ← r.relay ctx
      r.run ctx n

end Gkit.Outbox
