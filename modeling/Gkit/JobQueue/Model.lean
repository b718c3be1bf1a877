import Gkit.Lib.Tables
import Gkit.Store.WithTx

/-!
# Package `queue`

The `jobs` table beside whatever tables the handlers use, the SQL statements of
the package, and `Enqueue`, `processBatch` and `executeJob` as programs over
them.  The handlers' own tables and statements are a schema `U`.

A job id is a fresh number in place of a random UUID.  Instants and durations
are nanoseconds; durations wrap at 64 bits as `time.Duration` does.  Counters
are integers without bound.  Logging, the registry mutex and the ticker are left
out.
-/

namespace Gkit.JobQueue

open Gkit.Lib Gkit.Store

/-! ## The table -/

/-- The values that the `CHECK` constraint on `status` admits. -/
inductive Status where
  | pending
  | running
  | done
  | failed
  | dead
  deriving DecidableEq, Repr

/-- A row of `jobs`. -/
structure JobRow where
  id : ℕ
  type : String
  payload : String
  status : Status
  attempts : ℤ
  maxAttempts : ℤ
  runAt : ℤ
  lastError : Option String
  createdAt : ℤ
  updatedAt : ℤ
  deriving DecidableEq, Repr

/-- The fields of the Go type `Job` that a worker fills in and reads. -/
structure Job where
  id : ℕ
  type : String
  payload : String
  attempts : ℤ
  maxAttempts : ℤ
  deriving DecidableEq, Repr

def JobRow.job (row : JobRow) : Job :=
  ⟨row.id, row.type, row.payload, row.attempts, row.maxAttempts⟩

structure Tables (U : Schema) where
  jobs : Table JobRow.id
  user : U.Data

inductive Key (U : Schema) where
  | job (id : ℕ)
  | user (k : U.Key)

instance (U : Schema) : DecidableEq (Key U) := fun
  | .job i, .job j => decidable_of_iff (i = j) (by simp)
  | .user k, .user l => decidable_of_iff (k = l) (by simp)
  | .job _, .user _ => isFalse (by simp)
  | .user _, .job _ => isFalse (by simp)

inductive Write (U : Schema) where
  | job (row : JobRow)
  | user (u : U.Write)

def Write.key {U : Schema} : Write U → Key U
  | .job row => .job row.id
  | .user u => .user (U.keyOf u)

def Tables.apply {U : Schema} (d : Tables U) : Write U → Tables U
  | .job row => { d with jobs := d.jobs.put row }
  | .user u => { d with user := U.apply d.user u }

/-! ## Statements -/

/-- The `SET` clauses of the four updates in `executeJob`. -/
inductive Update where
  | failed (lastError : String)
  | done (attempts : ℤ)
  | dead (attempts : ℤ) (lastError : String)
  | pending (attempts : ℤ) (lastError : String) (runAt : ℤ)
  deriving DecidableEq

def Update.set (now : ℤ) (row : JobRow) : Update → JobRow
  | .failed lastError =>
      { row with status := .failed, lastError := some lastError, updatedAt := now }
  | .done attempts => { row with status := .done, attempts := attempts, updatedAt := now }
  | .dead attempts lastError =>
      { row with status := .dead, attempts := attempts, lastError := some lastError,
                 updatedAt := now }
  | .pending attempts lastError runAt =>
      { row with status := .pending, attempts := attempts, lastError := some lastError,
                 runAt := runAt, updatedAt := now }

@[simp] theorem Update.set_id (now : ℤ) (row : JobRow) (u : Update) :
    (u.set now row).id = row.id := by
  cases u <;> rfl

inductive Stmt (U : Schema) where
  /-- `INSERT INTO jobs (type, payload, max_attempts, run_at) VALUES …` -/
  | insertJob (type payload : String) (maxAttempts runAt : ℤ)
  /-- `SELECT id, type, payload, attempts, max_attempts FROM jobs WHERE status = 'pending' AND
  run_at <= NOW() ORDER BY run_at LIMIT 10 FOR UPDATE SKIP LOCKED` -/
  | selectPending
  /-- `UPDATE jobs SET … WHERE id = …` -/
  | updateJob (u : Update) (id : ℕ)
  | user (s : U.Stmt)

@[reducible] def Stmt.Ret {U : Schema} : Stmt U → Type
  | .insertJob .. => Unit
  | .selectPending => List Job
  | .updateJob .. => Unit
  | .user s => U.Ret s

/-- What the outside supplies: the clock, the order in which a scan meets rows
that `ORDER BY run_at` does not tell apart, the answer of a service that a
handler asks, and what the handlers' own statements need. -/
structure Env (U : Schema) where
  clock : ℤ
  rank : ℕ → ℕ
  answer : Option GoError
  user : U.Env

def errUniqueViolation : GoError :=
  .new "ERROR: duplicate key value violates unique constraint \"jobs_pkey\" (SQLSTATE 23505)"

/-- `ORDER BY run_at`. -/
def JobRow.before (rank : ℕ → ℕ) (a b : JobRow) : Prop :=
  a.runAt < b.runAt ∨ a.runAt = b.runAt ∧ rank a.id ≤ rank b.id

instance (rank : ℕ → ℕ) : DecidableRel (JobRow.before rank) := fun _ _ =>
  inferInstanceAs (Decidable (_ ∨ _ ∧ _))

/-- The rows that a worker takes: ready, not locked by anybody else, at most ten. -/
def pick (now : ℤ) (rank : ℕ → ℕ) (jobs : Table JobRow.id) (locked : ℕ → Bool) : List JobRow :=
  ((jobs.rows.filter fun r =>
      r.status = .pending ∧ r.runAt ≤ now ∧ locked r.id = false).insertionSort
    (JobRow.before rank)).take 10

variable {U : Schema}

/-- `NOW()` is the time at which the transaction started. -/
def Stmt.run (m : Moment (Env U)) (d : Tables U) (locked : Key U → Bool) :
    (s : Stmt U) → Verdict (Key U) (Write U) s.Ret
  | .insertJob type payload maxAttempts runAt =>
      if (d.jobs.get m.serial).isSome then .fail errUniqueViolation
      else if locked (.job m.serial) then .wait
      else .done () [.job ⟨m.serial, type, payload, .pending, 0, maxAttempts, runAt, none,
          m.started.clock, m.started.clock⟩] [.job m.serial]
  | .selectPending =>
      let rows := pick m.started.clock m.now.rank d.jobs fun id => locked (.job id)
      .done (rows.map JobRow.job) [] (rows.map fun r => .job r.id)
  | .updateJob u id =>
      match d.jobs.get id with
      | none => .done () [] []
      | some row =>
          if locked (.job id) then .wait
          else .done () [.job (u.set m.started.clock row)] [.job id]
  | .user s =>
      (U.run ⟨m.started.user, m.now.user, m.serial⟩ s d.user fun k => locked (.user k)).map
        .user .user

theorem mem_pick {now : ℤ} {rank : ℕ → ℕ} {jobs : Table JobRow.id} {locked : ℕ → Bool}
    {row : JobRow} (h : row ∈ pick now rank jobs locked) :
    row ∈ jobs.rows ∧ row.status = .pending ∧ row.runAt ≤ now ∧ locked row.id = false := by
  have hmem := (List.mem_insertionSort _).mp (List.mem_of_mem_take h)
  simpa using List.mem_filter.mp hmem

theorem nodup_pick (now : ℤ) (rank : ℕ → ℕ) (jobs : Table JobRow.id) (locked : ℕ → Bool) :
    ((pick now rank jobs locked).map JobRow.id).Nodup := by
  refine List.Nodup.sublist ((List.take_sublist _ _).map _) ?_
  refine ((List.perm_insertionSort _ _).map JobRow.id).nodup_iff.mpr ?_
  exact jobs.nodup.sublist (List.filter_sublist.map _)

theorem Stmt.run_locks {m : Moment (Env U)} {d : Tables U} {locked : Key U → Bool} {s : Stmt U}
    {r : s.Ret} {ws : List (Write U)} {ks : List (Key U)} (h : s.run m d locked = .done r ws ks) :
    ∀ k ∈ ks, locked k = false := by
  cases s with
  | insertJob type payload maxAttempts runAt =>
      simp only [Stmt.run] at h
      split_ifs at h with hget hl
      cases h
      simpa using hl
  | selectPending =>
      cases h
      simp only [List.mem_map]
      rintro _ ⟨row, hrow, rfl⟩
      exact (mem_pick hrow).2.2.2
  | updateJob u id =>
      simp only [Stmt.run] at h
      split at h
      · cases h
        simp
      · split_ifs at h with hl
        cases h
        simpa using hl
  | user s =>
      obtain ⟨ws', ks', hrun, -, rfl⟩ := Verdict.map_eq_done.mp h
      simp only [List.mem_map]
      rintro _ ⟨k, hk, rfl⟩
      exact U.run_locks hrun k hk

theorem Stmt.run_writes {m : Moment (Env U)} {d : Tables U} {locked : Key U → Bool} {s : Stmt U}
    {r : s.Ret} {ws : List (Write U)} {ks : List (Key U)} (h : s.run m d locked = .done r ws ks) :
    ∀ u ∈ ws, u.key ∈ ks := by
  cases s with
  | insertJob type payload maxAttempts runAt =>
      simp only [Stmt.run] at h
      split_ifs at h with hget hl
      cases h
      simp [Write.key]
  | selectPending =>
      cases h
      simp
  | updateJob u id =>
      simp only [Stmt.run] at h
      split at h
      · cases h
        simp
      · rename_i row hrow
        split_ifs at h with hl
        cases h
        simp [Write.key, (Table.get_eq_some.mp hrow).2]
  | user s =>
      obtain ⟨ws', ks', hrun, rfl, rfl⟩ := Verdict.map_eq_done.mp h
      simp only [List.mem_map]
      rintro _ ⟨u, hu, rfl⟩
      exact ⟨_, U.run_writes hrun u hu, rfl⟩

theorem Stmt.run_wait {m : Moment (Env U)} {d : Tables U} {locked : Key U → Bool} {s : Stmt U}
    (h : s.run m d locked = .wait) : ∃ k, locked k = true := by
  cases s with
  | insertJob type payload maxAttempts runAt =>
      simp only [Stmt.run] at h
      split_ifs at h with hget hl
      exact ⟨_, hl⟩
  | selectPending => cases h
  | updateJob u id =>
      simp only [Stmt.run] at h
      split at h
      · cases h
      · split_ifs at h with hl
        exact ⟨_, hl⟩
  | user s =>
      obtain ⟨k, hk⟩ := U.run_wait (Verdict.map_eq_wait.mp h)
      exact ⟨_, hk⟩

/-- Operations outside the database.  The last two only note in the history
which job a handler is working for. -/
inductive Ext where
  | now
  | ask (question : String)
  | invoked (id : ℕ)
  | returned (id : ℕ) (err : Option GoError)

@[reducible] def Ext.Ret : Ext → Type
  | .now => ℤ
  | .ask _ => Option GoError
  | .invoked _ => Unit
  | .returned .. => Unit

def Env.reply (e : Env U) : (x : Ext) → x.Ret
  | .now => e.clock
  | .ask _ => e.answer
  | .invoked _ => ()
  | .returned .. => ()

@[reducible] def schema (U : Schema) : Schema where
  Data := Tables U
  Key := Key U
  Write := Write U
  Stmt := Stmt U
  Ret := Stmt.Ret
  Env := Env U
  Ext := Ext
  ExtRet := Ext.Ret
  decKey := inferInstance
  keyOf := Write.key
  apply := Tables.apply
  answer := Env.reply
  run := fun m s d locked => s.run m d locked
  run_locks := Stmt.run_locks
  run_writes := Stmt.run_writes
  run_wait := Stmt.run_wait

/-! ## Durations -/

/-- The value of a 64-bit signed integer after overflow. -/
def wrap64 (n : ℤ) : ℤ := n.bmod (2 ^ 64)

def second : ℤ := 1000000000

def hour : ℤ := 3600 * second

/-- `time.Duration(1<<attempts) * 10 * time.Second`, capped at one hour. -/
def backoff (attempts : ℕ) : ℤ :=
  let d := wrap64 (wrap64 (wrap64 (2 ^ attempts) * 10) * second)
  if d > hour then hour else d

/-! ## Methods -/

variable {δ V : Type}

abbrev Handler (U : Schema) (δ : Type) :=
  Context δ → String → GoProg (schema U) δ (Option GoError)

structure Queue (U : Schema) (δ : Type) where
  db : δ
  handlers : String → Option (Handler U δ)

def new (db : δ) : Queue U δ := ⟨db, fun _ => none⟩

def Queue.register (q : Queue U δ) (jobType : String) (h : Handler U δ) : Queue U δ :=
  { q with handlers := Function.update q.handlers jobType (some h) }

structure EnqueueOpts where
  maxAttempts : ℤ
  delay : ℤ
  deriving DecidableEq, Repr

abbrev EnqueueOption := EnqueueOpts → EnqueueOpts

def withMaxAttempts (n : ℤ) : EnqueueOption := fun o => { o with maxAttempts := n }

def withDelay (d : ℤ) : EnqueueOption := fun o => { o with delay := d }

/-- `time.Now()`. -/
def timeNow : GoProg (schema U) δ ℤ := .op (.ext .now) .ret

def noteInvoked (id : ℕ) : GoProg (schema U) δ Unit := .op (.ext (.invoked id)) .ret

def noteReturned (id : ℕ) (err : Option GoError) : GoProg (schema U) δ Unit :=
  .op (.ext (.returned id err)) .ret

def txSQL (tx : Tx δ) (s : Stmt U) : GoProg (schema U) δ (Except GoError s.Ret) :=
  txExec (S := schema U) tx s

def dbSQL (db : δ) (ctx : Context δ) (s : Stmt U) : GoProg (schema U) δ (Except GoError s.Ret) :=
  dbExec (S := schema U) db ctx s

/-- The arguments of `Enqueue` beside the context and the transaction. -/
structure EnqueueCall (V : Type) where
  jobType : String
  payload : V
  opts : List EnqueueOption

def EnqueueCall.options (a : EnqueueCall V) : EnqueueOpts :=
  a.opts.foldl (fun o opt => opt o) ⟨3, 0⟩

/-- `Queue.Enqueue`.  JSON encoding is a parameter and may reject a value. -/
def Queue.enqueue (marshal : V → Except GoError String) (q : Queue U δ) (ctx : Context δ)
    (tx : Option (Tx δ)) (a : EnqueueCall V) : GoProg (schema U) δ (Option GoError) := do
  match marshal a.payload with
  | .error err => return some (.wrapping "queue: marshal payload" err)
  | .ok raw =>
      let now ← timeNow
      let runAt := if a.options.delay > 0 then now + a.options.delay else now
      let s : Stmt U := .insertJob a.jobType raw a.options.maxAttempts runAt
      let r ← match tx with
        | some tx => txSQL tx s
        | none => dbSQL q.db ctx s
      match r with
      | .error err => return some (.wrapping ("queue: enqueue " ++ quote a.jobType) err)
      | .ok _ => return none

/-- The part of `executeJob` after the handler has returned. -/
def settleJob (tx : Tx δ) (job : Job) (err : Option GoError) : GoProg (schema U) δ Unit := do
  let attempts := job.attempts + 1
  match err with
  | none =>
      let _ ← txSQL tx (.updateJob (.done attempts) job.id)
  | some err =>
      if attempts ≥ job.maxAttempts then
        let _ ← txSQL tx (.updateJob (.dead attempts err.error) job.id)
      else if attempts < 0 then
        .panic "runtime error: negative shift amount"
      else
        let now ← timeNow
        let runAt := now + backoff attempts.toNat
        let _ ← txSQL tx (.updateJob (.pending attempts err.error runAt) job.id)

/-- `Queue.executeJob`.  The errors of its updates are dropped. -/
def Queue.executeJob (q : Queue U δ) (ctx : Context δ) (tx : Tx δ) (job : Job) :
    GoProg (schema U) δ Unit := do
  match q.handlers job.type with
  | none =>
      let _ ← txSQL tx (.updateJob (.failed ("no handler for type " ++ quote job.type)) job.id)
  | some h =>
      noteInvoked job.id
      let err ← h ctx job.payload
      noteReturned job.id err
      settleJob tx job err

def Queue.executeJobs (q : Queue U δ) (ctx : Context δ) (tx : Tx δ) :
    List Job → GoProg (schema U) δ Unit
  | [] => return ()
  | job :: jobs => do
      q.executeJob ctx tx job
      q.executeJobs ctx tx jobs

/-- The callback of `processBatch`.  An error of the query and one of the row
scan are one here. -/
def Queue.batchTx (q : Queue U δ) (ctx : Context δ) (tx : Tx δ) :
    GoProg (schema U) δ (Option GoError) := do
  match ← txSQL tx .selectPending with
  | .error err => return some err
  | .ok jobs =>
      q.executeJobs ctx tx jobs
      return none

/-- `Queue.processBatch`. -/
def Queue.processBatch (q : Queue U δ) (ctx : Context δ) : GoProg (schema U) δ (Option GoError) :=
  withTx q.db ctx q.batchTx

/-- `Queue.workerLoop` up to its `n`-th tick; a failed batch is only logged. -/
def Queue.workerLoop (q : Queue U δ) (ctx : Context δ) : ℕ → GoProg (schema U) δ Unit
  | 0 => return ()
  | n + 1 => do
      let _ ← q.processBatch ctx
      q.workerLoop ctx n

end Gkit.JobQueue
