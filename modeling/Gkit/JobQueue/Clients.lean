import Gkit.JobQueue.Batch

/-!
# Workers and producers

The clients of a queue: workers, which process one batch after the other, and
producers, which enqueue jobs on their own or inside transactions.  A client is
at any time in one of the phases below, and the program that remains of it is
the code of its phase.
-/

namespace Gkit.JobQueue

open Gkit.Lib Gkit.Store

variable {U : Schema} {V : Type}

/-! ## Clients -/

/-- A callback that makes these calls of `Enqueue` with its transaction. -/
abbrev EnqueueScript (V : Type) := Prog (EnqueueCall V) (fun _ => Option GoError) (Option GoError)

/-- One thing a producer does. -/
inductive Business (V : Type) where
  | direct (a : EnqueueCall V)
  | inTx (script : EnqueueScript V)

inductive Role (V : Type) where
  | worker (ticks : ℕ)
  | producer (work : List (Business V))

section Programs

variable (marshal : V → Except GoError String) (q : Queue U Unit)

def enqueueAll (ctx : Context Unit) (tx : Tx Unit) (script : EnqueueScript V) :
    GoProg (schema U) Unit (Option GoError) :=
  script.handle fun a => q.enqueue marshal ctx (some tx) a

def produce : List (Business V) → GoProg (schema U) Unit Unit
  | [] => return ()
  | .direct a :: work => do
      let _ ← q.enqueue marshal .background none a
      produce work
  | .inTx script :: work => do
      let _ ← withTx () .background fun ctx tx => enqueueAll marshal q ctx tx script
      produce work

def Role.code : Role V → GoProg (schema U) Unit Unit
  | .worker ticks => q.workerLoop .background ticks
  | .producer work => produce marshal q work

end Programs

/-! ## Enqueue -/

/-- The statement of `Enqueue`. -/
def EnqueueCall.insertion (a : EnqueueCall V) (raw : String) (now : ℤ) : Stmt U :=
  .insertJob a.jobType raw a.options.maxAttempts
    (if a.options.delay > 0 then now + a.options.delay else now)

def EnqueueCall.reply (a : EnqueueCall V) : Except GoError Unit → Option GoError
  | .error err => some (.wrapping ("queue: enqueue " ++ quote a.jobType) err)
  | .ok _ => none

section Enqueue

variable {marshal : V → Except GoError String} {a : EnqueueCall V}

theorem enqueue_error {err : GoError} (h : marshal a.payload = .error err) (q : Queue U Unit)
    (ctx : Context Unit) (tx : Option (Tx Unit)) :
    q.enqueue marshal ctx tx a = .ret (some (.wrapping "queue: marshal payload" err)) := by
  simp [Queue.enqueue, h]

theorem enqueue_tx {raw : String} (h : marshal a.payload = .ok raw) (q : Queue U Unit)
    (ctx : Context Unit) (tx : Tx Unit) :
    q.enqueue marshal ctx (some tx) a = .op (.ext .now) fun now =>
      .op (.exec tx (a.insertion raw now)) fun r => .ret (a.reply r) := by
  simp only [Queue.enqueue, h]
  refine congrArg (Prog.op _) (funext fun now => congrArg (Prog.op _) (funext fun r => ?_))
  cases r <;> rfl

theorem enqueue_pool {raw : String} (h : marshal a.payload = .ok raw) (q : Queue U Unit)
    (ctx : Context Unit) :
    q.enqueue marshal ctx none a = .op (.ext .now) fun now =>
      .op (.pool () (a.insertion raw now)) fun r => .ret (a.reply r) := by
  simp only [Queue.enqueue, h]
  refine congrArg (Prog.op _) (funext fun now => congrArg (Prog.op _) (funext fun r => ?_))
  cases r <;> rfl

end Enqueue

/-! ## Phases -/

inductive Phase (U : Schema) (V : Type) where
  | polling (n : ℕ)
  | selecting (tx : Tx Unit) (n : ℕ)
  | executing (tx : Tx Unit) (jobs : List Job) (n : ℕ)
  | handling (tx : Tx Unit) (job : Job) (p : GoProg (schema U) Unit (Option GoError))
      (jobs : List Job) (n : ℕ)
  | retrying (tx : Tx Unit) (job : Job) (err : GoError) (jobs : List Job) (n : ℕ)
  | updating (tx : Tx Unit) (job : Job) (err : Option GoError) (now : ℤ) (jobs : List Job) (n : ℕ)
  | producing (work : List (Business V))
  | enqueuing (tx : Tx Unit) (script : EnqueueScript V) (work : List (Business V))
  | inserting (tx : Tx Unit) (a : EnqueueCall V) (raw : String) (now : ℤ)
      (k : Option GoError → EnqueueScript V) (work : List (Business V))
  | storing (a : EnqueueCall V) (raw : String) (now : ℤ) (work : List (Business V))
  | crashed

namespace Phase

variable (marshal : V → Except GoError String) (q : Queue U Unit)

/-- End the transaction of a batch after `p` and go on polling. -/
def finish (tx : Tx Unit) (n : ℕ) (p : GoProg (schema U) Unit Unit) : GoProg (schema U) Unit Unit :=
  ((p >>= fun _ => .ret none).attempt >>= endTx tx) >>= fun _ => q.workerLoop .background n

/-- What is left of a client in each phase. -/
def code : Phase U V → GoProg (schema U) Unit Unit
  | .polling n => q.workerLoop .background n
  | .selecting tx n => ((q.batchTx (contextWithTx .background tx) tx).attempt >>= endTx tx) >>=
      fun _ => q.workerLoop .background n
  | .executing tx jobs n => finish q tx n (q.executeJobs (contextWithTx .background tx) tx jobs)
  | .handling tx job p jobs n => finish q tx n ((p >>= fun err =>
      .op (.ext (.returned job.id err)) fun _ => settleJob tx job err) >>=
        fun _ => q.executeJobs (contextWithTx .background tx) tx jobs)
  | .retrying tx job err jobs n => finish q tx n (.op (.ext .now) fun now =>
      .op (.exec tx (.updateJob (settling job now (some err)) job.id)) fun _ =>
        q.executeJobs (contextWithTx .background tx) tx jobs)
  | .updating tx job err now jobs n => finish q tx n
      (.op (.exec tx (.updateJob (settling job now err) job.id)) fun _ =>
        q.executeJobs (contextWithTx .background tx) tx jobs)
  | .producing work => produce marshal q work
  | .enqueuing tx script work =>
      ((enqueueAll marshal q (contextWithTx .background tx) tx script).attempt >>= endTx tx) >>=
        fun _ => produce marshal q work
  | .inserting tx a raw now k work => ((.op (.exec tx (a.insertion raw now)) fun r =>
      enqueueAll marshal q (contextWithTx .background tx) tx (k (a.reply r)) :
        GoProg (schema U) Unit (Option GoError)).attempt >>= endTx tx) >>=
          fun _ => produce marshal q work
  | .storing a raw now work => .op (.pool () (a.insertion raw now)) fun _ => produce marshal q work
  | .crashed => .panic Lib.crashed

/-- The phase after a handler has returned. -/
def afterReturn (tx : Tx Unit) (job : Job) (jobs : List Job) (n : ℕ) : Option GoError → Phase U V
  | none => .updating tx job none 0 jobs n
  | some err =>
      if job.attempts + 1 ≥ job.maxAttempts then .updating tx job (some err) 0 jobs n
      else .retrying tx job err jobs n

variable {marshal q}

theorem code_polling_succ (n : ℕ) : ∃ k, code marshal q (.polling (n + 1)) = .op (.begin ()) k ∧
    ∀ tx, k (.ok tx) = code marshal q (.selecting tx n) := by
  simp only [code, Queue.workerLoop, Queue.processBatch, withTx_outermost q.db background_tx]
  exact ⟨_, rfl, fun tx => rfl⟩

theorem code_selecting (tx : Tx Unit) (n : ℕ) :
    ∃ k, code marshal q (.selecting tx n) = .op (.exec tx .selectPending) k ∧
      ∀ jobs : List Job, k (.ok jobs) = code marshal q (.executing tx jobs n) := by
  simp only [code, batchTx_eq]
  exact ⟨_, rfl, fun jobs => rfl⟩

theorem code_executing_nil (tx : Tx Unit) (n : ℕ) : code marshal q (.executing tx [] n) =
    .op (.commit tx) fun _ => code marshal q (.polling n) := by
  refine congrArg (Prog.op _) (funext fun r => ?_)
  cases r <;> rfl

theorem code_executing_cons {job : Job} {h : Handler U Unit} (hh : q.handlers job.type = some h)
    (tx : Tx Unit) (jobs : List Job) (n : ℕ) : code marshal q (.executing tx (job :: jobs) n) =
      .op (.ext (.invoked job.id)) fun _ => code marshal q
        (.handling tx job (h (contextWithTx .background tx) job.payload) jobs n) := by
  simp only [code, Queue.executeJobs, executeJob_eq hh]
  rfl

theorem code_handling_op (tx : Tx Unit) (job : Job) (o : Op (schema U) Unit)
    (k : o.Res → GoProg (schema U) Unit (Option GoError)) (jobs : List Job) (n : ℕ) :
    code marshal q (.handling tx job (.op o k) jobs n) =
      .op o fun r => code marshal q (.handling tx job (k r) jobs n) := rfl

theorem code_handling_ret {job : Job} (hpos : 0 ≤ job.attempts) (tx : Tx Unit)
    (err : Option GoError) (jobs : List Job) (n : ℕ) :
    code marshal q (.handling tx job (.ret err) jobs n) =
      .op (.ext (.returned job.id err)) fun _ =>
        code marshal q (afterReturn tx job jobs n err) := by
  refine congrArg (Prog.op _) (funext fun _ => ?_)
  change finish q tx n (settleJob tx job err >>= fun _ => q.executeJobs _ tx jobs) = _
  cases err with
  | none => rw [settleJob_final (.inl rfl) tx 0]; rfl
  | some err =>
      by_cases hmax : job.attempts + 1 ≥ job.maxAttempts
      · rw [settleJob_final (.inr hmax) tx 0, afterReturn, if_pos hmax]
        rfl
      · rw [settleJob_retry (not_le.mp hmax) hpos, afterReturn, if_neg hmax]
        rfl

theorem code_retrying (tx : Tx Unit) (job : Job) (err : GoError) (jobs : List Job) (n : ℕ) :
    code marshal q (.retrying tx job err jobs n) =
      .op (.ext .now) fun now => code marshal q (.updating tx job (some err) now jobs n) := rfl

theorem code_updating (tx : Tx Unit) (job : Job) (err : Option GoError) (now : ℤ)
    (jobs : List Job) (n : ℕ) : code marshal q (.updating tx job err now jobs n) =
      .op (.exec tx (.updateJob (settling job now err) job.id)) fun _ =>
        code marshal q (.executing tx jobs n) := rfl

/-- The next operation of a producer.  A payload that does not marshal is passed
over without one. -/
theorem code_producing (work : List (Business V)) :
    code marshal q (.producing work) = .ret () ∨
      (∃ a raw rest, .direct a :: rest <:+ work ∧ code marshal q (.producing work) =
        .op (.ext .now) fun now => code marshal q (.storing a raw now rest)) ∨
      ∃ script rest k, .inTx script :: rest <:+ work ∧
        code marshal q (.producing work) = .op (.begin ()) k ∧
        ∀ tx, k (.ok tx) = code marshal q (.enqueuing tx script rest) := by
  induction work with
  | nil => exact .inl rfl
  | cons b work ih =>
      cases b with
      | inTx script =>
          refine .inr (.inr ⟨script, work, ?_⟩)
          simp only [code, produce, withTx_outermost () background_tx]
          exact ⟨_, List.suffix_rfl, rfl, fun tx => rfl⟩
      | direct a =>
          cases hraw : marshal a.payload with
          | ok raw =>
              refine .inr (.inl ⟨a, raw, work, List.suffix_rfl, ?_⟩)
              simp only [code, produce, enqueue_pool hraw]
              rfl
          | error err =>
              have hskip : code marshal q (.producing (.direct a :: work)) =
                  code marshal q (.producing work) := by
                simp only [code, produce, enqueue_error hraw]
                rfl
              rw [hskip]
              rcases ih with h | ⟨a', raw, rest, hsuf, h⟩ | ⟨script, rest, k, hsuf, h⟩
              · exact .inl h
              · exact .inr (.inl ⟨a', raw, rest, hsuf.trans (List.suffix_cons _ _), h⟩)
              · exact .inr (.inr ⟨script, rest, k, hsuf.trans (List.suffix_cons _ _), h⟩)

/-- The next operation of a producer inside a transaction. -/
theorem code_enqueuing {P : EnqueueCall V → Prop} {script : EnqueueScript V}
    (hs : script.Plain P) (tx : Tx Unit) (work : List (Business V)) :
    (code marshal q (.enqueuing tx script work) =
        .op (.commit tx) fun _ => code marshal q (.producing work)) ∨
      (code marshal q (.enqueuing tx script work) =
        .op (.rollback tx) fun _ => code marshal q (.producing work)) ∨
      ∃ a raw k, P a ∧ (∀ r, (k r).Plain P) ∧ code marshal q (.enqueuing tx script work) =
        .op (.ext .now) fun now => code marshal q (.inserting tx a raw now k work) := by
  induction script with
  | panic v => exact hs.elim
  | ret out =>
      cases out with
      | some err => exact .inr (.inl rfl)
      | none =>
          refine .inl (congrArg (Prog.op _) (funext fun r => ?_))
          cases r <;> rfl
  | op a k ih =>
      cases hraw : marshal a.payload with
      | ok raw =>
          refine .inr (.inr ⟨a, raw, k, hs.1, hs.2, ?_⟩)
          simp only [code, enqueueAll, Prog.handle, enqueue_tx hraw]
          rfl
      | error err =>
          have hskip : code marshal q (.enqueuing tx (.op a k) work) = code marshal q
              (.enqueuing tx (k (some (.wrapping "queue: marshal payload" err))) work) := by
            simp only [code, enqueueAll, Prog.handle, enqueue_error hraw]
            rfl
          rw [hskip]
          exact ih _ (hs.2 _)

theorem code_inserting (tx : Tx Unit) (a : EnqueueCall V) (raw : String) (now : ℤ)
    (k : Option GoError → EnqueueScript V) (work : List (Business V)) :
    code marshal q (.inserting tx a raw now k work) = .op (.exec tx (a.insertion raw now))
      fun r => code marshal q (.enqueuing tx (k (a.reply r)) work) := rfl

end Phase

end Gkit.JobQueue
