import Gkit.Lib.Channels
import Gkit.Lib.Errors
import Gkit.Lib.Runs

/-!
# Package `pool`

Any number of calls of `Submit` and `TrySubmit`, the workers, and one call of
`Stop`.  Each step is one atomic operation: a load or store of `stopped`, an
operation on the channel `jobs`, or the change of one counter.  The error a job
ends with and the moment a context is done are up to the environment.  The
callback for errors does not touch the pool and is left out.  The counters are
natural numbers where the source has `uint64`, which would begin again at zero
after 2^64 jobs.
-/

namespace Gkit.Pool

open Gkit.Lib

def errPoolStopped : GoError := .new "pool: pool is stopped"

def errQueueFull : GoError := .new "pool: queue is full"

inductive Kind where
  | submit
  | trySubmit
  deriving DecidableEq, Repr

/-- A call of `Submit` or `TrySubmit`: past its check of `stopped`, past its send,
or at its end. -/
inductive Call (T : Type) where
  | idle
  | sending (kind : Kind) (job : T)
  | sent (kind : Kind) (job : T)
  | returned (kind : Kind) (job : T) (err : Option GoError)
  | panicked (kind : Kind) (job : T) (text : String)
  deriving DecidableEq

/-- Where `Stop` is. -/
inductive Stop where
  | idle
  | stored
  | closed
  | returned
  | panicked (text : String)
  deriving DecidableEq

/-- A worker, between the operations of its loop. -/
inductive Worker (T : Type) where
  | waiting
  | receiving
  | received (job : T)
  | running (job : T)
  | ran (err : Option GoError)
  | left (err : Option GoError)
  | counted (err : Option GoError)
  | exited
  deriving DecidableEq

def Worker.isWaiting {T : Type} : Worker T → Bool
  | .waiting => true
  | _ => false

/-- The wait group does not count the worker, or no longer. -/
def Worker.isDone {T : Type} : Worker T → Bool
  | .waiting => true
  | .exited => true
  | _ => false

structure Sys (ι T : Type) (n : ℕ) where
  jobs : Chan T
  stopped : Bool
  submitted : ℕ
  completed : ℕ
  errors : ℕ
  inFlight : ℤ
  calls : ι → Call T
  contexts : ι → Option GoError
  workers : Fin n → Worker T
  stop : Stop

inductive Action (ι T : Type) (n : ℕ) where
  /-- The check of `stopped` by a new call. -/
  | enter (c : ι) (kind : Kind) (job : T)
  | send (c : ι)
  /-- The send of a call meets the receive of a worker. -/
  | handOver (c : ι) (w : Fin n)
  /-- The other case of the `select`. -/
  | giveUp (c : ι)
  | count (c : ι)
  | cancel (c : ι) (err : GoError)
  | start
  | stop
  | work (w : Fin n)
  | finish (w : Fin n) (err : Option GoError)

variable {ι T : Type} {n : ℕ}

/-- The constructor `New`, with the queue size of the option; the error is the
text it panics with. -/
def newPool (workers : ℤ) (queueSize : Option ℤ) : Except String (Sys ι T workers.toNat) :=
  if workers < 1 then .error "pool: workers must be >= 1"
  else
    let size := queueSize.getD workers
    if size < 0 then .error "makechan: size out of range"
    else .ok ⟨⟨[], size.toNat, false⟩, false, 0, 0, 0, 0, fun _ => .idle, fun _ => none,
      fun _ => .waiting, .idle⟩

structure Stats where
  submitted : ℕ
  completed : ℕ
  errors : ℕ
  inFlight : ℤ
  queueDepth : ℕ
  deriving DecidableEq, Repr

namespace Sys

/-- The loads of `Stats`, taken while nothing else moves. -/
def stats (s : Sys ι T n) : Stats :=
  ⟨s.submitted, s.completed, s.errors, s.inFlight, s.jobs.buf.length⟩

variable [DecidableEq ι]

def setCall (s : Sys ι T n) (c : ι) (call : Call T) : Sys ι T n :=
  { s with calls := Function.update s.calls c call }

def setWorker (s : Sys ι T n) (w : Fin n) (worker : Worker T) : Sys ι T n :=
  { s with workers := Function.update s.workers w worker }

def enter (s : Sys ι T n) (c : ι) (kind : Kind) (job : T) : Option (Sys ι T n) :=
  match s.calls c with
  | .idle =>
      some (s.setCall c
        (if s.stopped then .returned kind job (some errPoolStopped) else .sending kind job))
  | _ => none

def send (s : Sys ι T n) (c : ι) : Option (Sys ι T n) :=
  match s.calls c with
  | .sending kind job =>
      match s.jobs.send job with
      | .ready ch => some ({ s with jobs := ch }.setCall c (.sent kind job))
      | .blocked => none
      | .panics text => some (s.setCall c (.panicked kind job text))
  | _ => none

def handOver (s : Sys ι T n) (c : ι) (w : Fin n) : Option (Sys ι T n) :=
  match s.calls c, s.workers w with
  | .sending kind job, .receiving =>
      if s.jobs.meets then some ((s.setCall c (.sent kind job)).setWorker w (.received job))
      else none
  | _, _ => none

/-- A `Submit` returns when its context is done, a `TrySubmit` when its send
would block. -/
def giveUp (s : Sys ι T n) (c : ι) : Option (Sys ι T n) :=
  match s.calls c with
  | .sending .submit job =>
      (s.contexts c).map fun err => s.setCall c (.returned .submit job (some err))
  | .sending .trySubmit job =>
      match s.jobs.send job with
      | .blocked => some (s.setCall c (.returned .trySubmit job (some errQueueFull)))
      | _ => none
  | _ => none

def count (s : Sys ι T n) (c : ι) : Option (Sys ι T n) :=
  match s.calls c with
  | .sent kind job =>
      some ({ s with submitted := s.submitted + 1 }.setCall c (.returned kind job none))
  | _ => none

def cancel (s : Sys ι T n) (c : ι) (err : GoError) : Option (Sys ι T n) :=
  match s.contexts c with
  | none => some { s with contexts := Function.update s.contexts c (some err) }
  | some _ => none

/-- `Start` launches all workers. -/
def startWorkers (s : Sys ι T n) : Option (Sys ι T n) :=
  if ∀ w, (s.workers w).isWaiting then some { s with workers := fun _ => .receiving } else none

/-- The next operation of `Stop`; the last one waits for the workers. -/
def stopNext (s : Sys ι T n) : Option (Sys ι T n) :=
  match s.stop with
  | .idle => some { s with stopped := true, stop := .stored }
  | .stored =>
      match s.jobs.close with
      | .ready ch => some { s with jobs := ch, stop := .closed }
      | .blocked => none
      | .panics text => some { s with stop := .panicked text }
  | .closed =>
      if ∀ w, (s.workers w).isDone then some { s with stop := .returned } else none
  | _ => none

def work (s : Sys ι T n) (w : Fin n) : Option (Sys ι T n) :=
  match s.workers w with
  | .receiving =>
      match s.jobs.recv with
      | .ready (some job, ch) => some ({ s with jobs := ch }.setWorker w (.received job))
      | .ready (none, ch) => some ({ s with jobs := ch }.setWorker w .exited)
      | _ => none
  | .received job => some ({ s with inFlight := s.inFlight + 1 }.setWorker w (.running job))
  | .ran err => some ({ s with inFlight := s.inFlight - 1 }.setWorker w (.left err))
  | .left err => some ({ s with completed := s.completed + 1 }.setWorker w (.counted err))
  | .counted err =>
      some ({ s with errors := if err.isSome then s.errors + 1 else s.errors }.setWorker w
        .receiving)
  | _ => none

def finish (s : Sys ι T n) (w : Fin n) (err : Option GoError) : Option (Sys ι T n) :=
  match s.workers w with
  | .running _ => some (s.setWorker w (.ran err))
  | _ => none

def step (s : Sys ι T n) : Action ι T n → Option (Sys ι T n)
  | .enter c kind job => s.enter c kind job
  | .send c => s.send c
  | .handOver c w => s.handOver c w
  | .giveUp c => s.giveUp c
  | .count c => s.count c
  | .cancel c err => s.cancel c err
  | .start => s.startWorkers
  | .stop => s.stopNext
  | .work w => s.work w
  | .finish w err => s.finish w err

end Sys

end Gkit.Pool
