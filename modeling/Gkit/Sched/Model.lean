import Gkit.Lib.Channels
import Gkit.Lib.Errors
import Gkit.Lib.Runs
import Gkit.Lib.WaitGroups

/-!
# Package `sched`

A scheduler from the call of `Start` on: a goroutine for each schedule, a
goroutine for each job they dispatch, and one call of `Stop` after `Start` has
returned.  Each step is one operation on the semaphore, the wait group, the
context, a timer or a ticker, or the beginning or the end of a job function.
When timers and tickers fire, how long a job takes and what it returns, and when
the context of the caller is done is up to the environment.  Logging and the
callback for errors are left out.
-/

namespace Gkit.Sched

open Gkit.Lib

/-- When a job runs; an interval of zero means once. -/
structure Schedule where
  interval : ℤ
  delay : ℤ
  deriving DecidableEq, Repr

structure Scheduler where
  workers : ℕ
  schedules : List Schedule
  deriving DecidableEq, Repr

/-- The constructor `New`. -/
def new (workers : ℕ) : Scheduler := ⟨workers, []⟩

def Scheduler.every (s : Scheduler) (interval : ℤ) : Scheduler :=
  { s with schedules := s.schedules ++ [⟨interval, 0⟩] }

def Scheduler.after (s : Scheduler) (delay : ℤ) : Scheduler :=
  { s with schedules := s.schedules ++ [⟨0, delay⟩] }

/-- Whether `Start` takes `runPeriodic` for the schedule or `runOnce`. -/
def Schedule.isPeriodic (sc : Schedule) : Bool := sc.interval > 0

/-- The goroutine of a schedule, between its operations. -/
inductive Runner where
  /-- Not started yet. -/
  | idle
  /-- In the `select` with the timer or the ticker. -/
  | waiting
  /-- In the `select` of `dispatch`. -/
  | dispatching
  /-- With a slot, before `wg.Add(1)`. -/
  | acquired
  /-- Before the `go` statement. -/
  | counted
  /-- Before the deferred `wg.Done()`. -/
  | leaving
  | exited
  deriving DecidableEq, Repr

/-- The goroutine of a job. -/
inductive Phase where
  | launched
  | running
  /-- Before the deferred release of the slot. -/
  | returned
  /-- Before the deferred `wg.Done()`. -/
  | released
  | exited
  deriving DecidableEq, Repr

structure Job (n : ℕ) where
  schedule : Fin n
  phase : Phase
  deriving DecidableEq, Repr

inductive Stop where
  | idle
  /-- Past `s.cancel()`. -/
  | waiting
  | returned
  deriving DecidableEq, Repr

structure Sys (n : ℕ) where
  schedules : Fin n → Schedule
  /-- How far the loop of `Start` has got. -/
  next : ℕ
  cancelled : Bool
  sem : Chan Unit
  wg : WaitGroup
  runners : Fin n → Runner
  /-- The goroutines of all jobs so far, in the order of their launch. -/
  jobs : List (Job n)
  stop : Stop
  /-- The text of a panic. -/
  crashed : Option String

inductive Action (n : ℕ) where
  /-- The next round of the loop in `Start`. -/
  | launch (i : Fin n)
  /-- The timer or the ticker fires. -/
  | fire (i : Fin n)
  /-- The other case of a `select`: the context is done. -/
  | giveUp (i : Fin n)
  | acquire (i : Fin n)
  | add (i : Fin n)
  | spawn (i : Fin n)
  | leave (i : Fin n)
  /-- A job function is called. -/
  | begin (k : ℕ)
  /-- A job function returns. -/
  | finish (k : ℕ) (err : Option GoError)
  | release (k : ℕ)
  | done (k : ℕ)
  /-- The context of the caller is done. -/
  | cancel
  | stop
  /-- `Stop` returns. -/
  | wait

variable {n : ℕ}

/-- The state in which `Start` enters its loop. -/
def Scheduler.start (s : Scheduler) : Sys s.schedules.length where
  schedules := s.schedules.get
  next := 0
  cancelled := false
  sem := ⟨[], s.workers, false⟩
  wg := ⟨0⟩
  runners := fun _ => .idle
  jobs := []
  stop := .idle
  crashed := none

namespace Sys

def setRunner (s : Sys n) (i : Fin n) (r : Runner) : Sys n :=
  { s with runners := Function.update s.runners i r }

def setJob (s : Sys n) (k : ℕ) (job : Job n) : Sys n := { s with jobs := s.jobs.set k job }

/-- `runPeriodic` dispatches at once, `runOnce` waits first. -/
def entry (s : Sys n) (i : Fin n) : Runner :=
  if (s.schedules i).isPeriodic then .dispatching else .waiting

/-- Where the goroutine of a schedule goes after `dispatch`. -/
def afterDispatch (s : Sys n) (i : Fin n) : Runner :=
  if (s.schedules i).isPeriodic then .waiting else .leaving

def launch (s : Sys n) (i : Fin n) : Option (Sys n) :=
  if i.val = s.next then
    match s.wg.add 1 with
    | .ready wg => some ({ s with next := s.next + 1, wg := wg }.setRunner i (s.entry i))
    | .blocked => none
    | .panics text => some { s with crashed := some text }
  else none

def fire (s : Sys n) (i : Fin n) : Option (Sys n) :=
  match s.runners i with
  | .waiting => some (s.setRunner i .dispatching)
  | _ => none

def giveUp (s : Sys n) (i : Fin n) : Option (Sys n) :=
  match s.runners i, s.cancelled with
  | .waiting, true => some (s.setRunner i .leaving)
  | .dispatching, true => some (s.setRunner i (s.afterDispatch i))
  | _, _ => none

def acquire (s : Sys n) (i : Fin n) : Option (Sys n) :=
  match s.runners i with
  | .dispatching =>
      match s.sem.send () with
      | .ready ch => some ({ s with sem := ch }.setRunner i .acquired)
      | .blocked => none
      | .panics text => some { s with crashed := some text }
  | _ => none

def add (s : Sys n) (i : Fin n) : Option (Sys n) :=
  match s.runners i with
  | .acquired =>
      match s.wg.add 1 with
      | .ready wg => some ({ s with wg := wg }.setRunner i .counted)
      | .blocked => none
      | .panics text => some { s with crashed := some text }
  | _ => none

def spawn (s : Sys n) (i : Fin n) : Option (Sys n) :=
  match s.runners i with
  | .counted =>
      some ({ s with jobs := s.jobs ++ [Job.mk i .launched] }.setRunner i (s.afterDispatch i))
  | _ => none

def leave (s : Sys n) (i : Fin n) : Option (Sys n) :=
  match s.runners i with
  | .leaving =>
      match s.wg.done with
      | .ready wg => some ({ s with wg := wg }.setRunner i .exited)
      | .blocked => none
      | .panics text => some { s with crashed := some text }
  | _ => none

def begin (s : Sys n) (k : ℕ) : Option (Sys n) :=
  match s.jobs[k]? with
  | some ⟨i, .launched⟩ => some (s.setJob k ⟨i, .running⟩)
  | _ => none

/-- The job has returned; what it returned is only logged. -/
def finish (s : Sys n) (k : ℕ) (_err : Option GoError) : Option (Sys n) :=
  match s.jobs[k]? with
  | some ⟨i, .running⟩ => some (s.setJob k ⟨i, .returned⟩)
  | _ => none

def release (s : Sys n) (k : ℕ) : Option (Sys n) :=
  match s.jobs[k]? with
  | some ⟨i, .returned⟩ =>
      match s.sem.recv with
      | .ready (_, ch) => some ({ s with sem := ch }.setJob k ⟨i, .released⟩)
      | _ => none
  | _ => none

def done (s : Sys n) (k : ℕ) : Option (Sys n) :=
  match s.jobs[k]? with
  | some ⟨i, .released⟩ =>
      match s.wg.done with
      | .ready wg => some ({ s with wg := wg }.setJob k ⟨i, .exited⟩)
      | .blocked => none
      | .panics text => some { s with crashed := some text }
  | _ => none

/-- `Stop` is called after `Start` has returned. -/
def callStop (s : Sys n) : Option (Sys n) :=
  if s.stop = .idle ∧ s.next = n then some { s with cancelled := true, stop := .waiting } else none

def wait (s : Sys n) : Option (Sys n) :=
  if s.stop = .waiting ∧ s.wg.isZero then some { s with stop := .returned } else none

def step (s : Sys n) : Action n → Option (Sys n)
  | .launch i => s.launch i
  | .fire i => s.fire i
  | .giveUp i => s.giveUp i
  | .acquire i => s.acquire i
  | .add i => s.add i
  | .spawn i => s.spawn i
  | .leave i => s.leave i
  | .begin k => s.begin k
  | .finish k err => s.finish k err
  | .release k => s.release k
  | .done k => s.done k
  | .cancel => some { s with cancelled := true }
  | .stop => s.callStop
  | .wait => s.wait

end Sys

end Gkit.Sched
