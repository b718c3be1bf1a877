import Gkit.Lib.Channels
import Gkit.Lib.Errors
import Gkit.Lib.Runs

/-!
# Package `pipeline`

A call of `Process`: the goroutine that called it, which sends the work and
collects the results, its workers, and the goroutine that closes the results.
Each step is one operation on a channel or on the context.  The function is a
function of the item, which may also fail in another way once the context is
done.  When the context of the caller is done is up to the environment.
-/

namespace Gkit.Pipeline

open Gkit.Lib

def canceled : GoError := .new "context canceled"

structure ProcessOptions where
  workers : ℤ
  ordered : Bool
  deriving DecidableEq, Repr

/-- The options `WithWorkers` and `WithOrdered`. -/
inductive Opt where
  | workers (n : ℤ)
  | ordered (b : Bool)
  deriving DecidableEq, Repr

def Opt.apply (o : ProcessOptions) : Opt → ProcessOptions
  | .workers n => if n > 0 then { o with workers := n } else o
  | .ordered b => { o with ordered := b }

/-- The options that `Process` works with, for a number of items. -/
def processOptions (len : ℕ) (opts : List Opt) : ProcessOptions :=
  let o := opts.foldl Opt.apply ⟨len, false⟩
  if o.workers > len then { o with workers := len } else o

structure Work (α : Type) where
  idx : ℕ
  val : α
  deriving DecidableEq, Repr

/-- The value counts only if there is no error. -/
structure Result (β : Type) where
  idx : ℕ
  res : Except GoError β

/-- A worker, between the operations of its loop. -/
inductive Worker (α β : Type) where
  | receiving
  | checking (job : Work α)
  | running (job : Work α)
  | reporting (r : Result β)
  | exited

/-- What `Process` returns; a nil slice is told apart from an empty one. -/
abbrev Outcome (β : Type) := Option (List β) × Option GoError

/-- The goroutine that called `Process`, and its end. -/
inductive Main (α β : Type) where
  | sending (todo : List (Work α))
  | collecting
  | handling (r : Result β)
  | returned (outcome : Outcome β)
  | crashed (text : String)

structure Sys (α β : Type) (n : ℕ) where
  ordered : Bool
  /-- The error of the derived context, once it is done. -/
  ctx : Option GoError
  jobs : Chan (Work α)
  results : Chan (Result β)
  main : Main α β
  workers : Fin n → Worker α β
  out : List β
  unordered : List β
  firstErr : Option GoError

inductive Action (n : ℕ) where
  /-- The next send of work, or the close after the last. -/
  | feed
  | receive (w : Fin n)
  | check (w : Fin n)
  | answer (w : Fin n)
  /-- The function fails because the context is done. -/
  | fail (w : Fin n) (err : GoError)
  | report (w : Fin n)
  /-- The wait group is down to zero. -/
  | closeResults
  | collect
  | handle
  /-- The context of the caller is done. -/
  | done (err : GoError)
  deriving DecidableEq

variable {α β : Type} {n : ℕ}

def works (items : List α) : List (Work α) := items.zipIdx.map fun x => ⟨x.2, x.1⟩

/-- The state in which the workers have been launched; `zero` is the zero value. -/
def start (zero : β) (items : List α) (o : ProcessOptions) : Sys α β o.workers.toNat where
  ordered := o.ordered
  ctx := none
  jobs := ⟨[], items.length, false⟩
  results := ⟨[], items.length, false⟩
  main := if items.length = 0 then .returned (none, none) else .sending (works items)
  workers := fun _ => .receiving
  out := List.replicate items.length zero
  unordered := []
  firstErr := none

def Worker.isExited : Worker α β → Bool
  | .exited => true
  | _ => false

def Main.hasSent : Main α β → Bool
  | .sending _ => false
  | _ => true

namespace Sys

def setWorker (s : Sys α β n) (w : Fin n) (worker : Worker α β) : Sys α β n :=
  { s with workers := Function.update s.workers w worker }

def feed (s : Sys α β n) : Option (Sys α β n) :=
  match s.main with
  | .sending (job :: todo) =>
      match s.jobs.send job with
      | .ready ch => some { s with jobs := ch, main := .sending todo }
      | .blocked => none
      | .panics text => some { s with main := .crashed text }
  | .sending [] =>
      match s.jobs.close with
      | .ready ch => some { s with jobs := ch, main := .collecting }
      | .blocked => none
      | .panics text => some { s with main := .crashed text }
  | _ => none

def receive (s : Sys α β n) (w : Fin n) : Option (Sys α β n) :=
  match s.workers w, s.jobs.recv with
  | .receiving, .ready (some job, ch) => some ({ s with jobs := ch }.setWorker w (.checking job))
  | .receiving, .ready (none, ch) => some ({ s with jobs := ch }.setWorker w .exited)
  | _, _ => none

def check (s : Sys α β n) (w : Fin n) : Option (Sys α β n) :=
  match s.workers w, s.ctx with
  | .checking job, none => some (s.setWorker w (.running job))
  | .checking job, some err => some (s.setWorker w (.reporting ⟨job.idx, .error err⟩))
  | _, _ => none

def answer (fn : α → Except GoError β) (s : Sys α β n) (w : Fin n) : Option (Sys α β n) :=
  match s.workers w with
  | .running job => some (s.setWorker w (.reporting ⟨job.idx, fn job.val⟩))
  | _ => none

def fail (s : Sys α β n) (w : Fin n) (err : GoError) : Option (Sys α β n) :=
  match s.workers w, s.ctx with
  | .running job, some _ => some (s.setWorker w (.reporting ⟨job.idx, .error err⟩))
  | _, _ => none

def report (s : Sys α β n) (w : Fin n) : Option (Sys α β n) :=
  match s.workers w with
  | .reporting r =>
      match s.results.send r with
      | .ready ch => some ({ s with results := ch }.setWorker w .receiving)
      | .blocked => none
      | .panics text => some { s with main := .crashed text }
  | _ => none

/-- The goroutine that waits for the workers is started after the last send, and
it closes the results once. -/
def closeResults (s : Sys α β n) : Option (Sys α β n) :=
  if s.main.hasSent && !s.results.closed && decide (∀ w, (s.workers w).isExited) then
    some { s with results := { s.results with closed := true } }
  else none

def outcome (s : Sys α β n) : Outcome β :=
  match s.firstErr with
  | some err => (none, some err)
  | none => (some (if s.ordered then s.out else s.unordered), none)

/-- The next round of the loop over the results, or its end with the deferred
cancel. -/
def collect (s : Sys α β n) : Option (Sys α β n) :=
  match s.main, s.results.recv with
  | .collecting, .ready (some r, ch) => some { s with results := ch, main := .handling r }
  | .collecting, .ready (none, ch) =>
      some { s with results := ch, ctx := s.ctx.or (some canceled), main := .returned s.outcome }
  | _, _ => none

/-- The body of the loop. -/
def handle (s : Sys α β n) : Option (Sys α β n) :=
  match s.main with
  | .handling ⟨idx, .ok v⟩ =>
      if s.ordered then some { s with main := .collecting, out := s.out.set idx v }
      else some { s with main := .collecting, unordered := s.unordered ++ [v] }
  | .handling ⟨_, .error err⟩ =>
      match s.firstErr with
      | none => some { s with
          main := .collecting, firstErr := some err, ctx := s.ctx.or (some canceled) }
      | some _ => some { s with main := .collecting }
  | _ => none

def done (s : Sys α β n) (err : GoError) : Option (Sys α β n) :=
  match s.ctx with
  | none => some { s with ctx := some err }
  | some _ => none

def step (fn : α → Except GoError β) (s : Sys α β n) : Action n → Option (Sys α β n)
  | .feed => s.feed
  | .receive w => s.receive w
  | .check w => s.check w
  | .answer w => s.answer fn w
  | .fail w err => s.fail w err
  | .report w => s.report w
  | .closeResults => s.closeResults
  | .collect => s.collect
  | .handle => s.handle
  | .done err => s.done err

end Sys

end Gkit.Pipeline
