import Gkit.Lib.Channels
import Gkit.Lib.Errors
import Gkit.Lib.Runs

/-!
# Futures of package `async`

Futures with the goroutines of `Async`, calls of `Await`, and calls of `All` and
`Race` with their helpers.  Each step is one operation on a channel, on the
`sync.Once` of a future or on a context.  The derived context of a call of `All`
or `Race` also names the call.  Contexts end when the environment says so, the
derived ones also by the deferred cancel of their call.
-/

namespace Gkit.Futures

open Gkit.Lib

def canceled : GoError := .new "context canceled"

structure Result (α : Type) where
  val : α
  err : Option GoError
  deriving DecidableEq, Repr

inductive Once where
  | fresh
  | running
  | done
  deriving DecidableEq, Repr

structure Future (α : Type) where
  ch : Chan (Result α)
  once : Once
  res : Result α
  /-- The goroutine of `Async` has sent its result. -/
  sent : Bool
  deriving DecidableEq, Repr

/-- The future, when `Async` returns it. -/
def async {α : Type} (zero : α) : Future α := ⟨⟨[], 1, false⟩, .fresh, ⟨zero, none⟩, false⟩

/-- The arguments of a call of `Await`. -/
structure Wait (φ κ : Type) where
  fut : φ
  ctx : κ
  deriving DecidableEq, Repr

/-- A goroutine that calls `Await`: any caller, or a helper of `All` or `Race`. -/
inductive Tid (ι κ : Type) where
  | caller (c : ι)
  | helper (k : κ) (i : ℕ)
  deriving DecidableEq, Repr

inductive Thread (φ κ α : Type) where
  | idle
  /-- Before `once.Do`. -/
  | entering (w : Wait φ κ)
  /-- At the `select` in the function given to `once.Do`. -/
  | inside (w : Wait φ κ)
  /-- Behind `once.Do`. -/
  | leaving (w : Wait φ κ)
  | returned (w : Wait φ κ) (r : Result α)
  /-- A helper that has passed its result on. -/
  | finished (w : Wait φ κ) (r : Result α)
  deriving DecidableEq, Repr

/-- The loop of `All`, with the rounds that are left. -/
inductive AllMain (α : Type) where
  | collecting (left : ℕ) (results : List α)
  | returned (results : Option (List α)) (err : Option GoError)
  deriving DecidableEq, Repr

inductive RaceMain (α : Type) where
  | waiting
  | returned (r : Result α)
  deriving DecidableEq, Repr

inductive Call (α : Type) where
  | all (merge : Chan (ℕ × Result α)) (main : AllMain α)
  | race (winner : Chan (Result α)) (main : RaceMain α)
  deriving DecidableEq, Repr

structure Sys (φ ι κ α : Type) where
  futures : φ → Future α
  /-- The error of each context that is done. -/
  done : κ → Option GoError
  threads : Tid ι κ → Thread φ κ α
  calls : κ → Option (Call α)

inductive Action (φ ι κ : Type) where
  /-- The computation of the future returns, and its result is sent. -/
  | produce (f : φ)
  | await (c : ι) (f : φ) (k : κ)
  | enter (t : Tid ι κ)
  | receive (t : Tid ι κ)
  /-- The case of the `select` in `Await` for the context. -/
  | expire (t : Tid ι κ)
  | leave (t : Tid ι κ)
  | all (k : κ) (fs : List φ)
  | race (k : κ) (fs : List φ)
  /-- The send of a helper. -/
  | pass (k : κ) (i : ℕ)
  /-- A receive of `All` or `Race`. -/
  | collect (k : κ)
  /-- The case of the `select` in `All` or `Race` for the context. -/
  | giveUp (k : κ)
  /-- `All` has gone through its loop. -/
  | finish (k : κ)
  | cancel (k : κ) (err : GoError)

variable {φ ι κ α : Type}

/-- The computations are running, and there is no call yet. -/
def init (zero : α) : Sys φ ι κ α :=
  ⟨fun _ => async zero, fun _ => none, fun _ => .idle, fun _ => none⟩

namespace Sys

variable [DecidableEq φ] [DecidableEq ι] [DecidableEq κ]

def setFuture (s : Sys φ ι κ α) (f : φ) (fut : Future α) : Sys φ ι κ α :=
  { s with futures := Function.update s.futures f fut }

def setThread (s : Sys φ ι κ α) (t : Tid ι κ) (thread : Thread φ κ α) : Sys φ ι κ α :=
  { s with threads := Function.update s.threads t thread }

def setCall (s : Sys φ ι κ α) (k : κ) (call : Call α) : Sys φ ι κ α :=
  { s with calls := Function.update s.calls k (some call) }

/-- The cancel function of a derived context. -/
def cancelCall (s : Sys φ ι κ α) (k : κ) : Sys φ ι κ α :=
  { s with done := Function.update s.done k ((s.done k).or (some canceled)) }

def produce (fn : φ → Result α) (s : Sys φ ι κ α) (f : φ) : Option (Sys φ ι κ α) :=
  if (s.futures f).sent then none
  else
    match (s.futures f).ch.send (fn f) with
    | .ready ch => some (s.setFuture f { s.futures f with ch := ch, sent := true })
    | _ => none

def await (s : Sys φ ι κ α) (c : ι) (f : φ) (k : κ) : Option (Sys φ ι κ α) :=
  match s.threads (.caller c) with
  | .idle => some (s.setThread (.caller c) (.entering ⟨f, k⟩))
  | _ => none

/-- The first caller runs the function, and the others wait until it is done. -/
def enter (s : Sys φ ι κ α) (t : Tid ι κ) : Option (Sys φ ι κ α) :=
  match s.threads t with
  | .entering w =>
      match (s.futures w.fut).once with
      | .fresh =>
          some ((s.setFuture w.fut { s.futures w.fut with once := .running }).setThread t
            (.inside w))
      | .running => none
      | .done => some (s.setThread t (.leaving w))
  | _ => none

def receive (s : Sys φ ι κ α) (t : Tid ι κ) : Option (Sys φ ι κ α) :=
  match s.threads t with
  | .inside w =>
      match (s.futures w.fut).ch.recv with
      | .ready (some r, ch) => some ((s.setFuture w.fut
          { s.futures w.fut with ch := ch, res := r, once := .done }).setThread t (.leaving w))
      | _ => none
  | _ => none

def expire (zero : α) (s : Sys φ ι κ α) (t : Tid ι κ) : Option (Sys φ ι κ α) :=
  match s.threads t with
  | .inside w =>
      match s.done w.ctx with
      | some err => some ((s.setFuture w.fut
          { s.futures w.fut with res := ⟨zero, some err⟩, once := .done }).setThread t (.leaving w))
      | none => none
  | _ => none

def leave (s : Sys φ ι κ α) (t : Tid ι κ) : Option (Sys φ ι κ α) :=
  match s.threads t with
  | .leaving w => some (s.setThread t (.returned w (s.futures w.fut).res))
  | _ => none

/-- A helper for each of the futures. -/
def launch (s : Sys φ ι κ α) (k : κ) (fs : List φ) : Sys φ ι κ α :=
  { s with
    threads := fun
      | .caller c => s.threads (.caller c)
      | .helper k' i =>
          match fs[i]? with
          | some f => if k' = k then .entering ⟨f, k⟩ else s.threads (.helper k' i)
          | none => s.threads (.helper k' i) }

def all (zero : α) (s : Sys φ ι κ α) (k : κ) (fs : List φ) : Option (Sys φ ι κ α) :=
  match s.calls k with
  | none => some ((s.launch k fs).setCall k (.all ⟨[], fs.length, false⟩
      (.collecting fs.length (List.replicate fs.length zero))))
  | some _ => none

def race (s : Sys φ ι κ α) (k : κ) (fs : List φ) : Option (Sys φ ι κ α) :=
  match s.calls k with
  | none => some ((s.launch k fs).setCall k (.race ⟨[], fs.length, false⟩ .waiting))
  | some _ => none

/-- The helper of `Race` drops its result if there is no room. -/
def pass (s : Sys φ ι κ α) (k : κ) (i : ℕ) : Option (Sys φ ι κ α) :=
  match s.threads (.helper k i), s.calls k with
  | .returned w r, some (.all merge main) =>
      match merge.send (i, r) with
      | .ready merge =>
          some ((s.setCall k (.all merge main)).setThread (.helper k i) (.finished w r))
      | _ => none
  | .returned w r, some (.race winner main) =>
      match winner.send r with
      | .ready winner =>
          some ((s.setCall k (.race winner main)).setThread (.helper k i) (.finished w r))
      | _ => some (s.setThread (.helper k i) (.finished w r))
  | _, _ => none

def collect (s : Sys φ ι κ α) (k : κ) : Option (Sys φ ι κ α) :=
  match s.calls k with
  | some (.all merge (.collecting (left + 1) results)) =>
      match merge.recv with
      | .ready (some (i, r), merge) =>
          match r.err with
          | some err => some ((s.setCall k (.all merge (.returned none (some err)))).cancelCall k)
          | none => some (s.setCall k (.all merge (.collecting left (results.set i r.val))))
      | _ => none
  | some (.race winner .waiting) =>
      match winner.recv with
      | .ready (some r, winner) =>
          some ((s.setCall k (.race winner (.returned r))).cancelCall k)
      | _ => none
  | _ => none

def giveUp (zero : α) (s : Sys φ ι κ α) (k : κ) : Option (Sys φ ι κ α) :=
  match s.done k, s.calls k with
  | some err, some (.all merge (.collecting (_ + 1) _)) =>
      some (s.setCall k (.all merge (.returned none (some err))))
  | some err, some (.race winner .waiting) =>
      some (s.setCall k (.race winner (.returned ⟨zero, some err⟩)))
  | _, _ => none

def finish (s : Sys φ ι κ α) (k : κ) : Option (Sys φ ι κ α) :=
  match s.calls k with
  | some (.all merge (.collecting 0 results)) =>
      some ((s.setCall k (.all merge (.returned (some results) none))).cancelCall k)
  | _ => none

def cancel (s : Sys φ ι κ α) (k : κ) (err : GoError) : Option (Sys φ ι κ α) :=
  match s.done k with
  | none => some { s with done := Function.update s.done k (some err) }
  | some _ => none

/-- A step, where `fn` gives the results of the computations. -/
def step (fn : φ → Result α) (zero : α) (s : Sys φ ι κ α) :
    Action φ ι κ → Option (Sys φ ι κ α)
  | .produce f => s.produce fn f
  | .await c f k => s.await c f k
  | .enter t => s.enter t
  | .receive t => s.receive t
  | .expire t => s.expire zero t
  | .leave t => s.leave t
  | .all k fs => s.all zero k fs
  | .race k fs => s.race k fs
  | .pass k i => s.pass k i
  | .collect k => s.collect k
  | .giveUp k => s.giveUp zero k
  | .finish k => s.finish k
  | .cancel k err => s.cancel k err

end Sys

end Gkit.Futures
