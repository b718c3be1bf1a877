import Gkit.Lib.Channels
import Gkit.Lib.Errors
import Gkit.Lib.Runs
import Gkit.Lib.Transducers

/-!
# Streams of package `async`

A stream is the goroutine that writes it, its two channels, and the stream it
reads.  Each step is one operation of one goroutine, or of the caller of
`Collect`, on a channel or a context.  When a context is done is up to the
environment.  The operators differ only in what they do with an element and in
whether they look for an error at the end.
-/

namespace Gkit.Streams

open Gkit.Lib

/-! ## The operators -/

structure Stage (α β : Type) extends Transducer α β where
  /-- Whether an error of the stream that it reads is passed on. -/
  propagates : Bool

variable {α β γ κ σ : Type}

/-- The loop of `Map`. -/
def mapStage (fn : α → β) : Stage α β where
  State := Unit
  init := ()
  react := fun _ v => .emit (fn v) ()
  propagates := true

/-- The loop of `Filter`. -/
def filterStage (keep : α → Bool) : Stage α α where
  State := Unit
  init := ()
  react := fun _ v => if keep v then .emit v () else .skip ()
  propagates := true

/-- The loop of `Take`, with the count. -/
def takeStage (n : ℤ) : Stage α α where
  State := ℕ
  init := 0
  react := fun count v => if (count : ℤ) ≥ n then .stop else .emit v (count + 1)
  propagates := false

/-! ## A goroutine and its channels -/

/-- A goroutine that writes a stream, between its operations. -/
inductive Worker (σ β : Type) where
  /-- At the head of its loop. -/
  | ranging (s : σ)
  | sending (v : β) (s : σ)
  /-- Behind its loop, before the receive from the other error channel. -/
  | draining
  | reporting (err : GoError)
  /-- Before the deferred close of the error channel. -/
  | returning
  /-- Before the deferred close of the channel of the values. -/
  | closing
  | exited
  | crashed (text : String)

structure Node (σ β : Type) where
  worker : Worker σ β
  ch : Chan β
  errCh : Chan GoError

def newNode (s : σ) (cap : ℕ) : Node σ β := ⟨.ranging s, ⟨[], cap, false⟩, ⟨[], 1, false⟩⟩

namespace Node

/-- The operations on its own channels. -/
def go (n : Node σ β) : Option (Node σ β) :=
  match n.worker with
  | .sending v s =>
      match n.ch.send v with
      | .ready ch => some { n with worker := .ranging s, ch := ch }
      | .blocked => none
      | .panics text => some { n with worker := .crashed text }
  | .reporting err =>
      match n.errCh.send err with
      | .ready errCh => some { n with worker := .returning, errCh := errCh }
      | .blocked => none
      | .panics text => some { n with worker := .crashed text }
  | .returning =>
      match n.errCh.close with
      | .ready errCh => some { n with worker := .closing, errCh := errCh }
      | .blocked => none
      | .panics text => some { n with worker := .crashed text }
  | .closing =>
      match n.ch.close with
      | .ready ch => some { n with worker := .exited, ch := ch }
      | .blocked => none
      | .panics text => some { n with worker := .crashed text }
  | _ => none

/-- A receive by the reader of the stream.  On an empty channel it can meet the
goroutine that is about to send. -/
def take (n : Node σ β) : Option (Option β × Node σ β) :=
  match n.ch.recv with
  | .ready (v, ch) => some (v, { n with ch := ch })
  | _ =>
      match n.worker with
      | .sending v s => if n.ch.meets then some (some v, { n with worker := .ranging s }) else none
      | _ => none

end Node

/-! ## Streams on top of each other -/

/-- A stream with all goroutines and channels behind it. -/
inductive Net : Type → Type 1 where
  /-- The stream of `FromSlice`, with the elements that are left. -/
  | source {α : Type} (node : Node (List α) α) : Net α
  | stage {α β : Type} (up : Net α) (op : Stage α β) (node : Node op.State β) : Net β

/-- `FromSlice`, for a capacity that is 16 in `Generate`. -/
def fromSlice (cap : ℕ) (s : List α) : Net α := .source (newNode s cap)

/-- `Map`, for a capacity that is the one of the stream it reads. -/
def map (cap : ℕ) (s : Net α) (fn : α → β) : Net β :=
  .stage s (mapStage fn) (newNode (mapStage fn).init cap)

/-- `Filter`, with the capacity as for `Map`. -/
def filter (cap : ℕ) (s : Net α) (keep : α → Bool) : Net α :=
  .stage s (filterStage keep) (newNode (filterStage keep).init cap)

/-- `Take`, with the capacity as for `Map`. -/
def take (cap : ℕ) (s : Net α) (n : ℤ) : Net α :=
  .stage s (takeStage n) (newNode (takeStage n : Stage α α).init cap)

namespace Net

def ch : Net α → Chan α
  | .source n => n.ch
  | .stage _ _ n => n.ch

def errCh : Net α → Chan GoError
  | .source n => n.errCh
  | .stage _ _ n => n.errCh

def setErrCh : Net α → Chan GoError → Net α
  | .source n, e => .source { n with errCh := e }
  | .stage up op n, e => .stage up op { n with errCh := e }

def take : Net α → Option (Option α × Net α)
  | .source n => n.take.map fun x => (x.1, .source x.2)
  | .stage up op n => n.take.map fun x => (x.1, .stage up op x.2)

end Net

/-- An operation of a goroutine behind a stream. -/
inductive Act where
  /-- The goroutine that writes the stream goes on. -/
  | go
  /-- The producer takes the other case of its `select`: its context is done. -/
  | giveUp
  /-- An operation behind the stream that is read. -/
  | up (a : Act)
  deriving DecidableEq, Repr

/-- The goroutine of `Generate` with the function that `FromSlice` gives it. -/
def sourceGo (n : Node (List α) α) : Option (Node (List α) α) :=
  match n.worker with
  | .ranging [] => some { n with worker := .returning }
  | .ranging (v :: todo) => some { n with worker := .sending v todo }
  | .draining => none
  | _ => n.go

/-- The goroutine of an operator. -/
def stageGo (up : Net α) (op : Stage α β) (n : Node op.State β) : Option (Net β) :=
  match n.worker with
  | .ranging s =>
      match up.take with
      | some (some v, up) =>
          match op.react s v with
          | .stop => some (.stage up op { n with worker := .returning })
          | .skip t => some (.stage up op { n with worker := .ranging t })
          | .emit y t => some (.stage up op { n with worker := .sending y t })
      | some (none, up) =>
          some (.stage up op { n with worker := if op.propagates then .draining else .returning })
      | none => none
  | .draining =>
      match up.errCh.recv with
      | .ready (some err, e) => some (.stage (up.setErrCh e) op { n with worker := .reporting err })
      | .ready (none, e) => some (.stage (up.setErrCh e) op { n with worker := .returning })
      | _ => none
  | _ => n.go.map (Net.stage up op)

/-- A step behind a stream; `done` says whether the context of the source is done. -/
def Net.step (done : Option GoError) : {α : Type} → Net α → Act → Option (Net α)
  | _, .source n, .go => (sourceGo n).map .source
  | _, .source n, .giveUp =>
      match n.worker with
      | .sending _ _ => if done.isSome then some (.source { n with worker := .returning }) else none
      | _ => none
  | _, .source _, .up _ => none
  | _, .stage up op n, .go => stageGo up op n
  | _, .stage _ _ _, .giveUp => none
  | _, .stage up op n, .up a => (up.step done a).map fun up => .stage up op n

/-! ## Collect -/

/-- The caller of `Collect`. -/
inductive Consumer (α : Type) where
  | collecting (out : List α)
  /-- The channel is closed: before the look at the error channel. -/
  | checking (out : List α)
  | returned (out : List α) (err : Option GoError)
  deriving DecidableEq, Repr

structure Sys (κ α : Type) where
  /-- The error of each context that is done. -/
  done : κ → Option GoError
  net : Net α
  consumer : Consumer α

inductive Action (κ : Type) where
  | net (a : Act)
  | recv
  /-- The case of the `select` for the context. -/
  | expire
  | check
  | cancel (k : κ) (err : GoError)

/-- All goroutines are launched, and no context is done. -/
def start (net : Net α) : Sys κ α := ⟨fun _ => none, net, .collecting []⟩

namespace Sys

def recv (s : Sys κ α) : Option (Sys κ α) :=
  match s.consumer, s.net.take with
  | .collecting out, some (some v, net) =>
      some { s with net := net, consumer := .collecting (out ++ [v]) }
  | .collecting out, some (none, net) => some { s with net := net, consumer := .checking out }
  | _, _ => none

def expire (ctx : κ) (s : Sys κ α) : Option (Sys κ α) :=
  match s.consumer, s.done ctx with
  | .collecting _, some err => some { s with consumer := .returned [] (some err) }
  | _, _ => none

def check (s : Sys κ α) : Option (Sys κ α) :=
  match s.consumer with
  | .checking out =>
      match s.net.errCh.recv with
      | .ready (err, e) => some { s with net := s.net.setErrCh e, consumer := .returned out err }
      | _ => some { s with consumer := .returned out none }
  | _ => none

variable [DecidableEq κ]

def cancel (s : Sys κ α) (k : κ) (err : GoError) : Option (Sys κ α) :=
  match s.done k with
  | none => some { s with done := Function.update s.done k (some err) }
  | some _ => none

/-- A step of `FromSlice(ctx₁, …)`, of an operator or of `Collect(ctx₂)`. -/
def step (ctx₁ ctx₂ : κ) (s : Sys κ α) : Action κ → Option (Sys κ α)
  | .net a => (s.net.step (s.done ctx₁) a).map fun net => { s with net := net }
  | .recv => s.recv
  | .expire => s.expire ctx₂
  | .check => s.check
  | .cancel k err => s.cancel k err

end Sys

end Gkit.Streams
