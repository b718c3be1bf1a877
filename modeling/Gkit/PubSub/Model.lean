import Gkit.Lib.Channels
import Gkit.Lib.Runs

/-!
# Package `pubsub`

Any number of subscriptions, their dispatch goroutines, calls of `Publish`, and
calls of the functions that end a subscription, each of which is called at most
once.  What happens under the lock is one step, and so is each operation on a
channel.  Every payload has the type of its topic, so that the type assertion
holds.  The handlers, their results and the logger do not touch the bus, and a
handler runs until the environment lets it finish.

A send finds a receiver on an unbuffered channel only while that is blocked in
its `select`, so a dispatcher that has blocked is told apart from one that has
not come to its `select` yet.
-/

namespace Gkit.PubSub

open Gkit.Lib

/-- An event for one handler, with the call of `Publish` that made it. -/
structure Message (κ P : Type) where
  call : κ
  topic : String
  payload : P
  deriving DecidableEq, Repr

/-- The dispatch goroutine: before its `select`, blocked in it, with a message it
has received, in the handler, or at its end. -/
inductive Dispatcher (κ P : Type) where
  | selecting
  | parked
  | received (m : Message κ P)
  | running (m : Message κ P)
  | exited
  deriving DecidableEq

/-- A blocked `select` ends with the case that has become ready. -/
def Dispatcher.wake {κ P : Type} : Dispatcher κ P → Dispatcher κ P
  | .parked => .exited
  | d => d

/-- Where the function that ends a subscription is. -/
inductive Unsubscribe where
  | notCalled
  | removed
  | cancelled
  | returned
  | panicked (text : String)
  deriving DecidableEq

structure Subscription (κ P : Type) where
  topic : String
  bufSize : ℤ
  ch : Chan (Message κ P)
  /-- Its context is done. -/
  done : Bool
  dispatcher : Dispatcher κ P
  unsubscribe : Unsubscribe
  deriving DecidableEq

/-- A call of `Publish`, with its copy of the handlers in two parts. -/
inductive Publish (ι P : Type) where
  | idle
  | sending (topic : String) (payload : P) (tried todo : List ι)
  | returned (topic : String) (payload : P) (handlers : List ι)
  | panicked (topic : String) (payload : P) (text : String)
  deriving DecidableEq

structure Sys (ι κ P : Type) where
  subs : String → List ι
  handlers : ι → Option (Subscription κ P)
  calls : κ → Publish ι P

inductive Action (ι κ P : Type) where
  | subscribe (h : ι) (topic : String) (bufSize : ℤ)
  /-- The copy of the handlers, under the lock. -/
  | publish (p : κ) (topic : String) (payload : P)
  /-- The next round of the loop over the copy. -/
  | send (p : κ)
  | remove (h : ι)
  | cancel (h : ι)
  | close (h : ι)
  /-- No case of the `select` is ready. -/
  | park (h : ι)
  /-- The `select` takes the case of the channel. -/
  | take (h : ι)
  /-- The `select` takes the case of the context. -/
  | quit (h : ι)
  | call (h : ι)
  | finish (h : ι)

variable {ι κ P : Type}

def newBus : Sys ι κ P := ⟨fun _ => [], fun _ => none, fun _ => .idle⟩

namespace Subscription

def new (topic : String) (bufSize : ℤ) : Subscription κ P :=
  ⟨topic, bufSize, ⟨[], (max bufSize 0).toNat, false⟩, false, .selecting, .notCalled⟩

/-- The `select` of `publish`, whose default case drops the message: a receiver
that waits gets it, otherwise the buffer. -/
def offer (sub : Subscription κ P) (m : Message κ P) : Attempt (Subscription κ P) :=
  match sub.ch.closed, sub.dispatcher with
  | false, .parked => .ready { sub with dispatcher := .received m }
  | _, _ =>
      match sub.ch.send m with
      | .ready ch => .ready { sub with ch := ch }
      | .blocked => .blocked
      | .panics text => .panics text

def remove (sub : Subscription κ P) : Option (Subscription κ P) :=
  match sub.unsubscribe with
  | .notCalled => some { sub with unsubscribe := .removed }
  | _ => none

def cancel (sub : Subscription κ P) : Option (Subscription κ P) :=
  match sub.unsubscribe with
  | .removed =>
      some { sub with done := true, dispatcher := sub.dispatcher.wake, unsubscribe := .cancelled }
  | _ => none

def close (sub : Subscription κ P) : Option (Subscription κ P) :=
  match sub.unsubscribe with
  | .cancelled =>
      match sub.ch.close with
      | .ready ch =>
          some { sub with ch := ch, dispatcher := sub.dispatcher.wake, unsubscribe := .returned }
      | .blocked => none
      | .panics text => some { sub with unsubscribe := .panicked text }
  | _ => none

def park (sub : Subscription κ P) : Option (Subscription κ P) :=
  match sub.dispatcher, sub.done, sub.ch.recv with
  | .selecting, false, .blocked => some { sub with dispatcher := .parked }
  | _, _, _ => none

def take (sub : Subscription κ P) : Option (Subscription κ P) :=
  match sub.dispatcher, sub.ch.recv with
  | .selecting, .ready (some m, ch) => some { sub with ch := ch, dispatcher := .received m }
  | .selecting, .ready (none, ch) => some { sub with ch := ch, dispatcher := .exited }
  | _, _ => none

def quit (sub : Subscription κ P) : Option (Subscription κ P) :=
  match sub.dispatcher, sub.done with
  | .selecting, true => some { sub with dispatcher := .exited }
  | _, _ => none

def call (sub : Subscription κ P) : Option (Subscription κ P) :=
  match sub.dispatcher with
  | .received m => some { sub with dispatcher := .running m }
  | _ => none

def finish (sub : Subscription κ P) : Option (Subscription κ P) :=
  match sub.dispatcher with
  | .running _ => some { sub with dispatcher := .selecting }
  | _ => none

end Subscription

namespace Sys

variable [DecidableEq ι] [DecidableEq κ]

def setSub (s : Sys ι κ P) (h : ι) (sub : Subscription κ P) : Sys ι κ P :=
  { s with handlers := Function.update s.handlers h (some sub) }

def setCall (s : Sys ι κ P) (p : κ) (call : Publish ι P) : Sys ι κ P :=
  { s with calls := Function.update s.calls p call }

/-- The channel and the goroutine are made before the handler is registered, and
nobody else sees them until then. -/
def subscribe (s : Sys ι κ P) (h : ι) (topic : String) (bufSize : ℤ) : Option (Sys ι κ P) :=
  match s.handlers h with
  | none =>
      some { s.setSub h (.new topic bufSize) with
        subs := Function.update s.subs topic (s.subs topic ++ [h]) }
  | some _ => none

def publish (s : Sys ι κ P) (p : κ) (topic : String) (payload : P) : Option (Sys ι κ P) :=
  match s.calls p with
  | .idle => some (s.setCall p (.sending topic payload [] (s.subs topic)))
  | _ => none

def send (s : Sys ι κ P) (p : κ) : Option (Sys ι κ P) :=
  match s.calls p with
  | .sending topic payload tried [] => some (s.setCall p (.returned topic payload tried))
  | .sending topic payload tried (h :: todo) =>
      (s.handlers h).map fun sub =>
        match sub.offer ⟨p, sub.topic, payload⟩ with
        | .ready sub' =>
            (s.setSub h sub').setCall p (.sending topic payload (tried ++ [h]) todo)
        | .blocked => s.setCall p (.sending topic payload (tried ++ [h]) todo)
        | .panics text => s.setCall p (.panicked topic payload text)
  | _ => none

/-- The first step of the function that `Subscribe` returns. -/
def remove (s : Sys ι κ P) (h : ι) : Option (Sys ι κ P) :=
  (s.handlers h).bind fun sub => sub.remove.map fun sub' =>
    { s.setSub h sub' with
      subs := Function.update s.subs sub.topic ((s.subs sub.topic).erase h) }

/-- An operation on one subscription. -/
def update (s : Sys ι κ P) (h : ι) (op : Subscription κ P → Option (Subscription κ P)) :
    Option (Sys ι κ P) :=
  (s.handlers h).bind fun sub => (op sub).map (s.setSub h)

def step (s : Sys ι κ P) : Action ι κ P → Option (Sys ι κ P)
  | .subscribe h topic bufSize => s.subscribe h topic bufSize
  | .publish p topic payload => s.publish p topic payload
  | .send p => s.send p
  | .remove h => s.remove h
  | .cancel h => s.update h Subscription.cancel
  | .close h => s.update h Subscription.close
  | .park h => s.update h Subscription.park
  | .take h => s.update h Subscription.take
  | .quit h => s.update h Subscription.quit
  | .call h => s.update h Subscription.call
  | .finish h => s.update h Subscription.finish

end Sys

end Gkit.PubSub
