import Gkit.Lib.Feeds
import Gkit.Lib.Runs

/-!
# `FanOut` and `Tee` of package `async`

A goroutine that receives from the input and sends each item to one output after
the other, the producer of the input and the receivers of the outputs.  Each step
is one operation on a channel or on the context, which is done when the
environment says so.  The two functions differ in the number of outputs and in
the order in which they close them.
-/

namespace Gkit.FanOut

open Gkit.Lib

variable {α : Type} {n : ℕ}

/-- The order in which the outputs are sent to and closed, each of them once. -/
structure Wiring (n : ℕ) where
  sends : List (Fin n)
  closes : List (Fin n)
  nodup_sends : sends.Nodup
  mem_sends : ∀ j, j ∈ sends
  nodup_closes : closes.Nodup

def fanOut (n : ℕ) : Wiring n :=
  ⟨List.finRange n, List.finRange n, List.nodup_finRange n, List.mem_finRange,
    List.nodup_finRange n⟩

/-- The outputs are `a` and `b`; the deferred calls close `b` first. -/
def tee : Wiring 2 := ⟨[0, 1], [1, 0], by decide, by decide, by decide⟩

/-- The two functions that send every item to all their outputs. -/
inductive Broadcaster where
  | fanOut (n : ℕ)
  | tee
  deriving DecidableEq

def Broadcaster.outputs : Broadcaster → ℕ
  | .fanOut n => n
  | .tee => 2

def Broadcaster.wiring : (b : Broadcaster) → Wiring b.outputs
  | .fanOut n => FanOut.fanOut n
  | .tee => FanOut.tee

/-- The goroutine, between its operations. -/
inductive Dispatcher (α : Type) (n : ℕ) where
  | receiving
  /-- The outputs that have yet to get the item. -/
  | sending (v : α) (todo : List (Fin n))
  /-- The outputs that the deferred calls have yet to close. -/
  | closing (todo : List (Fin n))
  | exited
  deriving DecidableEq

structure Sys (α : Type) (n : ℕ) where
  cancelled : Bool
  input : Feed α
  dispatcher : Dispatcher α n
  outs : Fin n → Chan α
  /-- The text of a panic. -/
  crashed : Option String

inductive Action (n : ℕ) where
  | produce
  /-- The next operation of the goroutine other than on the context. -/
  | dispatch
  /-- The other case of a `select`: the context is done. -/
  | giveUp
  | consume (j : Fin n)
  | cancel
  deriving DecidableEq

/-- The state in which the function returns. -/
def start (input : Feed α) : Sys α n where
  cancelled := false
  input := input
  dispatcher := .receiving
  outs := fun _ => ⟨[], 16, false⟩
  crashed := none

inductive Event (α : Type) (n : ℕ) where
  | received (v : α)
  | sent (j : Fin n) (v : α)
  | got (j : Fin n) (v : α)

namespace Sys

/-- After the last output the goroutine is back at the head of its loop. -/
def next (v : α) : List (Fin n) → Dispatcher α n
  | [] => .receiving
  | j :: todo => .sending v (j :: todo)

def setOut (s : Sys α n) (j : Fin n) (ch : Chan α) : Sys α n :=
  { s with outs := Function.update s.outs j ch }

def receive (w : Wiring n) (s : Sys α n) : Option (Sys α n) :=
  match s.input.take with
  | some (some v, f) => some { s with input := f, dispatcher := next v w.sends }
  | some (none, f) => some { s with input := f, dispatcher := .closing w.closes }
  | none => none

def send (s : Sys α n) (v : α) (j : Fin n) (todo : List (Fin n)) : Option (Sys α n) :=
  match (s.outs j).send v with
  | .ready ch => some { s.setOut j ch with dispatcher := next v todo }
  | .blocked => none
  | .panics text => some { s with crashed := some text }

def close (s : Sys α n) (j : Fin n) (todo : List (Fin n)) : Option (Sys α n) :=
  match (s.outs j).close with
  | .ready ch => some { s.setOut j ch with dispatcher := .closing todo }
  | .blocked => none
  | .panics text => some { s with crashed := some text }

def dispatch (w : Wiring n) (s : Sys α n) : Option (Sys α n) :=
  match s.dispatcher with
  | .receiving => s.receive w
  | .sending v (j :: todo) => s.send v j todo
  | .sending _ [] => none
  | .closing (j :: todo) => s.close j todo
  | .closing [] => some { s with dispatcher := .exited }
  | .exited => none

def giveUp (w : Wiring n) (s : Sys α n) : Option (Sys α n) :=
  match s.dispatcher, s.cancelled with
  | .receiving, true => some { s with dispatcher := .closing w.closes }
  | .sending _ _, true => some { s with dispatcher := .closing w.closes }
  | _, _ => none

def consume (s : Sys α n) (j : Fin n) : Option (Sys α n) :=
  match (s.outs j).recv with
  | .ready (_, ch) => some (s.setOut j ch)
  | _ => none

def step (w : Wiring n) (s : Sys α n) : Action n → Option (Sys α n)
  | .produce => s.input.produce.map fun f => { s with input := f }
  | .dispatch => s.dispatch w
  | .giveUp => s.giveUp w
  | .consume j => s.consume j
  | .cancel => some { s with cancelled := true }

def events (s : Sys α n) : Action n → List (Event α n)
  | .dispatch =>
      match s.dispatcher with
      | .receiving =>
          match s.input.take with
          | some (some v, _) => [.received v]
          | _ => []
      | .sending v (j :: _) =>
          match (s.outs j).send v with
          | .ready _ => [.sent j v]
          | _ => []
      | _ => []
  | .consume j =>
      match (s.outs j).recv with
      | .ready (some v, _) => [.got j v]
      | _ => []
  | _ => []

end Sys

/-! ## Logs -/

def Event.received? : Event α n → Option α
  | .received v => some v
  | _ => none

def Event.sentTo? (j : Fin n) : Event α n → Option α
  | .sent k v => if k = j then some v else none
  | _ => none

def Event.gotBy? (j : Fin n) : Event α n → Option α
  | .got k v => if k = j then some v else none
  | _ => none

/-- What came in. -/
def received (log : List (Event α n)) : List α := log.filterMap Event.received?

/-- What was sent to an output. -/
def sentTo (j : Fin n) (log : List (Event α n)) : List α := log.filterMap (Event.sentTo? j)

/-- What a receiver got. -/
def gotBy (j : Fin n) (log : List (Event α n)) : List α := log.filterMap (Event.gotBy? j)

/-- The log of a run. -/
def logOf (w : Wiring n) (s : Sys α n) (xs : List (Action n)) : List (Event α n) :=
  collect (Sys.step w) Sys.events s xs

/-! ## What a step can do -/

inductive Effect (w : Wiring n) (s : Sys α n) :
    Action n → List (Event α n) → Sys α n → Prop where
  | produced {f : Feed α} (hf : s.input.produce = some f) :
      Effect w s .produce [] { s with input := f }
  | received {v : α} {f : Feed α} (hd : s.dispatcher = .receiving)
      (hrest : s.input.rest = v :: f.rest) :
      Effect w s .dispatch [.received v] { s with input := f, dispatcher := Sys.next v w.sends }
  | ended (hd : s.dispatcher = .receiving) (hrest : s.input.rest = []) :
      Effect w s .dispatch [] { s with dispatcher := .closing w.closes }
  | sent {v : α} {j : Fin n} {todo : List (Fin n)} (hd : s.dispatcher = .sending v (j :: todo))
      (hopen : (s.outs j).closed = false) (hroom : (s.outs j).buf.length < (s.outs j).cap) :
      Effect w s .dispatch [.sent j v]
        { s.setOut j { s.outs j with buf := (s.outs j).buf ++ [v] } with
          dispatcher := Sys.next v todo }
  | sendCrashes {v : α} {j : Fin n} {todo : List (Fin n)} {text : String}
      (hd : s.dispatcher = .sending v (j :: todo)) (hclosed : (s.outs j).closed = true) :
      Effect w s .dispatch [] { s with crashed := some text }
  | closed {j : Fin n} {todo : List (Fin n)} (hd : s.dispatcher = .closing (j :: todo))
      (hopen : (s.outs j).closed = false) :
      Effect w s .dispatch []
        { s.setOut j { s.outs j with closed := true } with dispatcher := .closing todo }
  | closeCrashes {j : Fin n} {todo : List (Fin n)} {text : String}
      (hd : s.dispatcher = .closing (j :: todo)) (hclosed : (s.outs j).closed = true) :
      Effect w s .dispatch [] { s with crashed := some text }
  | exited (hd : s.dispatcher = .closing []) :
      Effect w s .dispatch [] { s with dispatcher := .exited }
  | gaveUp (hd : s.dispatcher = .receiving ∨ ∃ v todo, s.dispatcher = .sending v todo)
      (hcancelled : s.cancelled = true) :
      Effect w s .giveUp [] { s with dispatcher := .closing w.closes }
  | got {j : Fin n} {v : α} {buf : List α} (hbuf : (s.outs j).buf = v :: buf) :
      Effect w s (.consume j) [.got j v] (s.setOut j { s.outs j with buf := buf })
  | drained {j : Fin n} (hbuf : (s.outs j).buf = []) (hclosed : (s.outs j).closed = true) :
      Effect w s (.consume j) [] s
  | cancelled : Effect w s .cancel [] { s with cancelled := true }

variable {w : Wiring n} {s s' : Sys α n}

theorem effect_receive (hd : s.dispatcher = .receiving) (h : s.dispatch w = some s') :
    Effect w s .dispatch (s.events .dispatch) s' := by
  simp only [Sys.dispatch, hd, Sys.receive] at h
  simp only [Sys.events, hd]
  cases htake : s.input.take with
  | none => simp [htake] at h
  | some r =>
      obtain ⟨o, f⟩ := r
      rcases Feed.take_cases htake with ⟨v, rfl, hrest⟩ | ⟨rfl, rfl, hrest, -⟩
      · simp only [htake, Option.some.injEq] at h ⊢
        subst h
        exact .received hd hrest
      · simp only [htake, Option.some.injEq] at h ⊢
        subst h
        exact .ended hd hrest

theorem effect_send {v : α} {j : Fin n} {todo : List (Fin n)}
    (hd : s.dispatcher = .sending v (j :: todo)) (h : s.send v j todo = some s') :
    Effect w s .dispatch (s.events .dispatch) s' := by
  unfold Sys.send at h
  simp only [Sys.events, hd]
  rcases (s.outs j).send_cases v with ⟨hclosed, hs⟩ | ⟨hopen, hroom, hs⟩ | ⟨-, -, hs⟩
  · simp only [hs, Option.some.injEq] at h ⊢
    subst h
    exact .sendCrashes hd hclosed
  · simp only [hs, Option.some.injEq] at h ⊢
    subst h
    exact .sent hd hopen hroom
  · simp [hs] at h

theorem effect_close {j : Fin n} {todo : List (Fin n)} (hd : s.dispatcher = .closing (j :: todo))
    (h : s.close j todo = some s') : Effect w s .dispatch [] s' := by
  unfold Sys.close at h
  cases hclosed : (s.outs j).closed with
  | true =>
      simp only [Chan.close, hclosed, if_true, Option.some.injEq] at h
      subst h
      exact .closeCrashes hd hclosed
  | false =>
      simp only [Chan.close, hclosed, Bool.false_eq_true, if_false, Option.some.injEq] at h
      subst h
      exact .closed hd hclosed

theorem effect_giveUp (h : s.giveUp w = some s') : Effect w s .giveUp [] s' := by
  unfold Sys.giveUp at h
  split at h
  · rename_i hd hcancelled
    cases h
    exact .gaveUp (.inl hd) hcancelled
  · rename_i v todo hd hcancelled
    cases h
    exact .gaveUp (.inr ⟨v, todo, hd⟩) hcancelled
  · cases h

theorem effect_consume {j : Fin n} (h : s.consume j = some s') :
    Effect w s (.consume j) (s.events (.consume j)) s' := by
  unfold Sys.consume at h
  unfold Sys.events
  rcases (s.outs j).recv_cases with ⟨v, buf, hbuf, hr⟩ | ⟨hbuf, hclosed, hr⟩ | ⟨-, -, hr⟩
  · simp only [hr, Option.some.injEq] at h ⊢
    subst h
    exact .got hbuf
  · simp only [hr, Option.some.injEq, Sys.setOut, Function.update_eq_self] at h ⊢
    subst h
    exact .drained hbuf hclosed
  · simp [hr] at h

theorem effect_of_step {x : Action n} (h : s.step w x = some s') :
    ∃ es, s.events x = es ∧ Effect w s x es s' := by
  refine ⟨_, rfl, ?_⟩
  cases x with
  | produce =>
      obtain ⟨f, hf, rfl⟩ := Option.map_eq_some_iff.mp h
      exact .produced hf
  | dispatch =>
      cases hd : s.dispatcher with
      | receiving => exact effect_receive hd h
      | sending v todo =>
          cases todo with
          | nil => simp [Sys.step, Sys.dispatch, hd] at h
          | cons j todo =>
              simp only [Sys.step, Sys.dispatch, hd] at h
              exact effect_send hd h
      | closing todo =>
          cases todo with
          | nil =>
              simp only [Sys.step, Sys.dispatch, hd, Option.some.injEq] at h
              subst h
              simpa only [Sys.events, hd] using Effect.exited hd
          | cons j todo =>
              simp only [Sys.step, Sys.dispatch, hd] at h
              simpa only [Sys.events, hd] using effect_close hd h
      | exited => simp [Sys.step, Sys.dispatch, hd] at h
  | giveUp => exact effect_giveUp h
  | consume j => exact effect_consume h
  | cancel =>
      cases h
      exact .cancelled

end Gkit.FanOut
