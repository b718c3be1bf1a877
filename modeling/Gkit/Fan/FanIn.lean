import Gkit.Lib.Feeds
import Gkit.Lib.Runs
import Gkit.Lib.WaitGroups

/-!
# `FanIn` of package `async`

A call of `FanIn`: a goroutine for each input, the goroutine that waits for them
and closes the output, the producers of the inputs and the consumer of the
output.  Each step is one operation on a channel, the wait group or the context.
When the context is done is up to the environment.
-/

namespace Gkit.FanIn

open Gkit.Lib

variable {α : Type} {n : ℕ}

/-- The goroutine `forward`, between its operations. -/
inductive Forwarder (α : Type) where
  | receiving
  | sending (v : α)
  /-- Before the deferred `wg.Done()`. -/
  | leaving
  | exited

/-- The goroutine that closes the output. -/
inductive Closer where
  | waiting
  | closing
  | exited
  deriving DecidableEq

structure Sys (α : Type) (n : ℕ) where
  cancelled : Bool
  inputs : Fin n → Feed α
  forwarders : Fin n → Forwarder α
  wg : WaitGroup
  closer : Closer
  out : Chan α
  /-- The text of a panic. -/
  crashed : Option String

inductive Action (n : ℕ) where
  | produce (i : Fin n)
  | receive (i : Fin n)
  | send (i : Fin n)
  /-- The other case of a `select`: the context is done. -/
  | giveUp (i : Fin n)
  | leave (i : Fin n)
  | wait
  | close
  | consume
  | cancel
  deriving DecidableEq

/-- The state in which `FanIn` returns. -/
def fanIn (inputs : Fin n → Feed α) : Sys α n where
  cancelled := false
  inputs := inputs
  forwarders := fun _ => .receiving
  wg := ⟨n⟩
  closer := .waiting
  out := ⟨[], 16, false⟩
  crashed := none

namespace Sys

def setForwarder (s : Sys α n) (i : Fin n) (f : Forwarder α) : Sys α n :=
  { s with forwarders := Function.update s.forwarders i f }

def setInput (s : Sys α n) (i : Fin n) (f : Feed α) : Sys α n :=
  { s with inputs := Function.update s.inputs i f }

def produce (s : Sys α n) (i : Fin n) : Option (Sys α n) :=
  (s.inputs i).produce.map (s.setInput i)

def receive (s : Sys α n) (i : Fin n) : Option (Sys α n) :=
  match s.forwarders i, (s.inputs i).take with
  | .receiving, some (some v, f) => some ((s.setInput i f).setForwarder i (.sending v))
  | .receiving, some (none, f) => some ((s.setInput i f).setForwarder i .leaving)
  | _, _ => none

def send (s : Sys α n) (i : Fin n) : Option (Sys α n) :=
  match s.forwarders i with
  | .sending v =>
      match s.out.send v with
      | .ready ch => some ({ s with out := ch }.setForwarder i .receiving)
      | .blocked => none
      | .panics text => some { s with crashed := some text }
  | _ => none

def giveUp (s : Sys α n) (i : Fin n) : Option (Sys α n) :=
  match s.forwarders i, s.cancelled with
  | .receiving, true => some (s.setForwarder i .leaving)
  | .sending _, true => some (s.setForwarder i .leaving)
  | _, _ => none

def leave (s : Sys α n) (i : Fin n) : Option (Sys α n) :=
  match s.forwarders i with
  | .leaving =>
      match s.wg.done with
      | .ready wg => some ({ s with wg := wg }.setForwarder i .exited)
      | .blocked => none
      | .panics text => some { s with crashed := some text }
  | _ => none

def wait (s : Sys α n) : Option (Sys α n) :=
  match s.closer, s.wg.isZero with
  | .waiting, true => some { s with closer := .closing }
  | _, _ => none

def close (s : Sys α n) : Option (Sys α n) :=
  match s.closer with
  | .closing =>
      match s.out.close with
      | .ready ch => some { s with out := ch, closer := .exited }
      | .blocked => none
      | .panics text => some { s with crashed := some text }
  | _ => none

def consume (s : Sys α n) : Option (Sys α n) :=
  match s.out.recv with
  | .ready (_, ch) => some { s with out := ch }
  | _ => none

def step (s : Sys α n) : Action n → Option (Sys α n)
  | .produce i => s.produce i
  | .receive i => s.receive i
  | .send i => s.send i
  | .giveUp i => s.giveUp i
  | .leave i => s.leave i
  | .wait => s.wait
  | .close => s.close
  | .consume => s.consume
  | .cancel => some { s with cancelled := true }

/-- What the consumer gets in a step. -/
def consumed (s : Sys α n) : Action n → List α
  | .consume =>
      match s.out.recv with
      | .ready (some v, _) => [v]
      | _ => []
  | _ => []

end Sys

/-- What the consumer gets in a run. -/
def received (s : Sys α n) (xs : List (Action n)) : List α := collect Sys.step Sys.consumed s xs

/-! ## What a step can do -/

inductive Effect (s : Sys α n) : Action n → List α → Sys α n → Prop where
  | produced {i : Fin n} {f : Feed α} (hf : (s.inputs i).produce = some f) :
      Effect s (.produce i) [] (s.setInput i f)
  | received {i : Fin n} {v : α} {f : Feed α} (hi : s.forwarders i = .receiving)
      (hrest : (s.inputs i).rest = v :: f.rest) :
      Effect s (.receive i) [] ((s.setInput i f).setForwarder i (.sending v))
  | ended {i : Fin n} (hi : s.forwarders i = .receiving) (hrest : (s.inputs i).rest = [])
      (hclosed : (s.inputs i).chan.closed = true) :
      Effect s (.receive i) [] (s.setForwarder i .leaving)
  | sent {i : Fin n} {v : α} (hi : s.forwarders i = .sending v) (hopen : s.out.closed = false)
      (hroom : s.out.buf.length < s.out.cap) :
      Effect s (.send i) []
        ({ s with out := { s.out with buf := s.out.buf ++ [v] } }.setForwarder i .receiving)
  | sendCrashes {i : Fin n} {v : α} {text : String} (hi : s.forwarders i = .sending v)
      (hclosed : s.out.closed = true) : Effect s (.send i) [] { s with crashed := some text }
  | gaveUp {i : Fin n} (hi : s.forwarders i = .receiving ∨ ∃ v, s.forwarders i = .sending v)
      (hcancelled : s.cancelled = true) : Effect s (.giveUp i) [] (s.setForwarder i .leaving)
  | left {i : Fin n} (hi : s.forwarders i = .leaving) (hpos : 0 < s.wg.count) :
      Effect s (.leave i) [] ({ s with wg := ⟨s.wg.count - 1⟩ }.setForwarder i .exited)
  | leaveCrashes {i : Fin n} {text : String} (hi : s.forwarders i = .leaving)
      (hzero : s.wg.count ≤ 0) : Effect s (.leave i) [] { s with crashed := some text }
  | waited (hc : s.closer = .waiting) (hzero : s.wg.count = 0) :
      Effect s .wait [] { s with closer := .closing }
  | closed (hc : s.closer = .closing) (hopen : s.out.closed = false) :
      Effect s .close [] { s with out := { s.out with closed := true }, closer := .exited }
  | closeCrashes {text : String} (hc : s.closer = .closing) (hclosed : s.out.closed = true) :
      Effect s .close [] { s with crashed := some text }
  | consumed {v : α} {buf : List α} (hbuf : s.out.buf = v :: buf) :
      Effect s .consume [v] { s with out := { s.out with buf := buf } }
  | drained (hbuf : s.out.buf = []) (hclosed : s.out.closed = true) : Effect s .consume [] s
  | cancelled : Effect s .cancel [] { s with cancelled := true }

variable {s s' : Sys α n}

theorem setInput_self (s : Sys α n) (i : Fin n) : s.setInput i (s.inputs i) = s := by
  simp [Sys.setInput]

theorem effect_receive {i : Fin n} (h : s.receive i = some s') : Effect s (.receive i) [] s' := by
  unfold Sys.receive at h
  cases hi : s.forwarders i with
  | receiving =>
      cases htake : (s.inputs i).take with
      | none => simp [hi, htake] at h
      | some r =>
          obtain ⟨o, f⟩ := r
          rcases Feed.take_cases htake with ⟨v, rfl, hrest⟩ | ⟨rfl, rfl, hrest, hclosed⟩
          · simp only [hi, htake, Option.some.injEq] at h
            subst h
            exact .received hi hrest
          · simp only [hi, htake, Option.some.injEq, setInput_self] at h
            subst h
            exact .ended hi hrest hclosed
  | _ => simp [hi] at h

theorem effect_send {i : Fin n} (h : s.send i = some s') : Effect s (.send i) [] s' := by
  unfold Sys.send at h
  cases hi : s.forwarders i with
  | sending v =>
      rcases s.out.send_cases v with ⟨hclosed, hs⟩ | ⟨hopen, hroom, hs⟩ | ⟨-, -, hs⟩
      · simp only [hi, hs, Option.some.injEq] at h
        subst h
        exact .sendCrashes hi hclosed
      · simp only [hi, hs, Option.some.injEq] at h
        subst h
        exact .sent hi hopen hroom
      · simp [hi, hs] at h
  | _ => simp [hi] at h

theorem effect_giveUp {i : Fin n} (h : s.giveUp i = some s') : Effect s (.giveUp i) [] s' := by
  unfold Sys.giveUp at h
  cases hcancelled : s.cancelled with
  | false => cases hi : s.forwarders i <;> simp [hi, hcancelled] at h
  | true =>
      cases hi : s.forwarders i with
      | receiving =>
          simp only [hi, hcancelled, Option.some.injEq] at h
          subst h
          exact .gaveUp (.inl hi) hcancelled
      | sending v =>
          simp only [hi, hcancelled, Option.some.injEq] at h
          subst h
          exact .gaveUp (.inr ⟨v, hi⟩) hcancelled
      | leaving | exited => simp [hi] at h

theorem effect_leave {i : Fin n} (h : s.leave i = some s') : Effect s (.leave i) [] s' := by
  unfold Sys.leave at h
  cases hi : s.forwarders i with
  | leaving =>
      rcases s.wg.done_cases with ⟨hpos, hdone⟩ | ⟨hzero, hdone⟩
      · simp only [hi, hdone, Option.some.injEq] at h
        subst h
        exact .left hi hpos
      · simp only [hi, hdone, Option.some.injEq] at h
        subst h
        exact .leaveCrashes hi hzero
  | _ => simp [hi] at h

theorem effect_wait (h : s.wait = some s') : Effect s .wait [] s' := by
  unfold Sys.wait at h
  cases hc : s.closer with
  | waiting =>
      cases hzero : s.wg.isZero with
      | false => simp [hc, hzero] at h
      | true =>
          simp only [hc, hzero, Option.some.injEq] at h
          subst h
          exact .waited hc (of_decide_eq_true hzero)
  | closing | exited => simp [hc] at h

theorem effect_close (h : s.close = some s') : Effect s .close [] s' := by
  unfold Sys.close at h
  split at h
  · rename_i hc
    cases hclosed : s.out.closed with
    | true =>
        simp only [Chan.close, hclosed, if_true, Option.some.injEq] at h
        subst h
        exact .closeCrashes hc hclosed
    | false =>
        simp only [Chan.close, hclosed, Bool.false_eq_true, if_false, Option.some.injEq] at h
        subst h
        exact .closed hc hclosed
  · cases h

theorem effect_consume (h : s.consume = some s') : Effect s .consume (s.consumed .consume) s' := by
  unfold Sys.consume at h
  unfold Sys.consumed
  rcases s.out.recv_cases with ⟨v, buf, hbuf, hr⟩ | ⟨hbuf, hclosed, hr⟩ | ⟨-, -, hr⟩
  · simp only [hr, Option.some.injEq] at h ⊢
    subst h
    exact .consumed hbuf
  · simp only [hr, Option.some.injEq] at h ⊢
    subst h
    exact .drained hbuf hclosed
  · simp [hr] at h

theorem effect_of_step {x : Action n} (h : s.step x = some s') :
    ∃ vs, s.consumed x = vs ∧ Effect s x vs s' := by
  cases x with
  | produce i =>
      obtain ⟨f, hf, rfl⟩ := Option.map_eq_some_iff.mp h
      exact ⟨_, rfl, .produced hf⟩
  | receive i => exact ⟨_, rfl, effect_receive h⟩
  | send i => exact ⟨_, rfl, effect_send h⟩
  | giveUp i => exact ⟨_, rfl, effect_giveUp h⟩
  | leave i => exact ⟨_, rfl, effect_leave h⟩
  | wait => exact ⟨_, rfl, effect_wait h⟩
  | close => exact ⟨_, rfl, effect_close h⟩
  | consume => exact ⟨_, rfl, effect_consume h⟩
  | cancel =>
      cases h
      exact ⟨_, rfl, .cancelled⟩

end Gkit.FanIn
