import Gkit.Lib.Errors
import Gkit.Lib.Feeds
import Gkit.Lib.Runs
import Gkit.Lib.Slices

/-!
# `Batch` of package `async`

The goroutine waits for an item, the end of the input or the timer, and any of
them leads to the same flush.  A step is one operation on a channel, on the
timer or on the buffer, or time that passes.  The producer, the consumer and the
runtime that fires the timer take their steps in between.
-/

namespace Gkit.Batch

open Gkit.Lib

structure Params where
  size : ℤ
  timeout : ℤ

structure Timer where
  /-- When it fires, unless it has fired or was stopped. -/
  deadline : Option ℤ
  /-- A value waits in its channel. -/
  pending : Bool
  deriving DecidableEq, Repr

/-- A duration below zero counts as zero. -/
def Timer.start (now timeout : ℤ) : Timer := ⟨some (now + max timeout 0), false⟩

/-- The lines behind the send of `flush`: what is left in the channel is drained
if the timer could not be stopped. -/
def Timer.restart (t : Timer) (now timeout : ℤ) : Timer :=
  ⟨some (now + max timeout 0), t.deadline.isSome && t.pending⟩

/-- What made the goroutine flush its buffer. -/
inductive Cause where
  | full
  | timeout
  | ended
  deriving DecidableEq, Repr

inductive Worker where
  | selecting
  /-- In `flush`, before the send of the copy. -/
  | sending (batch : Slice) (cause : Cause)
  /-- In `flush`, before the timer is set again. -/
  | resetting (cause : Cause)
  /-- Before the receive from the other error channel. -/
  | draining
  | reporting (err : GoError)
  /-- Before the deferred close of the error channel. -/
  | returning
  /-- Before the deferred close of the channel of the batches. -/
  | closing
  | exited
  | crashed (text : String)

/-- A batch that was sent, with its values at that time. -/
structure Emission (α : Type) where
  batch : Slice
  value : List α
  cause : Cause
  time : ℤ
  /-- When the timer had last been set. -/
  armed : ℤ
  /-- When the last item of the batch had been received. -/
  last : ℤ

structure Sys (α : Type) where
  input : Feed α
  heap : Heap α
  buf : Slice
  timer : Timer
  worker : Worker
  ch : Chan Slice
  errCh : Chan GoError
  /-- What the consumer has received. -/
  got : List Slice
  now : ℤ
  -- the rest is for the record only, no step depends on it
  armed : ℤ
  last : ℤ
  emitted : List (Emission α)

inductive Action where
  | pass (d : ℤ)
  | produce
  | fire
  | recv
  | tick
  | send
  | reset
  | drain (err : Option GoError)
  | report
  | closeErr
  | closeCh
  | consume

variable {α β : Type}

/-- The goroutine up to its loop. -/
def start (p : Params) (cap : ℕ) (input : List α) : Sys α where
  input := .ofList cap input
  heap := (Heap.empty.make [] p.size.toNat).1
  buf := ((Heap.empty : Heap α).make [] p.size.toNat).2
  timer := .start 0 p.timeout
  worker := if p.size < 0 then .crashed "makeslice: cap out of range" else .selecting
  ch := ⟨[], 4, false⟩
  errCh := ⟨[], 1, false⟩
  got := []
  now := 0
  armed := 0
  last := 0
  emitted := []

namespace Sys

/-- `flush` up to its send.  An empty buffer is not sent. -/
def flush (s : Sys α) (cause : Cause) : Sys α :=
  if 0 < s.buf.len then
    let copy := s.heap.make (s.buf.read s.heap) s.buf.len
    { s with heap := copy.1, worker := .sending copy.2 cause }
  else { s with worker := .resetting cause }

def append (s : Sys α) (v : α) : Sys α :=
  let grown := s.heap.append s.buf v
  { s with heap := grown.1, buf := grown.2, last := s.now }

def emit (s : Sys α) (batch : Slice) (cause : Cause) (ch : Chan Slice) : Sys α :=
  let e : Emission α := ⟨batch, batch.read s.heap, cause, s.now, s.armed, s.last⟩
  { s with
    ch := ch
    buf := s.buf.cut
    worker := .resetting cause
    emitted := s.emitted ++ [e] }

def rearm (s : Sys α) (p : Params) (cause : Cause) : Sys α :=
  { s with
    timer := s.timer.restart s.now p.timeout
    armed := s.now
    worker := if cause = .ended then .draining else .selecting }

/-- An operation on a channel that can panic. -/
def attempt (s : Sys α) (r : Attempt β) (k : β → Sys α) : Option (Sys α) :=
  match r with
  | .ready x => some (k x)
  | .blocked => none
  | .panics text => some { s with worker := .crashed text }

def step (p : Params) (s : Sys α) : Action → Option (Sys α)
  | .pass d => if 0 ≤ d then some { s with now := s.now + d } else none
  | .produce => s.input.produce.map fun input => { s with input := input }
  | .fire =>
      match s.timer.deadline with
      | some d => if d ≤ s.now then some { s with timer := ⟨none, true⟩ } else none
      | none => none
  | .recv =>
      match s.worker with
      | .selecting =>
          match s.input.take with
          | some (some v, input) =>
              let t := { s with input := input }.append v
              if p.size ≤ t.buf.len then some (t.flush .full) else some t
          | some (none, input) => some ({ s with input := input }.flush .ended)
          | none => none
      | _ => none
  | .tick =>
      match s.worker with
      | .selecting =>
          if s.timer.pending then
            some ({ s with timer := { s.timer with pending := false } }.flush .timeout)
          else none
      | _ => none
  | .send =>
      match s.worker with
      | .sending batch cause => s.attempt (s.ch.send batch) (s.emit batch cause)
      | _ => none
  | .reset =>
      match s.worker with
      | .resetting cause => some (s.rearm p cause)
      | _ => none
  | .drain err =>
      match s.worker with
      | .draining => some { s with worker := err.elim .returning .reporting }
      | _ => none
  | .report =>
      match s.worker with
      | .reporting err =>
          s.attempt (s.errCh.send err) fun ch => { s with errCh := ch, worker := .returning }
      | _ => none
  | .closeErr =>
      match s.worker with
      | .returning => s.attempt s.errCh.close fun ch => { s with errCh := ch, worker := .closing }
      | _ => none
  | .closeCh =>
      match s.worker with
      | .closing => s.attempt s.ch.close fun ch => { s with ch := ch, worker := .exited }
      | _ => none
  | .consume =>
      match s.ch.recv with
      | .ready (some batch, ch) => some { s with ch := ch, got := s.got ++ [batch] }
      | _ => none

end Sys

/-! ## What a step does -/

/-- The next operation of the goroutine is on a channel that is closed already. -/
def Sys.Torn (s : Sys α) : Prop :=
  match s.worker with
  | .sending .. | .closing => s.ch.closed = true
  | .reporting _ | .returning => s.errCh.closed = true
  | _ => False

inductive Effect (p : Params) : Sys α → Action → Sys α → Prop where
  | pass {s : Sys α} {d : ℤ} (hd : 0 ≤ d) : Effect p s (.pass d) { s with now := s.now + d }
  | produce {s : Sys α} {input : Feed α} (h : s.input.produce = some input) :
      Effect p s .produce { s with input := input }
  | fire {s : Sys α} {d : ℤ} (hd : s.timer.deadline = some d) (hnow : d ≤ s.now) :
      Effect p s .fire { s with timer := ⟨none, true⟩ }
  | item {s : Sys α} {v : α} {input : Feed α} (hw : s.worker = .selecting)
      (h : s.input.take = some (some v, input))
      (hsize : (({ s with input := input }.append v).buf.len : ℤ) < p.size) :
      Effect p s .recv ({ s with input := input }.append v)
  | filled {s : Sys α} {v : α} {input : Feed α} (hw : s.worker = .selecting)
      (h : s.input.take = some (some v, input))
      (hsize : p.size ≤ ({ s with input := input }.append v).buf.len) :
      Effect p s .recv (({ s with input := input }.append v).flush .full)
  | ended {s : Sys α} {input : Feed α} (hw : s.worker = .selecting)
      (h : s.input.take = some (none, input)) :
      Effect p s .recv ({ s with input := input }.flush .ended)
  | tick {s : Sys α} (hw : s.worker = .selecting) (h : s.timer.pending = true) :
      Effect p s .tick ({ s with timer := { s.timer with pending := false } }.flush .timeout)
  | sent {s : Sys α} {batch : Slice} {cause : Cause} (hw : s.worker = .sending batch cause)
      (hopen : s.ch.closed = false) :
      Effect p s .send (s.emit batch cause { s.ch with buf := s.ch.buf ++ [batch] })
  | reset {s : Sys α} {cause : Cause} (hw : s.worker = .resetting cause) :
      Effect p s .reset (s.rearm p cause)
  | drained {s : Sys α} {err : Option GoError} (hw : s.worker = .draining) :
      Effect p s (.drain err) { s with worker := err.elim .returning .reporting }
  | reported {s : Sys α} {err : GoError} (hw : s.worker = .reporting err) :
      Effect p s .report
        { s with errCh := { s.errCh with buf := s.errCh.buf ++ [err] }, worker := .returning }
  | closedErr {s : Sys α} (hw : s.worker = .returning) :
      Effect p s .closeErr
        { s with errCh := { s.errCh with closed := true }, worker := .closing }
  | closedCh {s : Sys α} (hw : s.worker = .closing) :
      Effect p s .closeCh { s with ch := { s.ch with closed := true }, worker := .exited }
  | consumed {s : Sys α} {batch : Slice} {rest : List Slice} (h : s.ch.buf = batch :: rest) :
      Effect p s .consume
        { s with ch := { s.ch with buf := rest }, got := s.got ++ [batch] }
  | crashed {s : Sys α} {x : Action} {text : String} (h : s.Torn) :
      Effect p s x { s with worker := .crashed text }

section Inversion

variable {p : Params} {s s' : Sys α}

theorem effect_recv (h : s.step p .recv = some s') : Effect p s .recv s' := by
  simp only [Sys.step] at h
  split at h
  case h_2 => cases h
  case h_1 hw =>
    split at h
    · next v input htake =>
        split_ifs at h with hsize
        · exact Option.some.inj h ▸ .filled hw htake hsize
        · exact Option.some.inj h ▸ .item hw htake (lt_of_not_ge hsize)
    · next input htake => exact Option.some.inj h ▸ .ended hw htake
    · cases h

theorem effect_send (h : s.step p .send = some s') : Effect p s .send s' := by
  simp only [Sys.step] at h
  split at h
  case h_2 => cases h
  case h_1 batch cause hw =>
    rcases s.ch.send_cases batch with ⟨hc, hsend⟩ | ⟨hc, -, hsend⟩ | ⟨-, -, hsend⟩ <;>
      rw [hsend] at h
    · exact Option.some.inj h ▸ .crashed (by simpa [Sys.Torn, hw] using hc)
    · exact Option.some.inj h ▸ .sent hw hc
    · cases h

theorem effect_report (h : s.step p .report = some s') : Effect p s .report s' := by
  simp only [Sys.step] at h
  split at h
  case h_2 => cases h
  case h_1 err hw =>
    rcases s.errCh.send_cases err with ⟨hc, hsend⟩ | ⟨-, -, hsend⟩ | ⟨-, -, hsend⟩ <;>
      rw [hsend] at h
    · exact Option.some.inj h ▸ .crashed (by simpa [Sys.Torn, hw] using hc)
    · exact Option.some.inj h ▸ .reported hw
    · cases h

theorem effect_closeErr (h : s.step p .closeErr = some s') : Effect p s .closeErr s' := by
  simp only [Sys.step] at h
  split at h
  case h_2 => cases h
  case h_1 hw =>
    unfold Chan.close at h
    split_ifs at h with hc
    · exact Option.some.inj h ▸ .crashed (by simpa [Sys.Torn, hw] using hc)
    · exact Option.some.inj h ▸ .closedErr hw

theorem effect_closeCh (h : s.step p .closeCh = some s') : Effect p s .closeCh s' := by
  simp only [Sys.step] at h
  split at h
  case h_2 => cases h
  case h_1 hw =>
    unfold Chan.close at h
    split_ifs at h with hc
    · exact Option.some.inj h ▸ .crashed (by simpa [Sys.Torn, hw] using hc)
    · exact Option.some.inj h ▸ .closedCh hw

theorem effect_of_step {x : Action} (h : s.step p x = some s') : Effect p s x s' := by
  cases x with
  | pass d =>
      simp only [Sys.step] at h
      split_ifs at h with hd
      exact Option.some.inj h ▸ .pass hd
  | produce =>
      obtain ⟨input, hproduce, rfl⟩ := Option.map_eq_some_iff.mp h
      exact .produce hproduce
  | fire =>
      simp only [Sys.step] at h
      split at h
      · next d hd =>
          split_ifs at h with hnow
          exact Option.some.inj h ▸ .fire hd hnow
      · cases h
  | recv => exact effect_recv h
  | tick =>
      simp only [Sys.step] at h
      split at h
      · next hw =>
          split_ifs at h with hpending
          exact Option.some.inj h ▸ .tick hw hpending
      · cases h
  | send => exact effect_send h
  | reset =>
      simp only [Sys.step] at h
      split at h
      · next cause hw => exact Option.some.inj h ▸ .reset hw
      · cases h
  | drain err =>
      simp only [Sys.step] at h
      split at h
      · next hw => exact Option.some.inj h ▸ .drained hw
      · cases h
  | report => exact effect_report h
  | closeErr => exact effect_closeErr h
  | closeCh => exact effect_closeCh h
  | consume =>
      simp only [Sys.step] at h
      rcases s.ch.recv_cases with ⟨batch, rest, hbuf, hrecv⟩ | ⟨-, -, hrecv⟩ | ⟨-, -, hrecv⟩ <;>
        rw [hrecv] at h
      · exact Option.some.inj h ▸ .consumed hbuf
      · cases h
      · cases h

end Inversion

end Gkit.Batch
