import Gkit.Lib.Channels
import Gkit.Lib.Errors
import Gkit.Lib.Runs

/-!
# The barrier of package `async`

Any number of calls of `Wait`, each with a context of its own, and the goroutine
that `NewBarrier` starts.  A step is one operation on a channel.  A `select` with
two ready cases may take either.
-/

namespace Gkit.Barriers

open Gkit.Lib

/-- A call of `Wait`: before its send of a token, in its `select`, or at its end. -/
inductive Call where
  | idle
  | arriving
  | waiting
  | returned (err : Option GoError)
  deriving DecidableEq

/-- The goroutine, with the receives that are left of its loop. -/
inductive Releaser where
  | draining (left : ℕ)
  | closed
  | panicked (text : String)
  deriving DecidableEq

structure Sys (ι : Type) where
  tokens : Chan Unit
  done : Chan Unit
  releaser : Releaser
  calls : ι → Call
  contexts : ι → Option GoError

inductive Action (ι : Type) where
  | begin (i : ι)
  | arrive (i : ι)
  /-- The send of a call meets the receive of the goroutine. -/
  | handOver (i : ι)
  /-- The `select` takes the case of `done`. -/
  | leave (i : ι)
  /-- The `select` takes the case of the context. -/
  | giveUp (i : ι)
  | cancel (i : ι) (err : GoError)
  | drain
  | close
  deriving DecidableEq

variable {ι : Type}

/-- `NewBarrier`; the error is the text it panics with. -/
def newBarrier (n : ℤ) : Except String (Sys ι) :=
  if n < 0 then .error "makechan: size out of range"
  else .ok ⟨⟨[], n.toNat, false⟩, ⟨[], 0, false⟩, .draining n.toNat, fun _ => .idle, fun _ => none⟩

theorem newBarrier_eq_ok {n : ℤ} {s : Sys ι} :
    newBarrier n = .ok s ↔ 0 ≤ n ∧ s = ⟨⟨[], n.toNat, false⟩, ⟨[], 0, false⟩, .draining n.toNat,
      fun _ => .idle, fun _ => none⟩ := by
  unfold newBarrier
  split_ifs with hn
  · exact iff_of_false nofun fun h => absurd hn h.1.not_gt
  · rw [Except.ok.injEq, eq_comm]
    exact (and_iff_right (not_lt.mp hn)).symm

namespace Sys

variable [DecidableEq ι]

def setCall (s : Sys ι) (i : ι) (call : Call) : Sys ι :=
  { s with calls := Function.update s.calls i call }

def beginWait (s : Sys ι) (i : ι) : Option (Sys ι) :=
  match s.calls i with
  | .idle => some (s.setCall i .arriving)
  | _ => none

/-- A token is never sent on a closed channel, as nothing closes it. -/
def arrive (s : Sys ι) (i : ι) : Option (Sys ι) :=
  match s.calls i, s.tokens.send () with
  | .arriving, .ready ch => some ({ s with tokens := ch }.setCall i .waiting)
  | _, _ => none

def handOver (s : Sys ι) (i : ι) : Option (Sys ι) :=
  match s.calls i, s.releaser with
  | .arriving, .draining (left + 1) =>
      if s.tokens.meets then some ({ s with releaser := .draining left }.setCall i .waiting)
      else none
  | _, _ => none

def leave (s : Sys ι) (i : ι) : Option (Sys ι) :=
  match s.calls i, s.done.recv with
  | .waiting, .ready _ => some (s.setCall i (.returned none))
  | _, _ => none

def giveUp (s : Sys ι) (i : ι) : Option (Sys ι) :=
  match s.calls i, s.contexts i with
  | .waiting, some err => some (s.setCall i (.returned (some err)))
  | _, _ => none

def cancel (s : Sys ι) (i : ι) (err : GoError) : Option (Sys ι) :=
  match s.contexts i with
  | none => some { s with contexts := Function.update s.contexts i (some err) }
  | some _ => none

def drain (s : Sys ι) : Option (Sys ι) :=
  match s.releaser, s.tokens.recv with
  | .draining (left + 1), .ready (_, ch) =>
      some { s with tokens := ch, releaser := .draining left }
  | _, _ => none

def close (s : Sys ι) : Option (Sys ι) :=
  match s.releaser with
  | .draining 0 =>
      match s.done.close with
      | .ready ch => some { s with done := ch, releaser := .closed }
      | .blocked => none
      | .panics text => some { s with releaser := .panicked text }
  | _ => none

def step (s : Sys ι) : Action ι → Option (Sys ι)
  | .begin i => s.beginWait i
  | .arrive i => s.arrive i
  | .handOver i => s.handOver i
  | .leave i => s.leave i
  | .giveUp i => s.giveUp i
  | .cancel i err => s.cancel i err
  | .drain => s.drain
  | .close => s.close

end Sys

/-! ## What a step can do -/

variable [DecidableEq ι] {s s' : Sys ι} {x : Action ι}

inductive Effect (s : Sys ι) : Action ι → Sys ι → Prop where
  | began {i : ι} (hi : s.calls i = .idle) : Effect s (.begin i) (s.setCall i .arriving)
  | arrived {i : ι} (hi : s.calls i = .arriving) (hroom : s.tokens.buf.length < s.tokens.cap) :
      Effect s (.arrive i)
        ({ s with tokens := { s.tokens with buf := s.tokens.buf ++ [()] } }.setCall i .waiting)
  | handed {i : ι} {left : ℕ} (hi : s.calls i = .arriving)
      (hr : s.releaser = .draining (left + 1)) (hmeets : s.tokens.meets = true) :
      Effect s (.handOver i) ({ s with releaser := .draining left }.setCall i .waiting)
  | left {i : ι} (hi : s.calls i = .waiting) (hdone : s.done.buf ≠ [] ∨ s.done.closed = true) :
      Effect s (.leave i) (s.setCall i (.returned none))
  | gaveUp {i : ι} {err : GoError} (hi : s.calls i = .waiting) (herr : s.contexts i = some err) :
      Effect s (.giveUp i) (s.setCall i (.returned (some err)))
  | cancelled {i : ι} {err : GoError} (hi : s.contexts i = none) :
      Effect s (.cancel i err) { s with contexts := Function.update s.contexts i (some err) }
  | drained {left : ℕ} {buf : List Unit} (hr : s.releaser = .draining (left + 1))
      (hbuf : s.tokens.buf = () :: buf) :
      Effect s .drain { s with tokens := { s.tokens with buf := buf }, releaser := .draining left }
  | drainedClosed {left : ℕ} (hr : s.releaser = .draining (left + 1)) (hbuf : s.tokens.buf = [])
      (hclosed : s.tokens.closed = true) : Effect s .drain { s with releaser := .draining left }
  | closes (hr : s.releaser = .draining 0) (hopen : s.done.closed = false) :
      Effect s .close { s with done := { s.done with closed := true }, releaser := .closed }
  | closePanics (hr : s.releaser = .draining 0) (hclosed : s.done.closed = true) :
      Effect s .close { s with releaser := .panicked "close of closed channel" }

theorem effect_of_step (h : s.step x = some s') : Effect s x s' := by
  cases x with
  | begin i =>
      simp only [Sys.step, Sys.beginWait] at h
      split at h
      next hi => exact Option.some.inj h ▸ .began hi
      · nomatch h
  | arrive i =>
      simp only [Sys.step, Sys.arrive] at h
      split at h
      next ch hi hsend =>
        rcases s.tokens.send_cases () with ⟨-, hs⟩ | ⟨-, hroom, hs⟩ | ⟨-, -, hs⟩
        · nomatch hs.symm.trans hsend
        · obtain rfl := Attempt.ready.inj (hs.symm.trans hsend)
          exact Option.some.inj h ▸ .arrived hi hroom
        · nomatch hs.symm.trans hsend
      · nomatch h
  | handOver i =>
      simp only [Sys.step, Sys.handOver] at h
      split at h
      next left hi hr =>
        split_ifs at h with hmeets
        exact Option.some.inj h ▸ .handed hi hr hmeets
      · nomatch h
  | leave i =>
      simp only [Sys.step, Sys.leave] at h
      split at h
      next r hi hrecv =>
        refine Option.some.inj h ▸ .left hi ?_
        rcases s.done.recv_cases with ⟨x, xs, hbuf, -⟩ | ⟨-, hclosed, -⟩ | ⟨-, -, hs⟩
        · exact .inl (by simp [hbuf])
        · exact .inr hclosed
        · nomatch hs.symm.trans hrecv
      · nomatch h
  | giveUp i =>
      simp only [Sys.step, Sys.giveUp] at h
      split at h
      next err hi herr => exact Option.some.inj h ▸ .gaveUp hi herr
      · nomatch h
  | cancel i err =>
      simp only [Sys.step, Sys.cancel] at h
      split at h
      next hi => exact Option.some.inj h ▸ .cancelled hi
      · nomatch h
  | drain =>
      simp only [Sys.step, Sys.drain] at h
      split at h
      next left r ch hr hrecv =>
        rcases s.tokens.recv_cases with ⟨x, xs, hbuf, hs⟩ | ⟨hbuf, hclosed, hs⟩ | ⟨-, -, hs⟩
        · obtain ⟨-, rfl⟩ := Prod.mk.inj (Attempt.ready.inj (hs.symm.trans hrecv))
          exact Option.some.inj h ▸ .drained hr hbuf
        · obtain ⟨-, rfl⟩ := Prod.mk.inj (Attempt.ready.inj (hs.symm.trans hrecv))
          exact Option.some.inj h ▸ .drainedClosed hr hbuf hclosed
        · nomatch hs.symm.trans hrecv
      · nomatch h
  | close =>
      simp only [Sys.step, Sys.close] at h
      split at h
      next hr =>
        cases hclosed : s.done.closed with
        | true =>
            simp only [Chan.close, hclosed, if_true] at h
            exact Option.some.inj h ▸ .closePanics hr hclosed
        | false =>
            simp only [Chan.close, hclosed, Bool.false_eq_true, if_false] at h
            exact Option.some.inj h ▸ .closes hr hclosed
      · nomatch h

end Gkit.Barriers
