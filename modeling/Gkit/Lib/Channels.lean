import Mathlib

/-!
# Go channels

A channel holds the values that were sent and not yet received, at most as many
as its capacity.  An operation on it completes, has to wait, or panics.  On a
channel whose buffer is empty a sender and a receiver can also meet, which is
the only way to pass a value through a channel without a buffer.
-/

namespace Gkit.Lib

inductive Attempt (β : Type) where
  | ready (x : β)
  | blocked
  | panics (text : String)
  deriving DecidableEq, Repr

structure Chan (α : Type) where
  buf : List α
  cap : ℕ
  closed : Bool
  deriving DecidableEq, Repr

namespace Chan

variable {α : Type}

def send (ch : Chan α) (x : α) : Attempt (Chan α) :=
  if ch.closed then .panics "send on closed channel"
  else if ch.buf.length < ch.cap then .ready { ch with buf := ch.buf ++ [x] }
  else .blocked

/-- A receive, which yields nothing once a closed channel is drained. -/
def recv (ch : Chan α) : Attempt (Option α × Chan α) :=
  match ch.buf with
  | x :: xs => .ready (some x, { ch with buf := xs })
  | [] => if ch.closed then .ready (none, ch) else .blocked

def close (ch : Chan α) : Attempt (Chan α) :=
  if ch.closed then .panics "close of closed channel" else .ready { ch with closed := true }

/-- A sender and a receiver can meet. -/
def meets (ch : Chan α) : Bool := ch.buf.isEmpty && !ch.closed

theorem send_cases (ch : Chan α) (x : α) :
    (ch.closed = true ∧ ch.send x = .panics "send on closed channel") ∨
      (ch.closed = false ∧ ch.buf.length < ch.cap ∧
        ch.send x = .ready { ch with buf := ch.buf ++ [x] }) ∨
      (ch.closed = false ∧ ch.cap ≤ ch.buf.length ∧ ch.send x = .blocked) := by
  unfold send
  cases hc : ch.closed with
  | true => exact .inl ⟨rfl, if_pos rfl⟩
  | false =>
      by_cases hroom : ch.buf.length < ch.cap
      · exact .inr (.inl ⟨rfl, hroom, by simp [hroom]⟩)
      · exact .inr (.inr ⟨rfl, le_of_not_gt hroom, by simp [hroom]⟩)

theorem recv_cases (ch : Chan α) :
    (∃ x xs, ch.buf = x :: xs ∧ ch.recv = .ready (some x, { ch with buf := xs })) ∨
      (ch.buf = [] ∧ ch.closed = true ∧ ch.recv = .ready (none, ch)) ∨
      (ch.buf = [] ∧ ch.closed = false ∧ ch.recv = .blocked) := by
  unfold recv
  cases hbuf : ch.buf with
  | cons x xs => exact .inl ⟨x, xs, rfl, rfl⟩
  | nil =>
      cases hc : ch.closed with
      | true => exact .inr (.inl ⟨rfl, rfl, by simp⟩)
      | false => exact .inr (.inr ⟨rfl, rfl, by simp⟩)

end Chan

end Gkit.Lib
