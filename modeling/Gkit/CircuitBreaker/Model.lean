import Gkit.Lib.Durations
import Gkit.Lib.Errors
import Gkit.Lib.Runs

/-!
# Package `circuitbreaker`

The breaker with its four critical sections `allow`, `record`, `State` and
`Reset`, and any number of calls of `Execute` around them.  A call of `Execute`
is an `allow`, then the function for as long as it likes, then a `record`.  The
clock stands still inside a critical section and moves freely between two.

Whether a callback for state changes is set makes no difference to the breaker;
the pairs it would be started with are kept in `emitted`.
-/

namespace Gkit.CircuitBreaker

open Gkit.Lib

inductive State where
  | stateClosed
  | stateOpen
  | stateHalfOpen
  deriving DecidableEq, Repr

structure Options where
  failureThreshold : ℤ
  successThreshold : ℤ
  openTimeout : ℤ
  deriving DecidableEq, Repr

def errOpen : GoError := .new "circuitbreaker: circuit is open"

structure Breaker where
  state : State
  failures : ℤ
  probes : ℤ
  openedAt : ℤ
  opts : Options
  emitted : List (State × State)
  deriving DecidableEq, Repr

namespace Breaker

def transition (b : Breaker) (target : State) : Breaker :=
  if b.state = target then b
  else { b with state := target, emitted := b.emitted ++ [(b.state, target)] }

def maybeTransitionFromOpen (b : Breaker) (now : ℤ) : Breaker :=
  if b.state = .stateOpen ∧ now - b.openedAt ≥ b.opts.openTimeout then b.transition .stateHalfOpen
  else b

def allow (b : Breaker) (now : ℤ) : Breaker × Option GoError :=
  let b := b.maybeTransitionFromOpen now
  match b.state with
  | .stateClosed => (b, none)
  | .stateHalfOpen => (b, none)
  | .stateOpen =>
      let retry := truncateTo millisecond (b.openedAt + b.opts.openTimeout - now)
      (b, some (.wrap (errOpen.error ++ " (will retry after " ++ durationString retry ++ ")")
        errOpen))

def record (b : Breaker) (now : ℤ) (err : Option GoError) : Breaker :=
  match b.state with
  | .stateClosed =>
      match err with
      | some _ =>
          let b := { b with failures := b.failures + 1 }
          if b.failures ≥ b.opts.failureThreshold then
            { b with openedAt := now }.transition .stateOpen
          else b
      | none => { b with failures := 0 }
  | .stateHalfOpen =>
      match err with
      | some _ =>
          { b with failures := 0, probes := 0, openedAt := now }.transition .stateOpen
      | none =>
          let b := { b with probes := b.probes + 1 }
          if b.probes ≥ b.opts.successThreshold then
            { b with failures := 0, probes := 0 }.transition .stateClosed
          else b
  | .stateOpen => b

def getState (b : Breaker) (now : ℤ) : Breaker × State :=
  let b := b.maybeTransitionFromOpen now
  (b, b.state)

def reset (b : Breaker) : Breaker :=
  { b.transition .stateClosed with failures := 0, probes := 0 }

end Breaker

/-! ## Construction -/

def defaultOptions : Options := ⟨5, 1, 60000 * millisecond⟩

def withFailureThreshold (n : ℤ) (o : Options) : Options := { o with failureThreshold := n }

def withSuccessThreshold (n : ℤ) (o : Options) : Options := { o with successThreshold := n }

def withOpenTimeout (d : ℤ) (o : Options) : Options := { o with openTimeout := d }

def configure (opts : List (Options → Options)) : Options :=
  opts.foldl (fun o opt => opt o) defaultOptions

/-- The constructor `New`. -/
def newBreaker (opts : List (Options → Options)) : Breaker :=
  ⟨.stateClosed, 0, 0, 0, configure opts, []⟩

/-! ## Concurrent calls -/

/-- A call of `Execute`.  The periods of the breaker are numbered by the state
changes before them; a call remembers the one that admitted it, and then the one
in which it recorded its result. -/
inductive Call where
  | idle
  | running (admitted : ℕ)
  | returned (admitted recorded : ℕ) (err : Option GoError)
  | rejected (err : GoError)
  deriving DecidableEq

/-- The critical sections, with the call they belong to. -/
inductive Op (ι : Type) where
  | allow (c : ι)
  | record (c : ι) (err : Option GoError)
  | state
  | reset

structure Sys (ι : Type) where
  breaker : Breaker
  clock : ℤ
  calls : ι → Call
  log : List (ℤ × Op ι)

inductive Action (ι : Type) where
  | advance (d : ℕ)
  | op (o : Op ι)

def Breaker.period (b : Breaker) : ℕ := b.emitted.length

variable {ι : Type}

def start (opts : List (Options → Options)) (now : ℤ) : Sys ι :=
  ⟨newBreaker opts, now, fun _ => .idle, []⟩

namespace Sys

variable [DecidableEq ι]

/-- What becomes of a call that `allow` answers, with the breaker it leaves. -/
def answered (b : Breaker) : Option GoError → Call
  | none => .running b.period
  | some err => .rejected err

def perform (b : Breaker) (now : ℤ) : Op ι → Breaker
  | .allow _ => (b.allow now).1
  | .record _ err => b.record now err
  | .state => (b.getState now).1
  | .reset => b.reset

/-- The calls after one critical section of one of them, if it is enabled. -/
def proceed (s : Sys ι) : Op ι → Option (ι → Call)
  | .allow c =>
      match s.calls c with
      | .idle =>
          let (b, err) := s.breaker.allow s.clock
          some (Function.update s.calls c (answered b err))
      | _ => none
  | .record c err =>
      match s.calls c with
      | .running p => some (Function.update s.calls c (.returned p s.breaker.period err))
      | _ => none
  | .state => some s.calls
  | .reset => some s.calls

def step (s : Sys ι) : Action ι → Option (Sys ι)
  | .advance d => some { s with clock := s.clock + d }
  | .op o =>
      (s.proceed o).map fun calls =>
        ⟨perform s.breaker s.clock o, s.clock, calls, s.log ++ [(s.clock, o)]⟩

end Sys

end Gkit.CircuitBreaker
