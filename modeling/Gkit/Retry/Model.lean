import Mathlib

/-!
# Retrying

`Do` runs in one goroutine.  What it meets outside (the context, `fn`, the
callback, the backoff and the select of the sleep) acts on a state `σ` that
belongs to the rest of the program, so that a cancellation may come at any moment
and every answer may depend on all that happened before.

A run comes with its log: what was read from the context, what `fn` returned,
what the callback and the backoff were called with, and how each sleep ended.
-/

namespace Gkit.Retry

/-- An error without a cause, with one, with several (`Unwrap() []error`), and the
two of this package, which wrap an error that may be nil. -/
inductive Err where
  | new (text : String)
  | wrap (text : String) (cause : Err)
  | join (text : String) (causes : List Err)
  | stopError (err : Option Err)
  | errMaxAttempts (attempts : ℕ) (last : Option Err)

namespace Err

mutual

/-- `errors.As(err, &stop)`, with the `Err` field of the `StopError` it finds. -/
def asStop : Err → Option (Option Err)
  | new _ => none
  | wrap _ cause => cause.asStop
  | join _ causes => asStopAny causes
  | stopError err => some err
  | errMaxAttempts _ none => none
  | errMaxAttempts _ (some last) => last.asStop

def asStopAny : List Err → Option (Option Err)
  | [] => none
  | cause :: causes =>
      match cause.asStop with
      | some err => some err
      | none => asStopAny causes

end

mutual

/-- The error and all it wraps, in the order in which they are visited. -/
def chain : Err → List Err
  | new text => [new text]
  | wrap text cause => wrap text cause :: cause.chain
  | join text causes => join text causes :: chains causes
  | stopError none => [stopError none]
  | stopError (some err) => stopError (some err) :: err.chain
  | errMaxAttempts attempts none => [errMaxAttempts attempts none]
  | errMaxAttempts attempts (some last) => errMaxAttempts attempts (some last) :: last.chain

def chains : List Err → List Err
  | [] => []
  | cause :: causes => cause.chain ++ chains causes

end

/-- What a `StopError` wraps. -/
def stopped : Err → Option (Option Err)
  | stopError err => some err
  | _ => none

mutual

theorem asStop_eq (err : Err) : err.asStop = err.chain.findSome? stopped := by
  match err with
  | new _ => rfl
  | wrap _ cause =>
      rw [asStop, asStop_eq cause]
      rfl
  | join _ causes =>
      rw [asStop, asStopAny_eq causes]
      rfl
  | stopError none => rfl
  | stopError (some _) => rfl
  | errMaxAttempts _ none => rfl
  | errMaxAttempts _ (some last) =>
      rw [asStop, asStop_eq last]
      rfl

theorem asStopAny_eq (causes : List Err) :
    asStopAny causes = (chains causes).findSome? stopped := by
  match causes with
  | [] => rfl
  | cause :: causes =>
      rw [asStopAny, asStop_eq cause, asStopAny_eq causes, chains, List.findSome?_append]
      cases cause.chain.findSome? stopped <;> rfl

end

/-- No `StopError` in the chain. -/
def IsPlain (err : Err) : Prop := ∀ e ∈ err.chain, e.stopped = none

theorem asStop_eq_none_iff {err : Err} : err.asStop = none ↔ err.IsPlain := by
  rw [asStop_eq, List.findSome?_eq_none_iff]
  rfl

end Err

/-- `Stop`. -/
def stop (err : Option Err) : Err := .stopError err

section Environment

variable {σ : Type}

/-- A context, together with what the rest of the program may do meanwhile: `wait`
between two readings of `Err`, and `select` while the goroutine sleeps, which
tells whether `Done` was chosen over the timer. -/
structure Context (σ : Type) where
  err : σ → Option Err
  wait : σ → σ
  select : ℤ → σ → Bool × σ
  /-- A cancelled context stays cancelled. -/
  err_wait : ∀ {s e}, err s = some e → err (wait s) = some e
  /-- `Done` is closed by a cancellation only. -/
  err_select : ∀ {d s s'}, select d s = (true, s') → (err s').isSome = true

/-- A context that nobody cancels. -/
def background : Context σ := ⟨fun _ => none, id, fun _ s => (false, s), nofun, nofun⟩

def Context.readErr (ctx : Context σ) (s : σ) : Option Err × σ := (ctx.err s, ctx.wait s)

def contextSleep (ctx : Context σ) (d : ℤ) (s : σ) : Option Err × σ :=
  match ctx.select d s with
  | (true, s) => ctx.readErr s
  | (false, s) => (none, s)

/-- The interface `Backoff`; a delay is a number of nanoseconds. -/
structure Backoff (σ : Type) where
  next : ℕ → σ → ℤ × σ

structure ConstantBackoff where
  delay : ℤ

def ConstantBackoff.backoff (b : ConstantBackoff) : Backoff σ := ⟨fun _ s => (b.delay, s)⟩

/-- `rand.N`, which draws below its argument. -/
structure Source (σ : Type) where
  draw : ℤ → σ → ℤ × σ
  draw_nonneg : ∀ n s, 0 < n → 0 ≤ (draw n s).1
  draw_lt : ∀ n s, 0 < n → (draw n s).1 < n

/-- `WithJitter`. -/
def withJitter (rand : Source σ) (base : Backoff σ) : Backoff σ where
  next attempt s :=
    let (delay, s) := base.next attempt s
    if delay ≤ 0 then (0, s) else rand.draw delay s

/-- Full jitter stays below the delay it replaces, and sleeps only if that does. -/
theorem withJitter_range (rand : Source σ) (base : Backoff σ) (attempt : ℕ) (s : σ) :
    0 ≤ ((withJitter rand base).next attempt s).1 ∧
      (0 < ((withJitter rand base).next attempt s).1 →
        ((withJitter rand base).next attempt s).1 < (base.next attempt s).1) := by
  simp only [withJitter]
  split_ifs with h
  · exact ⟨le_rfl, fun hpos => absurd hpos (lt_irrefl _)⟩
  · exact ⟨rand.draw_nonneg _ _ (not_le.mp h), fun _ => rand.draw_lt _ _ (not_le.mp h)⟩

structure Options (σ : Type) where
  maxAttempts : ℕ
  backoff : Backoff σ
  onRetry : Option (ℕ → Err → σ → σ)
  one_le : 1 ≤ maxAttempts

def defaultOptions : Options σ := ⟨3, ConstantBackoff.backoff ⟨0⟩, none, by decide⟩

/-- `none` where the source panics. -/
def withMaxAttempts (n : ℤ) : Option (Options σ → Options σ) :=
  if h : n < 1 then none
  else some fun o => { o with maxAttempts := n.toNat, one_le := by omega }

def withBackoff (b : Backoff σ) (o : Options σ) : Options σ := { o with backoff := b }

def withOnRetry (fn : ℕ → Err → σ → σ) (o : Options σ) : Options σ := { o with onRetry := some fn }

def configure (opts : List (Options σ → Options σ)) : Options σ :=
  opts.foldl (fun cfg o => o cfg) defaultOptions

end Environment

inductive Event (α : Type) where
  /-- `ctx.Err()` at the loop head. -/
  | head (err : Option Err)
  | call (result : α) (err : Option Err)
  | onRetry (attempt : ℕ) (err : Err)
  | next (attempt : ℕ) (delay : ℤ)
  | sleep (delay : ℤ) (err : Option Err)

/-- What `Do` returns, with the log and the state it leaves. -/
structure Run (σ α : Type) where
  result : α
  err : Option Err
  log : List (Event α)
  final : σ

def Run.after {σ α : Type} (run : Run σ α) (log : List (Event α)) : Run σ α :=
  { run with log := log ++ run.log }

section Do

variable {σ α : Type} [Inhabited α] (ctx : Context σ) (cfg : Options σ)

/-- The callback of a failed attempt, if there is one. -/
def announce (attempt : ℕ) (err : Err) (s : σ) : List (Event α) × σ :=
  match cfg.onRetry with
  | none => ([], s)
  | some fn => ([.onRetry (attempt + 1) err], fn (attempt + 1) err s)

/-- What is done between a failed attempt and the next one; the error is that of
an interrupted sleep. -/
def pause (attempt : ℕ) (err : Err) (s : σ) : List (Event α) × Option Err × σ :=
  let (hook, s) := announce cfg attempt err s
  let (delay, s) := cfg.backoff.next attempt s
  if 0 < delay then
    let (sleepErr, s) := contextSleep ctx delay s
    (hook ++ [.next attempt delay, .sleep delay sleepErr], sleepErr, s)
  else (hook ++ [.next attempt delay], none, s)

/-- The loop of `Do`, with the number of iterations left. -/
def loop (fn : σ → (α × Option Err) × σ) : ℕ → ℕ → Option Err → σ → Run σ α
  | 0, _, last, s => ⟨default, some (.errMaxAttempts cfg.maxAttempts last), [], s⟩
  | n + 1, attempt, _, s =>
      let (cancelled, s) := ctx.readErr s
      if cancelled.isSome then
        let (err, s) := ctx.readErr s
        ⟨default, err, [.head cancelled], s⟩
      else
        let ((result, err), s) := fn s
        match err with
        | none => ⟨result, none, [.head none, .call result none], s⟩
        | some err =>
            match err.asStop with
            | some inner => ⟨default, inner, [.head none, .call result (some err)], s⟩
            | none =>
                -- the attempt failed, and `last` is its error from here on
                if attempt < cfg.maxAttempts - 1 then
                  let (events, sleepErr, s) := pause ctx cfg attempt err s
                  match sleepErr with
                  | some e =>
                      ⟨default, some e, [.head none, .call result (some err)] ++ events, s⟩
                  | none =>
                      (loop fn n (attempt + 1) (some err) s).after
                        ([.head none, .call result (some err)] ++ events)
                else
                  (loop fn n (attempt + 1) (some err) s).after
                    [.head none, .call result (some err)]

/-- `Do`. -/
def doRetry (fn : σ → (α × Option Err) × σ) (opts : List (Options σ → Options σ)) (s : σ) :
    Run σ α :=
  loop ctx (configure opts) fn (configure opts).maxAttempts 0 none s

def doVoid (fn : σ → Option Err × σ) (opts : List (Options σ → Options σ)) (s : σ) :
    Option Err × σ :=
  let run := doRetry ctx (fun s => (((), (fn s).1), (fn s).2)) opts s
  (run.err, run.final)

end Do

end Gkit.Retry
