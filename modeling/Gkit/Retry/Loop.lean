import Gkit.Lib.Runs
import Gkit.Retry.Model

/-!
# The retry loop and its specification

`Trace` says once what the loop can do from an attempt on.  The specification is
about the log as a whole.  Its events are what the context, `fn`, the callback and
the backoff did, each in the state that the one before left.  The calls of `fn` are
plain failures up to the one that ends the loop, the callback and the backoff are
called for each failure that is followed by another attempt, and the return value is
given by the exit taken.
-/

namespace Gkit.Retry

open Gkit.Lib

section Logs

variable {α : Type}

/-- The calls of `fn` with what they returned. -/
def calls (log : List (Event α)) : List (α × Option Err) :=
  log.filterMap fun
    | .call result err => some (result, err)
    | _ => none

/-- What the loop saw of the context, at its head and while asleep. -/
def observed (log : List (Event α)) : List (Option Err) :=
  log.filterMap fun
    | .head err | .sleep _ err => some err
    | _ => none

inductive Hook where
  | onRetry (attempt : ℕ) (err : Err)
  | next (attempt : ℕ)

/-- The calls of the callback and of the backoff. -/
def hooks (log : List (Event α)) : List Hook :=
  log.filterMap fun
    | .onRetry attempt err => some (.onRetry attempt err)
    | .next attempt _ => some (.next attempt)
    | _ => none

@[simp] theorem calls_append (l l' : List (Event α)) : calls (l ++ l') = calls l ++ calls l' :=
  List.filterMap_append

@[simp] theorem observed_append (l l' : List (Event α)) :
    observed (l ++ l') = observed l ++ observed l' :=
  List.filterMap_append

@[simp] theorem hooks_append (l l' : List (Event α)) : hooks (l ++ l') = hooks l ++ hooks l' :=
  List.filterMap_append

/-- `fn` is called only right after the context was found alive, and a positive
delay is slept at once; `alive` and `due` are what the event before leaves. -/
def Watchful : Bool → Option ℤ → List (Event α) → Prop
  | _, due, [] => due = none
  | _, due, .head err :: log => due = none ∧ Watchful err.isNone none log
  | alive, due, .call _ _ :: log => alive = true ∧ due = none ∧ Watchful false none log
  | _, due, .onRetry _ _ :: log => due = none ∧ Watchful false none log
  | _, due, .next _ delay :: log =>
      due = none ∧ Watchful false (if 0 < delay then some delay else none) log
  | _, due, .sleep delay _ :: log => due = some delay ∧ Watchful false none log

end Logs

section Traces

variable {σ α : Type} [Inhabited α] (ctx : Context σ) (cfg : Options σ)
  (fn : σ → (α × Option Err) × σ)

/-- How an event comes about: what the function of the environment returns in the
state in which it is called, and the state it leaves. -/
inductive Occurs : σ → Event α → σ → Prop
  | head (s : σ) : Occurs s (.head (ctx.err s)) (ctx.wait s)
  | call {s v err s'} (h : fn s = ((v, err), s')) : Occurs s (.call v err) s'
  | onRetry {f} (h : cfg.onRetry = some f) (attempt : ℕ) (err : Err) (s : σ) :
      Occurs s (.onRetry attempt err) (f attempt err s)
  | next {attempt s d s'} (h : cfg.backoff.next attempt s = (d, s')) :
      Occurs s (.next attempt d) s'
  /-- The timer fires. -/
  | slept {d s s'} (h : ctx.select d s = (false, s')) : Occurs s (.sleep d none) s'
  /-- The context is done first, and its error is read. -/
  | woken {d s s'} (h : ctx.select d s = (true, s')) :
      Occurs s (.sleep d (ctx.err s')) (ctx.wait s')

/-- The events between a failed attempt and the next one. -/
def pauseLog (attempt : ℕ) (err : Err) (delay : ℤ) (sleepErr : Option Err) : List (Event α) :=
  (if cfg.onRetry.isSome then [.onRetry (attempt + 1) err] else []) ++
    .next attempt delay :: if 0 < delay then [.sleep delay sleepErr] else []

/-- The events of a failed attempt that is followed by another one, or would be if
the sleep were not interrupted. -/
def roundLog (attempt : ℕ) (result : α) (err : Err) (delay : ℤ) (sleepErr : Option Err) :
    List (Event α) :=
  [.head none, .call result (some err)] ++ pauseLog cfg attempt err delay sleepErr

/-- What the loop can do from an attempt and a state on. -/
inductive Trace : ℕ → σ → Run σ α → Prop
  | cancelled {attempt e s} (hlt : attempt < cfg.maxAttempts) (hs : ctx.err s = some e) :
      Trace attempt s ⟨default, some e, [.head (some e)], ctx.wait (ctx.wait s)⟩
  | succeeded {attempt v s s'} (hlt : attempt < cfg.maxAttempts)
      (hlog : Chained (Occurs ctx cfg fn) s [.head none, .call v none] s') :
      Trace attempt s ⟨v, none, [.head none, .call v none], s'⟩
  | stopped {attempt v err inner s s'} (hlt : attempt < cfg.maxAttempts)
      (hstop : err.asStop = some inner)
      (hlog : Chained (Occurs ctx cfg fn) s [.head none, .call v (some err)] s') :
      Trace attempt s ⟨default, inner, [.head none, .call v (some err)], s'⟩
  | exhausted {attempt v err s s'} (hlast : attempt + 1 = cfg.maxAttempts) (hplain : err.IsPlain)
      (hlog : Chained (Occurs ctx cfg fn) s [.head none, .call v (some err)] s') :
      Trace attempt s ⟨default, some (.errMaxAttempts cfg.maxAttempts (some err)),
        [.head none, .call v (some err)], s'⟩
  | interrupted {attempt v err d e s s'} (hlt : attempt + 1 < cfg.maxAttempts)
      (hplain : err.IsPlain) (hd : 0 < d) (hs : ctx.err s' = some e)
      (hlog : Chained (Occurs ctx cfg fn) s (roundLog cfg attempt v err d (some e)) s') :
      Trace attempt s ⟨default, some e, roundLog cfg attempt v err d (some e), s'⟩
  | again {attempt v err d s s' run} (hlt : attempt + 1 < cfg.maxAttempts) (hplain : err.IsPlain)
      (hlog : Chained (Occurs ctx cfg fn) s (roundLog cfg attempt v err d none) s')
      (hrun : Trace (attempt + 1) s' run) :
      Trace attempt s (run.after (roundLog cfg attempt v err d none))

variable {ctx cfg fn}

omit [Inhabited α] in
/-- A delay in the log is the backoff's. -/
theorem next_of_chained {attempt : ℕ} {d : ℤ} {log : List (Event α)} {s s' : σ}
    (h : Chained (Occurs ctx cfg fn) s log s') (hmem : .next attempt d ∈ log) :
    ∃ t t', cfg.backoff.next attempt t = (d, t') := by
  obtain ⟨-, -, t, t', -, -, hnext, -⟩ := h.link_of_mem hmem
  cases hnext with
  | next h => exact ⟨t, t', h⟩

omit [Inhabited α] in
theorem next_mem_pauseLog (attempt : ℕ) (err : Err) (d : ℤ) (sleepErr : Option Err) :
    (.next attempt d : Event α) ∈ pauseLog cfg attempt err d sleepErr :=
  List.mem_append_right _ List.mem_cons_self

theorem err_contextSleep {d : ℤ} {s s' : σ} {e : Err}
    (h : contextSleep ctx d s = (some e, s')) : ctx.err s' = some e := by
  unfold contextSleep at h
  split at h
  · obtain ⟨he, rfl⟩ := Prod.mk.inj h
    exact ctx.err_wait he
  · cases h

omit [Inhabited α] in
theorem occurs_contextSleep {d : ℤ} {s s' : σ} {sleepErr : Option Err}
    (h : contextSleep ctx d s = (sleepErr, s')) :
    Occurs ctx cfg fn s (.sleep d sleepErr) s' := by
  unfold contextSleep at h
  split at h
  · next hselect =>
      obtain ⟨rfl, rfl⟩ := Prod.mk.inj h
      exact .woken hselect
  · next hselect =>
      obtain ⟨rfl, rfl⟩ := Prod.mk.inj h
      exact .slept hselect

omit [Inhabited α] in
theorem announce_spec (ctx : Context σ) (cfg : Options σ) (fn : σ → (α × Option Err) × σ)
    (attempt : ℕ) (err : Err) (s : σ) :
    (announce cfg attempt err s).1 =
        (if cfg.onRetry.isSome then [Event.onRetry (α := α) (attempt + 1) err] else []) ∧
      Chained (Occurs ctx cfg fn) s (announce cfg attempt err s).1
        (announce (α := α) cfg attempt err s).2 := by
  unfold announce
  cases hhook : cfg.onRetry with
  | none => exact ⟨rfl, .nil s⟩
  | some f => exact ⟨rfl, .cons (.onRetry hhook (attempt + 1) err s) (.nil _)⟩

omit [Inhabited α] in
theorem pause_spec (fn : σ → (α × Option Err) × σ) {attempt : ℕ} {err : Err} {s s' : σ}
    {events : List (Event α)} {sleepErr : Option Err}
    (h : pause ctx cfg attempt err s = (events, sleepErr, s')) :
    ∃ d, events = pauseLog cfg attempt err d sleepErr ∧
      Chained (Occurs ctx cfg fn) s events s' ∧
      ∀ e, sleepErr = some e → 0 < d ∧ ctx.err s' = some e := by
  obtain ⟨hhook, hcalled⟩ := announce_spec ctx cfg fn attempt err s
  unfold pause at h
  generalize announce cfg attempt err s = announced at h hhook hcalled
  obtain ⟨hook, s₁⟩ := announced
  rcases hnext : cfg.backoff.next attempt s₁ with ⟨d, s₂⟩
  simp only [hnext] at h hhook hcalled
  refine ⟨d, ?_⟩
  split_ifs at h with hd
  · rcases hsleep : contextSleep ctx d s₂ with ⟨err', s₃⟩
    simp only [hsleep, Prod.mk.injEq] at h
    obtain ⟨rfl, rfl, rfl⟩ := h
    refine ⟨by rw [pauseLog, ← hhook, if_pos hd], ?_, ?_⟩
    · exact hcalled.append (.cons (.next hnext) (.cons (occurs_contextSleep hsleep) (.nil _)))
    · rintro e rfl
      exact ⟨hd, err_contextSleep hsleep⟩
  · simp only [Prod.mk.injEq] at h
    obtain ⟨rfl, rfl, rfl⟩ := h
    refine ⟨by rw [pauseLog, ← hhook, if_neg hd], ?_, by simp⟩
    exact hcalled.append (.cons (.next hnext) (.nil _))

/-- From every attempt that is still to be made, the loop does one of the things
`Trace` lists. -/
theorem trace_loop {n attempt : ℕ} (last : Option Err) (s : σ)
    (hn : attempt + n = cfg.maxAttempts) (hlt : attempt < cfg.maxAttempts) :
    Trace ctx cfg fn attempt s (loop ctx cfg fn n attempt last s) := by
  induction n generalizing attempt last s with
  | zero => omega
  | succ n ih =>
      rw [loop]
      cases hcancelled : ctx.err s with
      | some e =>
          have herr := ctx.err_wait hcancelled
          simp only [Context.readErr, hcancelled, herr, Option.isSome_some, if_true]
          exact .cancelled hlt hcancelled
      | none =>
          have hhead : Occurs ctx cfg fn s (.head none) (ctx.wait s) := hcancelled ▸ .head s
          have hcall : ∀ {v err s'}, fn (ctx.wait s) = ((v, err), s') →
              Chained (Occurs ctx cfg fn) s [.head none, .call v err] s' :=
            fun hfn => .cons hhead (.cons (.call hfn) (.nil _))
          rcases hfn : fn (ctx.wait s) with ⟨⟨result, _ | err⟩, s₁⟩
          · simp only [Context.readErr, hcancelled, hfn]
            exact .succeeded hlt (hcall hfn)
          · simp only [Context.readErr, hcancelled, hfn]
            cases hstop : err.asStop with
            | some inner => exact .stopped hlt hstop (hcall hfn)
            | none =>
                have hplain := Err.asStop_eq_none_iff.mp hstop
                by_cases hagain : attempt < cfg.maxAttempts - 1
                · rcases hpause : pause (α := α) ctx cfg attempt err s₁ with
                    ⟨events, sleepErr, s₂⟩
                  obtain ⟨d, rfl, hevents, hsleep⟩ := pause_spec fn hpause
                  have hround : Chained (Occurs ctx cfg fn) s
                      (roundLog cfg attempt result err d sleepErr) s₂ :=
                    (hcall hfn).append hevents
                  simp only [if_pos hagain]
                  cases sleepErr with
                  | some e =>
                      exact .interrupted (by omega) hplain (hsleep e rfl).1 (hsleep e rfl).2 hround
                  | none => exact .again (by omega) hplain hround (ih _ _ (by omega) (by omega))
                · -- the last attempt: nothing is left of the loop
                  obtain rfl : n = 0 := by omega
                  simp only [if_neg hagain]
                  exact .exhausted (by omega) hplain (hcall hfn)

/-! ## The specification -/

/-- The callback of an attempt, counted from zero, and its backoff. -/
def failureHook (cfg : Options σ) (attempt : ℕ) (err : Err) : List Hook :=
  (if cfg.onRetry.isSome then [.onRetry (attempt + 1) err] else []) ++ [.next attempt]

/-- The hooks of the failures from an attempt on. -/
def failureHooks (cfg : Options σ) (attempt : ℕ) (fails : List (α × Err)) : List Hook :=
  (fails.zipIdx attempt).flatMap fun f => failureHook cfg f.2 f.1.2

/-- The calls of `fn` that failed. -/
def failed (fails : List (α × Err)) : List (α × Option Err) :=
  fails.map fun f => (f.1, some f.2)

/-- How a loop with `left` attempts ends after the plain failures `fails`. -/
inductive Exit (ctx : Context σ) (maxAttempts left : ℕ) (fails : List (α × Err)) :
    Run σ α → Prop
  /-- The first success is returned. -/
  | success {v log s} (hlt : fails.length < left) (hcalls : calls log = failed fails ++ [(v, none)])
      (hobserved : ∀ o ∈ observed log, o = none) : Exit ctx maxAttempts left fails ⟨v, none, log, s⟩
  /-- A `StopError` in the chain: what the first one wraps is returned. -/
  | stop {v err inner log s} (hlt : fails.length < left)
      (hcalls : calls log = failed fails ++ [(v, some err)])
      (hinner : err.chain.findSome? Err.stopped = some inner)
      (hobserved : ∀ o ∈ observed log, o = none) :
      Exit ctx maxAttempts left fails ⟨default, inner, log, s⟩
  /-- The loop saw the cancellation last, at its head or during a sleep. -/
  | cancelled {e log event s} (hlt : fails.length < left) (hcalls : calls log = failed fails)
      (herr : ctx.err s = some e)
      (hevent : event = .head (some e) ∨ ∃ d, 0 < d ∧ event = .sleep d (some e))
      (hobserved : ∀ o ∈ observed log, o = none) :
      Exit ctx maxAttempts left fails ⟨default, some e, log ++ [event], s⟩
  /-- All attempts failed. -/
  | exhausted {f log s} (hlength : fails.length = left) (hcalls : calls log = failed fails)
      (hlast : fails.getLast? = some f) (hobserved : ∀ o ∈ observed log, o = none) :
      Exit ctx maxAttempts left fails
        ⟨default, some (.errMaxAttempts maxAttempts (some f.2)), log, s⟩

/-- The log is what the environment did from the state on.  A cancellation found at
the loop head is read once more, for the return value. -/
def Faithful (ctx : Context σ) (cfg : Options σ) (fn : σ → (α × Option Err) × σ) (s : σ)
    (run : Run σ α) : Prop :=
  ∃ t, Chained (Occurs ctx cfg fn) s run.log t ∧
    (run.final = t ∨ ∃ e, .head (some e) ∈ run.log ∧ run.final = ctx.wait t)

/-- What the specification says of a run from an attempt and a state on. -/
def Meets (ctx : Context σ) (cfg : Options σ) (fn : σ → (α × Option Err) × σ) (attempt : ℕ)
    (s : σ) (run : Run σ α) : Prop :=
  Faithful ctx cfg fn s run ∧ Watchful false none run.log ∧
  ∃ fails : List (α × Err), (∀ f ∈ fails, f.2.IsPlain) ∧
    hooks run.log = failureHooks cfg attempt (fails.take (cfg.maxAttempts - attempt - 1)) ∧
    Exit ctx cfg.maxAttempts (cfg.maxAttempts - attempt) fails run

section Rounds

variable (cfg) (attempt : ℕ) (v : α) (err : Err) (d : ℤ) (sleepErr : Option Err)

omit [Inhabited α]

theorem calls_roundLog : calls (roundLog cfg attempt v err d sleepErr) = [(v, some err)] := by
  unfold roundLog pauseLog
  split_ifs <;> rfl

theorem hooks_roundLog :
    hooks (roundLog cfg attempt v err d sleepErr) = failureHook cfg attempt err := by
  unfold roundLog pauseLog failureHook
  split_ifs <;> rfl

theorem observed_roundLog : ∀ o ∈ observed (roundLog cfg attempt v err d none), o = none := by
  unfold roundLog pauseLog
  split_ifs <;> simp [observed]

theorem watchful_roundLog {log : List (Event α)} (h : Watchful false none log) :
    Watchful false none (roundLog cfg attempt v err d sleepErr ++ log) := by
  unfold roundLog pauseLog
  split_ifs with honRetry hd hd <;> simpa [Watchful, hd] using h

theorem roundLog_interrupted (e : Err) (hd : 0 < d) :
    roundLog cfg attempt v err d (some e) =
      ([Event.head none, Event.call v (some err)] ++
        ((if cfg.onRetry.isSome then [Event.onRetry (attempt + 1) err] else []) ++
          [Event.next attempt d])) ++ [Event.sleep d (some e)] := by
  simp [roundLog, pauseLog, if_pos hd]

end Rounds

/-- One more failure in front. -/
theorem Exit.after {left : ℕ} {fails : List (α × Err)} {run : Run σ α}
    (h : Exit ctx cfg.maxAttempts left fails run) (attempt : ℕ) (v : α) (err : Err) (d : ℤ) :
    Exit ctx cfg.maxAttempts (left + 1) ((v, err) :: fails)
      (run.after (roundLog cfg attempt v err d none)) := by
  have hnone : ∀ {l : List (Event α)}, (∀ o ∈ observed l, o = none) →
      ∀ o ∈ observed (roundLog cfg attempt v err d none ++ l), o = none := by
    intro l hl o ho
    rw [observed_append, List.mem_append] at ho
    exact ho.elim (observed_roundLog cfg attempt v err d o) (hl o)
  have hcalls : ∀ {l : List (Event α)} {more}, calls l = more →
      calls (roundLog cfg attempt v err d none ++ l) = (v, some err) :: more := by
    intro l more hl
    rw [calls_append, calls_roundLog, hl]
    rfl
  cases h with
  | success hlt hc ho => exact .success (Nat.succ_lt_succ hlt) (hcalls hc) (hnone ho)
  | stop hlt hc hinner ho => exact .stop (Nat.succ_lt_succ hlt) (hcalls hc) hinner (hnone ho)
  | cancelled hlt hc herr hevent ho =>
      rw [Run.after, ← List.append_assoc]
      exact .cancelled (Nat.succ_lt_succ hlt) (hcalls hc) herr hevent (hnone ho)
  | exhausted hlength hc hlast ho =>
      refine .exhausted (congrArg (· + 1) hlength) (hcalls hc) ?_ (hnone ho)
      rw [List.getLast?_cons, hlast]
      rfl

theorem Trace.faithful {attempt : ℕ} {s : σ} {run : Run σ α}
    (h : Trace ctx cfg fn attempt s run) : Faithful ctx cfg fn s run := by
  induction h with
  | @cancelled attempt e s hlt hs =>
      refine ⟨ctx.wait s, .cons ?_ (.nil _), .inr ⟨e, List.mem_singleton_self _, rfl⟩⟩
      rw [← hs]
      exact .head s
  | succeeded _ hlog => exact ⟨_, hlog, .inl rfl⟩
  | stopped _ _ hlog => exact ⟨_, hlog, .inl rfl⟩
  | exhausted _ _ hlog => exact ⟨_, hlog, .inl rfl⟩
  | interrupted _ _ _ _ hlog => exact ⟨_, hlog, .inl rfl⟩
  | again _ _ hlog _ ih =>
      obtain ⟨t, hrest, hfinal⟩ := ih
      refine ⟨t, hlog.append hrest, hfinal.imp_right ?_⟩
      rintro ⟨e, hmem, hread⟩
      exact ⟨e, List.mem_append_right _ hmem, hread⟩

theorem Trace.meets {attempt : ℕ} {s : σ} {run : Run σ α}
    (h : Trace ctx cfg fn attempt s run) : Meets ctx cfg fn attempt s run := by
  refine ⟨h.faithful, ?_⟩
  induction h with
  | @cancelled attempt e s hlt hs =>
      have hnone : ∀ o ∈ observed ([] : List (Event α)), o = none := by simp [observed]
      refine ⟨by simp [Watchful], [], by simp, ?_, .cancelled (Nat.sub_pos_of_lt hlt) rfl
        (ctx.err_wait (ctx.err_wait hs)) (.inl rfl) hnone⟩
      rw [List.take_nil]
      rfl
  | succeeded hlt =>
      refine ⟨by simp [Watchful], [], by simp, ?_, .success (Nat.sub_pos_of_lt hlt) rfl ?_⟩
      · rw [List.take_nil]
        rfl
      · simp [observed]
  | stopped hlt hstop =>
      refine ⟨by simp [Watchful], [], by simp, ?_,
        .stop (Nat.sub_pos_of_lt hlt) rfl (Err.asStop_eq _ ▸ hstop) ?_⟩
      · rw [List.take_nil]
        rfl
      · simp [observed]
  | @exhausted attempt v err s s' hlast hplain =>
      have hleft : cfg.maxAttempts - attempt = 1 := by omega
      rw [hleft]
      refine ⟨by simp [Watchful], [(v, err)], by simpa using hplain, rfl,
        .exhausted (f := (v, err)) rfl rfl rfl ?_⟩
      simp [observed]
  | @interrupted attempt v err d e s s' hlt hplain hd hs =>
      have hnil : Watchful false none ([] : List (Event α)) := rfl
      have hwatchful := watchful_roundLog cfg attempt v err d (some e) hnil
      rw [List.append_nil] at hwatchful
      refine ⟨hwatchful, [(v, err)], by simpa using hplain, ?_, ?_⟩
      · rw [hooks_roundLog, List.take_of_length_le]
        · simp [failureHooks]
        · change 1 ≤ _
          omega
      · rw [roundLog_interrupted cfg attempt v err d e hd]
        refine .cancelled ?_ ?_ hs (.inr ⟨d, hd, rfl⟩) ?_
        · change 1 < _
          omega
        · split_ifs <;> rfl
        · split_ifs <;> simp [observed]
  | @again attempt v err d s s' run hlt hplain _ _ ih =>
      obtain ⟨hwatchful, fails, hfails, hhooks, hexit⟩ := ih
      have hleft : cfg.maxAttempts - attempt = cfg.maxAttempts - (attempt + 1) + 1 := by omega
      refine ⟨watchful_roundLog cfg attempt v err d none hwatchful, (v, err) :: fails, ?_, ?_,
        hleft ▸ hexit.after attempt v err d⟩
      · simpa using ⟨hplain, fun v err hf => hfails _ hf⟩
      · rw [Run.after, hooks_append, hooks_roundLog, hhooks, hleft]
        obtain ⟨k, hk⟩ := Nat.exists_eq_succ_of_ne_zero (Nat.sub_ne_zero_of_lt hlt)
        rw [hk]
        simp [failureHooks]

/-- In every environment the run of `Do` meets its specification. -/
theorem retry_loop_spec (ctx : Context σ) (fn : σ → (α × Option Err) × σ)
    (opts : List (Options σ → Options σ)) (s : σ) :
    Meets ctx (configure opts) fn 0 s (doRetry ctx fn opts s) :=
  (trace_loop none s (Nat.zero_add _) (configure opts).one_le).meets

end Traces

/-- A function that is busy when it is called first; the state counts its calls. -/
def busyOnce (s : ℕ) : (ℕ × Option Err) × ℕ :=
  if s = 0 then ((0, some (.new "busy")), 1) else ((7, none), s + 1)

/-- Five nanoseconds between attempts, and a callback that does nothing. -/
def patient : List (Options ℕ → Options ℕ) :=
  [withBackoff (ConstantBackoff.backoff ⟨5⟩), withOnRetry fun _ _ s => s]

/-- A failure, a sleep and a success. -/
theorem second_attempt_returned :
    Meets background (configure patient) busyOnce 0 0 ⟨7, none,
      [.head none, .call 0 (some (.new "busy")), .onRetry 1 (.new "busy"), .next 0 5,
        .sleep 5 none, .head none, .call 7 none], 2⟩ :=
  retry_loop_spec background busyOnce patient 0

end Gkit.Retry
