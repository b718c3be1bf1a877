import Gkit.CircuitBreaker.Model

/-!
# The breaker and its history

A history says what the breaker has to remember of the sections performed on
it, without counters: the results recorded since it became closed, the time at
which it opened, or the calls whose successes it has counted as half open.
The counters of the breaker agree with it in every run, although some of them
survive a transition.
-/

namespace Gkit.CircuitBreaker

open Gkit.Lib

variable {ι : Type}

inductive History (ι : Type) where
  /-- The results recorded since then; `true` is a failure. -/
  | closed (results : List Bool)
  | opened (since : ℤ)
  | halfOpen (successes : List ι)

namespace History

def state : History ι → State
  | closed _ => .stateClosed
  | opened _ => .stateOpen
  | halfOpen _ => .stateHalfOpen

def poll (o : Options) (now : ℤ) : History ι → History ι
  | opened since => if since + o.openTimeout ≤ now then halfOpen [] else opened since
  | h => h

def next (o : Options) (h : History ι) : ℤ × Op ι → History ι
  | (now, .allow _) => h.poll o now
  | (now, .state) => h.poll o now
  | (_, .reset) => closed []
  | (now, .record c err) =>
      match h, err with
      | closed rs, err =>
          if List.replicate o.failureThreshold.toNat true <:+ rs ++ [err.isSome] then opened now
          else closed (rs ++ [err.isSome])
      | opened since, _ => opened since
      | halfOpen _, some _ => opened now
      | halfOpen cs, none =>
          if (cs.length + 1 : ℤ) = o.successThreshold then closed [] else halfOpen (cs ++ [c])

def after (o : Options) (log : List (ℤ × Op ι)) : History ι := log.foldl (next o) (closed [])

@[simp] theorem after_concat (o : Options) (log : List (ℤ × Op ι)) (x : ℤ × Op ι) :
    after o (log ++ [x]) = (after o log).next o x := by
  simp [after]

end History

/-- The pair that a move between two states emits. -/
def changed (s t : State) : List (State × State) := if s = t then [] else [(s, t)]

@[simp] theorem changed_self (s : State) : changed s s = [] := if_pos rfl

/-- The pairs emitted on the way. -/
def History.changes (o : Options) : History ι → List (ℤ × Op ι) → List (State × State)
  | _, [] => []
  | h, x :: xs => changed h.state (h.next o x).state ++ (h.next o x).changes o xs

theorem History.changes_concat (o : Options) (h : History ι) (xs : List (ℤ × Op ι))
    (x : ℤ × Op ι) : h.changes o (xs ++ [x]) =
      h.changes o xs ++ changed (xs.foldl (next o) h).state
        ((xs.foldl (next o) h).next o x).state := by
  induction xs generalizing h with
  | nil => simp [changes]
  | cons y ys ih => simp [changes, ih]

def Joins (s : State) (x : State × State) (t : State) : Prop := x = (s, t)

theorem History.changes_chained (o : Options) (h : History ι) (xs : List (ℤ × Op ι)) :
    Chained Joins h.state (h.changes o xs) (xs.foldl (next o) h).state := by
  induction xs generalizing h with
  | nil => exact .nil _
  | cons x xs ih =>
      simp only [changes, changed, List.foldl_cons]
      by_cases hx : h.state = (h.next o x).state
      · rw [if_pos hx, hx]
        exact ih _
      · rw [if_neg hx]
        exact .cons rfl (ih _)

/-! ## Failures in a row -/

def streak (rs : List Bool) : ℕ := (rs.reverse.takeWhile id).length

@[simp] theorem streak_concat_true (rs : List Bool) : streak (rs ++ [true]) = streak rs + 1 := by
  simp [streak]

@[simp] theorem streak_concat_false (rs : List Bool) : streak (rs ++ [false]) = 0 := by
  simp [streak]

theorem replicate_suffix_iff (n : ℕ) (rs : List Bool) :
    List.replicate n true <:+ rs ↔ n ≤ streak rs := by
  induction rs using List.reverseRecOn generalizing n with
  | nil => simp [streak, List.replicate_eq_nil_iff]
  | append_singleton rs r ih =>
      cases n with
      | zero => simp
      | succ n =>
          rw [List.replicate_succ', List.suffix_concat_iff]
          cases r with
          | false => simp
          | true => simp [ih]

/-! ## Single sections -/

namespace Breaker

@[simp] theorem transition_state (b : Breaker) (t : State) : (b.transition t).state = t := by
  unfold transition
  split_ifs with h
  · exact h
  · rfl

@[simp] theorem transition_emitted (b : Breaker) (t : State) :
    (b.transition t).emitted = b.emitted ++ changed b.state t := by
  unfold transition changed
  split_ifs <;> simp

@[simp] theorem transition_failures (b : Breaker) (t : State) :
    (b.transition t).failures = b.failures := by
  unfold transition
  split_ifs <;> rfl

@[simp] theorem transition_probes (b : Breaker) (t : State) :
    (b.transition t).probes = b.probes := by
  unfold transition
  split_ifs <;> rfl

@[simp] theorem transition_openedAt (b : Breaker) (t : State) :
    (b.transition t).openedAt = b.openedAt := by
  unfold transition
  split_ifs <;> rfl

@[simp] theorem transition_opts (b : Breaker) (t : State) : (b.transition t).opts = b.opts := by
  unfold transition
  split_ifs <;> rfl

@[simp] theorem allow_fst (b : Breaker) (now : ℤ) :
    (b.allow now).1 = b.maybeTransitionFromOpen now := by
  unfold allow
  cases h : (b.maybeTransitionFromOpen now).state <;> simp [h]

theorem allow_eq_none_iff (b : Breaker) (now : ℤ) :
    (b.allow now).2 = none ↔ (b.maybeTransitionFromOpen now).state ≠ .stateOpen := by
  unfold allow
  cases h : (b.maybeTransitionFromOpen now).state <;> simp [h]

theorem allow_is_errOpen {b : Breaker} {now : ℤ} {err : GoError}
    (h : (b.allow now).2 = some err) : err.is errOpen = true := by
  unfold allow at h
  cases hs : (b.maybeTransitionFromOpen now).state with
  | stateOpen =>
      simp only [hs, Option.some.injEq] at h
      rw [← h]
      exact GoError.wrap_is _ (GoError.is_self errOpen)
  | stateClosed => simp [hs] at h
  | stateHalfOpen => simp [hs] at h

end Breaker

/-! ## Agreement -/

/-- The fields of the breaker that matter in its state are what the history says. -/
def Agrees (b : Breaker) : History ι → Prop
  | .closed rs => b.state = .stateClosed ∧ b.failures = streak rs ∧
      b.failures < b.opts.failureThreshold ∧ b.probes = 0
  | .opened since => b.state = .stateOpen ∧ b.openedAt = since ∧ b.probes = 0
  | .halfOpen cs => b.state = .stateHalfOpen ∧ b.probes = cs.length ∧
      b.probes < b.opts.successThreshold

theorem Agrees.state_eq {b : Breaker} {h : History ι} (hb : Agrees b h) : b.state = h.state := by
  cases h <;> exact hb.1

structure Options.Positive (o : Options) : Prop where
  failure : 1 ≤ o.failureThreshold
  success : 1 ≤ o.successThreshold

theorem Agrees.poll {b : Breaker} {h : History ι} (ho : b.opts.Positive) (hb : Agrees b h)
    (now : ℤ) : Agrees (b.maybeTransitionFromOpen now) (h.poll b.opts now) := by
  unfold Breaker.maybeTransitionFromOpen
  cases h with
  | closed rs =>
      rw [if_neg (by simp [hb.1])]
      exact hb
  | halfOpen cs =>
      rw [if_neg (by simp [hb.1])]
      exact hb
  | opened since =>
      obtain ⟨hstate, hsince, hprobes⟩ := hb
      have hiff : b.state = .stateOpen ∧ now - b.openedAt ≥ b.opts.openTimeout ↔
          since + b.opts.openTimeout ≤ now := by
        simp only [hstate, hsince, true_and]
        omega
      simp only [hiff, History.poll]
      split_ifs
      · have := ho.success
        refine ⟨by simp, by simp [hprobes], ?_⟩
        simp only [Breaker.transition_probes, Breaker.transition_opts]
        omega
      · exact ⟨hstate, hsince, hprobes⟩

theorem Agrees.reset {b : Breaker} (ho : b.opts.Positive) :
    Agrees b.reset (.closed [] : History ι) := by
  have := ho.failure
  refine ⟨by simp [Breaker.reset], by simp [Breaker.reset, streak], ?_, rfl⟩
  simp only [Breaker.reset, Breaker.transition_opts]
  omega

theorem Agrees.record_closed {b : Breaker} {rs : List Bool} (ho : b.opts.Positive)
    (hb : Agrees b (.closed rs : History ι)) (now : ℤ) (c : ι) (err : Option GoError) :
    Agrees (b.record now err) ((History.closed rs).next b.opts (now, .record c err)) := by
  obtain ⟨hstate, hfail, hlt, hprobes⟩ := hb
  have hF := ho.failure
  cases err with
  | none =>
      have hno : ¬ List.replicate b.opts.failureThreshold.toNat true <:+ rs ++ [false] := by
        rw [replicate_suffix_iff, streak_concat_false]
        omega
      simp only [Breaker.record, hstate, History.next, Option.isSome_none, if_neg hno]
      refine ⟨rfl, by simp, ?_, hprobes⟩
      simp only
      omega
  | some e =>
      have hiff : b.failures + 1 ≥ b.opts.failureThreshold ↔
          List.replicate b.opts.failureThreshold.toNat true <:+ rs ++ [true] := by
        rw [replicate_suffix_iff, streak_concat_true]
        omega
      simp only [Breaker.record, hstate, History.next, Option.isSome_some, hiff]
      split_ifs with htrip
      · exact ⟨by simp, by simp, by simp [hprobes]⟩
      · refine ⟨rfl, by simp [hfail], ?_, hprobes⟩
        rw [← hiff] at htrip
        exact lt_of_not_ge htrip

theorem Agrees.record_halfOpen {b : Breaker} {cs : List ι} (ho : b.opts.Positive)
    (hb : Agrees b (.halfOpen cs)) (now : ℤ) (c : ι) (err : Option GoError) :
    Agrees (b.record now err) ((History.halfOpen cs).next b.opts (now, .record c err)) := by
  obtain ⟨hstate, hprobes, hlt⟩ := hb
  cases err with
  | some e =>
      simp only [Breaker.record, hstate, History.next]
      exact ⟨by simp, by simp, by simp⟩
  | none =>
      have hiff : b.probes + 1 ≥ b.opts.successThreshold ↔
          (cs.length + 1 : ℤ) = b.opts.successThreshold := by
        omega
      simp only [Breaker.record, hstate, History.next, hiff]
      split_ifs with hclose
      · have := ho.failure
        refine ⟨by simp, by simp [streak], ?_, by simp⟩
        simp only [Breaker.transition_failures, Breaker.transition_opts]
        omega
      · refine ⟨rfl, by simp [hprobes], ?_⟩
        rw [← hiff] at hclose
        exact lt_of_not_ge hclose

theorem Agrees.perform {b : Breaker} {h : History ι} (ho : b.opts.Positive) (hb : Agrees b h)
    (now : ℤ) (o : Op ι) : Agrees (Sys.perform b now o) (h.next b.opts (now, o)) := by
  cases o with
  | allow c =>
      simp only [Sys.perform, Breaker.allow_fst]
      exact hb.poll ho now
  | state => exact hb.poll ho now
  | reset => exact Agrees.reset ho
  | record c err =>
      cases h with
      | closed rs => exact hb.record_closed ho now c err
      | halfOpen cs => exact hb.record_halfOpen ho now c err
      | opened since =>
          simp only [Sys.perform, Breaker.record, hb.1, History.next]
          exact hb

theorem Breaker.record_frame (b : Breaker) (now : ℤ) (err : Option GoError) :
    (b.record now err).opts = b.opts ∧
      (b.record now err).emitted = b.emitted ++ changed b.state (b.record now err).state := by
  unfold record
  cases hs : b.state with
  | stateOpen => simp [hs]
  | stateClosed =>
      cases err with
      | none => simp
      | some e =>
          dsimp only
          split_ifs <;> simp
  | stateHalfOpen =>
      cases err with
      | some e => simp
      | none =>
          dsimp only
          split_ifs <;> simp

theorem Breaker.maybeTransitionFromOpen_frame (b : Breaker) (now : ℤ) :
    (b.maybeTransitionFromOpen now).opts = b.opts ∧
      (b.maybeTransitionFromOpen now).emitted =
        b.emitted ++ changed b.state (b.maybeTransitionFromOpen now).state := by
  unfold maybeTransitionFromOpen
  split_ifs <;> simp

/-- A section leaves the options alone and emits the change of state it makes. -/
theorem perform_frame (b : Breaker) (now : ℤ) (o : Op ι) :
    (Sys.perform b now o).opts = b.opts ∧
      (Sys.perform b now o).emitted =
        b.emitted ++ changed b.state (Sys.perform b now o).state := by
  cases o with
  | allow c =>
      simp only [Sys.perform, Breaker.allow_fst]
      exact b.maybeTransitionFromOpen_frame now
  | state => exact b.maybeTransitionFromOpen_frame now
  | reset => simp [Sys.perform, Breaker.reset]
  | record c err => exact b.record_frame now err

/-! ## Whole runs -/

structure Refines (o : Options) (s : Sys ι) : Prop where
  opts : s.breaker.opts = o
  agrees : Agrees s.breaker (History.after o s.log)
  emitted : s.breaker.emitted = (History.closed []).changes o s.log

variable [DecidableEq ι]

/-- What a step can be. -/
theorem step_cases {s s' : Sys ι} {x : Action ι} (h : s.step x = some s') :
    (∃ d : ℕ, x = .advance d ∧ s' = { s with clock := s.clock + d }) ∨
      ∃ o calls, x = .op o ∧ s.proceed o = some calls ∧
        s' = ⟨Sys.perform s.breaker s.clock o, s.clock, calls, s.log ++ [(s.clock, o)]⟩ := by
  cases x with
  | advance d => exact .inl ⟨d, rfl, (Option.some.inj h).symm⟩
  | op o =>
      obtain ⟨calls, hcalls, rfl⟩ := Option.map_eq_some_iff.mp h
      exact .inr ⟨o, calls, rfl, hcalls, rfl⟩

theorem Refines.step {o : Options} (ho : o.Positive) {s s' : Sys ι} {x : Action ι}
    (hs : Refines o s) (h : s.step x = some s') : Refines o s' := by
  rcases step_cases h with ⟨d, -, rfl⟩ | ⟨p, calls, -, -, rfl⟩
  · exact ⟨hs.opts, hs.agrees, hs.emitted⟩
  · obtain ⟨hopts, hemitted⟩ := perform_frame s.breaker s.clock p
    have hagrees : Agrees (Sys.perform s.breaker s.clock p)
        ((History.after o s.log).next o (s.clock, p)) := by
      have := hs.agrees.perform (hs.opts ▸ ho) s.clock p
      rwa [hs.opts] at this
    refine ⟨hopts.trans hs.opts, ?_, ?_⟩
    · rw [History.after_concat]
      exact hagrees
    · rw [hemitted, hs.emitted, History.changes_concat, hs.agrees.state_eq, hagrees.state_eq]
      rfl

theorem refines_of_run {opts : List (Options → Options)} (ho : (configure opts).Positive)
    {now : ℤ} {xs : List (Action ι)} {s : Sys ι}
    (h : run Sys.step (start opts now) xs = some s) : Refines (configure opts) s := by
  have hstart : Refines (configure opts) (start opts now : Sys ι) :=
    ⟨rfl, ⟨rfl, rfl, ho.failure, rfl⟩, rfl⟩
  exact run_forall (fun _ _ _ hs => hs.step ho) hstart h

/-- In every run the breaker is in the state its history has, it rejects a call
exactly while that history says so, and what it has emitted is a path. -/
theorem breaker_refines_history {opts : List (Options → Options)} {now : ℤ}
    (ho : (configure opts).Positive) {xs : List (Action ι)} {s : Sys ι}
    (h : run Sys.step (start opts now) xs = some s) :
    s.breaker.state = (History.after (configure opts) s.log).state ∧
      (∀ since, History.after (configure opts) s.log = .opened since →
        s.breaker.openedAt = since) ∧
      (s.breaker.getState s.clock).2 =
        ((History.after (configure opts) s.log).next (configure opts) (s.clock, .state)).state ∧
      ((s.breaker.allow s.clock).2 ≠ none ↔
        ∃ since, History.after (configure opts) s.log = .opened since ∧
          s.clock - since < (configure opts).openTimeout) ∧
      (∀ err, (s.breaker.allow s.clock).2 = some err → err.is errOpen = true) ∧
      s.breaker.emitted = (History.closed []).changes (configure opts) s.log ∧
      Chained Joins .stateClosed s.breaker.emitted s.breaker.state := by
  have hs := refines_of_run ho h
  have hpoll : Agrees (s.breaker.maybeTransitionFromOpen s.clock)
      ((History.after (configure opts) s.log).poll (configure opts) s.clock) := by
    have := hs.agrees.poll (hs.opts ▸ ho) s.clock
    rwa [hs.opts] at this
  refine ⟨hs.agrees.state_eq, ?_, hpoll.state_eq, ?_, fun err => Breaker.allow_is_errOpen,
    hs.emitted, ?_⟩
  · intro since hsince
    have hagrees := hs.agrees
    rw [hsince] at hagrees
    exact hagrees.2.1
  · rw [Ne, Breaker.allow_eq_none_iff, not_ne_iff, hpoll.state_eq]
    cases History.after (configure opts) s.log with
    | closed rs => simp [History.poll, History.state]
    | halfOpen cs => simp [History.poll, History.state]
    | opened since =>
        simp only [History.poll, History.opened.injEq, exists_eq_left']
        split_ifs with htime
        · simp only [History.state, reduceCtorEq, false_iff]
          omega
        · simp only [History.state, true_iff]
          omega
  · rw [hs.emitted, hs.agrees.state_eq]
    exact History.changes_chained (configure opts) (.closed []) s.log

/-- Two failures of two trip the breaker; a third one comes late and the next call
too early.  The first half-open period ends with a failure, and the second one
with two successes. -/
def trip : List (Action ℕ) :=
  [.op (.allow 0), .op (.allow 1), .op (.allow 2), .op (.record 0 (some (.new "down"))),
    .op (.record 1 (some (.new "down"))), .op (.record 2 (some (.new "down"))), .advance 9,
    .op (.allow 3), .advance 1, .op .state, .op (.allow 4), .op (.record 4 none),
    .op (.allow 5), .op (.record 5 (some (.new "down"))), .advance 10, .op (.allow 6),
    .op (.allow 7), .op (.record 6 none), .op (.record 7 none)]

theorem trip_refines_history : ∃ s : Sys ℕ,
    run Sys.step (start [withFailureThreshold 2, withSuccessThreshold 2, withOpenTimeout 10] 0)
        trip = some s ∧
      s.breaker.state = .stateClosed ∧
      s.breaker.emitted = [(.stateClosed, .stateOpen), (.stateOpen, .stateHalfOpen),
        (.stateHalfOpen, .stateOpen), (.stateOpen, .stateHalfOpen),
        (.stateHalfOpen, .stateClosed)] ∧
      s.breaker.emitted = (History.closed []).changes
        (configure [withFailureThreshold 2, withSuccessThreshold 2, withOpenTimeout 10]) s.log ∧
      Chained Joins .stateClosed s.breaker.emitted s.breaker.state := by
  have hrun : (run Sys.step (start [withFailureThreshold 2, withSuccessThreshold 2,
      withOpenTimeout 10] 0) trip).map (fun s => (s.breaker.state, s.breaker.emitted)) =
        some (.stateClosed, [(.stateClosed, .stateOpen), (.stateOpen, .stateHalfOpen),
          (.stateHalfOpen, .stateOpen), (.stateOpen, .stateHalfOpen),
          (.stateHalfOpen, .stateClosed)]) := by decide
  obtain ⟨s, hs, hends⟩ := Option.map_eq_some_iff.mp hrun
  obtain ⟨hstate, hemitted⟩ := Prod.mk.inj hends
  have hrefines := breaker_refines_history ⟨by decide, by decide⟩ hs
  exact ⟨s, hs, hstate, hemitted, hrefines.2.2.2.2.2⟩

end Gkit.CircuitBreaker
