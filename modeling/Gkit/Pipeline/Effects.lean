import Gkit.Pipeline.Model

/-!
# What a step of `Process` can do

One constructor for each outcome of each operation, with the condition under
which it comes about and with what the step adds to the log of the run.
-/

namespace Gkit.Pipeline

open Gkit.Lib

variable {α β : Type} {n : ℕ}

inductive Event (α β : Type) where
  /-- A call of the function begins. -/
  | called (job : Work α)
  /-- A call of the function has returned, with the context done or not. -/
  | answered (job : Work α) (res : Except GoError β) (done : Bool)
  /-- The function is not called, because the context is done. -/
  | skipped (job : Work α)
  | collected (r : Result β)

def events (fn : α → Except GoError β) (s : Sys α β n) : Action n → List (Event α β)
  | .check w =>
      match s.workers w, s.ctx with
      | .checking job, none => [.called job]
      | .checking job, some _ => [.skipped job]
      | _, _ => []
  | .answer w =>
      match s.workers w with
      | .running job => [.answered job (fn job.val) s.ctx.isSome]
      | _ => []
  | .fail w err =>
      match s.workers w with
      | .running job => [.answered job (.error err) true]
      | _ => []
  | .handle =>
      match s.main with
      | .handling r => [.collected r]
      | _ => []
  | _ => []

inductive Effect (fn : α → Except GoError β) (s : Sys α β n) :
    Action n → List (Event α β) → Sys α β n → Prop where
  | fed {job : Work α} {todo : List (Work α)} (hm : s.main = .sending (job :: todo))
      (hopen : s.jobs.closed = false) (hroom : s.jobs.buf.length < s.jobs.cap) :
      Effect fn s .feed [] { s with
        jobs := { s.jobs with buf := s.jobs.buf ++ [job] }, main := .sending todo }
  | feedCrashes {todo : List (Work α)} {text : String} (hm : s.main = .sending todo)
      (hclosed : s.jobs.closed = true) : Effect fn s .feed [] { s with main := .crashed text }
  | jobsClosed (hm : s.main = .sending []) (hopen : s.jobs.closed = false) :
      Effect fn s .feed [] { s with jobs := { s.jobs with closed := true }, main := .collecting }
  | received {w : Fin n} {job : Work α} {buf : List (Work α)} (hw : s.workers w = .receiving)
      (hbuf : s.jobs.buf = job :: buf) :
      Effect fn s (.receive w) []
        ({ s with jobs := { s.jobs with buf := buf } }.setWorker w (.checking job))
  | exited {w : Fin n} (hw : s.workers w = .receiving) (hbuf : s.jobs.buf = [])
      (hclosed : s.jobs.closed = true) : Effect fn s (.receive w) [] (s.setWorker w .exited)
  | called {w : Fin n} {job : Work α} (hw : s.workers w = .checking job) (hctx : s.ctx = none) :
      Effect fn s (.check w) [.called job] (s.setWorker w (.running job))
  | skipped {w : Fin n} {job : Work α} {err : GoError} (hw : s.workers w = .checking job)
      (hctx : s.ctx = some err) :
      Effect fn s (.check w) [.skipped job] (s.setWorker w (.reporting ⟨job.idx, .error err⟩))
  | answered {w : Fin n} {job : Work α} (hw : s.workers w = .running job) :
      Effect fn s (.answer w) [.answered job (fn job.val) s.ctx.isSome]
        (s.setWorker w (.reporting ⟨job.idx, fn job.val⟩))
  | failed {w : Fin n} {job : Work α} {err err' : GoError} (hw : s.workers w = .running job)
      (hctx : s.ctx = some err') :
      Effect fn s (.fail w err) [.answered job (.error err) true]
        (s.setWorker w (.reporting ⟨job.idx, .error err⟩))
  | reported {w : Fin n} {r : Result β} (hw : s.workers w = .reporting r)
      (hopen : s.results.closed = false) (hroom : s.results.buf.length < s.results.cap) :
      Effect fn s (.report w) []
        ({ s with results := { s.results with buf := s.results.buf ++ [r] } }.setWorker w
          .receiving)
  | reportCrashes {w : Fin n} {r : Result β} {text : String} (hw : s.workers w = .reporting r)
      (hclosed : s.results.closed = true) :
      Effect fn s (.report w) [] { s with main := .crashed text }
  | resultsClosed (hm : s.main.hasSent = true) (hopen : s.results.closed = false)
      (hw : ∀ w, (s.workers w).isExited = true) :
      Effect fn s .closeResults [] { s with results := { s.results with closed := true } }
  | collected {r : Result β} {buf : List (Result β)} (hm : s.main = .collecting)
      (hbuf : s.results.buf = r :: buf) :
      Effect fn s .collect []
        { s with results := { s.results with buf := buf }, main := .handling r }
  | returned (hm : s.main = .collecting) (hbuf : s.results.buf = [])
      (hclosed : s.results.closed = true) :
      Effect fn s .collect []
        { s with ctx := s.ctx.or (some canceled), main := .returned s.outcome }
  | stored {idx : ℕ} {v : β} (hm : s.main = .handling ⟨idx, .ok v⟩) (ho : s.ordered = true) :
      Effect fn s .handle [.collected ⟨idx, .ok v⟩]
        { s with main := .collecting, out := s.out.set idx v }
  | appended {idx : ℕ} {v : β} (hm : s.main = .handling ⟨idx, .ok v⟩) (ho : s.ordered = false) :
      Effect fn s .handle [.collected ⟨idx, .ok v⟩]
        { s with main := .collecting, unordered := s.unordered ++ [v] }
  | cancelled {idx : ℕ} {err : GoError} (hm : s.main = .handling ⟨idx, .error err⟩)
      (herr : s.firstErr = none) :
      Effect fn s .handle [.collected ⟨idx, .error err⟩] { s with
        main := .collecting, firstErr := some err, ctx := s.ctx.or (some canceled) }
  | ignored {idx : ℕ} {err err' : GoError} (hm : s.main = .handling ⟨idx, .error err⟩)
      (herr : s.firstErr = some err') :
      Effect fn s .handle [.collected ⟨idx, .error err⟩] { s with main := .collecting }
  | parentDone {err : GoError} (hctx : s.ctx = none) :
      Effect fn s (.done err) [] { s with ctx := some err }

variable {fn : α → Except GoError β} {s s' : Sys α β n}

theorem effect_feed (h : s.feed = some s') : Effect fn s .feed [] s' := by
  unfold Sys.feed at h
  cases hm : s.main with
  | sending todo =>
      cases todo with
      | nil =>
          cases hclosed : s.jobs.closed with
          | true =>
              simp only [hm, Chan.close, hclosed, if_true, Option.some.injEq] at h
              subst h
              exact .feedCrashes hm hclosed
          | false =>
              simp only [hm, Chan.close, hclosed, Bool.false_eq_true, if_false,
                Option.some.injEq] at h
              subst h
              exact .jobsClosed hm hclosed
      | cons job todo =>
          rcases s.jobs.send_cases job with ⟨hclosed, hs⟩ | ⟨hopen, hroom, hs⟩ | ⟨-, -, hs⟩
          · simp only [hm, hs, Option.some.injEq] at h
            subst h
            exact .feedCrashes hm hclosed
          · simp only [hm, hs, Option.some.injEq] at h
            subst h
            exact .fed hm hopen hroom
          · simp [hm, hs] at h
  | _ => simp [hm] at h

theorem effect_receive {w : Fin n} (h : s.receive w = some s') :
    Effect fn s (.receive w) [] s' := by
  unfold Sys.receive at h
  cases hw : s.workers w with
  | receiving =>
      rcases s.jobs.recv_cases with ⟨job, buf, hbuf, hr⟩ | ⟨hbuf, hclosed, hr⟩ | ⟨-, -, hr⟩
      · simp only [hw, hr, Option.some.injEq] at h
        subst h
        exact .received hw hbuf
      · simp only [hw, hr, Option.some.injEq] at h
        subst h
        exact .exited hw hbuf hclosed
      · simp [hw, hr] at h
  | _ => simp [hw] at h

theorem effect_check {w : Fin n} (h : s.check w = some s') :
    Effect fn s (.check w) (events fn s (.check w)) s' := by
  unfold Sys.check at h
  cases hw : s.workers w with
  | checking job =>
      cases hctx : s.ctx with
      | none =>
          simp only [hw, hctx, Option.some.injEq] at h
          subst h
          simp only [events, hw, hctx]
          exact .called hw hctx
      | some err =>
          simp only [hw, hctx, Option.some.injEq] at h
          subst h
          simp only [events, hw, hctx]
          exact .skipped hw hctx
  | _ => simp [hw] at h

theorem effect_answer {w : Fin n} (h : s.answer fn w = some s') :
    Effect fn s (.answer w) (events fn s (.answer w)) s' := by
  unfold Sys.answer at h
  cases hw : s.workers w with
  | running job =>
      simp only [hw, Option.some.injEq] at h
      subst h
      simp only [events, hw]
      exact .answered hw
  | _ => simp [hw] at h

theorem effect_fail {w : Fin n} {err : GoError} (h : s.fail w err = some s') :
    Effect fn s (.fail w err) (events fn s (.fail w err)) s' := by
  unfold Sys.fail at h
  cases hw : s.workers w with
  | running job =>
      cases hctx : s.ctx with
      | none => simp [hw, hctx] at h
      | some err' =>
          simp only [hw, hctx, Option.some.injEq] at h
          subst h
          simp only [events, hw]
          exact .failed hw hctx
  | _ => simp [hw] at h

theorem effect_report {w : Fin n} (h : s.report w = some s') : Effect fn s (.report w) [] s' := by
  unfold Sys.report at h
  cases hw : s.workers w with
  | reporting r =>
      rcases s.results.send_cases r with ⟨hclosed, hs⟩ | ⟨hopen, hroom, hs⟩ | ⟨-, -, hs⟩
      · simp only [hw, hs, Option.some.injEq] at h
        subst h
        exact .reportCrashes hw hclosed
      · simp only [hw, hs, Option.some.injEq] at h
        subst h
        exact .reported hw hopen hroom
      · simp [hw, hs] at h
  | _ => simp [hw] at h

theorem effect_closeResults (h : s.closeResults = some s') : Effect fn s .closeResults [] s' := by
  unfold Sys.closeResults at h
  split_ifs at h with hc
  simp only [Bool.and_eq_true, Bool.not_eq_true', decide_eq_true_eq] at hc
  obtain ⟨⟨hm, hopen⟩, hw⟩ := hc
  obtain rfl := Option.some.inj h
  exact .resultsClosed hm hopen hw

theorem effect_collect (h : s.collect = some s') : Effect fn s .collect [] s' := by
  unfold Sys.collect at h
  cases hm : s.main with
  | collecting =>
      rcases s.results.recv_cases with ⟨r, buf, hbuf, hr⟩ | ⟨hbuf, hclosed, hr⟩ | ⟨-, -, hr⟩
      · simp only [hm, hr, Option.some.injEq] at h
        subst h
        exact .collected hm hbuf
      · simp only [hm, hr, Option.some.injEq] at h
        subst h
        exact .returned hm hbuf hclosed
      · simp [hm, hr] at h
  | _ => simp [hm] at h

theorem effect_handle (h : s.handle = some s') : Effect fn s .handle (events fn s .handle) s' := by
  unfold Sys.handle at h
  cases hm : s.main with
  | handling r =>
      obtain ⟨idx, res⟩ := r
      simp only [events, hm]
      cases res with
      | ok v =>
          cases ho : s.ordered with
          | true =>
              simp only [hm, ho, if_true, Option.some.injEq] at h
              subst h
              simpa only [ho] using Effect.stored hm ho
          | false =>
              simp only [hm, ho, Bool.false_eq_true, if_false, Option.some.injEq] at h
              subst h
              simpa only [ho] using Effect.appended hm ho
      | error err =>
          cases herr : s.firstErr with
          | none =>
              simp only [hm, herr, Option.some.injEq] at h
              subst h
              exact .cancelled hm herr
          | some err' =>
              simp only [hm, herr, Option.some.injEq] at h
              subst h
              simpa only [herr] using Effect.ignored hm herr
  | _ => simp [hm] at h

theorem effect_done {err : GoError} (h : s.done err = some s') : Effect fn s (.done err) [] s' := by
  unfold Sys.done at h
  cases hctx : s.ctx with
  | none =>
      simp only [hctx, Option.some.injEq] at h
      subst h
      exact .parentDone hctx
  | some err' => simp [hctx] at h

/-- What a step does, together with what it leaves in the log. -/
theorem effect_of_step {x : Action n} (h : s.step fn x = some s') :
    ∃ es, events fn s x = es ∧ Effect fn s x es s' := by
  refine ⟨_, rfl, ?_⟩
  cases x with
  | feed => exact effect_feed h
  | receive w => exact effect_receive h
  | check w => exact effect_check h
  | answer w => exact effect_answer h
  | fail w err => exact effect_fail h
  | report w => exact effect_report h
  | closeResults => exact effect_closeResults h
  | collect => exact effect_collect h
  | handle => exact effect_handle h
  | done err => exact effect_done h

end Gkit.Pipeline
