import Gkit.Lib.Tallies
import Gkit.Pool.Shutdown

/-!
# No job is lost and none runs twice

Each accepted job is in the queue, in the hands of one worker, or has been passed
to the worker function; each counter lags behind what it counts by the workers
that have not reached it yet.  When `Stop` returns the queue is drained and no
worker is left, so nothing lags any more.
-/

namespace Gkit.Pool

open Gkit.Lib

variable {ι T : Type} {n : ℕ}

/-! ## The log of a run -/

/-- A call of the worker function, and its end. -/
inductive Event (T : Type) where
  | passed (job : T)
  | answered (job : T) (err : Option GoError)

def events (s : Sys ι T n) : Action ι T n → List (Event T)
  | .work w =>
      match s.workers w with
      | .received job => [.passed job]
      | _ => []
  | .finish w err =>
      match s.workers w with
      | .running job => [.answered job err]
      | _ => []
  | _ => []

/-- The jobs passed to the worker function, one entry for each call of it. -/
def passed (log : List (Event T)) : List T :=
  log.filterMap fun
    | .passed job => some job
    | .answered _ _ => none

/-- What the calls of the worker function have returned. -/
def answers (log : List (Event T)) : List (T × Option GoError) :=
  log.filterMap fun
    | .passed _ => none
    | .answered job err => some (job, err)

def failures (log : List (Event T)) : ℕ := (answers log).countP fun answer => answer.2.isSome

@[simp] theorem passed_append (log log' : List (Event T)) :
    passed (log ++ log') = passed log ++ passed log' := List.filterMap_append

@[simp] theorem answers_append (log log' : List (Event T)) :
    answers (log ++ log') = answers log ++ answers log' := List.filterMap_append

@[simp] theorem failures_append (log log' : List (Event T)) :
    failures (log ++ log') = failures log + failures log' := by
  simp [failures, List.countP_append]

/-! ## What a worker has in its hands -/

namespace Worker

def holding : Worker T → Multiset T
  | .received job => {job}
  | _ => 0

def executing : Worker T → Multiset T
  | .running job => {job}
  | _ => 0

def inFlight : Worker T → ℤ
  | .running _ | .ran _ => 1
  | _ => 0

/-- An answer that `completed` does not count yet. -/
def uncounted : Worker T → ℕ
  | .ran _ | .left _ => 1
  | _ => 0

/-- An error that `errors` does not count yet. -/
def unreported : Worker T → ℕ
  | .ran (some _) | .left (some _) | .counted (some _) => 1
  | _ => 0

theorem unreported_ran (err : Option GoError) :
    (Worker.ran err : Worker T).unreported = if err.isSome then 1 else 0 := by
  cases err <;> rfl

theorem unreported_left (err : Option GoError) :
    (Worker.left err : Worker T).unreported = if err.isSome then 1 else 0 := by
  cases err <;> rfl

theorem unreported_counted (err : Option GoError) :
    (Worker.counted err : Worker T).unreported = if err.isSome then 1 else 0 := by
  cases err <;> rfl

end Worker

/-- A worker that waits holds as little as one that has been launched. -/
theorem tally_launch {M : Type} [AddCommMonoid M] (f : Worker T → M) {workers : Fin n → Worker T}
    (h : ∀ w, (workers w).isWaiting = true) (hf : f .waiting = f .receiving) :
    tally f workers = tally f (fun _ : Fin n => .receiving) := by
  apply tally_congr
  intro w
  have hw := h w
  cases hv : workers w with
  | waiting => exact hf
  | _ => simp [hv, Worker.isWaiting] at hw

/-- The counters, up to what the workers have in their hands. -/
structure Counters (s : Sys ι T n) (log : List (Event T)) : Prop where
  passed : (passed log : Multiset T) =
    ((answers log).map Prod.fst : List T) + tally Worker.executing s.workers
  completed : (answers log).length = s.completed + tally Worker.uncounted s.workers
  inFlight : s.inFlight = tally Worker.inFlight s.workers
  errors : failures log = s.errors + tally Worker.unreported s.workers

/-- A worker moves on, and each equation stays in balance. -/
theorem Counters.move {s s' : Sys ι T n} {log es : List (Event T)} {w : Fin n} {old new : Worker T}
    (h : Counters s log) (hw : s.workers w = old)
    (hw' : s'.workers = Function.update s.workers w new)
    (hpassed : (Pool.passed es : Multiset T) + old.executing =
      ((answers es).map Prod.fst : List T) + new.executing)
    (hcompleted : s.completed + (answers es).length + old.uncounted = s'.completed + new.uncounted)
    (hflight : s'.inFlight + old.inFlight = s.inFlight + new.inFlight)
    (herrors : s.errors + failures es + old.unreported = s'.errors + new.unreported) :
    Counters s' (log ++ es) := by
  subst hw
  refine ⟨?_, ?_, ?_, ?_⟩
  · have htally := tally_update Worker.executing s.workers w new
    rw [← hw'] at htally
    apply add_right_cancel (b := (s.workers w).executing)
    simp only [passed_append, answers_append, List.map_append, ← Multiset.coe_add]
    rw [add_assoc, hpassed, h.passed, add_assoc _ _ (Worker.executing _), htally]
    abel
  · have htally := tally_update Worker.uncounted s.workers w new
    rw [← hw'] at htally
    have := h.completed
    rw [answers_append, List.length_append]
    omega
  · have htally := tally_update Worker.inFlight s.workers w new
    rw [← hw'] at htally
    have := h.inFlight
    omega
  · have htally := tally_update Worker.unreported s.workers w new
    rw [← hw'] at htally
    have := h.errors
    rw [failures_append]
    omega

variable [DecidableEq ι] {s s' : Sys ι T n} {x : Action ι T n} {log : List (Event T)}

theorem Counters.step (hs : Counters s log) (h : s.step x = some s') :
    Counters s' (log ++ events s x) := by
  cases effect_of_step h with
  | handed hc hw hopen hbuf =>
      simp only [events]
      exact hs.move hw rfl rfl rfl rfl rfl
  | started hw =>
      simp only [events, List.append_nil]
      exact ⟨hs.passed.trans (by rw [tally_launch _ hw rfl]),
        hs.completed.trans (by rw [tally_launch _ hw rfl]),
        hs.inFlight.trans (by rw [tally_launch _ hw rfl]),
        hs.errors.trans (by rw [tally_launch _ hw rfl])⟩
  | received hw hbuf =>
      simp only [events, hw]
      exact hs.move hw rfl rfl rfl rfl rfl
  | exited hw hbuf hclosed =>
      simp only [events, hw]
      exact hs.move hw rfl rfl rfl rfl rfl
  | began hw =>
      simp only [events, hw]
      refine hs.move hw rfl rfl rfl ?_ rfl
      simp [Worker.inFlight, Sys.setWorker]
  | @finished w job err hw =>
      simp only [events, hw]
      refine hs.move hw rfl rfl rfl rfl ?_
      rw [Worker.unreported_ran]
      cases err <;> rfl
  | landed hw =>
      simp only [events, hw]
      refine hs.move hw rfl rfl rfl ?_ ?_
      · simp [Worker.inFlight, Sys.setWorker]
      · rw [Worker.unreported_ran, Worker.unreported_left]
        rfl
  | completed hw =>
      simp only [events, hw]
      refine hs.move hw rfl rfl rfl rfl ?_
      rw [Worker.unreported_left, Worker.unreported_counted]
      rfl
  | @looped w err hw =>
      simp only [events, hw]
      refine hs.move hw rfl rfl rfl rfl ?_
      cases err <;> rfl
  | _ =>
      simp only [events, List.append_nil]
      exact ⟨hs.passed, hs.completed, hs.inFlight, hs.errors⟩

/-! ## The accepted jobs -/

namespace Call

/-- The job of a call whose send has gone through. -/
def handedIn : Call T → Option T
  | .sent _ job | .returned _ job none => some job
  | _ => none

/-- The job of a call that has returned nil. -/
def accepted : Call T → Option T
  | .returned _ job none => some job
  | _ => none

def inProgress : Call T → Bool
  | .sending _ _ | .sent _ _ => true
  | _ => false

theorem accepted_eq_some {call : Call T} {job : T} :
    call.accepted = some job ↔ ∃ kind, call = .returned kind job none := by
  cases call with
  | returned kind job' err => cases err <;> simp [accepted]
  | _ => simp [accepted]

theorem accepted_eq_handedIn {call : Call T} (h : call.inProgress = false) :
    call.accepted = call.handedIn := by
  cases call with
  | sent kind job => simp [inProgress] at h
  | returned kind job err => cases err <;> rfl
  | _ => rfl

end Call

/-- `sent` lists the jobs whose sends have gone through, `counted` those whose
calls have returned nil. -/
structure Filed (s : Sys ι T n) (log : List (Event T)) (sent counted : List (ι × T)) : Prop where
  handedIn : Lists sent (Call.handedIn ∘ s.calls)
  accepted : Lists counted (Call.accepted ∘ s.calls)
  submitted : s.submitted = counted.length
  jobs : ((sent.map Prod.snd : List T) : Multiset T) =
    s.jobs.buf + tally Worker.holding s.workers + Pool.passed log

variable {sent counted : List (ι × T)}

/-- A call moves on without handing in its job. -/
theorem Filed.setCall (h : Filed s log sent counted) {c : ι} {call : Call T}
    (hsent : call.handedIn = (s.calls c).handedIn)
    (hcounted : call.accepted = (s.calls c).accepted) :
    Filed (s.setCall c call) log sent counted where
  handedIn := by
    simp only [Sys.setCall, Function.comp_update]
    exact h.handedIn.update_same hsent
  accepted := by
    simp only [Sys.setCall, Function.comp_update]
    exact h.accepted.update_same hcounted
  submitted := h.submitted
  jobs := h.jobs

omit [DecidableEq ι] in
/-- A worker moves on. -/
theorem Filed.move {es : List (Event T)} {w : Fin n} {old new : Worker T}
    (h : Filed s log sent counted) (hw : s.workers w = old)
    (hw' : s'.workers = Function.update s.workers w new) (hcalls : s'.calls = s.calls)
    (hsubmitted : s'.submitted = s.submitted)
    (hjobs : (s'.jobs.buf : Multiset T) + new.holding + Pool.passed es = s.jobs.buf + old.holding) :
    Filed s' (log ++ es) sent counted where
  handedIn := hcalls ▸ h.handedIn
  accepted := hcalls ▸ h.accepted
  submitted := hsubmitted ▸ h.submitted
  jobs := by
    subst hw
    have htally := tally_update Worker.holding s.workers w new
    rw [← hw'] at htally
    apply add_right_cancel (b := (s.workers w).holding)
    rw [h.jobs, passed_append, ← Multiset.coe_add]
    calc (s.jobs.buf : Multiset T) + tally Worker.holding s.workers + Pool.passed log +
          (s.workers w).holding
        = (s.jobs.buf + (s.workers w).holding) + tally Worker.holding s.workers +
          Pool.passed log := by abel
      _ = s'.jobs.buf + (tally Worker.holding s.workers + new.holding) +
          (Pool.passed log + Pool.passed es) := by rw [← hjobs]; abel
      _ = s'.jobs.buf + tally Worker.holding s'.workers + (Pool.passed log + Pool.passed es) +
          (s.workers w).holding := by rw [← htally]; abel

omit [DecidableEq ι] in
/-- A worker moves on with no job in its hands. -/
theorem Filed.pause {es : List (Event T)} {w : Fin n} {old new : Worker T}
    (h : Filed s log sent counted) (hw : s.workers w = old)
    (hw' : s'.workers = Function.update s.workers w new) (hcalls : s'.calls = s.calls)
    (hsubmitted : s'.submitted = s.submitted) (hjobs : s'.jobs = s.jobs)
    (hold : old.holding = 0) (hnew : new.holding = 0) (hes : Pool.passed es = []) :
    Filed s' (log ++ es) sent counted := by
  apply h.move hw hw' hcalls hsubmitted
  simp [hjobs, hold, hnew, hes]

theorem Filed.step (hs : Filed s log sent counted) (h : s.step x = some s') :
    ∃ sent' counted', Filed s' (log ++ events s x) sent' counted' := by
  cases effect_of_step h with
  | refused hc hstop =>
      simp only [events, List.append_nil]
      exact ⟨sent, counted, hs.setCall (by rw [hc]; rfl) (by rw [hc]; rfl)⟩
  | entered hc hstop =>
      simp only [events, List.append_nil]
      exact ⟨sent, counted, hs.setCall (by rw [hc]; rfl) (by rw [hc]; rfl)⟩
  | @sent c kind job hc hopen hroom =>
      simp only [events, List.append_nil]
      refine ⟨(c, job) :: sent, counted, ?_, ?_, hs.submitted, ?_⟩
      · simp only [Sys.setCall, Function.comp_update]
        exact hs.handedIn.update_new job (by simp [hc, Call.handedIn])
      · simp only [Sys.setCall, Function.comp_update]
        exact hs.accepted.update_same (by simp [hc, Call.accepted])
      · simp only [Sys.setCall, List.map_cons, ← Multiset.cons_coe, hs.jobs, ← Multiset.coe_add,
          ← Multiset.singleton_add]
        abel
  | sendPanics hc hclosed =>
      simp only [events, List.append_nil]
      exact ⟨sent, counted, hs.setCall (by rw [hc]; rfl) (by rw [hc]; rfl)⟩
  | @handed c w kind job hc hw hopen hbuf =>
      simp only [events, List.append_nil]
      refine ⟨(c, job) :: sent, counted, ?_, ?_, hs.submitted, ?_⟩
      · simp only [Sys.setWorker, Sys.setCall, Function.comp_update]
        exact hs.handedIn.update_new job (by simp [hc, Call.handedIn])
      · simp only [Sys.setWorker, Sys.setCall, Function.comp_update]
        exact hs.accepted.update_same (by simp [hc, Call.accepted])
      · have htally := tally_update Worker.holding s.workers w (.received job)
        simp only [hw, Worker.holding, add_zero] at htally
        simp only [Sys.setWorker, Sys.setCall, List.map_cons, ← Multiset.cons_coe, hs.jobs,
          ← Multiset.singleton_add, htally]
        abel
  | gaveUp hc herr =>
      simp only [events, List.append_nil]
      exact ⟨sent, counted, hs.setCall (by rw [hc]; rfl) (by rw [hc]; rfl)⟩
  | full hc hopen hfull =>
      simp only [events, List.append_nil]
      exact ⟨sent, counted, hs.setCall (by rw [hc]; rfl) (by rw [hc]; rfl)⟩
  | @counted c kind job hc =>
      simp only [events, List.append_nil]
      refine ⟨sent, (c, job) :: counted, ?_, ?_, by simp [Sys.setCall, hs.submitted], hs.jobs⟩
      · simp only [Sys.setCall, Function.comp_update]
        exact hs.handedIn.update_same (by simp [hc, Call.handedIn])
      · simp only [Sys.setCall, Function.comp_update]
        exact hs.accepted.update_new job (by simp [hc, Call.accepted])
  | started hw =>
      simp only [events, List.append_nil]
      refine ⟨sent, counted, hs.handedIn, hs.accepted, hs.submitted, hs.jobs.trans ?_⟩
      rw [tally_launch _ hw rfl]
  | @received w job buf hw hbuf =>
      simp only [events, hw]
      refine ⟨sent, counted, hs.move hw rfl rfl rfl ?_⟩
      rw [hbuf, ← Multiset.cons_coe, ← Multiset.singleton_add]
      simp only [Sys.setWorker, Worker.holding, Pool.passed, List.filterMap_nil, Multiset.coe_nil]
      abel
  | exited hw hbuf hclosed =>
      simp only [events, hw]
      exact ⟨sent, counted, hs.pause hw rfl rfl rfl rfl rfl rfl rfl⟩
  | began hw =>
      simp only [events, hw]
      refine ⟨sent, counted, hs.move hw rfl rfl rfl ?_⟩
      simp [Sys.setWorker, Worker.holding, Pool.passed]
  | finished hw =>
      simp only [events, hw]
      exact ⟨sent, counted, hs.pause hw rfl rfl rfl rfl rfl rfl rfl⟩
  | landed hw =>
      simp only [events, hw]
      exact ⟨sent, counted, hs.pause hw rfl rfl rfl rfl rfl rfl rfl⟩
  | completed hw =>
      simp only [events, hw]
      exact ⟨sent, counted, hs.pause hw rfl rfl rfl rfl rfl rfl rfl⟩
  | looped hw =>
      simp only [events, hw]
      exact ⟨sent, counted, hs.pause hw rfl rfl rfl rfl rfl rfl rfl⟩
  | _ =>
      simp only [events, List.append_nil]
      exact ⟨sent, counted, hs.handedIn, hs.accepted, hs.submitted, hs.jobs⟩

/-! ## What is left when `Stop` returns -/

/-- `Stop` is called after the last call has returned. -/
def StopsLast (s : Sys ι T n) : Action ι T n → Prop
  | .stop => s.stop = .idle → ∀ c, (s.calls c).inProgress = false
  | _ => True

instance [Fintype ι] (s : Sys ι T n) : ∀ x, Decidable (StopsLast s x)
  | .stop => inferInstanceAs (Decidable (s.stop = .idle → ∀ c, (s.calls c).inProgress = false))
  | .enter _ _ _ | .send _ | .handOver _ _ | .giveUp _ | .count _ | .cancel _ _ | .start
  | .work _ | .finish _ _ => inferInstanceAs (Decidable True)

/-- Once `Stop` has begun nothing is handed in, and a worker leaves a drained
queue behind. -/
structure Draining (s : Sys ι T n) : Prop where
  calls : s.stop ≠ .idle → ∀ c, (s.calls c).inProgress = false
  drained : ∀ w, s.workers w = .exited → s.jobs.closed = true ∧ s.jobs.buf = []

theorem Draining.setCall (hs : Draining s) {c : ι} {call : Call T} (hc : call.inProgress = false) :
    Draining (s.setCall c call) where
  calls hstop := forall_calls_setCall (P := fun _ call => call.inProgress = false)
    (hs.calls hstop) hc
  drained := hs.drained

omit [DecidableEq ι] in
theorem Draining.idle_of_inProgress (hs : Draining s) {c : ι}
    (hc : (s.calls c).inProgress = true) : s.stop = .idle := by
  by_contra hstop
  rw [hs.calls hstop c] at hc
  nomatch hc

omit [DecidableEq ι] in
/-- A worker moves on, other than to its end. -/
theorem Draining.move (hs : Draining s) {w : Fin n} {new : Worker T} (hnew : new ≠ .exited)
    (hw' : s'.workers = Function.update s.workers w new) (hcalls : s'.calls = s.calls)
    (hstop : s'.stop = s.stop) (hjobs : s'.jobs = s.jobs) : Draining s' where
  calls := hcalls ▸ hstop ▸ hs.calls
  drained v hv := by
    rw [hw'] at hv
    by_cases hvw : v = w
    · subst hvw
      rw [Function.update_self] at hv
      exact absurd hv hnew
    · rw [Function.update_of_ne hvw] at hv
      exact hjobs ▸ hs.drained v hv

theorem Draining.step (hs : Draining s) (hst : Staged s) (hx : StopsLast s x)
    (h : s.step x = some s') : Draining s' := by
  cases effect_of_step h with
  | refused hc hstop => exact hs.setCall rfl
  | entered hc hstop => exact ⟨fun hidle => absurd (hst.stopped hstop) hidle, hs.drained⟩
  | sent hc hopen hroom =>
      refine ⟨fun hidle => absurd (hs.idle_of_inProgress (by rw [hc]; rfl)) hidle, fun w hw => ?_⟩
      have hclosed := (hs.drained w hw).1
      rw [hopen] at hclosed
      nomatch hclosed
  | sendPanics hc hclosed => exact hs.setCall rfl
  | @handed c w kind job hc hw hopen hbuf =>
      have hidle := hs.idle_of_inProgress (by rw [hc]; rfl)
      have hcall : Draining (s.setCall c (.sent kind job)) :=
        ⟨fun hstop => absurd hidle hstop, hs.drained⟩
      exact hcall.move (by simp) rfl rfl rfl rfl
  | gaveUp hc herr => exact hs.setCall rfl
  | full hc hopen hfull => exact hs.setCall rfl
  | counted hc =>
      exact ⟨fun hstop => absurd (hs.idle_of_inProgress (by rw [hc]; rfl)) hstop, hs.drained⟩
  | started hw => exact ⟨hs.calls, fun w hw => by simp at hw⟩
  | stopStores hstop => exact ⟨fun _ => hx hstop, hs.drained⟩
  | stopCloses hstop hopen =>
      refine ⟨fun _ => hs.calls (by simp [hstop]), fun w hw => ?_⟩
      exact ⟨rfl, (hs.drained w hw).2⟩
  | stopPanics hstop hclosed => exact ⟨fun _ => hs.calls (by simp [hstop]), hs.drained⟩
  | stopReturns hstop hdone => exact ⟨fun _ => hs.calls (by simp [hstop]), hs.drained⟩
  | @received w job buf hw hbuf =>
      refine ⟨hs.calls, fun v hv => ?_⟩
      by_cases hvw : v = w
      · subst hvw
        simp [Sys.setWorker] at hv
      · have := hs.drained v (by simpa [Sys.setWorker, hvw] using hv)
        simp [hbuf] at this
  | @exited w hw hbuf hclosed => exact ⟨hs.calls, fun v hv => ⟨hclosed, hbuf⟩⟩
  | began hw => exact hs.move (by simp) rfl rfl rfl rfl
  | finished hw => exact hs.move (by simp) rfl rfl rfl rfl
  | landed hw => exact hs.move (by simp) rfl rfl rfl rfl
  | completed hw => exact hs.move (by simp) rfl rfl rfl rfl
  | looped hw => exact hs.move (by simp) rfl rfl rfl rfl
  | cancelled hc => exact ⟨hs.calls, hs.drained⟩

def Launched (s : Sys ι T n) : Prop := ∀ w, (s.workers w).isWaiting = false

omit [DecidableEq ι] in
theorem Launched.setWorker (hs : Launched s) {w : Fin n} {worker : Worker T}
    (hw : worker.isWaiting = false) : Launched (s.setWorker w worker) := by
  intro v
  by_cases hv : v = w
  · subst hv
    simpa only [Sys.setWorker, Function.update_self] using hw
  · simpa only [Sys.setWorker, Function.update_of_ne hv] using hs v

theorem Launched.step (hs : Launched s) (h : s.step x = some s') : Launched s' := by
  cases effect_of_step h with
  | handed hc hw hopen hbuf => exact Launched.setWorker (s := s.setCall _ _) hs rfl
  | started hw => exact fun w => rfl
  | received hw hbuf => exact Launched.setWorker (s := { s with jobs := _ }) hs rfl
  | exited hw hbuf hclosed => exact hs.setWorker rfl
  | began hw => exact Launched.setWorker (s := { s with inFlight := _ }) hs rfl
  | finished hw => exact hs.setWorker rfl
  | landed hw => exact Launched.setWorker (s := { s with inFlight := _ }) hs rfl
  | completed hw => exact Launched.setWorker (s := { s with completed := _ }) hs rfl
  | looped hw => exact Launched.setWorker (s := { s with errors := _ }) hs rfl
  | _ => exact hs

theorem launched_of_start {xs : List (Action ι T n)} (hstart : .start ∈ xs)
    (h : run Sys.step s xs = some s') : Launched s' := by
  obtain ⟨ys, zs, rfl⟩ := List.append_of_mem hstart
  obtain ⟨t, -, h⟩ := run_append_eq_some.mp h
  obtain ⟨u, hu, h⟩ := run_cons_eq_some.mp h
  have hlaunched : Launched u := by
    cases effect_of_step hu with
    | started hw => exact fun w => rfl
  exact run_forall (fun _ _ _ hs h => hs.step h) hlaunched h

omit [DecidableEq ι] in
theorem newPool_empty {workers : ℤ} {queueSize : Option ℤ} {s : Sys ι T workers.toNat}
    (h : newPool workers queueSize = .ok s) :
    0 < workers.toNat ∧ Counters s [] ∧ Filed s [] [] [] ∧ Draining s := by
  simp only [newPool] at h
  split_ifs at h
  obtain rfl := Except.ok.inj h
  have htally {M : Type} [AddCommMonoid M] (f : Worker T → M) (hf : f .waiting = 0) :
      tally f (fun _ : Fin workers.toNat => .waiting) = 0 := tally_eq_zero (fun _ => rfl) f hf
  refine ⟨by omega, ?_, ?_, ⟨fun hstop => absurd rfl hstop, fun w hw => by simp at hw⟩⟩
  · exact ⟨by simp only [htally Worker.executing rfl]; rfl,
      by simp only [htally Worker.uncounted rfl]; rfl, (htally Worker.inFlight rfl).symm,
      by simp only [htally Worker.unreported rfl]; rfl⟩
  · exact ⟨⟨List.nodup_nil, by simp [Call.handedIn]⟩, ⟨List.nodup_nil, by simp [Call.accepted]⟩,
      rfl, by simp only [htally Worker.holding rfl]; rfl⟩

/-- When `Stop` returns, after `Start` and after the last call has returned, the
worker function has been called once for each accepted job and for nothing else,
and the statistics are exact. -/
theorem stop_conserves_jobs {workers : ℤ} {queueSize : Option ℤ} {s₀ s s' : Sys ι T workers.toNat}
    {xs : List (Action ι T workers.toNat)} (hnew : newPool workers queueSize = .ok s₀)
    (hrun : run Sys.step s₀ xs = some s) (hstart : .start ∈ xs)
    (hlast : Along Sys.step StopsLast s₀ xs) (hstop : s.step .stop = some s')
    (hreturned : s'.stop = .returned) :
    ∃ accepted : Finset (ι × T),
      (∀ c job, (c, job) ∈ accepted ↔ ∃ kind, s'.calls c = .returned kind job none) ∧
      (passed (collect Sys.step events s₀ xs) : Multiset T) = accepted.val.map Prod.snd ∧
      ((answers (collect Sys.step events s₀ xs)).map Prod.fst).Perm
        (passed (collect Sys.step events s₀ xs)) ∧
      s'.stats =
        ⟨accepted.card, accepted.card, failures (collect Sys.step events s₀ xs), 0, 0⟩ := by
  obtain ⟨hpos, hcounters, hfiled, hdraining⟩ := newPool_empty hnew
  have hinv : Staged s ∧ Draining s ∧ Counters s (collect Sys.step events s₀ xs) ∧
      ∃ sent counted, Filed s (collect Sys.step events s₀ xs) sent counted := by
    apply run_collect (C := StopsLast) (P := fun t log =>
      Staged t ∧ Draining t ∧ Counters t log ∧ ∃ sent counted, Filed t log sent counted)
      ?_ ⟨(newPool_start hnew).1, hdraining, hcounters, [], [], hfiled⟩ hlast hrun
    rintro t log x u ⟨hst, hdr, hco, sent, counted, hfi⟩ hx hu
    exact ⟨hst.step hu, hdr.step hst hx hu, hco.step hu, hfi.step hu⟩
  obtain ⟨hst, hdr, hco, sent, counted, hfi⟩ := hinv
  have hlaunched := launched_of_start hstart hrun
  cases effect_of_step hstop with
  | stopStores h => simp at hreturned
  | stopCloses h hopen => simp at hreturned
  | stopPanics h hclosed => simp at hreturned
  | stopReturns hclosed hdone =>
      have hexited (w : Fin workers.toNat) : s.workers w = .exited := by
        have hwait := hlaunched w
        have hd := hdone w
        cases hw : s.workers w with
        | exited => rfl
        | waiting => simp [hw, Worker.isWaiting] at hwait
        | _ => simp [hw, Worker.isDone] at hd
      have htally {M : Type} [AddCommMonoid M] (f : Worker T → M) (hf : f .exited = 0) :
          tally f s.workers = 0 := tally_eq_zero hexited f hf
      have hbuf := (hdr.drained ⟨0, hpos⟩ (hexited _)).2
      -- no call is between its send and its return, so all that was sent is counted
      have hlists : Lists sent (Call.accepted ∘ s.calls) := by
        have hsame : Call.accepted ∘ s.calls = Call.handedIn ∘ s.calls := by
          funext c
          exact Call.accepted_eq_handedIn (hdr.calls (by simp [hclosed]) c)
        exact hsame ▸ hfi.handedIn
      have hperm : sent.Perm counted := hlists.perm hfi.accepted
      have hpassed : (passed (collect Sys.step events s₀ xs) : Multiset T) =
          (counted.map Prod.snd : List T) := by
        have := hfi.jobs
        rw [hbuf, htally Worker.holding rfl] at this
        rw [← Multiset.coe_eq_coe.mpr (hperm.map Prod.snd), this]
        simp
      have hanswered := hco.passed
      rw [htally Worker.executing rfl, add_zero] at hanswered
      have hcompleted : s.completed = counted.length := by
        have hlength := hco.completed
        rw [htally Worker.uncounted rfl, add_zero] at hlength
        have hcard := congrArg Multiset.card (hanswered.symm.trans hpassed)
        simp only [Multiset.coe_card, List.length_map] at hcard
        exact hlength.symm.trans hcard
      have herrors := hco.errors
      rw [htally Worker.unreported rfl, add_zero] at herrors
      have hflight := hco.inFlight.trans (htally Worker.inFlight rfl)
      refine ⟨⟨counted, hfi.accepted.nodup⟩, fun c job => ?_, hpassed, ?_, ?_⟩
      · exact (hfi.accepted.mem c job).trans Call.accepted_eq_some
      · exact (Multiset.coe_eq_coe.mp hanswered).symm
      · simp [Sys.stats, Finset.card, hfi.submitted, hcompleted, herrors, hflight, hbuf]

/-- One job is accepted and fails, and `Stop` is called after that. -/
def failingJob : List (Action Unit ℕ 1) :=
  [.start, .enter () .submit 7, .send (), .count (), .stop, .stop, .work 0, .work 0,
    .finish 0 (some (.new "boom")), .work 0, .work 0, .work 0, .work 0]

theorem failing_job_conserved : ∃ s s' : Sys Unit ℕ 1, ∃ accepted : Finset (Unit × ℕ),
    run Sys.step idlePool failingJob = some s ∧ s.step .stop = some s' ∧
      (∀ c job, (c, job) ∈ accepted ↔ ∃ kind, s'.calls c = .returned kind job none) ∧
      ({7} : Multiset ℕ) = accepted.val.map Prod.snd ∧
      s'.stats = ⟨accepted.card, accepted.card, 1, 0, 0⟩ := by
  have hrun :
      ((run Sys.step idlePool failingJob).bind fun s => s.step .stop).map (fun s => s.stop) =
      some .returned := by
    decide
  obtain ⟨s', hs', hreturned⟩ := Option.map_eq_some_iff.mp hrun
  obtain ⟨s, hs, hstop⟩ := Option.bind_eq_some_iff.mp hs'
  have hnew : newPool 1 none = .ok idlePool := rfl
  obtain ⟨accepted, hmem, hpassed, -, hstats⟩ :=
    stop_conserves_jobs hnew hs List.mem_cons_self (by decide)
    hstop hreturned
  exact ⟨s, s', accepted, hs, hstop, hmem, hpassed, hstats⟩

end Gkit.Pool
