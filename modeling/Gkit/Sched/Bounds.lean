import Gkit.Lib.Tallies
import Gkit.Sched.Effects

/-!
# The scheduler bounds its jobs and stops them

The semaphore holds one value for each slot that is taken, and the wait group
counts every goroutine that has been launched and has not called `Done`, together
with the job that is about to be.  So no more job functions run than there are
workers, and when `Stop` returns there is no goroutine left.
-/

namespace Gkit.Sched

open Gkit.Lib

variable {n : ℕ}

/-- What the goroutine of a schedule has added to the wait group, for itself and
for the job that it is about to launch. -/
def Runner.counts : Runner → ℕ
  | .idle => 0
  | .counted => 2
  | .exited => 0
  | _ => 1

/-- The slots that it holds. -/
def Runner.slots : Runner → ℕ
  | .acquired => 1
  | .counted => 1
  | _ => 0

/-- The jobs that it has yet to launch, if it launches one only. -/
def Runner.pending : Runner → ℕ
  | .leaving => 0
  | .exited => 0
  | _ => 1

def Phase.counts : Phase → ℕ
  | .exited => 0
  | _ => 1

def Phase.slots : Phase → ℕ
  | .launched => 1
  | .running => 1
  | .returned => 1
  | _ => 0

/-- What all goroutines hold together. -/
def total (f : Runner → ℕ) (g : Phase → ℕ) (runners : Fin n → Runner) (jobs : List (Job n)) : ℕ :=
  tally f runners + (jobs.map fun job => g job.phase).sum

section Total

variable (f : Runner → ℕ) (g : Phase → ℕ) (runners : Fin n → Runner) (jobs : List (Job n))

theorem total_update (i : Fin n) (r : Runner) :
    total f g (Function.update runners i r) jobs + f (runners i) =
      total f g runners jobs + f r := by
  have htally := tally_update f runners i r
  unfold total
  omega

theorem total_set {k : ℕ} {job : Job n} (hk : jobs[k]? = some job) (job' : Job n) :
    total f g runners (jobs.set k job') + g job.phase =
      total f g runners jobs + g job'.phase := by
  have hsum := sum_map_set (fun job : Job n => g job.phase) hk job'
  unfold total
  omega

theorem total_append (job : Job n) :
    total f g runners (jobs ++ [job]) = total f g runners jobs + g job.phase := by
  simp [total, add_assoc]

theorem le_total_of_runner (i : Fin n) : f (runners i) ≤ total f g runners jobs := by
  have hle := le_tally f runners i
  unfold total
  omega

variable {jobs}

theorem le_total_of_mem {job : Job n} (hjob : job ∈ jobs) :
    g job.phase ≤ total f g runners jobs := by
  have hle := List.single_le_sum (fun _ _ => Nat.zero_le _) _
    (List.mem_map_of_mem (f := fun job : Job n => g job.phase) hjob)
  unfold total
  omega

end Total

structure Inv (sch : Fin n → Schedule) (workers : ℕ) (s : Sys n) : Prop where
  schedules : s.schedules = sch
  counts : s.wg.count = total Runner.counts Phase.counts s.runners s.jobs
  slots : s.sem.buf.length = total Runner.slots Phase.slots s.runners s.jobs
  bound : s.sem.buf.length ≤ workers
  cap : s.sem.cap = workers
  opened : s.sem.closed = false
  launched : ∀ i, s.runners i = .idle ↔ s.next ≤ i.val
  once : ∀ i, (sch i).isPeriodic = false →
    (s.jobs.map Job.schedule).count i + (s.runners i).pending ≤ 1
  started : s.stop ≠ .idle → s.next = n
  finished : s.stop = .returned →
    (∀ i, s.runners i = .exited) ∧ ∀ job ∈ s.jobs, job.phase = .exited
  alive : s.crashed = none

variable {sch : Fin n → Schedule} {workers : ℕ} {s s' : Sys n}

theorem inv_start (sch : Scheduler) : Inv sch.schedules.get sch.workers sch.start where
  schedules := rfl
  counts := by simp [Scheduler.start, total, tally, Runner.counts]
  slots := by simp [Scheduler.start, total, tally, Runner.slots]
  bound := Nat.zero_le _
  cap := rfl
  opened := rfl
  launched := fun i => by simp [Scheduler.start]
  once := fun i _ => by simp [Scheduler.start, Runner.pending]
  started := fun hne => absurd rfl hne
  finished := fun heq => by cases heq
  alive := rfl

/-- The goroutine of a schedule can be at `q` after it has been at `r`. -/
def Runner.Moves (r q : Runner) : Prop :=
  r ≠ .idle ∧ r ≠ .exited ∧ q ≠ .idle ∧ q.pending ≤ r.pending

instance (r q : Runner) : Decidable (r.Moves q) := inferInstanceAs (Decidable (_ ∧ _))

/-- The goroutine of a schedule moves on. -/
theorem Inv.setRunner (h : Inv sch workers s) {i : Fin n} {r : Runner} (hi : s.runners i = r)
    (q : Runner) (sem : Chan Unit) (wg : WaitGroup) (hmoves : r.Moves q)
    (hcount : wg.count + r.counts = s.wg.count + q.counts)
    (hslots : sem.buf.length + r.slots = s.sem.buf.length + q.slots)
    (hbound : sem.buf.length ≤ workers) (hcap : sem.cap = s.sem.cap)
    (hopened : sem.closed = s.sem.closed) :
    Inv sch workers ({ s with sem := sem, wg := wg }.setRunner i q) where
  schedules := h.schedules
  counts := by
    have htotal := total_update Runner.counts Phase.counts s.runners s.jobs i q
    have hcounts := h.counts
    rw [hi] at htotal
    dsimp only [Sys.setRunner]
    omega
  slots := by
    have htotal := total_update Runner.slots Phase.slots s.runners s.jobs i q
    have hheld := h.slots
    rw [hi] at htotal
    dsimp only [Sys.setRunner]
    omega
  bound := hbound
  cap := hcap.trans h.cap
  opened := hopened.trans h.opened
  launched j := by
    have hlaunched := h.launched j
    by_cases hj : j = i
    · subst hj
      simpa [Sys.setRunner, hmoves.2.2.1, hi, hmoves.1] using hlaunched
    · simpa [Sys.setRunner, hj] using hlaunched
  once j hj := by
    have honce := h.once j hj
    by_cases hji : j = i
    · subst hji
      have hpending := hmoves.2.2.2
      rw [hi] at honce
      simp only [Sys.setRunner, Function.update_self]
      omega
    · simpa [Sys.setRunner, hji] using honce
  started := h.started
  finished hstop := absurd (hi.symm.trans ((h.finished hstop).1 i)) hmoves.2.1
  alive := h.alive

/-- A step of a job does not change whose job it is. -/
theorem map_schedule_set {jobs : List (Job n)} {k : ℕ} {i : Fin n} {p : Phase}
    (hk : jobs[k]? = some ⟨i, p⟩) (q : Phase) :
    (jobs.set k ⟨i, q⟩).map Job.schedule = jobs.map Job.schedule := by
  rw [List.map_set]
  apply List.ext_getElem?
  intro m
  rw [List.getElem?_set]
  split_ifs with hm hlt
  · subst hm
    simp [hk]
  · subst hm
    simpa using hlt
  · rfl

/-- The goroutine of a job moves on. -/
theorem Inv.setJob (h : Inv sch workers s) {k : ℕ} {i : Fin n} {p : Phase}
    (hk : s.jobs[k]? = some ⟨i, p⟩) (q : Phase) (sem : Chan Unit) (wg : WaitGroup)
    (hlive : p ≠ .exited) (hcount : wg.count + p.counts = s.wg.count + q.counts)
    (hslots : sem.buf.length + p.slots = s.sem.buf.length + q.slots)
    (hbound : sem.buf.length ≤ workers) (hcap : sem.cap = s.sem.cap)
    (hopened : sem.closed = s.sem.closed) :
    Inv sch workers ({ s with sem := sem, wg := wg }.setJob k ⟨i, q⟩) where
  schedules := h.schedules
  counts := by
    have htotal := total_set Runner.counts Phase.counts s.runners s.jobs hk ⟨i, q⟩
    have hcounts := h.counts
    dsimp only [Sys.setJob] at htotal ⊢
    omega
  slots := by
    have htotal := total_set Runner.slots Phase.slots s.runners s.jobs hk ⟨i, q⟩
    have hheld := h.slots
    dsimp only [Sys.setJob] at htotal ⊢
    omega
  bound := hbound
  cap := hcap.trans h.cap
  opened := hopened.trans h.opened
  launched := h.launched
  once j hj := by
    dsimp only [Sys.setJob]
    rw [map_schedule_set hk]
    exact h.once j hj
  started := h.started
  finished hstop := absurd ((h.finished hstop).2 _ (List.mem_of_getElem? hk)) hlive
  alive := h.alive

theorem Inv.count_pos_of_runner (h : Inv sch workers s) {i : Fin n}
    (hi : s.runners i = .leaving) : 0 < s.wg.count := by
  have hle := le_total_of_runner Runner.counts Phase.counts s.runners s.jobs i
  have hcounts := h.counts
  rw [hi] at hle
  simp only [Runner.counts] at hle
  omega

theorem Inv.count_pos_of_job (h : Inv sch workers s) {k : ℕ} {i : Fin n}
    (hk : s.jobs[k]? = some ⟨i, .released⟩) : 0 < s.wg.count := by
  have hle := le_total_of_mem Runner.counts Phase.counts s.runners (List.mem_of_getElem? hk)
  have hcounts := h.counts
  simp only [Phase.counts] at hle
  omega

theorem afterDispatch_cases (s : Sys n) (i : Fin n) :
    s.afterDispatch i = .waiting ∧ (s.schedules i).isPeriodic = true ∨
      s.afterDispatch i = .leaving := by
  unfold Sys.afterDispatch
  cases (s.schedules i).isPeriodic with
  | true => exact .inl ⟨rfl, rfl⟩
  | false => exact .inr rfl

theorem Inv.launch (h : Inv sch workers s) {i : Fin n} (hi : i.val = s.next) :
    Inv sch workers
      ({ s with next := s.next + 1, wg := ⟨s.wg.count + 1⟩ }.setRunner i (s.entry i)) := by
  have hidle : s.runners i = .idle := (h.launched i).mpr hi.ge
  have hentry : (s.entry i).counts = 1 ∧ (s.entry i).slots = 0 ∧ (s.entry i).pending = 1 ∧
      s.entry i ≠ .idle := by
    unfold Sys.entry
    split <;> decide
  refine { h with counts := ?_, slots := ?_, launched := fun j => ?_, once := fun j hj => ?_
                  started := fun hne => ?_, finished := fun hstop => ?_ }
  · have htotal := total_update Runner.counts Phase.counts s.runners s.jobs i (s.entry i)
    have hcounts := h.counts
    rw [hidle, hentry.1] at htotal
    dsimp only [Sys.setRunner, Runner.counts] at htotal ⊢
    omega
  · have htotal := total_update Runner.slots Phase.slots s.runners s.jobs i (s.entry i)
    have hheld := h.slots
    rw [hidle, hentry.2.1] at htotal
    dsimp only [Sys.setRunner, Runner.slots] at htotal ⊢
    omega
  · have hlaunched := h.launched j
    by_cases hj : j = i
    · subst hj
      simp [Sys.setRunner, hentry.2.2.2, hi]
    · have hne : j.val ≠ s.next := fun heq => hj (Fin.ext (heq.trans hi.symm))
      simp only [Sys.setRunner, Function.update_of_ne hj, hlaunched]
      omega
  · have honce := h.once j hj
    by_cases hji : j = i
    · subst hji
      rw [hidle] at honce
      simp only [Sys.setRunner, Function.update_self, hentry.2.2.1]
      exact honce
    · simpa [Sys.setRunner, hji] using honce
  · have hnext := h.started hne
    have hlt := i.isLt
    omega
  · have hexited := (h.finished hstop).1 i
    rw [hidle] at hexited
    cases hexited

theorem Inv.spawn (h : Inv sch workers s) {i : Fin n} (hi : s.runners i = .counted) :
    Inv sch workers
      ({ s with jobs := s.jobs ++ [Job.mk i .launched] }.setRunner i (s.afterDispatch i)) := by
  have hafter : (s.afterDispatch i).counts = 1 ∧ (s.afterDispatch i).slots = 0 ∧
      s.afterDispatch i ≠ .idle := by
    rcases afterDispatch_cases s i with ⟨hr, -⟩ | hr <;> rw [hr] <;> decide
  refine { h with counts := ?_, slots := ?_, launched := fun j => ?_, once := fun j hj => ?_
                  finished := fun hstop => ?_ }
  · have htotal := total_update Runner.counts Phase.counts s.runners
      (s.jobs ++ [Job.mk i .launched]) i (s.afterDispatch i)
    have hjob := total_append Runner.counts Phase.counts s.runners s.jobs ⟨i, .launched⟩
    have hcounts := h.counts
    rw [hi, hafter.1] at htotal
    dsimp only [Sys.setRunner, Runner.counts, Phase.counts] at htotal hjob ⊢
    omega
  · have htotal := total_update Runner.slots Phase.slots s.runners
      (s.jobs ++ [Job.mk i .launched]) i (s.afterDispatch i)
    have hjob := total_append Runner.slots Phase.slots s.runners s.jobs ⟨i, .launched⟩
    have hheld := h.slots
    rw [hi, hafter.2.1] at htotal
    dsimp only [Sys.setRunner, Runner.slots, Phase.slots] at htotal hjob ⊢
    omega
  · have hlaunched := h.launched j
    by_cases hj : j = i
    · subst hj
      simpa [Sys.setRunner, hafter.2.2, hi] using hlaunched
    · simpa [Sys.setRunner, hj] using hlaunched
  · have honce := h.once j hj
    by_cases hji : j = i
    · subst hji
      -- The goroutine of a schedule that is not periodic leaves after its only job.
      have hr : s.afterDispatch j = .leaving := by
        rcases afterDispatch_cases s j with ⟨-, hperiodic⟩ | hr
        · rw [h.schedules, hj] at hperiodic
          cases hperiodic
        · exact hr
      rw [hi] at honce
      simpa [Sys.setRunner, hr, Runner.pending] using honce
    · simpa [Sys.setRunner, hji, Ne.symm hji] using honce
  · have hexited := (h.finished hstop).1 i
    rw [hi] at hexited
    cases hexited

theorem Inv.wait (h : Inv sch workers s) (hstop : s.stop = .waiting) (hzero : s.wg.count = 0) :
    (∀ i, s.runners i = .exited) ∧ ∀ job ∈ s.jobs, job.phase = .exited := by
  have hcounts := h.counts
  refine ⟨fun i => ?_, fun job hjob => ?_⟩
  · have hle := le_total_of_runner Runner.counts Phase.counts s.runners s.jobs i
    have hlaunched : s.runners i ≠ .idle := by
      intro hidle
      have hnext := h.started (by simp [hstop])
      have hlt := i.isLt
      have := (h.launched i).mp hidle
      omega
    have hnone : (s.runners i).counts = 0 := by omega
    cases hr : s.runners i with
    | idle => exact absurd hr hlaunched
    | exited => rfl
    | _ => simp [hr, Runner.counts] at hnone
  · have hle := le_total_of_mem Runner.counts Phase.counts s.runners hjob
    have hnone : job.phase.counts = 0 := by omega
    cases hp : job.phase with
    | exited => rfl
    | _ => simp [hp, Phase.counts] at hnone

theorem inv_step {x : Action n} (h : Inv sch workers s) (hstep : s.step x = some s') :
    Inv sch workers s' := by
  have hcounts := h.counts
  have hbound := h.bound
  cases effect_of_step hstep with
  | launched hi => exact h.launch hi
  | launchCrashes hneg => omega
  | fired hi => exact h.setRunner hi .dispatching s.sem s.wg (by decide) rfl rfl hbound rfl rfl
  | gaveUp hi hc => exact h.setRunner hi .leaving s.sem s.wg (by decide) rfl rfl hbound rfl rfl
  | @skipped i hi hc =>
      rcases afterDispatch_cases s i with ⟨hr, -⟩ | hr
      · rw [hr]
        exact h.setRunner hi .waiting s.sem s.wg (by decide) rfl rfl hbound rfl rfl
      · rw [hr]
        exact h.setRunner hi .leaving s.sem s.wg (by decide) rfl rfl hbound rfl rfl
  | acquired hi hopen hroom =>
      refine h.setRunner hi .acquired { s.sem with buf := s.sem.buf ++ [()] } s.wg (by decide) rfl
        (by simp [Runner.slots]) ?_ rfl rfl
      rw [h.cap] at hroom
      simpa using hroom
  | acquireCrashes hclosed =>
      rw [h.opened] at hclosed
      cases hclosed
  | added hi =>
      exact h.setRunner hi .counted s.sem ⟨s.wg.count + 1⟩ (by decide)
        (by simp [Runner.counts, add_assoc]) rfl hbound rfl rfl
  | addCrashes hneg => omega
  | spawned hi => exact h.spawn hi
  | left hi hpos =>
      exact h.setRunner hi .exited s.sem ⟨s.wg.count - 1⟩ (by decide) (by simp [Runner.counts])
        rfl hbound rfl rfl
  | leaveCrashes hi hzero => exact absurd (h.count_pos_of_runner hi) (not_lt.mpr hzero)
  | began hk => exact h.setJob hk .running s.sem s.wg (by decide) rfl rfl hbound rfl rfl
  | finished hk => exact h.setJob hk .returned s.sem s.wg (by decide) rfl rfl hbound rfl rfl
  | @released k i buf hk hbuf =>
      rw [hbuf, List.length_cons] at hbound
      exact h.setJob hk .released { s.sem with buf := buf } s.wg (by decide) rfl
        (by simp [hbuf, Phase.slots]) (by dsimp only; omega) rfl rfl
  | releasedClosed hk hclosed =>
      rw [h.opened] at hclosed
      cases hclosed
  | done hk hpos =>
      exact h.setJob hk .exited s.sem ⟨s.wg.count - 1⟩ (by decide) (by simp [Phase.counts])
        rfl hbound rfl rfl
  | doneCrashes hk hzero => exact absurd (h.count_pos_of_job hk) (not_lt.mpr hzero)
  | cancelled => exact { h with }
  | stopped hstop hnext => exact { h with started := fun _ => hnext, finished := nofun }
  | waited hstop hzero =>
      exact { h with started := fun _ => h.started (by simp [hstop]),
                     finished := fun _ => h.wait hstop hzero }

theorem run_inv {sch : Scheduler} {xs : List (Action sch.schedules.length)}
    {s : Sys sch.schedules.length} (h : run Sys.step sch.start xs = some s) :
    Inv sch.schedules.get sch.workers s :=
  run_forall (fun _ _ _ => inv_step) (inv_start sch) h

/-- How many job functions run. -/
def running (s : Sys n) : ℕ := s.jobs.countP fun job => job.phase = .running

/-- How many calls of the job of a schedule have begun. -/
def starts (s : Sys n) (i : Fin n) : ℕ :=
  s.jobs.countP fun job => job.schedule = i ∧ job.phase ≠ .launched

theorem Inv.running_le (h : Inv sch workers s) : running s ≤ workers := by
  have hrunning : running s ≤ (s.jobs.map fun job => job.phase.slots).sum := by
    apply countP_le_sum
    intro job hjob
    rw [of_decide_eq_true hjob]
    rfl
  have hslots := h.slots
  have hbound := h.bound
  unfold total at hslots
  omega

theorem starts_le_count (s : Sys n) (i : Fin n) :
    starts s i ≤ (s.jobs.map Job.schedule).count i := by
  rw [List.count_eq_countP, List.countP_map]
  apply List.countP_mono_left
  intro job _ hjob
  simpa using (of_decide_eq_true hjob).1

/-- A scheduler that has been stopped stays as it is. -/
theorem Inv.step_of_stopped (h : Inv sch workers s) (hstop : s.stop = .returned) {x : Action n}
    (hstep : s.step x = some s') : s'.stop = .returned ∧ s'.jobs = s.jobs := by
  have hrunner := (h.finished hstop).1
  have hjob : ∀ {k : ℕ} {i : Fin n} {p : Phase}, s.jobs[k]? = some ⟨i, p⟩ → p = .exited :=
    fun hk => (h.finished hstop).2 _ (List.mem_of_getElem? hk)
  cases effect_of_step hstep with
  | launched | launchCrashes | acquireCrashes | addCrashes | leaveCrashes | doneCrashes |
    cancelled => exact ⟨hstop, rfl⟩
  | fired | gaveUp | skipped | acquired | added | left => exact ⟨hstop, rfl⟩
  | spawned hi => exact absurd ((hrunner _).symm.trans hi) (by decide)
  | began hk => exact absurd (hjob hk) (by decide)
  | finished hk => exact absurd (hjob hk) (by decide)
  | released hk hbuf => exact absurd (hjob hk) (by decide)
  | releasedClosed hk hclosed => exact absurd (hjob hk) (by decide)
  | done hk hpos => exact absurd (hjob hk) (by decide)
  | stopped hidle hnext => exact absurd (hstop.symm.trans hidle) (by decide)
  | waited hwaiting hzero => exact absurd (hstop.symm.trans hwaiting) (by decide)

theorem Inv.running_of_stopped (h : Inv sch workers s) (hstop : s.stop = .returned) :
    running s = 0 := by
  rw [running, List.countP_eq_zero]
  intro job hjob
  simp [(h.finished hstop).2 job hjob]

/-- After any run from the call of `Start` on, no more job functions run than there
are workers, and the job of a schedule without an interval has been called at most
once.  Once `Stop` has returned, no job function runs and none is called again,
whatever happens afterwards. -/
theorem scheduler_bounds_and_stops (sch : Scheduler) {xs : List (Action sch.schedules.length)}
    {s : Sys sch.schedules.length} (h : run Sys.step sch.start xs = some s) :
    s.crashed = none ∧ running s ≤ sch.workers ∧
      (∀ i, (sch.schedules.get i).interval ≤ 0 → starts s i ≤ 1) ∧
      (s.stop = .returned → ∀ ys t, run Sys.step s ys = some t →
        running t = 0 ∧ ∀ i, starts t i = starts s i) := by
  have hinv := run_inv h
  refine ⟨hinv.alive, hinv.running_le, fun i hi => ?_, fun hstop ys t ht => ?_⟩
  · have honce := hinv.once i (by simpa [Schedule.isPeriodic] using hi)
    have hle := starts_le_count s i
    omega
  · have hkeeps : Inv sch.schedules.get sch.workers t ∧ t.stop = .returned ∧ t.jobs = s.jobs := by
      refine run_forall (P := fun t => Inv sch.schedules.get sch.workers t ∧
        t.stop = .returned ∧ t.jobs = s.jobs) ?_ ⟨hinv, hstop, rfl⟩ ht
      rintro u x v ⟨hu, hustop, hujobs⟩ hstep
      obtain ⟨hvstop, hvjobs⟩ := hu.step_of_stopped hustop hstep
      exact ⟨inv_step hu hstep, hvstop, hvjobs.trans hujobs⟩
    obtain ⟨hinv', hstop', hjobs⟩ := hkeeps
    refine ⟨hinv'.running_of_stopped hstop', fun i => ?_⟩
    simp only [starts, hjobs]

/-- One worker, a periodic job and a delayed one. -/
def twoJobs : Scheduler := ((new 1).every 10).after 5

/-- The delayed job waits for the slot of the periodic one and is still running
when `Stop` is called. -/
def stoppedSteps : List (Action 2) :=
  [.launch 0, .launch 1, .acquire 0, .add 0, .spawn 0, .begin 0, .fire 1, .finish 0 none,
    .release 0, .acquire 1, .done 0, .add 1, .spawn 1, .begin 1, .stop, .giveUp 0, .leave 0,
    .leave 1, .finish 1 (some (.new "context canceled")), .release 1, .done 1, .wait]

theorem two_jobs_stop :
    ∃ s, run Sys.step twoJobs.start stoppedSteps = some s ∧ s.stop = .returned ∧
      running s = 0 ∧ starts s (1 : Fin 2) ≤ 1 := by
  have hrun : (run Sys.step twoJobs.start stoppedSteps).map Sys.stop = some .returned := rfl
  obtain ⟨s, hs, hstop⟩ := Option.map_eq_some_iff.mp hrun
  obtain ⟨-, -, honce, hstopped⟩ := scheduler_bounds_and_stops twoJobs hs
  exact ⟨s, hs, hstop, (hstopped hstop [] s rfl).1, honce (1 : Fin 2) (by decide)⟩

end Gkit.Sched
