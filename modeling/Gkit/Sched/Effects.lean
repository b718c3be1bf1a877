import Gkit.Sched.Model

/-!
# What a step of the scheduler can do

One constructor for each outcome of each operation, with the condition under
which it comes about.
-/

namespace Gkit.Sched

open Gkit.Lib

variable {n : ℕ}

inductive Effect (s : Sys n) : Action n → Sys n → Prop where
  | launched {i : Fin n} (hi : i.val = s.next) :
      Effect s (.launch i)
        ({ s with next := s.next + 1, wg := ⟨s.wg.count + 1⟩ }.setRunner i (s.entry i))
  | launchCrashes {i : Fin n} {text : String} (hneg : s.wg.count + 1 < 0) :
      Effect s (.launch i) { s with crashed := some text }
  | fired {i : Fin n} (hi : s.runners i = .waiting) :
      Effect s (.fire i) (s.setRunner i .dispatching)
  | gaveUp {i : Fin n} (hi : s.runners i = .waiting) (hc : s.cancelled = true) :
      Effect s (.giveUp i) (s.setRunner i .leaving)
  | skipped {i : Fin n} (hi : s.runners i = .dispatching) (hc : s.cancelled = true) :
      Effect s (.giveUp i) (s.setRunner i (s.afterDispatch i))
  | acquired {i : Fin n} (hi : s.runners i = .dispatching) (hopen : s.sem.closed = false)
      (hroom : s.sem.buf.length < s.sem.cap) :
      Effect s (.acquire i)
        ({ s with sem := { s.sem with buf := s.sem.buf ++ [()] } }.setRunner i .acquired)
  | acquireCrashes {i : Fin n} {text : String} (hclosed : s.sem.closed = true) :
      Effect s (.acquire i) { s with crashed := some text }
  | added {i : Fin n} (hi : s.runners i = .acquired) :
      Effect s (.add i) ({ s with wg := ⟨s.wg.count + 1⟩ }.setRunner i .counted)
  | addCrashes {i : Fin n} {text : String} (hneg : s.wg.count + 1 < 0) :
      Effect s (.add i) { s with crashed := some text }
  | spawned {i : Fin n} (hi : s.runners i = .counted) :
      Effect s (.spawn i)
        ({ s with jobs := s.jobs ++ [Job.mk i .launched] }.setRunner i (s.afterDispatch i))
  | left {i : Fin n} (hi : s.runners i = .leaving) (hpos : 0 < s.wg.count) :
      Effect s (.leave i) ({ s with wg := ⟨s.wg.count - 1⟩ }.setRunner i .exited)
  | leaveCrashes {i : Fin n} {text : String} (hi : s.runners i = .leaving)
      (hzero : s.wg.count ≤ 0) : Effect s (.leave i) { s with crashed := some text }
  | began {k : ℕ} {i : Fin n} (hk : s.jobs[k]? = some ⟨i, .launched⟩) :
      Effect s (.begin k) (s.setJob k ⟨i, .running⟩)
  | finished {k : ℕ} {err : Option GoError} {i : Fin n} (hk : s.jobs[k]? = some ⟨i, .running⟩) :
      Effect s (.finish k err) (s.setJob k ⟨i, .returned⟩)
  | released {k : ℕ} {i : Fin n} {buf : List Unit} (hk : s.jobs[k]? = some ⟨i, .returned⟩)
      (hbuf : s.sem.buf = () :: buf) :
      Effect s (.release k) ({ s with sem := { s.sem with buf := buf } }.setJob k ⟨i, .released⟩)
  | releasedClosed {k : ℕ} {i : Fin n} (hk : s.jobs[k]? = some ⟨i, .returned⟩)
      (hclosed : s.sem.closed = true) : Effect s (.release k) (s.setJob k ⟨i, .released⟩)
  | done {k : ℕ} {i : Fin n} (hk : s.jobs[k]? = some ⟨i, .released⟩) (hpos : 0 < s.wg.count) :
      Effect s (.done k) ({ s with wg := ⟨s.wg.count - 1⟩ }.setJob k ⟨i, .exited⟩)
  | doneCrashes {k : ℕ} {i : Fin n} {text : String} (hk : s.jobs[k]? = some ⟨i, .released⟩)
      (hzero : s.wg.count ≤ 0) : Effect s (.done k) { s with crashed := some text }
  | cancelled : Effect s .cancel { s with cancelled := true }
  | stopped (hstop : s.stop = .idle) (hnext : s.next = n) :
      Effect s .stop { s with cancelled := true, stop := .waiting }
  | waited (hstop : s.stop = .waiting) (hzero : s.wg.count = 0) :
      Effect s .wait { s with stop := .returned }

variable {s s' : Sys n}

theorem effect_launch {i : Fin n} (h : s.launch i = some s') : Effect s (.launch i) s' := by
  unfold Sys.launch at h
  split_ifs at h with hi
  rcases s.wg.add_cases 1 with ⟨-, hadd⟩ | ⟨hneg, hadd⟩
  · simp only [hadd, Option.some.injEq] at h
    subst h
    exact .launched hi
  · simp only [hadd, Option.some.injEq] at h
    subst h
    exact .launchCrashes hneg

theorem effect_fire {i : Fin n} (h : s.fire i = some s') : Effect s (.fire i) s' := by
  unfold Sys.fire at h
  split at h
  · rename_i hi
    cases h
    exact .fired hi
  · cases h

theorem effect_giveUp {i : Fin n} (h : s.giveUp i = some s') : Effect s (.giveUp i) s' := by
  unfold Sys.giveUp at h
  split at h
  · rename_i hi hc
    cases h
    exact .gaveUp hi hc
  · rename_i hi hc
    cases h
    exact .skipped hi hc
  · cases h

theorem effect_acquire {i : Fin n} (h : s.acquire i = some s') : Effect s (.acquire i) s' := by
  unfold Sys.acquire at h
  split at h
  · rename_i hi
    rcases s.sem.send_cases () with ⟨hclosed, hs⟩ | ⟨hopen, hroom, hs⟩ | ⟨-, -, hs⟩
    · simp only [hs, Option.some.injEq] at h
      subst h
      exact .acquireCrashes hclosed
    · simp only [hs, Option.some.injEq] at h
      subst h
      exact .acquired hi hopen hroom
    · simp [hs] at h
  · cases h

theorem effect_add {i : Fin n} (h : s.add i = some s') : Effect s (.add i) s' := by
  unfold Sys.add at h
  split at h
  · rename_i hi
    rcases s.wg.add_cases 1 with ⟨-, hadd⟩ | ⟨hneg, hadd⟩
    · simp only [hadd, Option.some.injEq] at h
      subst h
      exact .added hi
    · simp only [hadd, Option.some.injEq] at h
      subst h
      exact .addCrashes hneg
  · cases h

theorem effect_spawn {i : Fin n} (h : s.spawn i = some s') : Effect s (.spawn i) s' := by
  unfold Sys.spawn at h
  split at h
  · rename_i hi
    cases h
    exact .spawned hi
  · cases h

theorem effect_leave {i : Fin n} (h : s.leave i = some s') : Effect s (.leave i) s' := by
  unfold Sys.leave at h
  split at h
  · rename_i hi
    rcases s.wg.done_cases with ⟨hpos, hdone⟩ | ⟨hzero, hdone⟩
    · simp only [hdone, Option.some.injEq] at h
      subst h
      exact .left hi hpos
    · simp only [hdone, Option.some.injEq] at h
      subst h
      exact .leaveCrashes hi hzero
  · cases h

theorem effect_begin {k : ℕ} (h : s.begin k = some s') : Effect s (.begin k) s' := by
  unfold Sys.begin at h
  split at h
  · rename_i i hk
    cases h
    exact .began hk
  · cases h

theorem effect_finish {k : ℕ} {err : Option GoError} (h : s.finish k err = some s') :
    Effect s (.finish k err) s' := by
  unfold Sys.finish at h
  split at h
  · rename_i i hk
    cases h
    exact .finished hk
  · cases h

theorem effect_release {k : ℕ} (h : s.release k = some s') : Effect s (.release k) s' := by
  unfold Sys.release at h
  split at h
  · rename_i i hk
    rcases s.sem.recv_cases with ⟨v, buf, hbuf, hr⟩ | ⟨-, hclosed, hr⟩ | ⟨-, -, hr⟩
    · simp only [hr, Option.some.injEq] at h
      subst h
      exact .released hk hbuf
    · simp only [hr, Option.some.injEq] at h
      subst h
      exact .releasedClosed hk hclosed
    · simp [hr] at h
  · cases h

theorem effect_done {k : ℕ} (h : s.done k = some s') : Effect s (.done k) s' := by
  unfold Sys.done at h
  split at h
  · rename_i i hk
    rcases s.wg.done_cases with ⟨hpos, hdone⟩ | ⟨hzero, hdone⟩
    · simp only [hdone, Option.some.injEq] at h
      subst h
      exact .done hk hpos
    · simp only [hdone, Option.some.injEq] at h
      subst h
      exact .doneCrashes hk hzero
  · cases h

theorem effect_of_step {x : Action n} (h : s.step x = some s') : Effect s x s' := by
  cases x with
  | launch i => exact effect_launch h
  | fire i => exact effect_fire h
  | giveUp i => exact effect_giveUp h
  | acquire i => exact effect_acquire h
  | add i => exact effect_add h
  | spawn i => exact effect_spawn h
  | leave i => exact effect_leave h
  | begin k => exact effect_begin h
  | finish k err => exact effect_finish h
  | release k => exact effect_release h
  | done k => exact effect_done h
  | cancel =>
      cases h
      exact .cancelled
  | stop =>
      simp only [Sys.step, Sys.callStop] at h
      split_ifs at h with hcall
      cases h
      exact .stopped hcall.1 hcall.2
  | wait =>
      simp only [Sys.step, Sys.wait] at h
      split_ifs at h with hwait
      cases h
      exact .waited hwait.1 (of_decide_eq_true hwait.2)

end Gkit.Sched
