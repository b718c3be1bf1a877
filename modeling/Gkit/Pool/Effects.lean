import Gkit.Pool.Model

/-!
# What a step of the pool can do

One constructor for each outcome of each operation, with the condition under
which it comes about.  Everything about runs of the pool is proved from these.
-/

namespace Gkit.Pool

open Gkit.Lib

variable {ι T : Type} {n : ℕ} [DecidableEq ι]

inductive Effect (s : Sys ι T n) : Action ι T n → Sys ι T n → Prop where
  | refused {c : ι} {kind : Kind} {job : T} (hc : s.calls c = .idle) (h : s.stopped = true) :
      Effect s (.enter c kind job) (s.setCall c (.returned kind job (some errPoolStopped)))
  | entered {c : ι} {kind : Kind} {job : T} (hc : s.calls c = .idle) (h : s.stopped = false) :
      Effect s (.enter c kind job) (s.setCall c (.sending kind job))
  | sent {c : ι} {kind : Kind} {job : T} (hc : s.calls c = .sending kind job)
      (hopen : s.jobs.closed = false) (hroom : s.jobs.buf.length < s.jobs.cap) :
      Effect s (.send c) ({ s with jobs := { s.jobs with buf := s.jobs.buf ++ [job] } }.setCall c
        (.sent kind job))
  | sendPanics {c : ι} {kind : Kind} {job : T} (hc : s.calls c = .sending kind job)
      (hclosed : s.jobs.closed = true) :
      Effect s (.send c) (s.setCall c (.panicked kind job "send on closed channel"))
  | handed {c : ι} {w : Fin n} {kind : Kind} {job : T} (hc : s.calls c = .sending kind job)
      (hw : s.workers w = .receiving) (hopen : s.jobs.closed = false) (hbuf : s.jobs.buf = []) :
      Effect s (.handOver c w) ((s.setCall c (.sent kind job)).setWorker w (.received job))
  | gaveUp {c : ι} {job : T} {err : GoError} (hc : s.calls c = .sending .submit job)
      (herr : s.contexts c = some err) :
      Effect s (.giveUp c) (s.setCall c (.returned .submit job (some err)))
  | full {c : ι} {job : T} (hc : s.calls c = .sending .trySubmit job)
      (hopen : s.jobs.closed = false) (hfull : s.jobs.cap ≤ s.jobs.buf.length) :
      Effect s (.giveUp c) (s.setCall c (.returned .trySubmit job (some errQueueFull)))
  | counted {c : ι} {kind : Kind} {job : T} (hc : s.calls c = .sent kind job) :
      Effect s (.count c)
        ({ s with submitted := s.submitted + 1 }.setCall c (.returned kind job none))
  | cancelled {c : ι} {err : GoError} (hc : s.contexts c = none) :
      Effect s (.cancel c err) { s with contexts := Function.update s.contexts c (some err) }
  | started (h : ∀ w, (s.workers w).isWaiting = true) :
      Effect s .start { s with workers := fun _ => .receiving }
  | stopStores (h : s.stop = .idle) : Effect s .stop { s with stopped := true, stop := .stored }
  | stopCloses (h : s.stop = .stored) (hopen : s.jobs.closed = false) :
      Effect s .stop { s with jobs := { s.jobs with closed := true }, stop := .closed }
  | stopPanics (h : s.stop = .stored) (hclosed : s.jobs.closed = true) :
      Effect s .stop { s with stop := .panicked "close of closed channel" }
  | stopReturns (h : s.stop = .closed) (hdone : ∀ w, (s.workers w).isDone = true) :
      Effect s .stop { s with stop := .returned }
  | received {w : Fin n} {job : T} {buf : List T} (hw : s.workers w = .receiving)
      (hbuf : s.jobs.buf = job :: buf) :
      Effect s (.work w) ({ s with jobs := { s.jobs with buf := buf } }.setWorker w (.received job))
  | exited {w : Fin n} (hw : s.workers w = .receiving) (hbuf : s.jobs.buf = [])
      (hclosed : s.jobs.closed = true) : Effect s (.work w) (s.setWorker w .exited)
  | began {w : Fin n} {job : T} (hw : s.workers w = .received job) :
      Effect s (.work w) ({ s with inFlight := s.inFlight + 1 }.setWorker w (.running job))
  | finished {w : Fin n} {job : T} {err : Option GoError} (hw : s.workers w = .running job) :
      Effect s (.finish w err) (s.setWorker w (.ran err))
  | landed {w : Fin n} {err : Option GoError} (hw : s.workers w = .ran err) :
      Effect s (.work w) ({ s with inFlight := s.inFlight - 1 }.setWorker w (.left err))
  | completed {w : Fin n} {err : Option GoError} (hw : s.workers w = .left err) :
      Effect s (.work w) ({ s with completed := s.completed + 1 }.setWorker w (.counted err))
  | looped {w : Fin n} {err : Option GoError} (hw : s.workers w = .counted err) :
      Effect s (.work w) ({ s with
        errors := if err.isSome then s.errors + 1 else s.errors }.setWorker w .receiving)

variable {s s' : Sys ι T n}

theorem effect_send {c : ι} (h : s.send c = some s') : Effect s (.send c) s' := by
  unfold Sys.send at h
  cases hc : s.calls c with
  | sending kind job =>
      simp only [hc] at h
      rcases s.jobs.send_cases job with ⟨hclosed, hs⟩ | ⟨hopen, hroom, hs⟩ | ⟨-, -, hs⟩
      · simp only [hs, Option.some.injEq] at h
        exact h ▸ .sendPanics hc hclosed
      · simp only [hs, Option.some.injEq] at h
        exact h ▸ .sent hc hopen hroom
      · simp [hs] at h
  | _ => simp [hc] at h

theorem effect_giveUp {c : ι} (h : s.giveUp c = some s') : Effect s (.giveUp c) s' := by
  unfold Sys.giveUp at h
  cases hc : s.calls c with
  | sending kind job =>
      cases kind with
      | submit =>
          simp only [hc] at h
          obtain ⟨err, herr, rfl⟩ := Option.map_eq_some_iff.mp h
          exact .gaveUp hc herr
      | trySubmit =>
          simp only [hc] at h
          rcases s.jobs.send_cases job with ⟨-, hs⟩ | ⟨-, -, hs⟩ | ⟨hopen, hfull, hs⟩
          · simp [hs] at h
          · simp [hs] at h
          · simp only [hs, Option.some.injEq] at h
            exact h ▸ .full hc hopen hfull
  | _ => simp [hc] at h

theorem effect_stop (h : s.stopNext = some s') : Effect s .stop s' := by
  unfold Sys.stopNext at h
  cases hstop : s.stop with
  | idle =>
      simp only [hstop, Option.some.injEq] at h
      exact h ▸ .stopStores hstop
  | stored =>
      cases hclosed : s.jobs.closed with
      | true =>
          simp only [hstop, Chan.close, hclosed, if_true, Option.some.injEq] at h
          exact h ▸ .stopPanics hstop hclosed
      | false =>
          simp only [hstop, Chan.close, hclosed, Bool.false_eq_true, if_false,
            Option.some.injEq] at h
          exact h ▸ .stopCloses hstop hclosed
  | closed =>
      simp only [hstop] at h
      split_ifs at h with hdone
      obtain rfl := Option.some.inj h
      exact .stopReturns hstop hdone
  | returned => simp [hstop] at h
  | panicked text => simp [hstop] at h

theorem effect_work {w : Fin n} (h : s.work w = some s') : Effect s (.work w) s' := by
  unfold Sys.work at h
  cases hw : s.workers w with
  | receiving =>
      simp only [hw] at h
      rcases s.jobs.recv_cases with ⟨job, buf, hbuf, hr⟩ | ⟨hbuf, hclosed, hr⟩ | ⟨-, -, hr⟩
      · simp only [hr, Option.some.injEq] at h
        exact h ▸ .received hw hbuf
      · simp only [hr, Option.some.injEq] at h
        exact h ▸ .exited hw hbuf hclosed
      · simp [hr] at h
  | received job =>
      simp only [hw, Option.some.injEq] at h
      exact h ▸ .began hw
  | ran err =>
      simp only [hw, Option.some.injEq] at h
      exact h ▸ .landed hw
  | left err =>
      simp only [hw, Option.some.injEq] at h
      exact h ▸ .completed hw
  | counted err =>
      simp only [hw, Option.some.injEq] at h
      exact h ▸ .looped hw
  | _ => simp [hw] at h

theorem effect_of_step {x : Action ι T n} (h : s.step x = some s') : Effect s x s' := by
  cases x with
  | enter c kind job =>
      simp only [Sys.step, Sys.enter] at h
      cases hc : s.calls c with
      | idle =>
          cases hstop : s.stopped with
          | true =>
              simp only [hc, hstop, if_true, Option.some.injEq] at h
              exact h ▸ .refused hc hstop
          | false =>
              simp only [hc, hstop, Bool.false_eq_true, if_false, Option.some.injEq] at h
              exact h ▸ .entered hc hstop
      | _ => simp [hc] at h
  | send c => exact effect_send h
  | handOver c w =>
      simp only [Sys.step, Sys.handOver] at h
      cases hc : s.calls c with
      | sending kind job =>
          cases hw : s.workers w with
          | receiving =>
              simp only [hc, hw] at h
              split_ifs at h with hmeets
              obtain rfl := Option.some.inj h
              simp only [Chan.meets, Bool.and_eq_true, List.isEmpty_iff,
                Bool.not_eq_true'] at hmeets
              exact .handed hc hw hmeets.2 hmeets.1
          | _ => simp [hc, hw] at h
      | _ => simp [hc] at h
  | giveUp c => exact effect_giveUp h
  | count c =>
      simp only [Sys.step, Sys.count] at h
      cases hc : s.calls c with
      | sent kind job =>
          simp only [hc, Option.some.injEq] at h
          exact h ▸ .counted hc
      | _ => simp [hc] at h
  | cancel c err =>
      simp only [Sys.step, Sys.cancel] at h
      cases hc : s.contexts c with
      | none =>
          simp only [hc, Option.some.injEq] at h
          exact h ▸ .cancelled hc
      | some e => simp [hc] at h
  | start =>
      simp only [Sys.step, Sys.startWorkers] at h
      split_ifs at h with hwait
      obtain rfl := Option.some.inj h
      exact .started hwait
  | stop => exact effect_stop h
  | work w => exact effect_work h
  | finish w err =>
      simp only [Sys.step, Sys.finish] at h
      cases hw : s.workers w with
      | running job =>
          simp only [hw, Option.some.injEq] at h
          exact h ▸ .finished hw
      | _ => simp [hw] at h

end Gkit.Pool
