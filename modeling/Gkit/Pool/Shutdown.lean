import Gkit.Pool.Effects

/-!
# Shutting the pool down

A call checks `stopped` and sends afterwards, so `Stop` can store the flag and
close the channel in between, and the send then panics.  This is the only way to
a panic: while `Stop` closes the channel with no call past its check, every call
ends with one of its documented results.
-/

namespace Gkit.Pool

open Gkit.Lib

variable {ι T : Type} {n : ℕ}

namespace Call

/-- Past the check of `stopped` and not yet past the `select`. -/
def atSend : Call T → Bool
  | .sending _ _ => true
  | _ => false

def isPanicked : Call T → Bool
  | .panicked _ _ _ => true
  | _ => false

/-- The result of an ended call is documented; `ctx` is the error of its context,
if that is done. -/
def Documented (ctx : Option GoError) : Call T → Prop
  | .returned .submit _ err =>
      err = none ∨ err = some errPoolStopped ∨ ∃ e, err = some e ∧ ctx = some e
  | .returned .trySubmit _ err => err = none ∨ err = some errQueueFull ∨ err = some errPoolStopped
  | _ => True

theorem documented_nil (ctx : Option GoError) (kind : Kind) (job : T) :
    (Call.returned kind job none).Documented ctx := by
  cases kind <;> exact .inl rfl

theorem documented_stopped (ctx : Option GoError) (kind : Kind) (job : T) :
    (Call.returned kind job (some errPoolStopped)).Documented ctx := by
  cases kind
  · exact .inr (.inl rfl)
  · exact .inr (.inr rfl)

theorem Documented.done {call : Call T} (h : call.Documented none) (ctx : Option GoError) :
    call.Documented ctx := by
  cases call with
  | returned kind job err =>
      cases kind with
      | submit =>
          rcases h with h | h | ⟨e, -, he⟩
          · exact .inl h
          · exact .inr (.inl h)
          · nomatch he
      | trySubmit => exact h
  | _ => trivial

end Call

def Stop.isPanicked : Stop → Bool
  | .panicked _ => true
  | _ => false

variable [DecidableEq ι] {s s' : Sys ι T n} {x : Action ι T n}

/-- A property of every call survives a step that changes only one of them. -/
theorem forall_calls_setCall {P : ι → Call T → Prop} {c : ι} {call : Call T}
    (h : ∀ d, P d (s.calls d)) (hc : P c call) (d : ι) : P d ((s.setCall c call).calls d) := by
  by_cases hd : d = c
  · subst hd
    simpa only [Sys.setCall, Function.update_self] using hc
  · simpa only [Sys.setCall, Function.update_of_ne hd] using h d

/-! ## What holds in every run -/

/-- How far `Stop` is shows in the flag and in the channel, and no `Stop` panics. -/
structure Staged (s : Sys ι T n) : Prop where
  opened : s.stop = .idle ∨ s.stop = .stored → s.jobs.closed = false
  stopped : s.stopped = false → s.stop = .idle
  stop : s.stop.isPanicked = false

theorem Staged.step (hs : Staged s) (h : s.step x = some s') : Staged s' := by
  cases effect_of_step h with
  | stopStores hstop =>
      exact ⟨fun _ => hs.opened (.inl hstop), fun hflag => by simp at hflag, rfl⟩
  | stopCloses hstop hopen =>
      refine ⟨fun hstage => by simp at hstage, fun hflag => ?_, rfl⟩
      have := hs.stopped hflag
      rw [hstop] at this
      nomatch this
  | stopPanics hstop hclosed =>
      rw [hs.opened (.inr hstop)] at hclosed
      nomatch hclosed
  | stopReturns hstop hdone =>
      refine ⟨fun hstage => by simp at hstage, fun hflag => ?_, rfl⟩
      have := hs.stopped hflag
      rw [hstop] at this
      nomatch this
  -- every other step leaves the flag, the state of the channel and `Stop` alone
  | _ => exact ⟨hs.opened, hs.stopped, hs.stop⟩

def Answers (s : Sys ι T n) : Prop := ∀ c, (s.calls c).Documented (s.contexts c)

theorem Answers.setCall (hs : Answers s) {c : ι} {call : Call T}
    (hc : call.Documented (s.contexts c)) : Answers (s.setCall c call) :=
  forall_calls_setCall (P := fun d call => call.Documented (s.contexts d)) hs hc

theorem Answers.step (hs : Answers s) (h : s.step x = some s') : Answers s' := by
  cases effect_of_step h with
  | refused hc hstop => exact hs.setCall (Call.documented_stopped _ _ _)
  | entered hc hstop => exact hs.setCall trivial
  | sent hc hopen hroom => exact Answers.setCall (s := { s with jobs := _ }) hs trivial
  | sendPanics hc hclosed => exact hs.setCall trivial
  | handed hc hw hopen hbuf => exact hs.setCall trivial
  | gaveUp hc herr => exact hs.setCall (.inr (.inr ⟨_, rfl, herr⟩))
  | full hc hopen hfull => exact hs.setCall (.inr (.inl rfl))
  | counted hc =>
      exact Answers.setCall (s := { s with submitted := _ }) hs (Call.documented_nil _ _ _)
  | @cancelled c err hc =>
      intro d
      by_cases hd : d = c
      · subst hd
        exact Call.Documented.done (hc ▸ hs d) _
      · simpa only [Function.update_of_ne hd] using hs d
  | _ => exact hs

/-! ## What the order of the close decides -/

/-- `Stop` closes the channel only while no call is between its check and its send. -/
def ClosesAlone (s : Sys ι T n) : Action ι T n → Prop
  | .stop => s.stop = .stored → ∀ c, (s.calls c).atSend = false
  | _ => True

instance [Fintype ι] (s : Sys ι T n) : ∀ x, Decidable (ClosesAlone s x)
  | .stop => inferInstanceAs (Decidable (s.stop = .stored → ∀ c, (s.calls c).atSend = false))
  | .enter _ _ _ | .send _ | .handOver _ _ | .giveUp _ | .count _ | .cancel _ _ | .start
  | .work _ | .finish _ _ => inferInstanceAs (Decidable True)

/-- No call has panicked, and none is on its way to the closed channel. -/
structure Quiet (s : Sys ι T n) : Prop where
  sends : s.jobs.closed = true → ∀ c, (s.calls c).atSend = false
  calls : ∀ c, (s.calls c).isPanicked = false

/-- A call reaches a state that is neither at the send nor a panic. -/
theorem Quiet.setCall (hs : Quiet s) {c : ι} {call : Call T} (hsend : call.atSend = false)
    (hpanic : call.isPanicked = false) : Quiet (s.setCall c call) where
  sends hclosed := forall_calls_setCall (P := fun _ call => call.atSend = false)
    (hs.sends hclosed) hsend
  calls := forall_calls_setCall (P := fun _ call => call.isPanicked = false) hs.calls hpanic

theorem Quiet.step (hs : Quiet s) (hst : Staged s) (hx : ClosesAlone s x)
    (h : s.step x = some s') : Quiet s' := by
  cases effect_of_step h with
  | refused hc hstop => exact hs.setCall rfl rfl
  | entered hc hstop =>
      refine ⟨fun hclosed => ?_, forall_calls_setCall (P := fun _ call => call.isPanicked = false)
        hs.calls rfl⟩
      -- the flag was still down, so `Stop` had not begun
      have hopen := hst.opened (.inl (hst.stopped hstop))
      have hclosed : s.jobs.closed = true := hclosed
      rw [hopen] at hclosed
      nomatch hclosed
  | @sent c kind job hc hopen hroom =>
      have hq : Quiet { s with jobs := { s.jobs with buf := s.jobs.buf ++ [job] } } :=
        ⟨hs.sends, hs.calls⟩
      apply hq.setCall <;> rfl
  | @sendPanics c _ _ hc hclosed =>
      have := hs.sends hclosed c
      rw [hc] at this
      nomatch this
  | @handed c w kind job hc hw hopen hbuf =>
      have hq : Quiet (s.setCall c (.sent kind job)) := hs.setCall rfl rfl
      exact ⟨hq.sends, hq.calls⟩
  | gaveUp hc herr => exact hs.setCall rfl rfl
  | full hc hopen hfull => exact hs.setCall rfl rfl
  | counted hc =>
      have hq : Quiet { s with submitted := s.submitted + 1 } := ⟨hs.sends, hs.calls⟩
      apply hq.setCall <;> rfl
  | stopCloses hstop hopen => exact ⟨fun _ => hx hstop, hs.calls⟩
  | _ => exact ⟨hs.sends, hs.calls⟩

/-- With a call past its check, the close of the channel leads to a panic. -/
theorem send_panics_after_close (hst : Staged s) (hx : ¬ ClosesAlone s .stop) :
    ∃ c s', run Sys.step s [.stop, .send c] = some s' ∧ (s'.calls c).isPanicked = true := by
  simp only [ClosesAlone, Classical.not_imp, not_forall, Bool.not_eq_false] at hx
  obtain ⟨hstop, c, hc⟩ := hx
  have hopen := hst.opened (.inr hstop)
  cases hcall : s.calls c with
  | sending kind job =>
      let closed : Sys ι T n := { s with jobs := { s.jobs with closed := true }, stop := .closed }
      have hclose : s.step .stop = some closed := by
        simp [closed, Sys.step, Sys.stopNext, hstop, hopen, Chan.close]
      have hsend : closed.step (.send c) =
          some (closed.setCall c (.panicked kind job "send on closed channel")) := by
        simp [closed, Sys.step, Sys.send, hcall, Chan.send]
      refine ⟨c, _, run_cons_eq_some.mpr ⟨closed, hclose, run_cons_eq_some.mpr ⟨_, hsend, rfl⟩⟩, ?_⟩
      simp [Sys.setCall, Call.isPanicked]
  | _ => simp [hcall, Call.atSend] at hc

omit [DecidableEq ι] in
theorem newPool_start {workers : ℤ} {queueSize : Option ℤ} {s : Sys ι T workers.toNat}
    (h : newPool workers queueSize = .ok s) : Staged s ∧ Answers s ∧ Quiet s := by
  simp only [newPool] at h
  split_ifs at h
  obtain rfl := Except.ok.inj h
  exact ⟨⟨fun _ => rfl, fun _ => rfl, rfl⟩, fun c => trivial, ⟨fun _ c => rfl, fun c => rfl⟩⟩

/-- Runs in which the channel is never closed on a call that is about to send
have no panics; any other close is followed by one.  Whatever is returned is
documented. -/
theorem shutdown_never_panics {workers : ℤ} {queueSize : Option ℤ} {s₀ s : Sys ι T workers.toNat}
    {xs : List (Action ι T workers.toNat)} (hnew : newPool workers queueSize = .ok s₀)
    (hrun : run Sys.step s₀ xs = some s) :
    (Along Sys.step ClosesAlone s₀ xs → ∀ c, (s.calls c).isPanicked = false) ∧
      s.stop.isPanicked = false ∧ (∀ c, (s.calls c).Documented (s.contexts c)) ∧
      (¬ ClosesAlone s .stop →
        ∃ c s', run Sys.step s [.stop, .send c] = some s' ∧ (s'.calls c).isPanicked = true) := by
  obtain ⟨hstaged, hanswers, hquiet⟩ := newPool_start hnew
  have hst : Staged s := run_forall (fun _ _ _ hs h => hs.step h) hstaged hrun
  have hans : Answers s := run_forall (fun _ _ _ hs h => hs.step h) hanswers hrun
  refine ⟨fun halong => ?_, hst.stop, hans, send_panics_after_close hst⟩
  have hq : Staged s ∧ Quiet s := by
    refine run_invariant (P := fun t => Staged t ∧ Quiet t) (C := ClosesAlone) ?_
      ⟨hstaged, hquiet⟩ halong hrun
    intro t x u ht hx hu
    exact ⟨ht.1.step hu, ht.2.step ht.1 hx hu⟩
  exact hq.2.calls

/-- What `New` makes of one worker and the default queue size. -/
def idlePool : Sys Unit ℕ 1 :=
  ⟨⟨[], 1, false⟩, false, 0, 0, 0, 0, fun _ => .idle, fun _ => none, fun _ => .waiting, .idle⟩

/-- The call `()` passes its check, and `Stop` closes the channel before it sends. -/
def submitDuringStop (kind : Kind) : List (Action Unit ℕ 1) :=
  [.start, .enter () kind 7, .stop, .stop, .send ()]

theorem submit_during_stop_panics : newPool 1 none = .ok idlePool ∧
    (run Sys.step idlePool (submitDuringStop .submit)).map (fun s => s.calls ()) =
      some (.panicked .submit 7 "send on closed channel") ∧
    (run Sys.step idlePool (submitDuringStop .trySubmit)).map (fun s => s.calls ()) =
      some (.panicked .trySubmit 7 "send on closed channel") := by
  exact ⟨rfl, by decide, by decide⟩

/-- The job is in the queue when `Stop` begins. -/
def submitBeforeStop : List (Action Unit ℕ 1) :=
  [.start, .enter () .submit 7, .send (), .stop, .stop, .count (), .work 0, .work 0, .finish 0 none,
    .work 0, .work 0, .work 0, .work 0, .stop]

theorem submit_before_stop_returns : ∃ s : Sys Unit ℕ 1,
    run Sys.step idlePool submitBeforeStop = some s ∧ s.stop = .returned ∧
      (s.calls ()).isPanicked = false := by
  have hrun : (run Sys.step idlePool submitBeforeStop).map (fun s => s.stop) = some .returned := by
    decide
  obtain ⟨s, hs, hstop⟩ := Option.map_eq_some_iff.mp hrun
  have hnew : newPool 1 none = .ok idlePool := rfl
  exact ⟨s, hs, hstop, (shutdown_never_panics hnew hs).1 (by decide) ()⟩

end Gkit.Pool
