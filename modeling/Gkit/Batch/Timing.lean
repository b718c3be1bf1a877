import Gkit.Batch.Model

/-!
# When the timer flushes

The timer is set when the goroutine starts and at the end of each flush, not
when an item arrives.  In a run that handles everything at once a batch that the
timer flushes is therefore sent the timeout after the last flush, however short
a time ago its last item arrived.
-/

namespace Gkit.Batch

open Gkit.Lib

variable {α : Type} {p : Params} {s s' : Sys α}

/-- Time passes only while there is nothing to do: no item and no end of the input is there to
be received, the timer has not fired, and it is not passed over. -/
def Prompt (s : Sys α) : Action → Prop
  | .pass d =>
      match s.worker with
      | .selecting => s.input.chan.buf = [] ∧ s.input.chan.closed = false ∧
          s.timer.pending = false ∧ ∀ when ∈ s.timer.deadline, s.now + d ≤ when
      | .draining | .exited => True
      | _ => False
  | _ => True

instance (s : Sys α) (x : Action) : Decidable (Prompt s x) :=
  match s, x with
  | ⟨input, _, _, timer, .selecting, _, _, _, now, _, _, _⟩, .pass d =>
      inferInstanceAs (Decidable (input.chan.buf = [] ∧ input.chan.closed = false ∧
        timer.pending = false ∧ ∀ when ∈ timer.deadline, now + d ≤ when))
  | ⟨_, _, _, _, .draining, _, _, _, _, _, _, _⟩, .pass _
  | ⟨_, _, _, _, .exited, _, _, _, _, _, _, _⟩, .pass _ => isTrue trivial
  | ⟨_, _, _, _, .sending .., _, _, _, _, _, _, _⟩, .pass _
  | ⟨_, _, _, _, .resetting _, _, _, _, _, _, _, _⟩, .pass _
  | ⟨_, _, _, _, .reporting _, _, _, _, _, _, _, _⟩, .pass _
  | ⟨_, _, _, _, .returning, _, _, _, _, _, _, _⟩, .pass _
  | ⟨_, _, _, _, .closing, _, _, _, _, _, _, _⟩, .pass _
  | ⟨_, _, _, _, .crashed _, _, _, _, _, _, _, _⟩, .pass _ => isFalse id
  | _, .produce | _, .fire | _, .recv | _, .tick | _, .send | _, .reset | _, .drain _
  | _, .report | _, .closeErr | _, .closeCh | _, .consume => isTrue trivial

/-- The flush of a batch by the timer, on time. -/
structure OnTime (p : Params) (e : Emission α) : Prop where
  exact_time : e.time = e.armed + max p.timeout 0
  received : e.armed ≤ e.last
  sent : e.last ≤ e.time

/-- The timer as it stands in the loop. -/
structure Ticking (p : Params) (s : Sys α) : Prop where
  due : ∀ when ∈ s.timer.deadline, when = s.armed + max p.timeout 0
  ahead : ∀ when ∈ s.timer.deadline, s.now ≤ when
  fired : s.timer.pending = true → s.now = s.armed + max p.timeout 0

structure Clocked (p : Params) (s : Sys α) : Prop where
  emitted : ∀ e ∈ s.emitted, e.cause = .timeout → OnTime p e
  items : 0 < s.buf.len → s.armed ≤ s.last ∧ s.last ≤ s.now
  armed : s.armed ≤ s.now
  single : s.timer.deadline.isSome = true → s.timer.pending = false

structure Punctual (p : Params) (s : Sys α) : Prop where
  clock : Clocked p s
  ticking : s.worker = .selecting → Ticking p s
  sending : ∀ batch, s.worker = .sending batch .timeout →
    s.now = s.armed + max p.timeout 0 ∧ 0 < s.buf.len
  emptied : ∀ cause, s.worker = .resetting cause → s.buf.len = 0

/-! ## One step -/

theorem Clocked.flush (hs : Clocked p s) {cause : Cause}
    (hnow : cause = .timeout → s.now = s.armed + max p.timeout 0) :
    Punctual p (s.flush cause) := by
  unfold Sys.flush
  split_ifs with hlen
  · refine ⟨{ hs with }, nofun, fun batch hw => ?_, nofun⟩
    cases hw
    exact ⟨hnow rfl, hlen⟩
  · exact ⟨{ hs with }, nofun, nofun, fun _ _ => Nat.eq_zero_of_not_pos hlen⟩

theorem Clocked.pass (hs : Clocked p s) {d : ℤ} (hd : 0 ≤ d) :
    Clocked p { s with now := s.now + d } where
  emitted := hs.emitted
  items := fun h => ⟨(hs.items h).1, le_add_of_le_of_nonneg (hs.items h).2 hd⟩
  armed := le_add_of_le_of_nonneg hs.armed hd
  single := hs.single

theorem Clocked.append (hs : Clocked p s) (v : α) (f : Feed α) :
    Clocked p ({ s with input := f }.append v) :=
  ⟨hs.emitted, fun _ => ⟨hs.armed, le_rfl⟩, hs.armed, hs.single⟩

theorem Clocked.emit (hs : Clocked p s) {batch : Slice} {cause : Cause} {ch : Chan Slice}
    (hnow : cause = .timeout → s.now = s.armed + max p.timeout 0 ∧ 0 < s.buf.len) :
    Punctual p (s.emit batch cause ch) := by
  refine ⟨⟨fun e he hcause => ?_, nofun, hs.armed, hs.single⟩, nofun, nofun, fun _ _ => rfl⟩
  rcases List.mem_append.mp he with he | he
  · exact hs.emitted e he hcause
  · obtain rfl := List.mem_singleton.mp he
    obtain ⟨htime, hlen⟩ := hnow hcause
    exact ⟨htime, (hs.items hlen).1, (hs.items hlen).2⟩

/-- The timer is set to the full timeout, with nothing left in its channel. -/
theorem Clocked.rearm (hs : Clocked p s) (hlen : s.buf.len = 0) (cause : Cause) :
    Punctual p (s.rearm p cause) := by
  have hdrained : (s.timer.deadline.isSome && s.timer.pending) = false := by
    cases hd : s.timer.deadline.isSome with
    | false => rfl
    | true => simpa using hs.single hd
  have hafter : (s.rearm p cause).worker = .draining ∨ (s.rearm p cause).worker = .selecting := by
    simp only [Sys.rearm]
    split_ifs
    · exact .inl rfl
    · exact .inr rfl
  refine ⟨⟨hs.emitted, fun h => ?_, le_rfl, fun _ => hdrained⟩, fun _ => ⟨?_, ?_, ?_⟩, ?_, ?_⟩
  · exact absurd hlen h.ne'
  · rintro when ⟨⟩
    rfl
  · rintro when ⟨⟩
    exact le_add_of_nonneg_right (le_max_right _ _)
  · intro hpending
    exact absurd (hdrained.symm.trans hpending) Bool.false_ne_true
  · intro batch hw
    rcases hafter with h | h <;> simp [h] at hw
  · intro cause' hw
    rcases hafter with h | h <;> simp [h] at hw

theorem Punctual.step {x : Action} (hs : Punctual p s) (hx : Prompt s x)
    (h : Effect p s x s') : Punctual p s' := by
  have hclock := hs.clock
  cases h with
  | @pass d hd =>
      simp only [Prompt] at hx
      have hlater := hclock.pass hd
      split at hx
      case h_1 hw =>
        have htick := hs.ticking hw
        refine ⟨hlater, fun _ => ⟨htick.due, hx.2.2.2, fun h => ?_⟩, ?_, ?_⟩
        · simp [hx.2.2.1] at h
        · simp [hw]
        · simp [hw]
      case h_2 hw => exact ⟨hlater, by simp [hw], by simp [hw], by simp [hw]⟩
      case h_3 hw => exact ⟨hlater, by simp [hw], by simp [hw], by simp [hw]⟩
      case h_4 => exact hx.elim
  | produce h =>
      exact ⟨{ hclock with }, fun hw => { hs.ticking hw with }, hs.sending, hs.emptied⟩
  | @fire when hd hnow =>
      refine ⟨⟨hclock.emitted, hclock.items, hclock.armed, nofun⟩, fun hw => ?_, hs.sending,
        hs.emptied⟩
      have htick := hs.ticking hw
      have hahead := htick.ahead when hd
      have hdue := htick.due when hd
      exact ⟨nofun, nofun, fun _ => by change s.now = s.armed + _; omega⟩
  | @item v f hw h hsize =>
      have htick := hs.ticking hw
      refine ⟨hclock.append v f, fun _ => { htick with }, ?_, ?_⟩
      · simp [Sys.append, hw]
      · simp [Sys.append, hw]
  | @filled v f hw h hsize => exact (hclock.append v f).flush nofun
  | @ended f hw h =>
      have hsame : Clocked p { s with input := f } := { hclock with }
      exact hsame.flush nofun
  | tick hw h =>
      have hsame : Clocked p { s with timer := { s.timer with pending := false } } :=
        ⟨hclock.emitted, hclock.items, hclock.armed, fun _ => rfl⟩
      exact hsame.flush fun _ => (hs.ticking hw).fired h
  | @sent batch cause hw hopen =>
      refine hclock.emit ?_
      rintro rfl
      exact hs.sending batch hw
  | @reset cause hw => exact hclock.rearm (hs.emptied cause hw) cause
  | @drained err hw =>
      cases err with
      | none => exact ⟨{ hclock with }, nofun, nofun, nofun⟩
      | some err => exact ⟨{ hclock with }, nofun, nofun, nofun⟩
  | reported hw => exact ⟨{ hclock with }, nofun, nofun, nofun⟩
  | closedErr hw => exact ⟨{ hclock with }, nofun, nofun, nofun⟩
  | closedCh hw => exact ⟨{ hclock with }, nofun, nofun, nofun⟩
  | consumed h =>
      exact ⟨{ hclock with }, fun hw => { hs.ticking hw with }, hs.sending, hs.emptied⟩
  | crashed h => exact ⟨{ hclock with }, nofun, nofun, nofun⟩

/-! ## Whole runs -/

theorem punctual_start (p : Params) (cap : ℕ) (input : List α) :
    Punctual p (start p cap input) := by
  refine ⟨⟨nofun, nofun, le_rfl, fun _ => rfl⟩, fun _ => ⟨?_, ?_, nofun⟩, ?_, ?_⟩
  · rintro when ⟨⟩
    rfl
  · rintro when ⟨⟩
    exact le_add_of_nonneg_right (le_max_right _ _)
  · intro batch hw
    simp only [start] at hw
    split_ifs at hw
  · intro cause hw
    simp only [start] at hw
    split_ifs at hw

theorem OnTime.late_iff {e : Emission α} (he : OnTime p e) :
    e.last + p.timeout ≤ e.time ↔ e.last = e.armed := by
  obtain ⟨htime, hreceived, hsent⟩ := he
  rcases le_total p.timeout 0 with hneg | hpos
  · rw [max_eq_right hneg] at htime
    constructor <;> intro <;> omega
  · rw [max_eq_left hpos] at htime
    constructor <;> intro <;> omega

/-- The timer counts from the last flush: the wait behind the last item is the whole timeout
exactly if this item arrived at the moment of that flush. -/
theorem timeout_since_last_iff {cap : ℕ} {input : List α} {xs : List Action}
    (hxs : Along (Sys.step p) Prompt (start p cap input) xs)
    (h : run (Sys.step p) (start p cap input) xs = some s) :
    ∀ e ∈ s.emitted, e.cause = .timeout →
      (e.last + p.timeout ≤ e.time ↔ e.last = e.armed) ∧
      e.time = e.armed + max p.timeout 0 ∧ e.armed ≤ e.last := by
  have hs : Punctual p s := run_invariant (P := Punctual p)
    (fun _ _ _ hs hx hstep => hs.step hx (effect_of_step hstep)) (punctual_start p cap input) hxs h
  intro e he hcause
  have htime := hs.clock.emitted e he hcause
  exact ⟨htime.late_iff, htime.exact_time, htime.received⟩

/-- An item arrives at this time, and the timer flushes it at 100. -/
def lone (arrival : ℤ) : List Action :=
  [.pass arrival, .recv, .pass (100 - arrival), .fire, .tick, .send]

/-- The wait of 100 is over 10 behind the item. -/
theorem flushed_too_early :
    ∃ s e, Along (Sys.step ⟨5, 100⟩) Prompt (start ⟨5, 100⟩ 0 ["a", "b"]) (lone 90) ∧
      run (Sys.step ⟨5, 100⟩) (start ⟨5, 100⟩ 0 ["a", "b"]) (lone 90) = some s ∧
      s.emitted = [e] ∧ e.cause = .timeout ∧ e.value = ["a"] ∧ e.last = 90 ∧ e.time = 100 ∧
      ¬e.last + 100 ≤ e.time :=
  ⟨_, _, by decide, rfl, rfl, rfl, rfl, rfl, rfl, by decide⟩

theorem first_item_waits :
    ∃ s e, run (Sys.step ⟨5, 100⟩) (start ⟨5, 100⟩ 0 ["a", "b"]) (lone 0) = some s ∧
      s.emitted = [e] ∧ e.last + 100 ≤ e.time := by
  refine ⟨_, _, rfl, rfl, ?_⟩
  have hrun := timeout_since_last_iff (by decide)
    (show run (Sys.step ⟨5, 100⟩) (start ⟨5, 100⟩ 0 ["a", "b"]) (lone 0) = some _ from rfl)
  exact (hrun _ (List.mem_singleton_self _) rfl).1.mpr rfl

end Gkit.Batch
