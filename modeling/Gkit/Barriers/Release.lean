import Gkit.Barriers.Model

/-!
# When the barrier releases its callers

Each call that is past its send has left one token, which is in the channel or
drained.  So `done` is closed after `n` calls have arrived.  The goroutine then
takes no further token, and after `n` more calls the channel is full for good.
-/

namespace Gkit.Barriers

open Gkit.Lib

variable {ι : Type}

/-- The call is past its send. -/
def Call.hasArrived : Call → Bool
  | .idle | .arriving => false
  | .waiting | .returned _ => true

/-- The receives left of the loop. -/
def Releaser.left : Releaser → ℕ
  | .draining left => left
  | .closed | .panicked _ => 0

/-- How often the goroutine has closed `done`. -/
def Releaser.closes : Releaser → ℕ
  | .closed => 1
  | .draining _ | .panicked _ => 0

/-- The calls that are past their send. -/
def Arrivals (calls : ι → Call) (arrived : Finset ι) : Prop :=
  ∀ i, i ∈ arrived ↔ (calls i).hasArrived = true

section

variable [DecidableEq ι] {calls : ι → Call} {arrived : Finset ι} {i : ι} {call : Call}

theorem Arrivals.update_same (h : Arrivals calls arrived)
    (hcall : call.hasArrived = (calls i).hasArrived) :
    Arrivals (Function.update calls i call) arrived := by
  intro j
  by_cases hj : j = i
  · subst hj
    rw [Function.update_self, hcall]
    exact h j
  · rw [Function.update_of_ne hj]
    exact h j

theorem Arrivals.insert (h : Arrivals calls arrived) (hcall : call.hasArrived = true) :
    Arrivals (Function.update calls i call) (insert i arrived) := by
  intro j
  rw [Finset.mem_insert]
  by_cases hj : j = i
  · subst hj
    rw [Function.update_self, hcall]
    exact iff_of_true (.inl rfl) rfl
  · rw [Function.update_of_ne hj, ← h j]
    simp [hj]

omit [DecidableEq ι] in
theorem Arrivals.not_mem (h : Arrivals calls arrived) (hi : calls i = .arriving) :
    i ∉ arrived := by
  rw [h i, hi]
  nofun

end

/-- The channels, as the goroutine has left them. -/
structure Stocked (n : ℕ) (s : Sys ι) : Prop where
  cap : s.tokens.cap = n
  isOpen : s.tokens.closed = false
  room : s.tokens.buf.length ≤ n
  left : s.releaser.left ≤ n
  done : s.done = ⟨[], 0, decide (s.releaser = .closed)⟩
  calm : ∀ text, s.releaser ≠ .panicked text

/-- Each arrived call has left a token. -/
def Counted (n : ℕ) (s : Sys ι) : Prop :=
  ∃ arrived, Arrivals s.calls arrived ∧ arrived.card + s.releaser.left = n + s.tokens.buf.length

/-- A result that the state allows for. -/
def Call.Justified (releaser : Releaser) (ctx : Option GoError) : Call → Prop
  | .returned none => releaser = .closed
  | .returned (some err) => ctx = some err
  | _ => True

def Answered (s : Sys ι) : Prop := ∀ i, (s.calls i).Justified s.releaser (s.contexts i)

theorem newBarrier_start {n : ℤ} {s : Sys ι} (h : newBarrier n = .ok s) :
    Stocked n.toNat s ∧ Counted n.toNat s ∧ Answered s := by
  obtain ⟨-, rfl⟩ := newBarrier_eq_ok.mp h
  refine ⟨⟨rfl, rfl, Nat.zero_le _, le_rfl, rfl, nofun⟩, ⟨∅, fun i => ?_, ?_⟩, fun i => trivial⟩
  · simp [Call.hasArrived]
  · exact (Nat.zero_add _).trans (Nat.add_zero _).symm

section Steps

variable [DecidableEq ι] {n : ℕ} {s s' : Sys ι} {x : Action ι}

theorem Stocked.step (hs : Stocked n s) (h : s.step x = some s') : Stocked n s' := by
  have hleft := hs.left
  have hdone := hs.done
  have hroom := hs.room
  cases effect_of_step h with
  | began hi => exact { hs with }
  | arrived hi hfree =>
      refine { hs with room := ?_ }
      rw [hs.cap] at hfree
      simpa [Sys.setCall] using hfree
  | handed hi hr hmeets =>
      rw [hr] at hleft hdone
      exact { hs with left := (Nat.le_succ _).trans hleft, done := hdone, calm := nofun }
  | left hi hclosed => exact { hs with }
  | gaveUp hi herr => exact { hs with }
  | cancelled hi => exact { hs with }
  | drained hr hbuf =>
      rw [hr] at hleft hdone
      rw [hbuf] at hroom
      exact { hs with room := (Nat.le_succ _).trans hroom, left := (Nat.le_succ _).trans hleft,
                      done := hdone, calm := nofun }
  | drainedClosed hr hbuf hclosed => nomatch hs.isOpen.symm.trans hclosed
  | closes hr hopen =>
      exact { hs with left := Nat.zero_le _, done := by rw [hdone]; rfl, calm := nofun }
  | closePanics hr hclosed =>
      rw [hdone, hr] at hclosed
      nomatch hclosed

theorem Counted.step (hs : Counted n s) (hst : Stocked n s) (h : s.step x = some s') :
    Counted n s' := by
  obtain ⟨arrived, harr, hcount⟩ := hs
  cases effect_of_step h with
  | began hi => exact ⟨arrived, harr.update_same (by rw [hi]; rfl), hcount⟩
  | @arrived i hi hroom =>
      refine ⟨insert i arrived, harr.insert rfl, ?_⟩
      rw [Finset.card_insert_of_notMem (harr.not_mem hi)]
      simp only [Sys.setCall, List.length_append, List.length_singleton]
      omega
  | @handed i left hi hr hmeets =>
      refine ⟨insert i arrived, harr.insert rfl, ?_⟩
      rw [hr] at hcount
      rw [Finset.card_insert_of_notMem (harr.not_mem hi)]
      simp only [Sys.setCall, Releaser.left] at hcount ⊢
      omega
  | left hi hdone => exact ⟨arrived, harr.update_same (by rw [hi]; rfl), hcount⟩
  | gaveUp hi herr => exact ⟨arrived, harr.update_same (by rw [hi]; rfl), hcount⟩
  | cancelled hi => exact ⟨arrived, harr, hcount⟩
  | drained hr hbuf =>
      refine ⟨arrived, harr, ?_⟩
      rw [hr, hbuf] at hcount
      simp only [Releaser.left, List.length_cons] at hcount ⊢
      omega
  | drainedClosed hr hbuf hclosed => nomatch hst.isOpen.symm.trans hclosed
  | closes hr hopen =>
      rw [hr] at hcount
      exact ⟨arrived, harr, hcount⟩
  | closePanics hr hclosed =>
      rw [hr] at hcount
      exact ⟨arrived, harr, hcount⟩

theorem Answered.setCall (hs : Answered s) {i : ι} {call : Call}
    (hcall : call.Justified s.releaser (s.contexts i)) : Answered (s.setCall i call) := by
  intro j
  by_cases hj : j = i
  · subst hj
    simpa only [Sys.setCall, Function.update_self] using hcall
  · simpa only [Sys.setCall, Function.update_of_ne hj] using hs j

omit [DecidableEq ι] in
/-- The goroutine moves on or a context is cancelled, and no result is taken back. -/
theorem Answered.mono (hs : Answered s) (hcalls : s'.calls = s.calls)
    (hr : s.releaser = .closed → s'.releaser = .closed)
    (hctx : ∀ i err, s.contexts i = some err → s'.contexts i = some err) : Answered s' := by
  intro i
  have hi := hs i
  rw [hcalls]
  cases hcall : s.calls i with
  | returned err =>
      rw [hcall] at hi
      cases err with
      | none => exact hr hi
      | some err => exact hctx i err hi
  | _ => trivial

theorem Answered.step (hs : Answered s) (hst : Stocked n s) (h : s.step x = some s') :
    Answered s' := by
  cases effect_of_step h with
  | began hi => exact hs.setCall trivial
  | arrived hi hroom => exact Answered.setCall (s := { s with tokens := _ }) hs trivial
  | @handed i left hi hr hmeets =>
      have hs' : Answered { s with releaser := .draining left } :=
        hs.mono rfl (fun hclosed => nomatch hr.symm.trans hclosed) fun _ _ => id
      exact hs'.setCall trivial
  | left hi hdone =>
      apply hs.setCall
      have hclosed : s.releaser = .closed := by
        rw [hst.done] at hdone
        simpa using hdone
      exact hclosed
  | gaveUp hi herr => exact hs.setCall herr
  | @cancelled i err hi =>
      refine hs.mono rfl id fun j err' hj => ?_
      have hne : j ≠ i := by
        rintro rfl
        nomatch hi.symm.trans hj
      exact (Function.update_of_ne hne _ _).trans hj
  | drained hr hbuf =>
      exact hs.mono rfl (fun hclosed => nomatch hr.symm.trans hclosed) fun _ _ => id
  | drainedClosed hr hbuf hclosed => nomatch hst.isOpen.symm.trans hclosed
  | closes hr hopen => exact hs.mono rfl (fun _ => rfl) fun _ _ => id
  | closePanics hr hclosed =>
      exact hs.mono rfl (fun hclosed => nomatch hr.symm.trans hclosed) fun _ _ => id

theorem closes_step (hs : Stocked n s) (h : s.step x = some s') :
    s'.releaser.closes = s.releaser.closes + [x].count .close := by
  cases effect_of_step h with
  | handed hi hr hmeets => rw [hr]; rfl
  | drained hr hbuf => rw [hr]; rfl
  | drainedClosed hr hbuf hclosed => nomatch hs.isOpen.symm.trans hclosed
  | closes hr hopen => rw [hr]; rfl
  | closePanics hr hclosed =>
      rw [hs.done, hr] at hclosed
      nomatch hclosed
  | _ => rfl

end Steps

section Runs

variable [DecidableEq ι] {n : ℤ} {s₀ s : Sys ι} {xs : List (Action ι)}

theorem invariants_of_run (hnew : newBarrier n = .ok s₀) (hrun : run Sys.step s₀ xs = some s) :
    Stocked n.toNat s ∧ Counted n.toNat s ∧ Answered s := by
  refine run_forall (P := fun t => Stocked n.toNat t ∧ Counted n.toNat t ∧ Answered t) ?_
    (newBarrier_start hnew) hrun
  rintro t x u ⟨hst, hco, han⟩ hu
  exact ⟨hst.step hu, hco.step hst hu, han.step hst hu⟩

theorem count_close (hnew : newBarrier n = .ok s₀) (hrun : run Sys.step s₀ xs = some s) :
    xs.count .close = s.releaser.closes := by
  have hinv : Stocked n.toNat s ∧ xs.count .close = s.releaser.closes := by
    refine run_history (P := fun t ys => Stocked n.toNat t ∧ ys.count .close = t.releaser.closes)
      ?_ ⟨(newBarrier_start hnew).1, ?_⟩ hrun
    · rintro t ys x u ⟨hst, hcount⟩ hu
      exact ⟨hst.step hu, by rw [List.count_append, hcount, closes_step hst hu]⟩
    · obtain ⟨-, rfl⟩ := newBarrier_eq_ok.mp hnew
      rfl
  exact hinv.2

/-- A call returns nil only after `n` calls have begun; `done` is closed once at
most, and without a panic; any other result is the error of the call's context. -/
theorem wait_nil_only_when_full (hnew : newBarrier n = .ok s₀)
    (hrun : run Sys.step s₀ xs = some s) :
    (∀ i, s.calls i = .returned none →
        ∃ begun : Finset ι, (∀ j ∈ begun, s.calls j ≠ .idle) ∧ n ≤ begun.card) ∧
      xs.count .close ≤ 1 ∧ (∀ text, s.releaser ≠ .panicked text) ∧
      ∀ i err, s.calls i = .returned (some err) → s.contexts i = some err := by
  obtain ⟨hst, ⟨arrived, harr, hcount⟩, han⟩ := invariants_of_run hnew hrun
  refine ⟨fun i hi => ⟨arrived, fun j hj hidle => ?_, ?_⟩, ?_, hst.calm, fun i err hi => ?_⟩
  · rw [harr j, hidle] at hj
    nomatch hj
  · have hclosed : s.releaser = .closed := by
      have hi' := han i
      rwa [hi] at hi'
    rw [hclosed] at hcount
    simp only [Releaser.left] at hcount
    omega
  · rw [count_close hnew hrun]
    cases s.releaser <;> simp [Releaser.closes]
  · have herr := han i
    rwa [hi] at herr

/-- Two calls meet at a barrier for two. -/
def meeting : List (Action ℕ) :=
  [.begin 0, .arrive 0, .drain, .begin 1, .handOver 1, .close, .leave 0]

theorem meeting_nil_when_full : ∃ s₀ s : Sys ℕ, newBarrier 2 = .ok s₀ ∧
    run Sys.step s₀ meeting = some s ∧ s.calls 0 = .returned none ∧
      ∃ begun : Finset ℕ, (∀ j ∈ begun, s.calls j ≠ .idle) ∧ (2 : ℤ) ≤ begun.card :=
  ⟨_, _, rfl, rfl, rfl, (wait_nil_only_when_full (show newBarrier 2 = .ok _ from rfl)
    (show run Sys.step _ meeting = some _ from rfl)).1 0 rfl⟩

end Runs

/-! ## Calls that cannot return -/

/-- The steps of the call and of the goroutine. -/
def Action.serves [DecidableEq ι] (i : ι) : Action ι → Bool
  | .arrive j | .handOver j | .leave j | .giveUp j => j = i
  | .drain | .close => true
  | .begin _ | .cancel _ _ => false

/-- The call can return by its own steps and those of the goroutine. -/
def CanReturn [DecidableEq ι] (s : Sys ι) (i : ι) : Prop :=
  ∃ xs s', (∀ x ∈ xs, x.serves i = true) ∧ run Sys.step s xs = some s' ∧
    ∃ err, s'.calls i = .returned err

/-- At its send on a channel that is full for good. -/
structure Stuck (s : Sys ι) (i : ι) : Prop where
  call : s.calls i = .arriving
  left : s.releaser.left = 0
  full : s.tokens.cap ≤ s.tokens.buf.length

section

variable [DecidableEq ι] {n : ℕ} {s s' : Sys ι} {x : Action ι} {i : ι}

theorem Stuck.setCall (hs : Stuck s i) {j : ι} {call : Call} (hj : s.calls j ≠ .arriving) :
    Stuck (s.setCall j call) i := by
  have hne : i ≠ j := by
    rintro rfl
    exact hj hs.call
  exact { hs with call := (Function.update_of_ne hne _ _).trans hs.call }

theorem Stuck.step (hs : Stuck s i) (h : s.step x = some s') : Stuck s' i := by
  have hleft := hs.left
  cases effect_of_step h with
  | began hj => exact hs.setCall (by rw [hj]; nofun)
  | arrived hj hroom => exact absurd hroom hs.full.not_gt
  | handed hj hr hmeets => rw [hr] at hleft; nomatch hleft
  | left hj hdone => exact hs.setCall (by rw [hj]; nofun)
  | gaveUp hj herr => exact hs.setCall (by rw [hj]; nofun)
  | cancelled hj => exact { hs with }
  | drained hr hbuf => rw [hr] at hleft; nomatch hleft
  | drainedClosed hr hbuf hclosed => rw [hr] at hleft; nomatch hleft
  | closes hr hopen => exact { hs with left := rfl }
  | closePanics hr hclosed => exact { hs with left := rfl }

theorem Stuck.run {xs : List (Action ι)} (hs : Stuck s i) (h : run Sys.step s xs = some s') :
    Stuck s' i :=
  run_forall (P := fun t => Stuck t i) (fun _ _ _ ht h => ht.step h) hs h

theorem Stuck.not_canReturn (hs : Stuck s i) : ¬ CanReturn s i := by
  rintro ⟨xs, s', -, hrun, err, herr⟩
  nomatch herr.symm.trans (hs.run hrun).call

theorem CanReturn.of_step (hx : x.serves i = true) (h : s.step x = some s')
    (hs' : CanReturn s' i) : CanReturn s i := by
  obtain ⟨xs, t, hserves, hrun, hreturned⟩ := hs'
  exact ⟨x :: xs, t, List.forall_mem_cons.mpr ⟨hx, hserves⟩,
    run_cons_eq_some.mpr ⟨s', h, hrun⟩, hreturned⟩

theorem canReturn_of_returned {err : Option GoError} (h : s.calls i = .returned err) :
    CanReturn s i :=
  ⟨[], s, nofun, rfl, err, h⟩

/-- A call in its `select` returns when its context is done, or once `done` is
closed. -/
theorem canReturn_of_waiting (hst : Stocked n s) (hi : s.calls i = .waiting)
    (hready : s.releaser.left = 0 ∨ (s.contexts i).isSome) : CanReturn s i := by
  have hleave {t : Sys ι} (ht : t.calls i = .waiting) (hdone : t.done = ⟨[], 0, true⟩) :
      CanReturn t i := by
    have hstep : t.step (.leave i) = some (t.setCall i (.returned none)) := by
      simp [Sys.step, Sys.leave, ht, hdone, Chan.recv]
    exact .of_step (by simp [Action.serves]) hstep
      (canReturn_of_returned (Function.update_self i _ _))
  cases hctx : s.contexts i with
  | some err =>
      have hstep : s.step (.giveUp i) = some (s.setCall i (.returned (some err))) := by
        simp [Sys.step, Sys.giveUp, hi, hctx]
      exact .of_step (by simp [Action.serves]) hstep
        (canReturn_of_returned (Function.update_self i _ _))
  | none =>
      have hleft : s.releaser.left = 0 := by simpa [hctx] using hready
      have hdone := hst.done
      cases hr : s.releaser with
      | draining left =>
          rw [hr] at hleft hdone
          obtain rfl : left = 0 := hleft
          have hstep : s.step .close =
              some { s with done := ⟨[], 0, true⟩, releaser := .closed } := by
            simp [Sys.step, Sys.close, hr, hdone, Chan.close]
          exact .of_step rfl hstep (hleave hi rfl)
      | closed =>
          rw [hr] at hdone
          exact hleave hi hdone
      | panicked text => exact absurd hr (hst.calm text)

theorem canReturn_of_room (hst : Stocked n s) (hi : s.calls i = .arriving)
    (hroom : s.tokens.buf.length < s.tokens.cap)
    (hready : s.releaser.left = 0 ∨ (s.contexts i).isSome) : CanReturn s i := by
  have hstep : s.step (.arrive i) = some ({ s with
      tokens := { s.tokens with buf := s.tokens.buf ++ [()] } }.setCall i .waiting) := by
    simp [Sys.step, Sys.arrive, hi, Chan.send, hst.isOpen, hroom]
  exact .of_step (by simp [Action.serves]) hstep
    (canReturn_of_waiting (hst.step hstep) (Function.update_self i _ _) hready)

theorem canReturn_of_arriving (hst : Stocked n s) (hi : s.calls i = .arriving)
    (hready : s.releaser.left = 0 ∨ (s.contexts i).isSome) (hstuck : ¬ Stuck s i) :
    CanReturn s i := by
  by_cases hroom : s.tokens.buf.length < s.tokens.cap
  · exact canReturn_of_room hst hi hroom hready
  · -- the goroutine still drains, and makes room
    have hfull : s.tokens.cap ≤ s.tokens.buf.length := Nat.le_of_not_lt hroom
    have hleft : s.releaser.left ≠ 0 := fun hleft => hstuck ⟨hi, hleft, hfull⟩
    have hle := hst.left
    have hcap := hst.cap
    cases hr : s.releaser with
    | draining left =>
        rw [hr] at hleft hle
        obtain ⟨k, rfl⟩ := Nat.exists_eq_succ_of_ne_zero hleft
        cases hbuf : s.tokens.buf with
        | nil =>
            simp only [hbuf, Releaser.left, List.length_nil] at hfull hle
            omega
        | cons token buf =>
            have hstep : s.step .drain = some { s with
                tokens := { s.tokens with buf := buf }, releaser := .draining k } := by
              simp [Sys.step, Sys.drain, hr, Chan.recv, hbuf]
            have hlength := hst.room
            have hctx : (s.contexts i).isSome := hready.resolve_left (by rw [hr]; exact hleft)
            rw [hbuf, List.length_cons, ← hcap] at hlength
            exact .of_step rfl hstep (canReturn_of_room (hst.step hstep) hi hlength (.inr hctx))
    | closed => rw [hr] at hleft; exact absurd rfl hleft
    | panicked text => rw [hr] at hleft; exact absurd rfl hleft

end

/-- A pending call can return, once the barrier is released or its context is done,
exactly if it has left its token or fewer than `2 * n` calls have; if it cannot, it
stays at its send in every run. -/
theorem wait_returns_iff [DecidableEq ι] {n : ℤ} {s₀ s : Sys ι} {xs : List (Action ι)} {i : ι}
    (hnew : newBarrier n = .ok s₀) (hrun : run Sys.step s₀ xs = some s)
    (hpending : s.calls i = .arriving ∨ s.calls i = .waiting)
    (hready : s.releaser.left = 0 ∨ (s.contexts i).isSome) :
    ∃ arrived, Arrivals s.calls arrived ∧
      (CanReturn s i ↔ i ∈ arrived ∨ (arrived.card : ℤ) < 2 * n) ∧
      (¬ CanReturn s i → ∀ ys s', run Sys.step s ys = some s' → s'.calls i = .arriving) := by
  obtain ⟨hst, ⟨arrived, harr, hcount⟩, -⟩ := invariants_of_run hnew hrun
  have hn : 0 ≤ n := (newBarrier_eq_ok.mp hnew).1
  refine ⟨arrived, harr, ?_⟩
  rcases hpending with hi | hi
  · by_cases hstuck : Stuck s i
    · have hfull := hstuck.full
      have hleft := hstuck.left
      have hmem := harr.not_mem hi
      rw [hst.cap] at hfull
      exact ⟨iff_of_false hstuck.not_canReturn (not_or.mpr ⟨hmem, by omega⟩),
        fun _ _ _ hys => (hstuck.run hys).call⟩
    · have hcan := canReturn_of_arriving hst hi hready hstuck
      refine ⟨iff_of_true hcan (.inr ?_), fun hnot => absurd hcan hnot⟩
      by_contra hge
      have hroom := hst.room
      exact hstuck ⟨hi, by omega, by rw [hst.cap]; omega⟩
  · have hcan := canReturn_of_waiting hst hi hready
    refine ⟨iff_of_true hcan (.inl ?_), fun hnot => absurd hcan hnot⟩
    rw [harr i, hi]
    rfl

/-- Two calls pass a barrier for one, and a third finds its channel full. -/
def surplus : List (Action ℕ) :=
  [.begin 0, .arrive 0, .drain, .close, .leave 0, .begin 1, .arrive 1, .leave 1,
    .cancel 2 (.new "context canceled"), .begin 2]

/-- The third call, and the first one at a barrier for none. -/
theorem surplus_wait_stuck :
    (∃ s₀ s : Sys ℕ, newBarrier 1 = .ok s₀ ∧ run Sys.step s₀ surplus = some s ∧
      s.calls 2 = .arriving ∧ s.releaser = .closed ∧
      s.contexts 2 = some (.new "context canceled") ∧ ¬ CanReturn s 2) ∧
    ∃ s₀ s : Sys ℕ, newBarrier 0 = .ok s₀ ∧ run Sys.step s₀ [.close, .begin 0] = some s ∧
      s.calls 0 = .arriving ∧ s.releaser = .closed ∧ ¬ CanReturn s 0 := by
  refine ⟨⟨_, _, rfl, rfl, rfl, rfl, rfl, ?_⟩, _, _, rfl, rfl, rfl, rfl, ?_⟩
  · exact Stuck.not_canReturn ⟨rfl, rfl, by decide⟩
  · exact Stuck.not_canReturn ⟨rfl, rfl, by decide⟩

/-- A call whose context is done while the barrier is not full. -/
theorem cancelled_wait_returns : ∃ s₀ s : Sys ℕ, newBarrier 2 = .ok s₀ ∧
    run Sys.step s₀ [.begin 0, .arrive 0, .cancel 0 (.new "context canceled")] = some s ∧
      CanReturn s 0 := by
  refine ⟨_, _, rfl, rfl, ?_⟩
  obtain ⟨arrived, harr, hiff, -⟩ := wait_returns_iff (i := 0)
    (show newBarrier 2 = .ok _ from rfl)
    (show run Sys.step _ [.begin 0, .arrive 0, .cancel 0 (.new "context canceled")] = some _
      from rfl)
    (.inr rfl) (.inr rfl)
  exact hiff.mpr (.inl ((harr 0).mpr rfl))

end Gkit.Barriers
