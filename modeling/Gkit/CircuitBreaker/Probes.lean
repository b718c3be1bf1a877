import Gkit.CircuitBreaker.History

/-!
# Probes

Which calls decide about the recovery of a half-open breaker, and how many of
them it lets through.  `record` does not ask when its call was admitted, and
`allow` lets every call pass while the breaker is half open; the two results
below say under which conditions on a run neither can be noticed.
-/

namespace Gkit.CircuitBreaker

open Gkit.Lib

variable {ι : Type}

def Call.admitted : Call → Option ℕ
  | .running p => some p
  | .returned p _ _ => some p
  | _ => none

/-- The success of the call was recorded in the current period. -/
def Sys.Counts (s : Sys ι) (c : ι) : Prop := ∃ p, s.calls c = .returned p s.breaker.period none

def Sys.OwnCall (s : Sys ι) (c : ι) : Prop := (s.calls c).admitted = some s.breaker.period

instance (s : Sys ι) (c : ι) : Decidable (s.OwnCall c) :=
  inferInstanceAs (Decidable ((s.calls c).admitted = some s.breaker.period))

/-- If the step takes a half-open breaker to another state, and is no reset, then
it is by the results of calls that were admitted in the same period. -/
def ProbesDecide (s : Sys ι) (x : Action ι) (s' : Sys ι) : Prop :=
  s.breaker.state = .stateHalfOpen → s'.breaker.state ≠ .stateHalfOpen → x ≠ .op .reset →
    (∃ c err, x = .op (.record c (some err)) ∧ s'.breaker.state = .stateOpen ∧ s.OwnCall c) ∨
    ∃ c, x = .op (.record c none) ∧ s'.breaker.state = .stateClosed ∧
      s.breaker.opts.successThreshold ≤ s.breaker.probes + 1 ∧ s.OwnCall c ∧
      ∀ d, s.Counts d → s.OwnCall d

/-- A half-open breaker is told the results of its own probes only. -/
def OwnResult (s : Sys ι) : Action ι → Prop
  | .op (.record c _) => s.breaker.state = .stateHalfOpen → s.OwnCall c
  | _ => True

instance OwnResult.decidable (s : Sys ι) : ∀ x, Decidable (OwnResult s x)
  | .op (.record c _) =>
      inferInstanceAs (Decidable (s.breaker.state = .stateHalfOpen → s.OwnCall c))
  | .op (.allow _) => isTrue trivial
  | .op .state => isTrue trivial
  | .op .reset => isTrue trivial
  | .advance _ => isTrue trivial

def AtMostOneProbe (s : Sys ι) : Prop :=
  s.breaker.state = .stateHalfOpen → {c | s.calls c = .running s.breaker.period}.Subsingleton

/-- No call asks a half-open breaker while a probe of its period is running. -/
def AsksAlone (s : Sys ι) : Action ι → Prop
  | .op (.allow _) =>
      s.breaker.state = .stateHalfOpen → ∀ d, s.calls d ≠ .running s.breaker.period
  | _ => True

instance AsksAlone.decidable [Fintype ι] (s : Sys ι) : ∀ x, Decidable (AsksAlone s x)
  | .op (.allow _) => inferInstanceAs (Decidable
      (s.breaker.state = .stateHalfOpen → ∀ d, s.calls d ≠ .running s.breaker.period))
  | .op (.record _ _) => isTrue trivial
  | .op .state => isTrue trivial
  | .op .reset => isTrue trivial
  | .advance _ => isTrue trivial

/-! ## Periods -/

theorem period_perform (b : Breaker) (now : ℤ) (o : Op ι) :
    (Sys.perform b now o).period =
      if b.state = (Sys.perform b now o).state then b.period else b.period + 1 := by
  unfold Breaker.period
  rw [(perform_frame b now o).2, changed]
  split_ifs <;> simp

theorem period_le_perform (b : Breaker) (now : ℤ) (o : Op ι) :
    b.period ≤ (Sys.perform b now o).period := by
  rw [period_perform]
  split_ifs <;> omega

theorem Breaker.maybeTransitionFromOpen_of_ne {b : Breaker} (h : b.state ≠ .stateOpen) (now : ℤ) :
    b.maybeTransitionFromOpen now = b :=
  if_neg fun hopen => h hopen.1

theorem Breaker.record_halfOpen_some {b : Breaker} (h : b.state = .stateHalfOpen) (now : ℤ)
    (err : GoError) : (b.record now (some err)).state = .stateOpen := by
  simp [record, h]

theorem Breaker.record_halfOpen_none {b : Breaker} (h : b.state = .stateHalfOpen) (now : ℤ) :
    (b.opts.successThreshold ≤ b.probes + 1 ∧ (b.record now none).state = .stateClosed) ∨
      ((b.record now none).state = .stateHalfOpen ∧
        (b.record now none).probes = b.probes + 1) := by
  by_cases hclose : b.opts.successThreshold ≤ b.probes + 1
  · exact .inl ⟨hclose, by simp [record, h, hclose]⟩
  · exact .inr (by simp [record, h, hclose])

/-- A section that leaves the breaker half open counts the success it is told. -/
theorem probes_perform_halfOpen {b : Breaker} {now : ℤ} {o : Op ι} (h : b.state = .stateHalfOpen)
    (h' : (Sys.perform b now o).state = .stateHalfOpen) :
    (∃ c, o = .record c none ∧ (Sys.perform b now o).probes = b.probes + 1) ∨
      ((∀ c, o ≠ .record c none) ∧ (Sys.perform b now o).probes = b.probes) := by
  have hpoll : b.maybeTransitionFromOpen now = b :=
    Breaker.maybeTransitionFromOpen_of_ne (by simp [h]) now
  cases o with
  | allow c => exact .inr ⟨by simp, by simp [Sys.perform, hpoll]⟩
  | state => exact .inr ⟨by simp, by simp [Sys.perform, Breaker.getState, hpoll]⟩
  | reset => simp [Sys.perform, Breaker.reset] at h'
  | record c err =>
      simp only [Sys.perform] at h' ⊢
      cases err with
      | some e => simp [Breaker.record_halfOpen_some h] at h'
      | none =>
          rcases Breaker.record_halfOpen_none h now with ⟨-, hclosed⟩ | ⟨-, hprobes⟩
          · simp [hclosed] at h'
          · exact .inl ⟨c, rfl, hprobes⟩

/-- Outside of the half-open state nothing is counted. -/
theorem probes_perform {b : Breaker} (hb : b.state ≠ .stateHalfOpen → b.probes = 0) (now : ℤ)
    (o : Op ι) (h : (Sys.perform b now o).state ≠ .stateHalfOpen ∨ b.state ≠ .stateHalfOpen) :
    (Sys.perform b now o).probes = 0 := by
  have hpoll : (b.maybeTransitionFromOpen now).state ≠ .stateHalfOpen ∨
      b.state ≠ .stateHalfOpen → (b.maybeTransitionFromOpen now).probes = 0 := by
    intro h
    by_cases hopen : b.state = .stateOpen
    · have := hb (by simp [hopen])
      unfold Breaker.maybeTransitionFromOpen
      split_ifs <;> simpa
    · rw [Breaker.maybeTransitionFromOpen_of_ne hopen] at h ⊢
      exact hb (h.elim id id)
  cases o with
  | allow c =>
      simp only [Sys.perform, Breaker.allow_fst] at h ⊢
      exact hpoll h
  | state => exact hpoll h
  | reset => rfl
  | record c err =>
      simp only [Sys.perform] at h ⊢
      cases hs : b.state with
      | stateOpen => simpa [Breaker.record, hs] using hb (by simp [hs])
      | stateClosed =>
          have hzero := hb (by simp [hs])
          cases err with
          | none => simpa [Breaker.record, hs] using hzero
          | some e =>
              simp only [Breaker.record, hs]
              split_ifs <;> simpa using hzero
      | stateHalfOpen =>
          cases err with
          | some e => simp [Breaker.record, hs]
          | none =>
              simp only [Breaker.record, hs] at h ⊢
              split_ifs at h ⊢ with hclose
              · simp
              · simp at h

variable [DecidableEq ι]

/-! ## What a section does to the calls -/

/-- What becomes of one call: it is answered, it records its result, or it is not
concerned. -/
theorem proceed_call {s : Sys ι} {o : Op ι} {calls : ι → Call} (h : s.proceed o = some calls)
    (d : ι) :
    (o = .allow d ∧ s.calls d = .idle ∧ calls d =
      Sys.answered (s.breaker.maybeTransitionFromOpen s.clock) (s.breaker.allow s.clock).2) ∨
    (∃ err p, o = .record d err ∧ s.calls d = .running p ∧
      calls d = .returned p s.breaker.period err) ∨
    (calls d = s.calls d ∧ o ≠ .allow d ∧ ∀ err, o ≠ .record d err) := by
  cases o with
  | allow c =>
      cases hc : s.calls c with
      | idle =>
          simp only [Sys.proceed, hc, Breaker.allow_fst, Option.some.injEq] at h
          subst h
          by_cases hdc : d = c
          · subst hdc
            exact .inl ⟨rfl, hc, Function.update_self ..⟩
          · exact .inr (.inr ⟨Function.update_of_ne hdc .., by simp [Ne.symm hdc], by simp⟩)
      | _ => simp [Sys.proceed, hc] at h
  | record c err =>
      cases hc : s.calls c with
      | running p =>
          simp only [Sys.proceed, hc, Option.some.injEq] at h
          subst h
          by_cases hdc : d = c
          · subst hdc
            exact .inr (.inl ⟨err, p, rfl, hc, Function.update_self ..⟩)
          · exact .inr (.inr ⟨Function.update_of_ne hdc .., by simp, by simp [Ne.symm hdc]⟩)
      | _ => simp [Sys.proceed, hc] at h
  | state =>
      obtain rfl := Option.some.inj h
      exact .inr (.inr ⟨rfl, by simp, by simp⟩)
  | reset =>
      obtain rfl := Option.some.inj h
      exact .inr (.inr ⟨rfl, by simp, by simp⟩)

theorem admitted_proceed {s : Sys ι} {o : Op ι} {calls : ι → Call} (h : s.proceed o = some calls)
    {d : ι} {p : ℕ} (hd : (s.calls d).admitted = some p) : (calls d).admitted = some p := by
  rcases proceed_call h d with ⟨-, hc, -⟩ | ⟨err, q, -, hc, hcall⟩ | ⟨hcall, -⟩
  · simp [hc, Call.admitted] at hd
  · rw [hc] at hd
    rwa [hcall]
  · rwa [hcall]

/-- No call is ahead of the breaker, and `probes` counts what it should. -/
structure Tracked (s : Sys ι) : Prop where
  admitted : ∀ d p, (s.calls d).admitted = some p → p ≤ s.breaker.period
  recorded : ∀ d p q err, s.calls d = .returned p q err → q ≤ s.breaker.period
  outside : s.breaker.state ≠ .stateHalfOpen → s.breaker.probes = 0
  counted : s.breaker.state = .stateHalfOpen →
    ∃ cs : List ι, cs.Nodup ∧ (∀ d, d ∈ cs ↔ s.Counts d) ∧ s.breaker.probes = cs.length

theorem Tracked.recorded_proceed {s : Sys ι} (hs : Tracked s) {o : Op ι} {calls : ι → Call}
    (h : s.proceed o = some calls) {d : ι} {p q : ℕ} {err : Option GoError}
    (hd : calls d = .returned p q err) : q ≤ s.breaker.period := by
  rcases proceed_call h d with ⟨-, -, hcall⟩ | ⟨err', r, -, -, hcall⟩ | ⟨hcall, -⟩
  · rw [hcall] at hd
    cases hans : (s.breaker.allow s.clock).2 <;> simp [hans, Sys.answered] at hd
  · rw [hcall] at hd
    obtain ⟨-, rfl, -⟩ := Call.returned.inj hd
    exact le_rfl
  · rw [hcall] at hd
    exact hs.recorded d p q err hd

/-- What a half-open breaker has counted after a section: what it had, and the
success it was just told. -/
theorem Tracked.counts_proceed {s : Sys ι} (hs : Tracked s) {o : Op ι} {calls : ι → Call}
    (h : s.proceed o = some calls)
    (hstate : (Sys.perform s.breaker s.clock o).state = .stateHalfOpen) (d : ι) :
    (∃ p, calls d = .returned p (Sys.perform s.breaker s.clock o).period none) ↔
      s.breaker.state = .stateHalfOpen ∧ (s.Counts d ∨ o = .record d none) := by
  by_cases hhalf : s.breaker.state = .stateHalfOpen
  · have hperiod : (Sys.perform s.breaker s.clock o).period = s.breaker.period := by
      rw [period_perform, if_pos (hhalf.trans hstate.symm)]
    rw [hperiod, and_iff_right hhalf, Sys.Counts]
    rcases proceed_call h d with ⟨rfl, hc, hcall⟩ | ⟨err, r, rfl, hc, hcall⟩ | ⟨hcall, -, ho⟩
    · cases hans : (s.breaker.allow s.clock).2 <;> simp [hcall, hans, Sys.answered, hc]
    · simp [hcall, hc]
    · simp [hcall, ho]
  · have hperiod : (Sys.perform s.breaker s.clock o).period = s.breaker.period + 1 := by
      rw [period_perform, hstate, if_neg hhalf]
    constructor
    · rintro ⟨p, hp⟩
      have := hs.recorded_proceed h hp
      omega
    · exact fun hd => absurd hd.1 hhalf

theorem Tracked.admitted_le_proceed {s : Sys ι} (hs : Tracked s) {o : Op ι} {calls : ι → Call}
    (h : s.proceed o = some calls) {d : ι} {p : ℕ} (hd : (calls d).admitted = some p) :
    p ≤ (Sys.perform s.breaker s.clock o).period := by
  have hle := period_le_perform s.breaker s.clock o
  rcases proceed_call h d with ⟨rfl, -, hcall⟩ | ⟨err, q, -, hc, hcall⟩ | ⟨hcall, -⟩
  · rw [hcall] at hd
    simp only [Sys.perform, Breaker.allow_fst]
    cases hans : (s.breaker.allow s.clock).2 with
    | none =>
        simp only [hans, Sys.answered, Call.admitted, Option.some.injEq] at hd
        exact hd.ge
    | some err => simp [hans, Sys.answered, Call.admitted] at hd
  · rw [hcall] at hd
    exact (hs.admitted d p (by rw [hc]; exact hd)).trans hle
  · rw [hcall] at hd
    exact (hs.admitted d p hd).trans hle

theorem Tracked.step {s s' : Sys ι} {x : Action ι} (hs : Tracked s) (h : s.step x = some s') :
    Tracked s' := by
  rcases step_cases h with ⟨t, -, rfl⟩ | ⟨o, calls, -, hcalls, rfl⟩
  · exact ⟨hs.admitted, hs.recorded, hs.outside, hs.counted⟩
  · refine ⟨fun d p hd => hs.admitted_le_proceed hcalls hd, fun d p q err hd => ?_,
      fun hstate => ?_, fun hstate => ?_⟩
    · exact (hs.recorded_proceed hcalls hd).trans (period_le_perform s.breaker s.clock o)
    · exact probes_perform hs.outside s.clock o (.inl hstate)
    · have hiff := hs.counts_proceed hcalls hstate
      by_cases hhalf : s.breaker.state = .stateHalfOpen
      · obtain ⟨cs, hnodup, hmem, hlen⟩ := hs.counted hhalf
        simp only [hhalf, true_and] at hiff
        rcases probes_perform_halfOpen hhalf hstate with ⟨c, rfl, hprobes⟩ | ⟨hno, hprobes⟩
        · have hc : c ∉ cs := by
            rw [hmem c]
            rintro ⟨p, hp⟩
            simp [Sys.proceed, hp] at hcalls
          refine ⟨c :: cs, List.nodup_cons.mpr ⟨hc, hnodup⟩, fun d => ?_, ?_⟩
          · refine Iff.trans ?_ (hiff d).symm
            rw [List.mem_cons, hmem d, or_comm]
            simp [eq_comm]
          · simp [hprobes, hlen]
        · refine ⟨cs, hnodup, fun d => ?_, hprobes.trans hlen⟩
          refine Iff.trans ?_ (hiff d).symm
          rw [hmem d, or_iff_left (hno d)]
      · refine ⟨[], List.nodup_nil, fun d => ?_, ?_⟩
        · refine Iff.trans ?_ (hiff d).symm
          simp [hhalf]
        · exact probes_perform hs.outside s.clock o (.inr hhalf)

omit [DecidableEq ι] in
theorem tracked_start (opts : List (Options → Options)) (now : ℤ) :
    Tracked (start opts now : Sys ι) where
  admitted d p hd := by simp [start, Call.admitted] at hd
  recorded d p q err hd := by simp [start] at hd
  outside _ := rfl
  counted h := by simp [start, newBreaker] at h

theorem tracked_of_run {opts : List (Options → Options)} {now : ℤ} {xs : List (Action ι)}
    {s : Sys ι} (h : run Sys.step (start opts now) xs = some s) : Tracked s :=
  run_forall (fun _ _ _ hs => hs.step) (tracked_start opts now) h

/-! ## Who decides -/

/-- All that a half-open breaker has counted is the success of its own probes. -/
def OwnCounts (s : Sys ι) : Prop :=
  s.breaker.state = .stateHalfOpen → ∀ d, s.Counts d → s.OwnCall d

theorem OwnCounts.step {s s' : Sys ι} {x : Action ι} (ht : Tracked s) (hs : OwnCounts s)
    (hx : OwnResult s x) (h : s.step x = some s') : OwnCounts s' := by
  rcases step_cases h with ⟨t, -, rfl⟩ | ⟨o, calls, rfl, hcalls, rfl⟩
  · exact hs
  · intro hstate d hd
    obtain ⟨hhalf, hcount⟩ := (ht.counts_proceed hcalls hstate d).mp hd
    have hown : s.OwnCall d := by
      rcases hcount with hcount | rfl
      · exact hs hhalf d hcount
      · exact hx hhalf
    have hperiod : (Sys.perform s.breaker s.clock o).period = s.breaker.period := by
      rw [period_perform, if_pos (hhalf.trans hstate.symm)]
    exact admitted_proceed hcalls (hown.trans (congrArg some hperiod.symm))

theorem probesDecide_step {s s' : Sys ι} {x : Action ι} (hs : OwnCounts s) (hx : OwnResult s x)
    (h : s.step x = some s') : ProbesDecide s x s' := by
  intro hhalf hleft hreset
  have hpoll : s.breaker.maybeTransitionFromOpen s.clock = s.breaker :=
    Breaker.maybeTransitionFromOpen_of_ne (by simp [hhalf]) s.clock
  rcases step_cases h with ⟨t, -, rfl⟩ | ⟨o, calls, rfl, hcalls, rfl⟩
  · exact absurd hhalf hleft
  · cases o with
    | allow c => simp [Sys.perform, hpoll, hhalf] at hleft
    | state => simp [Sys.perform, Breaker.getState, hpoll, hhalf] at hleft
    | reset => exact absurd rfl hreset
    | record c err =>
        cases err with
        | some e =>
            exact .inl ⟨c, e, rfl, Breaker.record_halfOpen_some hhalf s.clock e, hx hhalf⟩
        | none =>
            rcases Breaker.record_halfOpen_none hhalf s.clock with ⟨hS, hclosed⟩ | ⟨hstays, -⟩
            · exact .inr ⟨c, rfl, hclosed, hS, hx hhalf, hs hhalf⟩
            · exact absurd hstays hleft

/-- A late result of another period is counted like that of a probe. -/
theorem late_result_decides {s s' : Sys ι} {c : ι} {err : Option GoError} (ht : Tracked s)
    (hhalf : s.breaker.state = .stateHalfOpen) (hlate : ¬ s.OwnCall c)
    (h : s.step (.op (.record c err)) = some s') :
    if s'.breaker.state = .stateHalfOpen then s'.Counts c
    else ¬ ProbesDecide s (.op (.record c err)) s' := by
  rcases step_cases h with ⟨t, hx, -⟩ | ⟨o, calls, hx, hcalls, rfl⟩
  · nomatch hx
  · obtain rfl := Action.op.inj hx
    split_ifs with hstate
    · apply (ht.counts_proceed hcalls hstate c).mpr
      refine ⟨hhalf, .inr ?_⟩
      cases err with
      | none => rfl
      | some e => simp [Sys.perform, Breaker.record_halfOpen_some hhalf] at hstate
    · intro hdecide
      rcases hdecide hhalf hstate (by simp) with ⟨d, e, hd, -, hown⟩ | ⟨d, hd, -, -, hown, -⟩
      · simp only [Action.op.injEq, Op.record.injEq] at hd
        exact hlate (hd.1 ▸ hown)
      · simp only [Action.op.injEq, Op.record.injEq] at hd
        exact hlate (hd.1 ▸ hown)

/-- As long as a half-open breaker is told the results of its own probes only,
it is they who decide; any other result it is told is counted with them.  What
`probes` counts are the successes recorded in the period. -/
theorem own_probes_decide {opts : List (Options → Options)} {now : ℤ} {xs : List (Action ι)}
    {x : Action ι} {s s' : Sys ι} (hrun : run Sys.step (start opts now) xs = some s)
    (hstep : s.step x = some s') :
    (Along Sys.step OwnResult (start opts now) (xs ++ [x]) → ProbesDecide s x s') ∧
      (s.breaker.state = .stateHalfOpen → ∃ cs : List ι, cs.Nodup ∧
        (∀ d, d ∈ cs ↔ s.Counts d) ∧ s.breaker.probes = cs.length) ∧
      ∀ c err, x = .op (.record c err) → ¬ OwnResult s x →
        if s'.breaker.state = .stateHalfOpen then s'.Counts c else ¬ ProbesDecide s x s' := by
  have ht := tracked_of_run hrun
  refine ⟨fun halong => ?_, ht.counted, ?_⟩
  · obtain ⟨hxs, hx⟩ := along_append.mp halong
    have hcounts : Tracked s ∧ OwnCounts s := by
      refine run_invariant (P := fun t => Tracked t ∧ OwnCounts t)
        (fun t y u hP hy hu => ⟨hP.1.step hu, hP.2.step hP.1 hy hu⟩) ?_ hxs hrun
      exact ⟨tracked_start opts now, fun hhalf => by simp [start, newBreaker] at hhalf⟩
    exact probesDecide_step hcounts.2 (hx s hrun).1 hstep
  · rintro c err rfl hlate
    simp only [OwnResult, Classical.not_imp] at hlate
    exact late_result_decides ht hlate.1 hlate.2 hstep

/-- The call `false` is admitted by the closed breaker and succeeds after the
failure of `true` has opened it and the timeout has passed. -/
def lateSuccess : List (Action Bool) :=
  [.op (.allow false), .op (.allow true), .op (.record true (some (.new "down"))), .advance 10,
    .op .state]

def lateOptions : List (Options → Options) := [withFailureThreshold 1, withOpenTimeout 10]

theorem late_success_closes : ∃ s s' : Sys Bool,
    run Sys.step (start lateOptions 0) lateSuccess = some s ∧
      s.step (.op (.record false none)) = some s' ∧ s.breaker.state = .stateHalfOpen ∧
      s'.breaker.state = .stateClosed ∧ ¬ ProbesDecide s (.op (.record false none)) s' := by
  have hrun : ((run Sys.step (start lateOptions 0) lateSuccess).bind fun s =>
      (s.step (.op (.record false none))).map fun s' => (s.breaker.state, s'.breaker.state,
        s.breaker.period, (s.calls false).admitted)) =
      some (.stateHalfOpen, .stateClosed, 2, some 0) := by decide
  obtain ⟨s, hs, hstep⟩ := Option.bind_eq_some_iff.mp hrun
  obtain ⟨s', hs', hstates⟩ := Option.map_eq_some_iff.mp hstep
  simp only [Prod.mk.injEq] at hstates
  obtain ⟨hhalf, hclosed, hperiod, hadmitted⟩ := hstates
  have hlate : ¬ s.OwnCall false := by simp [Sys.OwnCall, hperiod, hadmitted]
  have hdecides := late_result_decides (tracked_of_run hs) hhalf hlate hs'
  rw [if_neg (by simp [hclosed])] at hdecides
  exact ⟨s, s', hs, hs', hhalf, hclosed, hdecides⟩

def ownSuccess : List (Action Bool) :=
  [.op (.allow true), .op (.record true (some (.new "down"))), .advance 10, .op (.allow false)]

theorem own_success_closes : ∃ s s' : Sys Bool,
    run Sys.step (start lateOptions 0) ownSuccess = some s ∧
      s.step (.op (.record false none)) = some s' ∧ s.breaker.state = .stateHalfOpen ∧
      s'.breaker.state = .stateClosed ∧ ProbesDecide s (.op (.record false none)) s' := by
  have hrun : ((run Sys.step (start lateOptions 0) ownSuccess).bind fun s =>
      (s.step (.op (.record false none))).map fun s' => (s.breaker.state, s'.breaker.state)) =
      some (.stateHalfOpen, .stateClosed) := by decide
  obtain ⟨s, hs, hstep⟩ := Option.bind_eq_some_iff.mp hrun
  obtain ⟨s', hs', hstates⟩ := Option.map_eq_some_iff.mp hstep
  obtain ⟨hhalf, hclosed⟩ := Prod.mk.inj hstates
  exact ⟨s, s', hs, hs', hhalf, hclosed, (own_probes_decide hs hs').1 (by decide)⟩

/-! ## How many probes -/

theorem running_proceed {s : Sys ι} {o : Op ι} {calls : ι → Call} (h : s.proceed o = some calls)
    {d : ι} {p : ℕ} : calls d = .running p ↔
      (s.calls d = .running p ∧ ∀ err, o ≠ .record d err) ∨
      (o = .allow d ∧ (s.breaker.allow s.clock).2 = none ∧
        p = (s.breaker.maybeTransitionFromOpen s.clock).period) := by
  rcases proceed_call h d with ⟨rfl, hc, hcall⟩ | ⟨err, q, rfl, hc, hcall⟩ | ⟨hcall, hask, ho⟩
  · cases hans : (s.breaker.allow s.clock).2 <;> simp [hcall, hans, Sys.answered, hc, eq_comm]
  · simp [hcall]
  · simp [hcall, hask, ho]

/-- The probes that run after a section which leaves the breaker half open. -/
theorem Tracked.probes_proceed {s : Sys ι} (hs : Tracked s) {o : Op ι} {calls : ι → Call}
    (h : s.proceed o = some calls)
    (hstate : (Sys.perform s.breaker s.clock o).state = .stateHalfOpen) (d : ι) :
    calls d = .running (Sys.perform s.breaker s.clock o).period ↔
      (s.breaker.state = .stateHalfOpen ∧ s.calls d = .running s.breaker.period ∧
        ∀ err, o ≠ .record d err) ∨ o = .allow d := by
  rw [running_proceed h]
  apply or_congr
  · by_cases hhalf : s.breaker.state = .stateHalfOpen
    · rw [period_perform, if_pos (hhalf.trans hstate.symm)]
      simp [hhalf]
    · rw [period_perform, hstate, if_neg hhalf]
      have hfuture : s.calls d ≠ .running (s.breaker.period + 1) := by
        intro hd
        have := hs.admitted d _ (by rw [hd]; rfl)
        omega
      simp [hhalf, hfuture]
  · refine ⟨fun ho => ho.1, ?_⟩
    rintro rfl
    simp only [Sys.perform, Breaker.allow_fst] at hstate ⊢
    simp [Breaker.allow_eq_none_iff, hstate]

theorem atMostOneProbe_step {s s' : Sys ι} {x : Action ι} (ht : Tracked s)
    (hs : AtMostOneProbe s) (h : s.step x = some s') : AtMostOneProbe s' ↔ AsksAlone s x := by
  rcases step_cases h with ⟨t, rfl, rfl⟩ | ⟨o, calls, rfl, hcalls, rfl⟩
  · exact ⟨fun _ => trivial, fun _ => hs⟩
  · constructor
    · intro hone
      cases o with
      | allow c =>
          intro hhalf d hd
          have hstate : (Sys.perform s.breaker s.clock (.allow c)).state = .stateHalfOpen := by
            simp [Sys.perform, Breaker.maybeTransitionFromOpen_of_ne, hhalf]
          have hiff := ht.probes_proceed hcalls hstate
          have hdc : d = c := hone hstate ((hiff d).mpr (.inl ⟨hhalf, hd, by simp⟩))
            ((hiff c).mpr (.inr rfl))
          subst hdc
          simp [Sys.proceed, hd] at hcalls
      | record c err => trivial
      | state => trivial
      | reset => trivial
    · intro halone hstate d hd e he
      have hiff := ht.probes_proceed hcalls hstate
      rcases (hiff d).mp hd with ⟨hhalf, hrunning, -⟩ | rfl
      · rcases (hiff e).mp he with ⟨-, hother, -⟩ | rfl
        · exact hs hhalf hrunning hother
        · exact absurd hrunning (halone hhalf d)
      · rcases (hiff e).mp he with ⟨hhalf, hother, -⟩ | heq
        · exact absurd hother (halone hhalf e)
        · exact Op.allow.inj heq

/-- A run has at most one probe at a time exactly if no call asks the half-open
breaker while a probe is running. -/
theorem one_probe_iff_asks_alone {opts : List (Options → Options)} {now : ℤ}
    {xs : List (Action ι)} {s : Sys ι} (hrun : run Sys.step (start opts now) xs = some s) :
    (∀ ys zs t, xs = ys ++ zs → run Sys.step (start opts now) ys = some t → AtMostOneProbe t) ↔
      Along Sys.step AsksAlone (start opts now) xs := by
  apply forall_prefix_iff_along (I := Tracked) (fun _ _ _ ht h => ht.step h)
    (fun _ _ _ ht hs h => atMostOneProbe_step ht hs h) (tracked_start opts now) ?_ hrun
  intro hhalf
  simp [start, newBreaker] at hhalf

def twoProbes : List (Action (Fin 3)) :=
  [.op (.allow 0), .op (.record 0 (some (.new "down"))), .advance 10, .op (.allow 1),
    .op (.allow 2)]

theorem two_probes_run : ∃ s : Sys (Fin 3),
    run Sys.step (start lateOptions 0) twoProbes = some s ∧ ¬ AtMostOneProbe s := by
  have hrun : (run Sys.step (start lateOptions 0) twoProbes).map
      (fun s => (s.breaker.state, s.breaker.period, s.calls 1, s.calls 2)) =
      some (.stateHalfOpen, 2, .running 2, .running 2) := by decide
  obtain ⟨s, hs, hprobes⟩ := Option.map_eq_some_iff.mp hrun
  simp only [Prod.mk.injEq] at hprobes
  obtain ⟨hhalf, hperiod, hone, htwo⟩ := hprobes
  refine ⟨s, hs, fun hle => ?_⟩
  have hsame : (1 : Fin 3) = 2 := hle hhalf (by simp [hperiod, hone]) (by simp [hperiod, htwo])
  exact absurd hsame (by decide)

theorem single_probe_run : ∃ s : Sys Bool,
    run Sys.step (start lateOptions 0) ownSuccess = some s ∧ AtMostOneProbe s := by
  have hrun : (run Sys.step (start lateOptions 0) ownSuccess).isSome = true := by decide
  obtain ⟨s, hs⟩ := Option.isSome_iff_exists.mp hrun
  refine ⟨s, hs, ?_⟩
  exact (one_probe_iff_asks_alone hs).mpr (by decide) ownSuccess [] s (by simp) hs

end Gkit.CircuitBreaker
