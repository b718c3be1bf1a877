import Gkit.Pool.Conservation

/-!
# The counters at one instant

A worker counts a job as completed when it is done with it, a call counts it as
submitted after its send, and nothing puts the second before the first.  What
`completed` may be ahead by are the calls between their send and their count.
-/

namespace Gkit.Pool

open Gkit.Lib

variable {ι T : Type} {n : ℕ}

/-! ## What the workers owe the counters -/

namespace Worker

/-- A job that has left the queue and that `completed` does not count yet. -/
def inHand : Worker T → ℕ
  | .received _ | .running _ | .ran _ | .left _ => 1
  | _ => 0

/-- An error of a job that `completed` counts and `errors` does not. -/
def overdue : Worker T → ℕ
  | .counted (some _) => 1
  | _ => 0

theorem inHand_eq (worker : Worker T) :
    worker.inHand = worker.holding.card + worker.executing.card + worker.uncounted := by
  cases worker <;> rfl

theorem inFlight_bounds (worker : Worker T) : 0 ≤ worker.inFlight ∧ worker.inFlight ≤ 1 := by
  cases worker <;> simp [inFlight]

end Worker

theorem tally_inHand (workers : Fin n → Worker T) :
    tally Worker.inHand workers = (tally Worker.holding workers).card +
      (tally Worker.executing workers).card + tally Worker.uncounted workers := by
  simp only [tally, Multiset.card_sum]
  rw [← Finset.sum_add_distrib, ← Finset.sum_add_distrib]
  exact Finset.sum_congr rfl fun w _ => (workers w).inHand_eq

theorem tally_inFlight_bounds (workers : Fin n → Worker T) :
    0 ≤ tally Worker.inFlight workers ∧ tally Worker.inFlight workers ≤ n := by
  constructor
  · exact Finset.sum_nonneg fun w _ => (workers w).inFlight_bounds.1
  · have hle := Finset.sum_le_card_nsmul Finset.univ (fun w => (workers w).inFlight) 1
      fun w _ => (workers w).inFlight_bounds.2
    rwa [Finset.card_fin, nsmul_one] at hle

/-- An error is counted after the job it ended. -/
def Ordered (s : Sys ι T n) : Prop := s.errors + tally Worker.overdue s.workers ≤ s.completed

theorem Ordered.move {s s' : Sys ι T n} {w : Fin n} {old new : Worker T} (hs : Ordered s)
    (hw : s.workers w = old) (hw' : s'.workers = Function.update s.workers w new)
    (h : s'.errors + new.overdue + s.completed ≤ s.errors + old.overdue + s'.completed) :
    Ordered s' := by
  subst hw
  have htally := tally_update Worker.overdue s.workers w new
  rw [← hw'] at htally
  unfold Ordered at hs ⊢
  omega

variable [DecidableEq ι] {s s' : Sys ι T n} {x : Action ι T n}

theorem Ordered.step (hs : Ordered s) (h : s.step x = some s') : Ordered s' := by
  cases effect_of_step h with
  | handed hc hw hopen hbuf => exact hs.move hw rfl le_rfl
  | started hw =>
      have hlaunch := tally_launch Worker.overdue hw rfl
      exact (congrArg (s.errors + ·) hlaunch.symm).trans_le hs
  | received hw hbuf => exact hs.move hw rfl le_rfl
  | exited hw hbuf hclosed => exact hs.move hw rfl le_rfl
  | began hw => exact hs.move hw rfl le_rfl
  | finished hw => exact hs.move hw rfl le_rfl
  | landed hw => exact hs.move hw rfl le_rfl
  | @completed w err hw =>
      apply hs.move hw rfl
      cases err with
      | none => exact Nat.add_le_add_left (Nat.le_succ _) _
      | some e => exact (Nat.add_right_comm _ _ _).le
  | @looped w err hw =>
      apply hs.move hw rfl
      cases err <;> exact le_rfl
  | _ => exact hs

omit [DecidableEq ι] in
theorem ordered_new {workers : ℤ} {queueSize : Option ℤ} {s : Sys ι T workers.toNat}
    (h : newPool workers queueSize = .ok s) : Ordered s := by
  simp only [newPool] at h
  split_ifs at h
  obtain rfl := Except.ok.inj h
  have hidle : tally Worker.overdue (fun _ : Fin workers.toNat => (.waiting : Worker T)) = 0 :=
    tally_eq_zero (fun _ => rfl) _ rfl
  unfold Ordered
  rw [hidle]

/-! ## The calls between their send and their count -/

/-- Exactly the calls that have sent a job and not counted it. -/
def Uncounted (s : Sys ι T n) (pending : Finset (ι × T)) : Prop :=
  ∀ c job, (c, job) ∈ pending ↔ ∃ kind, s.calls c = .sent kind job

omit [DecidableEq ι] in
theorem Call.sent_iff {call : Call T} {job : T} :
    (∃ kind, call = .sent kind job) ↔ call.handedIn = some job ∧ call.accepted ≠ some job := by
  cases call with
  | returned kind job' err => cases err <;> simp [handedIn, accepted]
  | _ => simp [handedIn, accepted]

omit [DecidableEq ι] in
/-- What was sent and what was counted differ by the calls in between. -/
theorem Filed.exists_uncounted {log : List (Event T)} {sent counted : List (ι × T)}
    (h : Filed s log sent counted) :
    ∃ pending, Uncounted s pending ∧ s.submitted + pending.card = sent.length := by
  classical
  have hmem (c : ι) (job : T) : (c, job) ∈ sent.toFinset \ counted.toFinset ↔
      ∃ kind, s.calls c = .sent kind job := by
    rw [Finset.mem_sdiff, List.mem_toFinset, List.mem_toFinset, h.handedIn.mem, h.accepted.mem]
    exact Call.sent_iff.symm
  have hsubset : counted.toFinset ⊆ sent.toFinset := by
    rintro ⟨c, job⟩ hc
    rw [List.mem_toFinset, h.accepted.mem] at hc
    obtain ⟨kind, hkind⟩ := Call.accepted_eq_some.mp hc
    rw [List.mem_toFinset, h.handedIn.mem, Function.comp_apply, hkind]
    rfl
  have hcard := Finset.card_sdiff_add_card_eq_card hsubset
  rw [List.toFinset_card_of_nodup h.handedIn.nodup,
    List.toFinset_card_of_nodup h.accepted.nodup] at hcard
  exact ⟨_, hmem, by rw [h.submitted, add_comm, hcard]⟩

omit [DecidableEq ι] in
/-- A job that was sent is in the queue, in a worker's hands or completed. -/
theorem Filed.sent_length {log : List (Event T)} {sent counted : List (ι × T)}
    (h : Filed s log sent counted) (hc : Counters s log) :
    sent.length = s.completed + s.jobs.buf.length + tally Worker.inHand s.workers := by
  have hjobs := congrArg Multiset.card h.jobs
  have hpassed := congrArg Multiset.card hc.passed
  have hcompleted := hc.completed
  simp only [Multiset.card_add, Multiset.coe_card, List.length_map] at hjobs hpassed
  rw [tally_inHand]
  omega

/-- In every reachable state the errors are at most the completed jobs and the
jobs in flight at most the workers; `completed` is at most `submitted` exactly if
the calls between their send and their count are no more than the jobs that have
not been completed. -/
theorem completed_le_submitted_iff {workers : ℤ} {queueSize : Option ℤ}
    {s₀ s : Sys ι T workers.toNat} {xs : List (Action ι T workers.toNat)}
    (hnew : newPool workers queueSize = .ok s₀) (hrun : run Sys.step s₀ xs = some s) :
    s.stats.errors ≤ s.stats.completed ∧ 0 ≤ s.stats.inFlight ∧ s.stats.inFlight ≤ workers ∧
      ∃ pending, Uncounted s pending ∧ (s.stats.completed ≤ s.stats.submitted ↔
        pending.card ≤ s.stats.queueDepth + tally Worker.inHand s.workers) := by
  obtain ⟨hpos, hcounters, hfiled, -⟩ := newPool_empty hnew
  have hordered := ordered_new hnew
  have hinv : Ordered s ∧ Counters s (collect Sys.step events s₀ xs) ∧
      ∃ sent counted, Filed s (collect Sys.step events s₀ xs) sent counted := by
    apply run_collect (C := fun _ _ => True) (P := fun t log =>
      Ordered t ∧ Counters t log ∧ ∃ sent counted, Filed t log sent counted)
      ?_ ⟨hordered, hcounters, [], [], hfiled⟩ (along_of_forall fun _ _ _ => trivial) hrun
    rintro t log x u ⟨hord, hco, sent, counted, hfi⟩ - hu
    exact ⟨hord.step hu, hco.step hu, hfi.step hu⟩
  obtain ⟨hord, hco, sent, counted, hfi⟩ := hinv
  obtain ⟨pending, hpending, hcard⟩ := hfi.exists_uncounted
  have hsent := hfi.sent_length hco
  have hflight := tally_inFlight_bounds s.workers
  rw [← hco.inFlight] at hflight
  refine ⟨(Nat.le_add_right _ _).trans hord, hflight.1, ?_, pending, hpending, ?_⟩
  · exact hflight.2.trans_eq (by omega)
  · simp only [Sys.stats]
    omega

/-- The worker is done with the job before the call has counted it. -/
def doneBeforeCounted : List (Action Unit ℕ 1) :=
  [.start, .enter () .submit 7, .send (), .work 0, .work 0, .finish 0 none, .work 0, .work 0]

theorem completed_ahead_of_submitted : newPool 1 none = .ok idlePool ∧
    (run Sys.step idlePool doneBeforeCounted).map Sys.stats = some ⟨0, 1, 0, 0, 0⟩ :=
  ⟨rfl, by decide⟩

/-- The worker has the job in its hands when the call has not counted it. -/
theorem running_before_counted : ∃ s : Sys Unit ℕ 1,
    run Sys.step idlePool (doneBeforeCounted.take 6) = some s ∧ s.calls () = .sent .submit 7 ∧
      s.stats.completed ≤ s.stats.submitted := by
  have hrun : (run Sys.step idlePool (doneBeforeCounted.take 6)).map
      (fun s => (s.calls (), tally Worker.inHand s.workers)) = some (.sent .submit 7, 1) := by
    decide
  obtain ⟨s, hs, hstate⟩ := Option.map_eq_some_iff.mp hrun
  obtain ⟨hcall, hhand⟩ := Prod.mk.inj hstate
  have hnew : newPool 1 none = .ok idlePool := rfl
  obtain ⟨-, -, -, pending, hpending, hiff⟩ := completed_le_submitted_iff hnew hs
  refine ⟨s, hs, hcall, hiff.mpr ?_⟩
  have hsubset : pending ⊆ {((), 7)} := by
    rintro ⟨c, job⟩ hmem
    obtain ⟨kind, hkind⟩ := (hpending c job).mp hmem
    obtain ⟨-, rfl⟩ := Call.sent.inj (hcall.symm.trans hkind)
    exact Finset.mem_singleton_self _
  rw [hhand]
  exact (Finset.card_le_card hsubset).trans (Nat.le_add_left 1 _)

end Gkit.Pool
