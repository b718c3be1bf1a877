import Gkit.Pipeline.Accounting

/-!
# `Process` comes to its end

Every operation but the end of the context of the caller uses up work, and until
`Process` has returned one of its goroutines can go on: what is in a channel, in
the hands of a worker or collected is never more than the items, so there is room
in the buffers.
-/

namespace Gkit.Pipeline

open Gkit.Lib

variable {α β : Type} {n : ℕ} {fn : α → Except GoError β} {items : List α} {s s' : Sys α β n}
  {x : Action n} {log : List (Event α β)}

/-! ## The work that is left -/

/-- The operations between here and the end of the worker, and those that its
result is still to go through. -/
def Worker.rank : Worker α β → ℕ
  | .receiving => 1
  | .checking _ => 6
  | .running _ => 5
  | .reporting _ => 4
  | .exited => 0

def Main.rank : Main α β → ℕ
  | .sending todo => 7 * todo.length + 2
  | .collecting => 1
  | .handling _ => 2
  | .returned _ => 0
  | .crashed _ => 0

def Sys.rank (s : Sys α β n) : ℕ :=
  s.main.rank + 6 * s.jobs.buf.length + 2 * s.results.buf.length + (!s.results.closed).toNat +
    tally Worker.rank s.workers

theorem rank_setWorker (s : Sys α β n) (w : Fin n) (worker : Worker α β) :
    (s.setWorker w worker).rank + (s.workers w).rank = s.rank + worker.rank := by
  have := tally_update Worker.rank s.workers w worker
  simp only [Sys.rank, Sys.setWorker]
  omega

theorem rank_setWorker_lt {w : Fin n} {old new : Worker α β} (hw : s.workers w = old)
    (hlt : new.rank < old.rank) : (s.setWorker w new).rank < s.rank := by
  have := rank_setWorker s w new
  rw [hw] at this
  omega

theorem rank_lt_of_step (hst : Staged items s) (hx : ∀ err, x ≠ .done err)
    (h : s.step fn x = some s') : s'.rank < s.rank := by
  obtain ⟨es, -, heffect⟩ := effect_of_step h
  cases heffect with
  | fed hm hopen hroom =>
      simp only [Sys.rank, hm, Main.rank, List.length_append, List.length_cons, List.length_nil]
      omega
  | feedCrashes hm hclosed =>
      have := hst.jobs
      simp [hm, Main.hasSent, hclosed] at this
  | jobsClosed hm hopen =>
      simp only [Sys.rank, hm, Main.rank, List.length_nil]
      omega
  | @received w job buf hw hbuf =>
      have := rank_setWorker { s with jobs := { s.jobs with buf := buf } } w (.checking job)
      simp only [hw, Worker.rank, Sys.rank, hbuf, List.length_cons] at this ⊢
      omega
  | exited hw hbuf hclosed => exact rank_setWorker_lt hw (by simp [Worker.rank])
  | called hw hctx => exact rank_setWorker_lt hw (by simp [Worker.rank])
  | skipped hw hctx => exact rank_setWorker_lt hw (by simp [Worker.rank])
  | answered hw => exact rank_setWorker_lt hw (by simp [Worker.rank])
  | failed hw hctx => exact rank_setWorker_lt hw (by simp [Worker.rank])
  | @reported w r hw hopen hroom =>
      have := rank_setWorker
        { s with results := { s.results with buf := s.results.buf ++ [r] } } w .receiving
      simp only [hw, Worker.rank, Sys.rank, List.length_append, List.length_cons,
        List.length_nil] at this ⊢
      omega
  | reportCrashes hw hclosed =>
      have := hst.results hclosed
      simp [this] at hw
  | resultsClosed hm hopen hw => simp [Sys.rank, hopen]
  | collected hm hbuf =>
      simp only [Sys.rank, hm, hbuf, Main.rank, List.length_cons]
      omega
  | returned hm hbuf hclosed => simp [Sys.rank, hm, Main.rank]
  | stored hm ho => simp [Sys.rank, hm, Main.rank]
  | appended hm ho => simp [Sys.rank, hm, Main.rank]
  | cancelled hm herr => simp [Sys.rank, hm, Main.rank]
  | ignored hm herr => simp [Sys.rank, hm, Main.rank]
  | parentDone hctx => exact absurd rfl (hx _)

/-! ## Some goroutine can go on -/

theorem card_indicesOf (jobs : List (Work α)) : (indicesOf jobs).card = jobs.length := by
  simp [indicesOf]

theorem card_indicesIn (rs : List (Result β)) : (indicesIn rs).card = rs.length := by
  simp [indicesIn]

theorem Balanced.card (hb : Balanced items s log) :
    s.main.indices.card + s.jobs.buf.length + s.results.buf.length + (collected log).length +
      (tally Worker.indices s.workers).card = items.length := by
  have := congrArg Multiset.card hb.indices
  simpa only [Multiset.card_add, card_indicesOf, card_indicesIn, Multiset.card_range] using this

/-- A worker that has not exited can go on once the jobs are all sent. -/
theorem Staged.worker_steps (hst : Staged items s) (hb : Balanced items s log)
    (hsent : s.main.hasSent = true) {w : Fin n} (hw : s.workers w ≠ .exited) :
    ∃ x, (∀ err, x ≠ .done err) ∧ (s.step fn x).isSome := by
  have hopen : s.results.closed = false := by
    by_contra hc
    exact hw (hst.results (Bool.eq_true_of_not_eq_false hc) w)
  cases hw' : s.workers w with
  | receiving =>
      refine ⟨.receive w, by simp, ?_⟩
      have hclosed : s.jobs.closed = true := hst.jobs.trans hsent
      rcases s.jobs.recv_cases with ⟨job, buf, hbuf, hr⟩ | ⟨hbuf, -, hr⟩ | ⟨-, hc, -⟩
      · simp [Sys.step, Sys.receive, hw', hr]
      · simp [Sys.step, Sys.receive, hw', hr]
      · simp [hclosed] at hc
  | checking job =>
      refine ⟨.check w, by simp, ?_⟩
      cases hctx : s.ctx <;> simp [Sys.step, Sys.check, hw', hctx]
  | running job => exact ⟨.answer w, by simp, by simp [Sys.step, Sys.answer, hw']⟩
  | reporting r =>
      refine ⟨.report w, by simp, ?_⟩
      -- the index of the result is counted with the worker, so it is not in the buffer
      have hcard := hb.card
      have hpos : 0 < (tally Worker.indices s.workers).card := by
        apply Multiset.card_pos_iff_exists_mem.mpr
        exact ⟨r.idx, mem_tally.mpr ⟨w, by simp [hw', Worker.indices]⟩⟩
      rcases s.results.send_cases r with ⟨hc, -⟩ | ⟨-, -, hs⟩ | ⟨-, hfull, -⟩
      · simp [hopen] at hc
      · simp [Sys.step, Sys.report, hw', hs]
      · rw [hst.resultsCap] at hfull
        omega
  | exited => exact absurd hw' hw

/-- There is no deadlock: until `Process` has returned, some operation other than
the end of the context of the caller can be taken. -/
theorem Staged.steps (hst : Staged items s) (hb : Balanced items s log) :
    (∃ o, s.main = .returned o) ∨ ∃ x, (∀ err, x ≠ .done err) ∧ (s.step fn x).isSome := by
  cases hm : s.main with
  | sending todo =>
      have hopen : s.jobs.closed = false := hst.jobs.trans (by rw [hm]; rfl)
      refine .inr ⟨.feed, by simp, ?_⟩
      cases todo with
      | nil => simp [Sys.step, Sys.feed, hm, Chan.close, hopen]
      | cons job todo =>
          have hcard := hb.card
          rw [hm, Main.indices, card_indicesOf, List.length_cons] at hcard
          rcases s.jobs.send_cases job with ⟨hc, -⟩ | ⟨-, -, hs⟩ | ⟨-, hfull, -⟩
          · simp [hopen] at hc
          · simp [Sys.step, Sys.feed, hm, hs]
          · rw [hst.jobsCap] at hfull
            omega
  | collecting =>
      right
      by_cases hw : ∀ w, s.workers w = .exited
      · cases hclosed : s.results.closed with
        | true =>
            refine ⟨.collect, by simp, ?_⟩
            rcases s.results.recv_cases with ⟨r, buf, -, hr⟩ | ⟨-, -, hr⟩ | ⟨-, hc, -⟩
            · simp [Sys.step, Sys.collect, hm, hr]
            · simp [Sys.step, Sys.collect, hm, hr]
            · simp [hclosed] at hc
        | false =>
            exact ⟨.closeResults, by simp, by
              simp [Sys.step, Sys.closeResults, hm, hclosed, hw, Main.hasSent, Worker.isExited]⟩
      · obtain ⟨w, hw⟩ := not_forall.mp hw
        exact hst.worker_steps hb (by rw [hm]; rfl) hw
  | handling r =>
      refine .inr ⟨.handle, by simp, ?_⟩
      obtain ⟨idx, res⟩ := r
      cases res with
      | ok v => cases ho : s.ordered <;> simp [Sys.step, Sys.handle, hm, ho]
      | error err => cases hf : s.firstErr <;> simp [Sys.step, Sys.handle, hm, hf]
  | returned o => exact .inl ⟨o, rfl⟩
  | crashed text => exact absurd hm (hst.alive text)

end Gkit.Pipeline
