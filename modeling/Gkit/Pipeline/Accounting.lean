import Gkit.Lib.Tallies
import Gkit.Pipeline.Effects

/-!
# Where each item is

Each index is in one place at any time: not sent yet, in a channel, in the hands
of a worker or of the collector, or collected.  Channels are closed when nobody
sends on them any more, so no goroutine panics, and their buffers are large
enough that no send ever blocks.
-/

namespace Gkit.Pipeline

open Gkit.Lib

variable {α β : Type} {n : ℕ} {fn : α → Except GoError β} {items : List α}

/-! ## The channels -/

structure Staged (items : List α) (s : Sys α β n) : Prop where
  jobsCap : s.jobs.cap = items.length
  resultsCap : s.results.cap = items.length
  jobs : s.jobs.closed = s.main.hasSent
  exited : ∀ w, s.workers w = .exited → s.jobs.closed = true ∧ s.jobs.buf = []
  results : s.results.closed = true → ∀ w, s.workers w = .exited
  alive : ∀ text, s.main ≠ .crashed text
  returned : ∀ o, s.main = .returned o → s.results.closed = true ∧ s.results.buf = []

theorem Worker.isExited_iff {worker : Worker α β} : worker.isExited = true ↔ worker = .exited := by
  cases worker <;> simp [isExited]

variable {s s' : Sys α β n} {x : Action n}

/-- A worker that has not exited moves on, other than to its end. -/
theorem Staged.move (hs : Staged items s) {w : Fin n} {old new : Worker α β}
    (hw : s.workers w = old) (hold : old ≠ .exited) (hnew : new ≠ .exited)
    (hjobs : s'.jobs.cap = s.jobs.cap ∧ s'.jobs.closed = s.jobs.closed)
    (hbuf : s.jobs.buf = [] → s'.jobs.buf = []) (hresults : s'.results.cap = s.results.cap)
    (hclosed : s'.results.closed = s.results.closed) (hmain : s'.main = s.main)
    (hw' : s'.workers = Function.update s.workers w new) : Staged items s' := by
  have hopen : s.results.closed = false := by
    by_contra hc
    exact hold (hw ▸ hs.results (Bool.eq_true_of_not_eq_false hc) w)
  refine ⟨hjobs.1.trans hs.jobsCap, hresults.trans hs.resultsCap,
    hjobs.2.trans (hs.jobs.trans (by rw [hmain])), fun v hv => ?_, fun hc => ?_, hmain ▸ hs.alive,
    fun o ho => ?_⟩
  · rw [hw'] at hv
    by_cases hvw : v = w
    · subst hvw
      rw [Function.update_self] at hv
      exact absurd hv hnew
    · rw [Function.update_of_ne hvw] at hv
      exact ⟨hjobs.2.trans (hs.exited v hv).1, hbuf (hs.exited v hv).2⟩
  · rw [hclosed, hopen] at hc
    nomatch hc
  · have := (hs.returned o (hmain ▸ ho)).1
    rw [hopen] at this
    nomatch this

/-- The collector moves on. -/
theorem Staged.advance (hs : Staged items s) (hm : s.main.hasSent = true)
    (hm' : s'.main.hasSent = true) (halive : ∀ text, s'.main ≠ .crashed text)
    (hreturned : ∀ o, s'.main ≠ .returned o) (hjobs : s'.jobs = s.jobs)
    (hresults : s'.results.cap = s.results.cap) (hclosed : s'.results.closed = s.results.closed)
    (hw : s'.workers = s.workers) : Staged items s' where
  jobsCap := hjobs ▸ hs.jobsCap
  resultsCap := hresults.trans hs.resultsCap
  jobs := by rw [hjobs, hs.jobs, hm, hm']
  exited := hjobs ▸ hw ▸ hs.exited
  results := hclosed ▸ hw ▸ hs.results
  alive := halive
  returned o ho := absurd ho (hreturned o)

theorem Staged.step (hs : Staged items s) (h : s.step fn x = some s') : Staged items s' := by
  -- while the channel of the jobs is open no worker has exited
  have hworking (hopen : s.jobs.closed = false) (w : Fin n) : s.workers w ≠ .exited := by
    intro hw
    simp [(hs.exited w hw).1] at hopen
  obtain ⟨es, -, heffect⟩ := effect_of_step h
  cases heffect with
  | fed hm hopen hroom =>
      refine ⟨hs.jobsCap, hs.resultsCap, by simp [hopen, Main.hasSent], fun w hw => ?_, hs.results,
        by simp, by simp⟩
      exact absurd hw (hworking hopen w)
  | feedCrashes hm hclosed =>
      have := hs.jobs
      simp [hm, Main.hasSent, hclosed] at this
  | jobsClosed hm hopen =>
      refine ⟨hs.jobsCap, hs.resultsCap, rfl, fun w hw => absurd hw (hworking hopen w), hs.results,
        by simp, by simp⟩
  | received hw hbuf =>
      exact hs.move hw (by simp) (by simp) ⟨rfl, rfl⟩ (fun h => by simp [hbuf] at h) rfl rfl rfl rfl
  | @exited w hw hbuf hclosed =>
      refine ⟨hs.jobsCap, hs.resultsCap, hs.jobs, fun v hv => ⟨hclosed, hbuf⟩, fun hc => ?_,
        hs.alive, hs.returned⟩
      simp [hs.results hc w] at hw
  | called hw hctx => exact hs.move hw (by simp) (by simp) ⟨rfl, rfl⟩ id rfl rfl rfl rfl
  | skipped hw hctx => exact hs.move hw (by simp) (by simp) ⟨rfl, rfl⟩ id rfl rfl rfl rfl
  | answered hw => exact hs.move hw (by simp) (by simp) ⟨rfl, rfl⟩ id rfl rfl rfl rfl
  | failed hw hctx => exact hs.move hw (by simp) (by simp) ⟨rfl, rfl⟩ id rfl rfl rfl rfl
  | reported hw hopen hroom => exact hs.move hw (by simp) (by simp) ⟨rfl, rfl⟩ id rfl rfl rfl rfl
  | reportCrashes hw hclosed =>
      have := hs.results hclosed
      simp [this] at hw
  | resultsClosed hm hopen hw =>
      refine ⟨hs.jobsCap, hs.resultsCap, hs.jobs, hs.exited,
        fun _ w => Worker.isExited_iff.mp (hw w), hs.alive, fun o ho => ?_⟩
      simp [(hs.returned o ho).1] at hopen
  | collected hm hbuf =>
      exact hs.advance (by rw [hm]; rfl) rfl (by simp) (by simp) rfl rfl rfl rfl
  | returned hm hbuf hclosed =>
      exact ⟨hs.jobsCap, hs.resultsCap, hs.jobs.trans (by rw [hm]; rfl), hs.exited, hs.results,
        by simp, fun _ _ => ⟨hclosed, hbuf⟩⟩
  | stored hm ho => exact hs.advance (by rw [hm]; rfl) rfl (by simp) (by simp) rfl rfl rfl rfl
  | appended hm ho => exact hs.advance (by rw [hm]; rfl) rfl (by simp) (by simp) rfl rfl rfl rfl
  | cancelled hm herr => exact hs.advance (by rw [hm]; rfl) rfl (by simp) (by simp) rfl rfl rfl rfl
  | ignored hm herr => exact hs.advance (by rw [hm]; rfl) rfl (by simp) (by simp) rfl rfl rfl rfl
  | parentDone hctx =>
      exact ⟨hs.jobsCap, hs.resultsCap, hs.jobs, hs.exited, hs.results, hs.alive, hs.returned⟩

/-! ## The items -/

/-- The calls of the function. -/
def calls (log : List (Event α β)) : List (Work α) :=
  log.flatMap fun
    | .called job => [job]
    | _ => []

def skips (log : List (Event α β)) : List (Work α) :=
  log.flatMap fun
    | .skipped job => [job]
    | _ => []

def collected (log : List (Event α β)) : List (Result β) :=
  log.flatMap fun
    | .collected r => [r]
    | _ => []

@[simp] theorem calls_append (log log' : List (Event α β)) :
    calls (log ++ log') = calls log ++ calls log' := List.flatMap_append

@[simp] theorem skips_append (log log' : List (Event α β)) :
    skips (log ++ log') = skips log ++ skips log' := List.flatMap_append

@[simp] theorem collected_append (log log' : List (Event α β)) :
    collected (log ++ log') = collected log ++ collected log' := List.flatMap_append

def indicesOf (jobs : List (Work α)) : Multiset ℕ := (jobs.map Work.idx : List ℕ)

def indicesIn (rs : List (Result β)) : Multiset ℕ := (rs.map Result.idx : List ℕ)

@[simp] theorem collected_nil : collected ([] : List (Event α β)) = [] := rfl

@[simp] theorem indicesOf_nil : indicesOf ([] : List (Work α)) = 0 := rfl

@[simp] theorem indicesOf_cons (job : Work α) (jobs : List (Work α)) :
    indicesOf (job :: jobs) = {job.idx} + indicesOf jobs := rfl

@[simp] theorem indicesOf_append (jobs jobs' : List (Work α)) :
    indicesOf (jobs ++ jobs') = indicesOf jobs + indicesOf jobs' := by
  simp [indicesOf]

@[simp] theorem indicesIn_nil : indicesIn ([] : List (Result β)) = 0 := rfl

@[simp] theorem indicesIn_cons (r : Result β) (rs : List (Result β)) :
    indicesIn (r :: rs) = {r.idx} + indicesIn rs := rfl

@[simp] theorem indicesIn_append (rs rs' : List (Result β)) :
    indicesIn (rs ++ rs') = indicesIn rs + indicesIn rs' := by
  simp [indicesIn]

namespace Worker

def indices : Worker α β → Multiset ℕ
  | .checking job | .running job => {job.idx}
  | .reporting r => {r.idx}
  | _ => 0

/-- Work for which it is open whether the function will be called. -/
def pending : Worker α β → Multiset (Work α)
  | .checking job => {job}
  | _ => 0

end Worker

namespace Main

def indices : Main α β → Multiset ℕ
  | .sending todo => indicesOf todo
  | .handling r => {r.idx}
  | _ => 0

def pending : Main α β → Multiset (Work α)
  | .sending todo => todo
  | _ => 0

end Main

structure Balanced (items : List α) (s : Sys α β n) (log : List (Event α β)) : Prop where
  indices : s.main.indices + indicesOf s.jobs.buf + indicesIn s.results.buf +
    indicesIn (collected log) + tally Worker.indices s.workers = Multiset.range items.length
  works : s.main.pending + s.jobs.buf + calls log + skips log + tally Worker.pending s.workers =
    (works items : Multiset (Work α))

variable {log es : List (Event α β)}

/-- A worker moves on, and the channels with it. -/
theorem Balanced.move (hs : Balanced items s log) {w : Fin n} {old new : Worker α β}
    (hw : s.workers w = old) (hmain : s'.main = s.main) (hcollected : collected es = [])
    (hw' : s'.workers = Function.update s.workers w new)
    (hindices : indicesOf s'.jobs.buf + indicesIn s'.results.buf + new.indices =
      indicesOf s.jobs.buf + indicesIn s.results.buf + old.indices)
    (hworks : (s'.jobs.buf : Multiset (Work α)) + calls es + skips es + new.pending =
      s.jobs.buf + old.pending) : Balanced items s' (log ++ es) := by
  subst hw
  constructor
  · rw [← hs.indices, hw', hmain, collected_append, hcollected, List.append_nil]
    apply tally_exchange
    calc s.main.indices + indicesOf s'.jobs.buf + indicesIn s'.results.buf +
          indicesIn (collected log) + new.indices
        = s.main.indices + indicesIn (collected log) +
          (indicesOf s'.jobs.buf + indicesIn s'.results.buf + new.indices) := by abel
      _ = s.main.indices + indicesOf s.jobs.buf + indicesIn s.results.buf +
          indicesIn (collected log) + (s.workers w).indices := by rw [hindices]; abel
  · rw [← hs.works, hw', hmain, calls_append, skips_append]
    apply tally_exchange
    simp only [← Multiset.coe_add]
    calc s.main.pending + ↑s'.jobs.buf + (↑(calls log) + ↑(calls es)) +
          (↑(skips log) + ↑(skips es)) + new.pending
        = s.main.pending + calls log + skips log +
          (s'.jobs.buf + calls es + skips es + new.pending) := by abel
      _ = s.main.pending + ↑s.jobs.buf + ↑(calls log) + ↑(skips log) + (s.workers w).pending := by
          rw [hworks]; abel

/-- The calling goroutine moves on, and the channels with it. -/
theorem Balanced.advance (hs : Balanced items s log) (hw : s'.workers = s.workers)
    (hcalls : calls es = []) (hskips : skips es = [])
    (hindices : s'.main.indices + indicesOf s'.jobs.buf + indicesIn s'.results.buf +
      indicesIn (collected es) = s.main.indices + indicesOf s.jobs.buf + indicesIn s.results.buf)
    (hworks : s'.main.pending + s'.jobs.buf = s.main.pending + s.jobs.buf) :
    Balanced items s' (log ++ es) := by
  constructor
  · rw [← hs.indices, hw, collected_append, indicesIn_append, add_comm (indicesIn (collected log)),
      ← add_assoc, hindices]
  · simp only [calls_append, skips_append, hcalls, hskips, List.append_nil, hw, hworks]
    exact hs.works

/-- The collector has dealt with a result. -/
theorem Balanced.handle (hs : Balanced items s log) {r : Result β} (hm : s.main = .handling r)
    (hm' : s'.main = .collecting) (hjobs : s'.jobs = s.jobs) (hresults : s'.results = s.results)
    (hw : s'.workers = s.workers) : Balanced items s' (log ++ [.collected r]) := by
  refine hs.advance hw rfl rfl ?_ (by rw [hm, hm', hjobs]; rfl)
  have hr : collected [(.collected r : Event α β)] = [r] := rfl
  simp only [hm, hm', hjobs, hresults, hr, Main.indices, indicesIn_cons, indicesIn_nil]
  abel

theorem Balanced.step (hs : Balanced items s log) (hst : Staged items s)
    (h : s.step fn x = some s') : Balanced items s' (log ++ events fn s x) := by
  obtain ⟨es, hes, heffect⟩ := effect_of_step h
  rw [hes]
  cases heffect with
  | fed hm hopen hroom =>
      refine hs.advance rfl rfl rfl ?_ ?_
      · simp only [hm, Main.indices, collected_nil, indicesOf_append, indicesOf_cons, indicesOf_nil,
          indicesIn_nil]
        abel
      · simp only [hm, Main.pending, ← Multiset.coe_add, ← Multiset.cons_coe, Multiset.coe_nil,
          ← Multiset.singleton_add]
        abel
  | feedCrashes hm hclosed =>
      have := hst.jobs
      simp [hm, Main.hasSent, hclosed] at this
  | jobsClosed hm hopen =>
      exact hs.advance rfl rfl rfl (by simp [hm, Main.indices]) (by simp [hm, Main.pending])
  | received hw hbuf =>
      refine hs.move hw rfl rfl rfl ?_ ?_
      · simp only [Sys.setWorker, hbuf, Worker.indices, indicesOf_cons]
        abel
      · simp only [Sys.setWorker, hbuf, Worker.pending, ← Multiset.cons_coe, calls, skips,
          List.flatMap_nil, Multiset.coe_nil, ← Multiset.singleton_add]
        abel
  | exited hw hbuf hclosed =>
      exact hs.move hw rfl rfl rfl rfl (by simp [Sys.setWorker, calls, skips, Worker.pending])
  | called hw hctx =>
      exact hs.move hw rfl rfl rfl rfl (by simp [Sys.setWorker, calls, skips, Worker.pending])
  | skipped hw hctx =>
      exact hs.move hw rfl rfl rfl rfl (by simp [Sys.setWorker, calls, skips, Worker.pending])
  | answered hw =>
      exact hs.move hw rfl rfl rfl rfl (by simp [Sys.setWorker, calls, skips, Worker.pending])
  | failed hw hctx =>
      exact hs.move hw rfl rfl rfl rfl (by simp [Sys.setWorker, calls, skips, Worker.pending])
  | reported hw hopen hroom =>
      refine hs.move hw rfl rfl rfl ?_ (by simp [Sys.setWorker, calls, skips, Worker.pending])
      simp only [Sys.setWorker, Worker.indices, indicesIn_append, indicesIn_cons, indicesIn_nil]
      abel
  | reportCrashes hw hclosed =>
      have := hst.results hclosed
      simp [this] at hw
  | resultsClosed hm hopen hw => exact hs.advance rfl rfl rfl (by simp) rfl
  | collected hm hbuf =>
      refine hs.advance rfl rfl rfl ?_ (by simp [hm, Main.pending])
      simp only [hm, hbuf, Main.indices, collected_nil, indicesIn_cons, indicesIn_nil]
      abel
  | returned hm hbuf hclosed =>
      exact hs.advance rfl rfl rfl (by simp [hm, Main.indices]) (by simp [hm, Main.pending])
  | stored hm ho => exact hs.handle hm rfl rfl rfl rfl
  | appended hm ho => exact hs.handle hm rfl rfl rfl rfl
  | cancelled hm herr => exact hs.handle hm rfl rfl rfl rfl
  | ignored hm herr => exact hs.handle hm rfl rfl rfl rfl
  | parentDone hctx => exact hs.advance rfl rfl rfl (by simp) rfl

end Gkit.Pipeline
