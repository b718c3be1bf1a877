import Gkit.Pipeline.Accounting

/-!
# Where a result comes from

A value is what the function gives for its item.  An error that is on its way
while the context is not done was returned by a call of the function; the first
one that the collector meets is such an error, for it is the collector that
cancels the context.
-/

namespace Gkit.Pipeline

open Gkit.Lib

variable {α β : Type} {n : ℕ}

/-- The result is on its way from a worker to the collector. -/
def InFlight (s : Sys α β n) (r : Result β) : Prop :=
  (∃ w, s.workers w = .reporting r) ∨ r ∈ s.results.buf ∨ s.main = .handling r

/-- The result belongs to an item, and its value is the one of the function. -/
def Valid (fn : α → Except GoError β) (items : List α) (r : Result β) : Prop :=
  ∃ job ∈ works items, job.idx = r.idx ∧ ∀ v, r.res = .ok v → fn job.val = .ok v

/-- The error was returned by a call of the function before the context was done. -/
def Returned (fn : α → Except GoError β) (items : List α) (log : List (Event α β)) (e : GoError) :
    Prop :=
  ∃ job ∈ works items, .answered job (.error e) false ∈ log ∧ fn job.val = .error e

structure Traced (fn : α → Except GoError β) (items : List α) (s : Sys α β n)
    (log : List (Event α β)) : Prop where
  running : ∀ w job, s.workers w = .running job → job ∈ works items
  valid : ∀ r, InFlight s r → Valid fn items r
  early : s.ctx = none → ∀ r, InFlight s r → ∀ e, r.res = .error e → Returned fn items log e
  gathered : ∀ r ∈ collected log, Valid fn items r
  good : s.firstErr = none → ∀ r ∈ collected log, ∃ v, r.res = .ok v
  first : ∀ e ∈ s.firstErr, Returned fn items log e
  ctx : s.firstErr = none → s.ctx = none ∨ ∃ o, s.main = .returned o
  unskipped : s.firstErr = none → skips log = []

variable {fn : α → Except GoError β} {items : List α} {s s' : Sys α β n} {x : Action n}
  {log es : List (Event α β)}

theorem Returned.append {e : GoError} (h : Returned fn items log e) (es : List (Event α β)) :
    Returned fn items (log ++ es) e := by
  obtain ⟨job, hjob, hmem, hfn⟩ := h
  exact ⟨job, hjob, List.mem_append_left es hmem, hfn⟩

/-- A step that leaves the context and the first error alone. -/
theorem Traced.keep (hs : Traced fn items s log) (hctx : s'.ctx = s.ctx)
    (hfirst : s'.firstErr = s.firstErr)
    (hrunning : ∀ w job, s'.workers w = .running job → job ∈ works items)
    (hflight : ∀ r, InFlight s' r → InFlight s r ∨ Valid fn items r ∧
      (s.ctx = none → ∀ e, r.res = .error e → Returned fn items (log ++ es) e))
    (hcollected : ∀ r ∈ collected es, Valid fn items r ∧ (s.firstErr = none → ∃ v, r.res = .ok v))
    (hreturned : ∀ o, s.main = .returned o → s'.main = .returned o)
    (hskips : s.firstErr = none → skips es = []) : Traced fn items s' (log ++ es) where
  running := hrunning
  valid r hr := by
    rcases hflight r hr with hr | hr
    · exact hs.valid r hr
    · exact hr.1
  early hc r hr e he := by
    rw [hctx] at hc
    rcases hflight r hr with hr | hr
    · exact (hs.early hc r hr e he).append es
    · exact hr.2 hc e he
  gathered r hr := by
    rw [collected_append, List.mem_append] at hr
    rcases hr with hr | hr
    · exact hs.gathered r hr
    · exact (hcollected r hr).1
  good hf r hr := by
    rw [hfirst] at hf
    rw [collected_append, List.mem_append] at hr
    rcases hr with hr | hr
    · exact hs.good hf r hr
    · exact (hcollected r hr).2 hf
  first e he := (hs.first e (hfirst ▸ he)).append es
  ctx hf := by
    rw [hfirst] at hf
    rw [hctx]
    rcases hs.ctx hf with hc | ⟨o, ho⟩
    · exact .inl hc
    · exact .inr ⟨o, hreturned o ho⟩
  unskipped hf := by
    rw [hfirst] at hf
    rw [skips_append, hs.unskipped hf, hskips hf]
    rfl

theorem running_setWorker {w : Fin n} {worker : Worker α β}
    (hs : ∀ w job, s.workers w = .running job → job ∈ works items)
    (hw : ∀ job, worker = .running job → job ∈ works items) (v : Fin n) (job : Work α)
    (hv : (s.setWorker w worker).workers v = .running job) : job ∈ works items := by
  by_cases hvw : v = w
  · subst hvw
    exact hw job (by simpa [Sys.setWorker] using hv)
  · exact hs v job (by simpa [Sys.setWorker, hvw] using hv)

theorem InFlight.of_setWorker {w : Fin n} {worker : Worker α β} {r : Result β}
    (hr : InFlight (s.setWorker w worker) r) : InFlight s r ∨ worker = .reporting r := by
  rcases hr with ⟨v, hv⟩ | hr
  · by_cases hvw : v = w
    · subst hvw
      exact .inr (by simpa [Sys.setWorker] using hv)
    · exact .inl (.inl ⟨v, by simpa [Sys.setWorker, hvw] using hv⟩)
  · exact .inl (.inr hr)

theorem mem_works_of_checking (hb : Balanced items s log) {w : Fin n} {job : Work α}
    (hw : s.workers w = .checking job) : job ∈ works items := by
  have hmem : job ∈ tally Worker.pending s.workers := by
    rw [mem_tally]
    exact ⟨w, by simp [hw, Worker.pending]⟩
  have hmem : job ∈ (works items : Multiset (Work α)) :=
    hb.works ▸ Multiset.mem_add.mpr (.inr hmem)
  exact Multiset.mem_coe.mp hmem

/-- While some worker is at work and there is no first error, the context is not
done. -/
theorem Traced.ctx_eq_none (hs : Traced fn items s log) (hst : Staged items s)
    (hf : s.firstErr = none) {w : Fin n} (hw : s.workers w ≠ .exited) : s.ctx = none := by
  rcases hs.ctx hf with hc | ⟨o, ho⟩
  · exact hc
  · exact absurd (hst.results (hst.returned o ho).1 w) hw

/-- A worker moves on, with a result only if it fits. -/
theorem Traced.move (hs : Traced fn items s log) {w : Fin n} {new : Worker α β}
    (hctx : s'.ctx = s.ctx) (hfirst : s'.firstErr = s.firstErr) (hmain : s'.main = s.main)
    (hresults : s'.results = s.results) (hw' : s'.workers = Function.update s.workers w new)
    (hrunning : ∀ job, new = .running job → job ∈ works items)
    (hnew : ∀ r, new = .reporting r → Valid fn items r ∧
      (s.ctx = none → ∀ e, r.res = .error e → Returned fn items (log ++ es) e))
    (hcollected : collected es = []) (hskips : s.firstErr = none → skips es = []) :
    Traced fn items s' (log ++ es) := by
  refine hs.keep hctx hfirst (fun v job hv => ?_) (fun r hr => ?_) (by simp [hcollected])
    (fun o ho => hmain.trans ho) hskips
  · rw [hw'] at hv
    exact running_setWorker hs.running hrunning v job hv
  · have hr : InFlight (s.setWorker w new) r := by
      simpa only [InFlight, Sys.setWorker, hw', hmain, hresults] using hr
    rcases hr.of_setWorker with hr | hr
    · exact .inl hr
    · exact .inr (hnew r hr)

/-- The calling goroutine moves on, with a result only if it was on its way. -/
theorem Traced.advance (hs : Traced fn items s log) (hctx : s'.ctx = s.ctx)
    (hfirst : s'.firstErr = s.firstErr) (hw : s'.workers = s.workers)
    (hresults : ∀ r ∈ s'.results.buf, InFlight s r)
    (hmain : ∀ r, s'.main = .handling r → InFlight s r)
    (hcollected : ∀ r ∈ collected es, Valid fn items r ∧ (s.firstErr = none → ∃ v, r.res = .ok v))
    (hreturned : ∀ o, s.main = .returned o → s'.main = .returned o) (hskips : skips es = []) :
    Traced fn items s' (log ++ es) := by
  refine hs.keep hctx hfirst (hw ▸ hs.running) (fun r hr => .inl ?_) hcollected hreturned
    fun _ => hskips
  rcases hr with ⟨w, hr⟩ | hr | hr
  · exact .inl ⟨w, hw ▸ hr⟩
  · exact hresults r hr
  · exact hmain r hr

theorem Traced.feed (hs : Traced fn items s log) (hst : Staged items s)
    (h : Effect fn s .feed es s') : Traced fn items s' (log ++ es) := by
  cases h with
  | fed hm | jobsClosed hm =>
      exact hs.advance rfl rfl rfl (fun r hr => .inr (.inl hr)) (by simp) (by simp) (by simp [hm])
        rfl
  | feedCrashes hm hclosed =>
      have := hst.jobs
      simp [hm, Main.hasSent, hclosed] at this

theorem Traced.receive {w : Fin n} (hs : Traced fn items s log)
    (h : Effect fn s (.receive w) es s') : Traced fn items s' (log ++ es) := by
  cases h with
  | received | exited => exact hs.move rfl rfl rfl rfl rfl (by simp) (by simp) rfl fun _ => rfl

theorem Traced.check {w : Fin n} (hs : Traced fn items s log) (hst : Staged items s)
    (hb : Balanced items s log) (h : Effect fn s (.check w) es s') :
    Traced fn items s' (log ++ es) := by
  cases h with
  | called hw hctx =>
      refine hs.move rfl rfl rfl rfl rfl (fun job hjob => ?_) (by simp) rfl fun _ => rfl
      obtain rfl := Worker.running.inj hjob
      exact mem_works_of_checking hb hw
  | @skipped _ job err hw hctx =>
      refine hs.move rfl rfl rfl rfl rfl (by simp) (fun r hr => ?_) rfl fun hf => ?_
      · obtain rfl := Worker.reporting.inj hr
        exact ⟨⟨job, mem_works_of_checking hb hw, rfl, by simp⟩,
          fun hnone => by simp [hctx] at hnone⟩
      · simp [hs.ctx_eq_none hst hf (by simp [hw] : s.workers w ≠ .exited)] at hctx

theorem Traced.answer {w : Fin n} (hs : Traced fn items s log)
    (h : Effect fn s (.answer w) es s') : Traced fn items s' (log ++ es) := by
  cases h with
  | @answered _ job hw =>
      have hjob := hs.running w job hw
      refine hs.move rfl rfl rfl rfl rfl (by simp) (fun r hr => ?_) rfl fun _ => rfl
      obtain rfl := Worker.reporting.inj hr
      refine ⟨⟨job, hjob, rfl, fun v hv => hv⟩, fun hnone e he => ⟨job, hjob, ?_, he⟩⟩
      have he : fn job.val = .error e := he
      simp [hnone, he]

theorem Traced.fail {w : Fin n} {err : GoError} (hs : Traced fn items s log)
    (h : Effect fn s (.fail w err) es s') : Traced fn items s' (log ++ es) := by
  cases h with
  | @failed _ job _ err' hw hctx =>
      refine hs.move rfl rfl rfl rfl rfl (by simp) (fun r hr => ?_) rfl fun _ => rfl
      obtain rfl := Worker.reporting.inj hr
      exact ⟨⟨job, hs.running w job hw, rfl, by simp⟩, fun hnone => by simp [hctx] at hnone⟩

theorem Traced.report {w : Fin n} (hs : Traced fn items s log) (hst : Staged items s)
    (h : Effect fn s (.report w) es s') : Traced fn items s' (log ++ es) := by
  cases h with
  | @reported _ r hw hopen hroom =>
      refine hs.keep rfl rfl ?_ (fun r' hr' => .inl ?_) (by simp) (fun o ho => ho) fun _ => rfl
      · exact running_setWorker hs.running (by simp)
      · rcases hr'.of_setWorker with (⟨v, hv⟩ | hr' | hr') | hr'
        · exact .inl ⟨v, hv⟩
        · rcases List.mem_append.mp hr' with hr' | hr'
          · exact .inr (.inl hr')
          · obtain rfl := List.mem_singleton.mp hr'
            exact .inl ⟨w, hw⟩
        · exact .inr (.inr hr')
        · cases hr'
  | reportCrashes hw hclosed =>
      have := hst.results hclosed
      simp [this] at hw

theorem Traced.closeResults (hs : Traced fn items s log) (h : Effect fn s .closeResults es s') :
    Traced fn items s' (log ++ es) := by
  cases h with
  | resultsClosed =>
      exact hs.advance rfl rfl rfl (fun r hr => .inr (.inl hr)) (fun r hr => .inr (.inr hr))
        (by simp) (fun o ho => ho) rfl

theorem Traced.collect (hs : Traced fn items s log) (h : Effect fn s .collect es s') :
    Traced fn items s' (log ++ es) := by
  cases h with
  | @collected r buf hm hbuf =>
      refine hs.advance rfl rfl rfl (fun r' hr' => .inr (.inl ?_)) (fun r' hr' => .inr (.inl ?_))
        (by simp) (by simp [hm]) rfl
      · rw [hbuf]
        exact List.mem_cons_of_mem r hr'
      · obtain rfl := Main.handling.inj hr'
        simp [hbuf]
  | returned hm hbuf hclosed =>
      -- all results have been collected, so the deferred cancel comes too late to show
      rw [List.append_nil]
      refine ⟨hs.running, fun r hr => hs.valid r ?_, by simp, hs.gathered, hs.good, hs.first,
        fun _ => .inr ⟨_, rfl⟩, hs.unskipped⟩
      rcases hr with hr | hr | hr
      · exact .inl hr
      · exact .inr (.inl hr)
      · cases hr

/-- A result is collected that does not change the first error. -/
theorem Traced.gather (hs : Traced fn items s log) {r : Result β} (hm : s.main = .handling r)
    (hr : s.firstErr = none → ∃ v, r.res = .ok v) (hctx : s'.ctx = s.ctx)
    (hfirst : s'.firstErr = s.firstErr) (hw : s'.workers = s.workers)
    (hresults : s'.results = s.results) (hm' : s'.main = .collecting) :
    Traced fn items s' (log ++ [.collected r]) := by
  refine hs.advance hctx hfirst hw (fun r' hr' => .inr (.inl (hresults ▸ hr'))) (by simp [hm'])
    (fun r' hr' => ?_) (by simp [hm]) rfl
  obtain rfl : r' = r := by simpa [collected] using hr'
  exact ⟨hs.valid _ (.inr (.inr hm)), hr⟩

theorem Traced.handle (hs : Traced fn items s log) (h : Effect fn s .handle es s') :
    Traced fn items s' (log ++ es) := by
  cases h with
  | @stored idx v hm | @appended idx v hm =>
      exact hs.gather hm (fun _ => ⟨v, rfl⟩) rfl rfl rfl rfl rfl
  | @ignored idx err err' hm herr =>
      exact hs.gather hm (fun hf => by simp [herr] at hf) rfl rfl rfl rfl rfl
  | @cancelled idx err hm herr =>
      have hnone : s.ctx = none := by
        rcases hs.ctx herr with hc | ⟨o, ho⟩
        · exact hc
        · simp [hm] at ho
      have hr : InFlight s ⟨idx, .error err⟩ := .inr (.inr hm)
      refine ⟨hs.running, fun r hr => hs.valid r ?_, by simp, fun r hmem => ?_, by simp,
        fun e he => ?_, by simp, by simp⟩
      · rcases hr with hr | hr | hr
        · exact .inl hr
        · exact .inr (.inl hr)
        · cases hr
      · rw [collected_append, List.mem_append] at hmem
        rcases hmem with hmem | hmem
        · exact hs.gathered r hmem
        · obtain rfl : r = ⟨idx, .error err⟩ := by simpa [collected] using hmem
          exact hs.valid _ hr
      · obtain rfl : err = e := by simpa using he
        exact (hs.early hnone _ hr _ rfl).append _

theorem Traced.step (hs : Traced fn items s log) (hst : Staged items s)
    (hb : Balanced items s log) (hx : ∀ err, x ≠ .done err) (h : s.step fn x = some s') :
    Traced fn items s' (log ++ events fn s x) := by
  obtain ⟨es, hes, heffect⟩ := effect_of_step h
  rw [hes]
  cases x with
  | feed => exact hs.feed hst heffect
  | receive => exact hs.receive heffect
  | check => exact hs.check hst hb heffect
  | answer => exact hs.answer heffect
  | fail => exact hs.fail heffect
  | report => exact hs.report hst heffect
  | closeResults => exact hs.closeResults heffect
  | collect => exact hs.collect heffect
  | handle => exact hs.handle heffect
  | done err => exact absurd rfl (hx err)

end Gkit.Pipeline
