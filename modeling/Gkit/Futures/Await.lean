import Gkit.Futures.Effects

/-!
# What `Await` returns

The first call of `Await` on a future decides what all of them return: the result
of the computation, or the error of its own context if that is done.  As long as
the context of a call inside `once.Do` is not done, every `Await` returns what the
computation has returned; otherwise the call can leave the error of its context
to all later ones.
-/

namespace Gkit.Futures

open Gkit.Lib

variable {φ ι κ α : Type}

/-- What a call of `Await` has returned. -/
def Thread.result : Thread φ κ α → Option (Wait φ κ × Result α)
  | .returned w r | .finished w r => some (w, r)
  | _ => none

/-- On the futures of a set nothing but the results of the computations is seen. -/
structure Genuine (fn : φ → Result α) (P : φ → Prop) (s : Sys φ ι κ α) : Prop where
  queued : ∀ f, P f → ∀ r ∈ (s.futures f).ch.buf, r = fn f
  resolved : ∀ f, P f → (s.futures f).once = .done → (s.futures f).res = fn f
  leaving : ∀ t w, s.threads t = .leaving w → (s.futures w.fut).once = .done
  returned : ∀ t w r, (s.threads t).result = some (w, r) → P w.fut → r = fn w.fut

variable {fn : φ → Result α} {P : φ → Prop} {zero : α} {s s' : Sys φ ι κ α} {x : Action φ ι κ}

theorem genuine_init : Genuine fn P (init zero : Sys φ ι κ α) where
  queued f _ r hr := by simp [init, async] at hr
  resolved f _ ho := by simp [init, async] at ho
  leaving t w hw := by simp [init] at hw
  returned t w r hr := by simp [init, Thread.result] at hr

theorem Genuine.congr (hg : Genuine fn P s) (hf : s'.futures = s.futures)
    (ht : s'.threads = s.threads) : Genuine fn P s' :=
  ⟨hf ▸ hg.queued, hf ▸ hg.resolved, hf ▸ ht ▸ hg.leaving, ht ▸ hg.returned⟩

section

variable [DecidableEq φ] [DecidableEq ι] [DecidableEq κ]

omit [DecidableEq ι] [DecidableEq κ] in
theorem Genuine.setFuture (hg : Genuine fn P s) {f : φ} {fut : Future α}
    (hqueued : P f → ∀ r ∈ fut.ch.buf, r = fn f)
    (hresolved : P f → fut.once = .done → fut.res = fn f)
    (honce : (s.futures f).once = .done → fut.once = .done) : Genuine fn P (s.setFuture f fut) := by
  have hcases (f' : φ) : f' = f ∧ (s.setFuture f fut).futures f' = fut ∨
      f' ≠ f ∧ (s.setFuture f fut).futures f' = s.futures f' := by
    by_cases hf : f' = f
    · subst hf
      exact .inl ⟨rfl, Function.update_self ..⟩
    · exact .inr ⟨hf, Function.update_of_ne hf ..⟩
  refine ⟨fun f' hP => ?_, fun f' hP => ?_, fun t w hw => ?_, hg.returned⟩
  · rcases hcases f' with ⟨rfl, hf⟩ | ⟨-, hf⟩ <;> rw [hf]
    · exact hqueued hP
    · exact hg.queued f' hP
  · rcases hcases f' with ⟨rfl, hf⟩ | ⟨-, hf⟩ <;> rw [hf]
    · exact hresolved hP
    · exact hg.resolved f' hP
  · have hdone := hg.leaving t w hw
    rcases hcases w.fut with ⟨hwf, hf⟩ | ⟨-, hf⟩ <;> rw [hf]
    · exact honce (hwf ▸ hdone)
    · exact hdone

omit [DecidableEq φ] in
theorem Genuine.setThread (hg : Genuine fn P s) {t : Tid ι κ} {thread : Thread φ κ α}
    (hleaving : ∀ w, thread = .leaving w → (s.futures w.fut).once = .done)
    (hreturned : ∀ w r, thread.result = some (w, r) → P w.fut → r = fn w.fut) :
    Genuine fn P (s.setThread t thread) := by
  refine ⟨hg.queued, hg.resolved, fun t' w hw => ?_, fun t' w r hr => ?_⟩
  · by_cases ht : t' = t
    · subst ht
      exact hleaving w (by simpa [Sys.setThread] using hw)
    · exact hg.leaving t' w (by simpa [Sys.setThread, ht] using hw)
  · by_cases ht : t' = t
    · subst ht
      exact hreturned w r (by simpa [Sys.setThread] using hr)
    · exact hg.returned t' w r (by simpa [Sys.setThread, ht] using hr)

omit [DecidableEq φ] [DecidableEq ι] in
theorem launch_cases (s : Sys φ ι κ α) (k : κ) (fs : List φ) (t : Tid ι κ) :
    (s.launch k fs).threads t = s.threads t ∨
      ∃ i f, t = .helper k i ∧ fs[i]? = some f ∧
        (s.launch k fs).threads t = .entering ⟨f, k⟩ := by
  cases t with
  | caller c => exact .inl rfl
  | helper k' i =>
      cases hf : fs[i]? with
      | none => exact .inl (by simp [Sys.launch, hf])
      | some f =>
          by_cases hk : k' = k
          · exact .inr ⟨i, f, by rw [hk], hf, by simp [Sys.launch, hf, hk]⟩
          · exact .inl (by simp [Sys.launch, hf, hk])

omit [DecidableEq φ] [DecidableEq ι] in
theorem Genuine.launch (hg : Genuine fn P s) (k : κ) (fs : List φ) :
    Genuine fn P (s.launch k fs) := by
  refine ⟨hg.queued, hg.resolved, fun t w hw => ?_, fun t w r hr => ?_⟩
  · rcases launch_cases s k fs t with ht | ⟨i, f, -, -, ht⟩ <;> rw [ht] at hw
    · exact hg.leaving t w hw
    · nomatch hw
  · rcases launch_cases s k fs t with ht | ⟨i, f, -, -, ht⟩ <;> rw [ht] at hr
    · exact hg.returned t w r hr
    · nomatch hr

/-- Only a call of `Await` whose context is done brings in anything else. -/
theorem Genuine.step (hg : Genuine fn P s)
    (hexpire : ∀ t w err, x = .expire t → s.threads t = .inside w → s.done w.ctx = some err →
      ¬ P w.fut) (hstep : s.step fn zero x = some s') : Genuine fn P s' := by
  have hfinish {t : Tid ι κ} {w : Wait φ κ} {r : Result α} (hw : s.threads t = .returned w r)
      {s₁ : Sys φ ι κ α} (hf : s₁.futures = s.futures) (ht : s₁.threads = s.threads) :
      Genuine fn P (s₁.setThread t (.finished w r)) := by
    apply (hg.congr hf ht).setThread
    · simp
    · intro w' r' hr
      exact hg.returned t w' r' (by rw [hw]; exact hr)
  cases effect_of_step hstep with
  | @produced f hsent =>
      refine hg.setFuture (fun hP r hr => ?_) (hg.resolved f) id
      rcases List.mem_append.mp hr with hr | hr
      · exact hg.queued f hP r hr
      · exact List.mem_singleton.mp hr
  | awaited hidle => exact hg.setThread (by simp) (by simp [Thread.result])
  | @entered t w hw hfresh =>
      have hfut : Genuine fn P (s.setFuture w.fut { s.futures w.fut with once := .running }) :=
        hg.setFuture (hg.queued w.fut) (by simp) (by simp [hfresh])
      exact hfut.setThread (by simp) (by simp [Thread.result])
  | joined hw hdone =>
      refine hg.setThread (fun w' hw' => ?_) (by simp [Thread.result])
      obtain rfl := Thread.leaving.inj hw'
      exact hdone
  | @received t w r buf hw hbuf =>
      have hfut : Genuine fn P (s.setFuture w.fut { s.futures w.fut with
          ch := { (s.futures w.fut).ch with buf := buf }, res := r, once := .done }) := by
        refine hg.setFuture (fun hP r' hr' => ?_) (fun hP _ => ?_) fun _ => rfl
        · exact hg.queued w.fut hP r' (by rw [hbuf]; exact List.mem_cons_of_mem r hr')
        · exact hg.queued w.fut hP r (by rw [hbuf]; exact List.mem_cons_self)
      refine hfut.setThread (fun w' hw' => ?_) (by simp [Thread.result])
      obtain rfl := Thread.leaving.inj hw'
      simp [Sys.setFuture]
  | @expired t w err hw hdone =>
      have hP : ¬ P w.fut := hexpire t w err rfl hw hdone
      have hfut : Genuine fn P (s.setFuture w.fut
          { s.futures w.fut with res := ⟨zero, some err⟩, once := .done }) :=
        hg.setFuture (hg.queued w.fut) (fun h => absurd h hP) fun _ => rfl
      refine hfut.setThread (fun w' hw' => ?_) (by simp [Thread.result])
      obtain rfl := Thread.leaving.inj hw'
      simp [Sys.setFuture]
  | @left t w hw =>
      refine hg.setThread (by simp) fun w' r hr hP => ?_
      obtain ⟨rfl, rfl⟩ : w = w' ∧ (s.futures w.fut).res = r := by
        simpa [Thread.result] using hr
      exact hg.resolved w.fut hP (hg.leaving t w hw)
  | @allStarted k fs hcall => exact (hg.launch k fs).congr rfl rfl
  | @raceStarted k fs hcall => exact (hg.launch k fs).congr rfl rfl
  | merged hw hcall => exact hfinish hw rfl rfl
  | offered hw hcall => exact hfinish hw rfl rfl
  | dropped hw hcall => exact hfinish hw rfl rfl
  | _ => exact hg.congr rfl rfl

end

/-! ## All runs -/

/-- No call of `Await` is at its `select` with its context done. -/
def Live (s : Sys φ ι κ α) : Prop := ∀ t w, s.threads t = .inside w → s.done w.ctx = none

variable [DecidableEq φ] [DecidableEq ι] [DecidableEq κ]

/-- A call of `Await` on a future that is resolved. -/
theorem exists_await_of_done (fn : φ → Result α) (zero : α) {f : φ} {c : ι}
    (hdone : (s.futures f).once = .done)
    (hidle : s.threads (.caller c) = .idle) (k : κ) :
    ∃ s', run (Sys.step fn zero) s [.await c f k, .enter (.caller c), .leave (.caller c)] =
        some s' ∧
      s'.threads (.caller c) = .returned ⟨f, k⟩ (s.futures f).res ∧ s'.done = s.done := by
  let s₁ := s.setThread (.caller c) (.entering ⟨f, k⟩)
  let s₂ := s₁.setThread (.caller c) (.leaving ⟨f, k⟩)
  let s₃ := s₂.setThread (.caller c) (.returned ⟨f, k⟩ (s.futures f).res)
  have hawait : s.step fn zero (.await c f k) = some s₁ := by
    simp [Sys.step, Sys.await, hidle, s₁]
  have henter : s₁.step fn zero (.enter (.caller c)) = some s₂ := by
    simp [Sys.step, Sys.enter, Sys.setThread, hdone, s₁, s₂]
  have hleave : s₂.step fn zero (.leave (.caller c)) = some s₃ := by
    simp [Sys.step, Sys.leave, Sys.setThread, s₁, s₂, s₃]
  refine ⟨s₃, ?_, by simp [Sys.setThread, s₃], rfl⟩
  simp [run, hawait, henter, hleave]

theorem await_returns_computed (fn : φ → Result α) (zero : α) {xs : List (Action φ ι κ)}
    {s : Sys φ ι κ α} (hrun : run (Sys.step fn zero) (init zero) xs = some s)
    (hxs : Along (Sys.step fn zero) (fun s _ => Live s) (init zero) xs) :
    (∀ t w r, (s.threads t).result = some (w, r) → r = fn w.fut) ∧
      -- any other state can be followed by a call that finds the error of another context
      ∀ t w err, s.threads t = .inside w → s.done w.ctx = some err →
        ∀ c k, s.threads (.caller c) = .idle → s.done k = none →
          ∃ s', run (Sys.step fn zero) s
              [.expire t, .await c w.fut k, .enter (.caller c), .leave (.caller c)] = some s' ∧
            s'.threads (.caller c) = .returned ⟨w.fut, k⟩ ⟨zero, some err⟩ ∧ s'.done k = none := by
  have hg : Genuine fn (fun _ => True) s := by
    refine run_invariant (fun s x t hg hlive hstep => hg.step (fun t w err _ hw hdone => ?_) hstep)
      genuine_init hxs hrun
    simp [hlive t w hw] at hdone
  refine ⟨fun t w r hr => hg.returned t w r hr trivial, fun t w err hw hdone c k hidle hk => ?_⟩
  have hc : .caller c ≠ t := by
    rintro rfl
    simp [hidle] at hw
  let s₁ := (s.setFuture w.fut
    { s.futures w.fut with res := ⟨zero, some err⟩, once := .done }).setThread t (.leaving w)
  have hexpire : s.step fn zero (.expire t) = some s₁ := by
    simp [Sys.step, Sys.expire, hw, hdone, s₁]
  have hf : s₁.futures w.fut =
      { s.futures w.fut with res := ⟨zero, some err⟩, once := .done } := Function.update_self ..
  have hidle₁ : s₁.threads (.caller c) = .idle := (Function.update_of_ne hc ..).trans hidle
  obtain ⟨s', hrun', hthread, hdone'⟩ := exists_await_of_done fn zero (by rw [hf]) hidle₁ k
  refine ⟨s', run_cons_eq_some.mpr ⟨s₁, hexpire, hrun'⟩, ?_, ?_⟩
  · rw [hthread, hf]
  · rw [hdone']
    exact hk

/-- Actions that do not end a context. -/
def Action.keepsContexts : Action φ ι κ → Bool
  | .collect _ | .finish _ | .cancel _ _ => false
  | _ => true

theorem done_of_step (hx : x.keepsContexts = true) (hstep : s.step fn zero x = some s') :
    s'.done = s.done := by
  cases effect_of_step hstep with
  | collected _ _ _ | failed _ _ _ | won _ _ => nomatch hx
  | allFinished _ => nomatch hx
  | cancelled _ => nomatch hx
  | _ => rfl

/-- As long as no context ends, all calls are live. -/
theorem along_live (fn : φ → Result α) (zero : α) {xs : List (Action φ ι κ)}
    (hxs : ∀ x ∈ xs, x.keepsContexts = true) (hs : ∀ k, s.done k = none) :
    Along (Sys.step fn zero) (fun s _ => Live s) s xs := by
  induction xs generalizing s with
  | nil => trivial
  | cons x xs ih =>
      refine ⟨fun t w _ => hs w.ctx, fun s' hs' => ih (fun y hy => hxs y (.tail x hy)) fun k => ?_⟩
      rw [done_of_step (hxs x List.mem_cons_self) hs', hs k]

/-- Two calls on one future, the second behind the first. -/
def twoAwaits : List (Action ℕ ℕ ℕ) :=
  [.await 0 5 0, .enter (.caller 0), .await 1 5 1, .produce 5, .receive (.caller 0),
    .enter (.caller 1), .leave (.caller 1)]

theorem second_await_computed :
    ∃ s r, run (Sys.step (fun f => ⟨10 * f, none⟩) 0) (init 0) twoAwaits = some s ∧
      s.threads (.caller 1) = .returned ⟨5, 1⟩ r ∧ r = ⟨50, none⟩ := by
  have hthread : (run (Sys.step (fun f => ⟨10 * f, none⟩) 0) (init 0) twoAwaits).map
      (fun s => s.threads (.caller 1)) = some (.returned ⟨5, 1⟩ ⟨50, none⟩) := rfl
  obtain ⟨s, hrun, ht⟩ := Option.map_eq_some_iff.mp hthread
  have hlive : Along (Sys.step (fun f => ⟨10 * f, none⟩) 0) (fun s _ => Live s) (init 0)
      twoAwaits := along_live _ 0 (by decide) fun _ => rfl
  exact ⟨s, _, hrun, ht,
    (await_returns_computed _ 0 hrun hlive).1 (.caller 1) _ _ (by rw [ht]; rfl)⟩

/-- Future 1 wins the race, and the helper that waits for future 0 gives up. -/
def raceThenAwait : List (Action ℕ ℕ ℕ) :=
  [.race 0 [0, 1], .enter (.helper 0 0), .enter (.helper 0 1), .produce 1, .receive (.helper 0 1),
    .leave (.helper 0 1), .pass 0 1, .collect 0, .expire (.helper 0 0), .produce 0, .await 7 0 1,
    .enter (.caller 7), .leave (.caller 7)]

theorem race_loser_latched :
    ∃ s : Sys ℕ ℕ ℕ ℕ, run (Sys.step (fun f => ⟨10 + f, none⟩) 0) (init 0) raceThenAwait = some s ∧
      s.threads (.caller 7) = .returned ⟨0, 1⟩ ⟨0, some canceled⟩ ∧ s.done 1 = none := by
  have hthread : (run (Sys.step (fun f => ⟨10 + f, none⟩) 0) (init 0) raceThenAwait).map
      (fun s => (s.threads (.caller 7), s.done 1)) =
        some (.returned ⟨0, 1⟩ ⟨0, some canceled⟩, none) := rfl
  obtain ⟨s, hrun, ht⟩ := Option.map_eq_some_iff.mp hthread
  obtain ⟨ht, hdone⟩ := Prod.mk.inj ht
  exact ⟨s, hrun, ht, hdone⟩

end Gkit.Futures
