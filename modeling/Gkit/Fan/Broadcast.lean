import Gkit.Fan.FanOut

/-!
# `FanOut` and `Tee` broadcast their input

Every output has been sent a prefix of what came in, behind it by at most the
item that is being handed round.  When the outputs are closed and the context is
not done, each of them has had everything.
-/

namespace Gkit.FanOut

open Gkit.Lib

variable {α : Type} {n : ℕ}

section Logs

variable (log : List (Event α n)) (j : Fin n)

theorem received_snoc (e : Event α n) :
    received (log ++ [e]) = received log ++ e.received?.toList := by
  cases h : e.received? <;> simp [received, List.filterMap_append, h]

theorem sentTo_snoc (e : Event α n) :
    sentTo j (log ++ [e]) = sentTo j log ++ (e.sentTo? j).toList := by
  cases h : e.sentTo? j <;> simp [sentTo, List.filterMap_append, h]

theorem gotBy_snoc (e : Event α n) :
    gotBy j (log ++ [e]) = gotBy j log ++ (e.gotBy? j).toList := by
  cases h : e.gotBy? j <;> simp [gotBy, List.filterMap_append, h]

@[simp] theorem received_received (v : α) : received (log ++ [.received v]) = received log ++ [v] :=
  received_snoc log _

@[simp] theorem received_sent (k : Fin n) (v : α) :
    received (log ++ [.sent k v]) = received log := by
  simp [received_snoc, Event.received?]

@[simp] theorem received_got (k : Fin n) (v : α) : received (log ++ [.got k v]) = received log := by
  simp [received_snoc, Event.received?]

@[simp] theorem sentTo_received (v : α) : sentTo j (log ++ [.received v]) = sentTo j log := by
  simp [sentTo_snoc, Event.sentTo?]

@[simp] theorem sentTo_sent (k : Fin n) (v : α) :
    sentTo j (log ++ [.sent k v]) = sentTo j log ++ if k = j then [v] else [] := by
  by_cases hk : k = j <;> simp [sentTo_snoc, Event.sentTo?, hk]

@[simp] theorem sentTo_got (k : Fin n) (v : α) : sentTo j (log ++ [.got k v]) = sentTo j log := by
  simp [sentTo_snoc, Event.sentTo?]

@[simp] theorem gotBy_received (v : α) : gotBy j (log ++ [.received v]) = gotBy j log := by
  simp [gotBy_snoc, Event.gotBy?]

@[simp] theorem gotBy_sent (k : Fin n) (v : α) : gotBy j (log ++ [.sent k v]) = gotBy j log := by
  simp [gotBy_snoc, Event.gotBy?]

@[simp] theorem gotBy_got (k : Fin n) (v : α) :
    gotBy j (log ++ [.got k v]) = gotBy j log ++ if k = j then [v] else [] := by
  by_cases hk : k = j <;> simp [gotBy_snoc, Event.gotBy?, hk]

end Logs

/-- An output is behind the input by at most one item. -/
def Lags (received sent : List α) : Prop :=
  sent <+: received ∧ received.length ≤ sent.length + 1

theorem lags_self (xs : List α) : Lags xs xs := ⟨List.prefix_rfl, by omega⟩

theorem lags_of_append {received sent hand : List α} (h : sent ++ hand = received)
    (hhand : hand.length ≤ 1) : Lags received sent := by
  subst h
  exact ⟨List.prefix_append _ _, by simpa using hhand⟩

/-- The goroutine has left its loop. -/
structure Ended (items : List α) (cancelled : Bool) (received : List α) (sent : Fin n → List α) :
    Prop where
  isPrefix : received <+: items
  lags : ∀ j, Lags received (sent j)
  complete : cancelled = false → received = items ∧ ∀ j, sent j = received

/-- What the goroutine has done so far, for each point at which it can be. -/
def Progress (items : List α) (s : Sys α n) (received : List α) (sent : Fin n → List α) :
    Dispatcher α n → Prop
  | .receiving => (∀ j, (s.outs j).closed = false) ∧ received ++ s.input.rest = items ∧
      ∀ j, sent j = received
  | .sending v todo => (∀ j, (s.outs j).closed = false) ∧ received ++ s.input.rest = items ∧
      todo.Nodup ∧ ∀ j, (sent j ++ if j ∈ todo then [v] else []) = received
  | .closing todo => Ended items s.cancelled received sent ∧ todo.Nodup ∧
      ∀ j ∈ todo, (s.outs j).closed = false
  | .exited => Ended items s.cancelled received sent

structure Inv (items : List α) (s : Sys α n) (log : List (Event α n)) : Prop where
  progress : Progress items s (received log) (fun j => sentTo j log) s.dispatcher
  buffered : ∀ j, gotBy j log ++ (s.outs j).buf = sentTo j log
  alive : s.crashed = none

variable {items : List α} {w : Wiring n} {s s' : Sys α n} {log : List (Event α n)}

theorem inv_start (input : Feed α) : Inv input.rest (start input : Sys α n) [] where
  progress := ⟨fun _ => rfl, rfl, fun _ => rfl⟩
  buffered := fun _ => rfl
  alive := rfl

section Progress

variable {received : List α} {sent : Fin n → List α} {d : Dispatcher α n}

theorem Progress.bounds (h : Progress items s received sent d) :
    received <+: items ∧ ∀ j, Lags received (sent j) := by
  cases d with
  | receiving =>
      refine ⟨⟨_, h.2.1⟩, fun j => ?_⟩
      rw [h.2.2 j]
      exact lags_self _
  | sending v todo =>
      refine ⟨⟨_, h.2.1⟩, fun j => lags_of_append (h.2.2.2 j) ?_⟩
      split <;> simp
  | closing todo => exact ⟨h.1.isPrefix, h.1.lags⟩
  | exited => exact ⟨h.isPrefix, h.lags⟩

/-- Where the goroutine goes with an item for the outputs of a list. -/
theorem progress_next {v : α} {todo : List (Fin n)}
    (h : Progress items s received sent (.sending v todo)) :
    Progress items s received sent (Sys.next v todo) := by
  cases todo with
  | nil => exact ⟨h.1, h.2.1, by simpa using h.2.2.2⟩
  | cons j todo => exact h

/-- Progress speaks about the state only through what is left of the input, which
outputs are closed, and the context. -/
theorem Progress.congr (h : Progress items s received sent d)
    (hinput : s'.input.rest = s.input.rest) (houts : ∀ j, (s'.outs j).closed = (s.outs j).closed)
    (hcancelled : s'.cancelled = s.cancelled) : Progress items s' received sent d := by
  cases d <;> simpa only [Progress, hinput, houts, hcancelled] using h

theorem Progress.cancel (h : Progress items s received sent d) :
    Progress items { s with cancelled := true } received sent d := by
  cases d with
  | receiving | sending => exact h
  | closing todo => exact ⟨⟨h.1.isPrefix, h.1.lags, nofun⟩, h.2⟩
  | exited => exact ⟨h.isPrefix, h.lags, nofun⟩

theorem Progress.ended {j : Fin n} (h : Progress items s received sent d)
    (hclosed : (s.outs j).closed = true) : Ended items s.cancelled received sent := by
  cases d with
  | receiving | sending =>
      have hopen := h.1 j
      rw [hopen] at hclosed
      cases hclosed
  | closing todo => exact h.1
  | exited => exact h

end Progress

theorem Inv.buffered_update (h : Inv items s log) {j : Fin n} {ch : Chan α}
    {log' : List (Event α n)} (hj : gotBy j log' ++ ch.buf = sentTo j log')
    (hother : ∀ k, k ≠ j → gotBy k log' = gotBy k log ∧ sentTo k log' = sentTo k log) (k : Fin n) :
    gotBy k log' ++ (Function.update s.outs j ch k).buf = sentTo k log' := by
  by_cases hk : k = j
  · subst hk
    simpa using hj
  · rw [Function.update_of_ne hk, (hother k hk).1, (hother k hk).2]
    exact h.buffered k

theorem closed_update {j : Fin n} (ch : Chan α) (hch : ch.closed = (s.outs j).closed)
    (k : Fin n) : (Function.update s.outs j ch k).closed = (s.outs k).closed := by
  by_cases hk : k = j
  · subst hk
    simpa using hch
  · rw [Function.update_of_ne hk]

theorem inv_step {x : Action n} (h : Inv items s log) (hstep : s.step w x = some s') :
    Inv items s' (log ++ s.events x) := by
  obtain ⟨es, hes, heffect⟩ := effect_of_step hstep
  rw [hes]
  have hprogress := h.progress
  cases heffect with
  | produced hf =>
      rw [List.append_nil]
      exact { h with progress := hprogress.congr (Feed.rest_produce hf) (fun _ => rfl) rfl }
  | @received v f hd hrest =>
      rw [hd] at hprogress
      obtain ⟨hopen, hitems, hsent⟩ := hprogress
      refine ⟨progress_next ⟨hopen, ?_, w.nodup_sends, fun j => ?_⟩, fun j => ?_, h.alive⟩
      · rw [hrest] at hitems
        simpa using hitems
      · simp [w.mem_sends j, hsent j]
      · simpa using h.buffered j
  | ended hd hrest =>
      rw [hd] at hprogress
      obtain ⟨hopen, hitems, hsent⟩ := hprogress
      rw [hrest, List.append_nil] at hitems
      rw [List.append_nil]
      refine { h with progress := ⟨⟨hitems ▸ List.prefix_rfl, fun j => ?_,
        fun _ => ⟨hitems, hsent⟩⟩, w.nodup_closes, fun j _ => hopen j⟩ }
      exact hsent j ▸ lags_self _
  | @sent v j todo hd hopen hroom =>
      rw [hd] at hprogress
      obtain ⟨hopens, hitems, hnodup, hsent⟩ := hprogress
      obtain ⟨hj, hnodup⟩ := List.nodup_cons.mp hnodup
      refine ⟨progress_next ⟨fun k => ?_, ?_, hnodup, fun k => ?_⟩,
        h.buffered_update ?_ fun k hk => ?_, h.alive⟩
      · exact (closed_update { s.outs j with buf := (s.outs j).buf ++ [v] } rfl k).trans (hopens k)
      · rw [received_sent]
        exact hitems
      · have hk := hsent k
        by_cases hkj : k = j
        · subst hkj
          simpa [hj] using hk
        · simpa [hkj, Ne.symm hkj] using hk
      · have hbuffered := h.buffered j
        simp [← hbuffered]
      · simp [Ne.symm hk]
  | @sendCrashes v j todo text hd hclosed =>
      rw [hd] at hprogress
      have hopen := hprogress.1 j
      rw [hopen] at hclosed
      cases hclosed
  | @closed j todo hd hopen =>
      rw [hd] at hprogress
      obtain ⟨hended, hnodup, hopens⟩ := hprogress
      obtain ⟨hj, hnodup⟩ := List.nodup_cons.mp hnodup
      rw [List.append_nil]
      refine ⟨⟨hended, hnodup, fun k hk => ?_⟩,
        h.buffered_update (h.buffered j) fun _ _ => ⟨rfl, rfl⟩, h.alive⟩
      have hkj : k ≠ j := fun heq => hj (heq ▸ hk)
      simpa [Sys.setOut, hkj] using hopens k (List.mem_cons_of_mem j hk)
  | @closeCrashes j todo text hd hclosed =>
      rw [hd] at hprogress
      have hopen := hprogress.2.2 j List.mem_cons_self
      rw [hopen] at hclosed
      cases hclosed
  | exited hd =>
      rw [hd] at hprogress
      rw [List.append_nil]
      exact { h with progress := hprogress.1 }
  | gaveUp hd hcancelled =>
      have hbounds := hprogress.bounds
      have hopens : ∀ j, (s.outs j).closed = false := by
        rcases hd with hd | ⟨v, todo, hd⟩
        · rw [hd] at hprogress
          exact hprogress.1
        · rw [hd] at hprogress
          exact hprogress.1
      rw [List.append_nil]
      exact { h with progress := ⟨⟨hbounds.1, hbounds.2, fun hc => by simp [hcancelled] at hc⟩,
        w.nodup_closes, fun j _ => hopens j⟩ }
  | @got j v buf hbuf =>
      refine ⟨?_, h.buffered_update ?_ fun k hk => ?_, h.alive⟩
      · simp only [received_got, sentTo_got]
        exact hprogress.congr rfl (closed_update { s.outs j with buf := buf } rfl) rfl
      · have hbuffered := h.buffered j
        rw [hbuf] at hbuffered
        simp [← hbuffered]
      · simp [Ne.symm hk]
  | drained hbuf hclosed =>
      rw [List.append_nil]
      exact h
  | cancelled =>
      rw [List.append_nil]
      exact { h with progress := hprogress.cancel }

theorem run_inv {input : Feed α} {xs : List (Action n)}
    (h : run (Sys.step w) (start input) xs = some s) :
    Inv input.rest s (logOf w (start input) xs) :=
  run_collect (P := Inv input.rest) (fun _ _ _ _ hinv _ hstep => inv_step hinv hstep)
    (inv_start input) (C := fun _ _ => True) (along_of_forall fun _ _ _ => trivial) h

/-- After any run of `FanOut` or `Tee`, whether the context is done or not, each
output has been sent a prefix of what came in, and no two differ by more than
one item.  Unless the context is done, an output is closed only when all of them
have been sent the whole input. -/
theorem broadcasts_faithfully (b : Broadcaster) (input : Feed α)
    {xs : List (Action b.outputs)} {s : Sys α b.outputs}
    (h : run (Sys.step b.wiring) (start input) xs = some s) :
    let log := logOf b.wiring (start input) xs
    s.crashed = none ∧ received log <+: input.rest ∧
      (∀ j, gotBy j log ++ (s.outs j).buf = sentTo j log) ∧
      (∀ j, sentTo j log <+: received log) ∧
      (∀ j k, (sentTo j log).length ≤ (sentTo k log).length + 1) ∧
      (s.cancelled = false → ∀ j, (s.outs j).closed = true → ∀ k, sentTo k log = input.rest) := by
  intro log
  have hinv : Inv input.rest s log := run_inv h
  obtain ⟨hpre, hlags⟩ := hinv.progress.bounds
  refine ⟨hinv.alive, hpre, hinv.buffered, fun j => (hlags j).1, fun j k => ?_,
    fun hc j hclosed k => ?_⟩
  · exact (hlags j).1.length_le.trans (hlags k).2
  · obtain ⟨hall, hsent⟩ := (hinv.progress.ended hclosed).complete hc
    exact (hsent k).trans hall

/-- A run of `Tee` on two items, to its end. -/
def teeSteps : List (Action 2) :=
  [.produce, .dispatch, .dispatch, .consume 0, .dispatch, .dispatch, .dispatch, .dispatch,
    .consume 1, .produce, .dispatch, .dispatch, .dispatch, .dispatch]

theorem tee_broadcasts_two :
    ∃ s, run (Sys.step Broadcaster.tee.wiring) (start (.ofList 1 [7, 8])) teeSteps = some s ∧
      (∀ j, (s.outs j).closed = true) ∧
      ∀ k, sentTo k (logOf Broadcaster.tee.wiring (start (.ofList 1 [7, 8])) teeSteps) =
        [7, 8] := by
  have hrun : (run (Sys.step Broadcaster.tee.wiring) (start (.ofList 1 [7, 8])) teeSteps).map
      (fun s => (s.cancelled, (s.outs (0 : Fin 2)).closed, (s.outs (1 : Fin 2)).closed)) =
        some (false, true, true) := rfl
  obtain ⟨s, hs, hview⟩ := Option.map_eq_some_iff.mp hrun
  obtain ⟨hc, hview⟩ := Prod.mk.inj hview
  obtain ⟨hzero, hone⟩ := Prod.mk.inj hview
  obtain ⟨-, -, -, -, -, hall⟩ := broadcasts_faithfully .tee (.ofList 1 [7, 8]) hs
  refine ⟨s, hs, fun j => ?_, hall hc (0 : Fin 2) hzero⟩
  match j with
  | (0 : Fin 2) => exact hzero
  | (1 : Fin 2) => exact hone

end Gkit.FanOut
