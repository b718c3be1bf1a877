import Gkit.Fan.Broadcast

/-!
# When a receiver of `FanOut` or `Tee` is served

The goroutine serves the outputs in a fixed order and waits for each of them.  So
a receiver with room in its own buffer can get its next item without the help of
the others exactly if no output that comes before it has a full buffer.
-/

namespace Gkit.FanOut

open Gkit.Lib

variable {α : Type} {n : ℕ}

def HasRoom (ch : Chan α) : Prop := ch.buf.length < ch.cap

/-- The outputs that are sent to before the next send to `j`. -/
def ahead (w : Wiring n) (j : Fin n) : Dispatcher α n → List (Fin n)
  | .sending _ todo =>
      if j ∈ todo then todo.takeWhile (· ≠ j) else todo ++ w.sends.takeWhile (· ≠ j)
  | _ => w.sends.takeWhile (· ≠ j)

/-- There is another item for `j`. -/
def HasNext (s : Sys α n) (j : Fin n) : Prop :=
  match s.dispatcher with
  | .receiving => s.input.rest ≠ []
  | .sending _ todo => j ∈ todo ∨ s.input.rest ≠ []
  | _ => False

/-- The step is one of the goroutine or of the receiver of `j`. -/
def Action.Serves (j : Fin n) : Action n → Prop
  | .dispatch => True
  | .giveUp => True
  | .consume k => k = j
  | _ => False

/-- Some steps of the goroutine and of the receiver of `j` deliver an item to
`j`. -/
def Delivers (w : Wiring n) (s : Sys α n) (j : Fin n) : Prop :=
  ∃ ys t v, (∀ y ∈ ys, Action.Serves j y) ∧ run (Sys.step w) s ys = some t ∧
    Event.sent j v ∈ logOf w s ys

variable {w : Wiring n} {s t : Sys α n} {j k : Fin n}

theorem ahead_next (v : α) (todo : List (Fin n)) :
    ahead w j (Sys.next v todo) =
      if j ∈ todo then todo.takeWhile (· ≠ j) else todo ++ w.sends.takeWhile (· ≠ j) := by
  cases todo <;> simp [Sys.next, ahead]

/-! ## Nobody is in the way -/

/-- The states differ only in the goroutine, in what is left of the input, and in
the outputs of the list. -/
structure Passed (s t : Sys α n) (served : List (Fin n)) : Prop where
  outs : ∀ k, k ∉ served → t.outs k = s.outs k
  closed : ∀ k, (t.outs k).closed = (s.outs k).closed

theorem step_send {v : α} {todo : List (Fin n)} (hd : s.dispatcher = .sending v (j :: todo))
    (hopen : (s.outs j).closed = false) (hroom : HasRoom (s.outs j)) :
    ∃ t, s.step w .dispatch = some t ∧ s.events .dispatch = [.sent j v] ∧
      t.dispatcher = Sys.next v todo ∧ t.input = s.input ∧ Passed s t [j] := by
  let ch : Chan α := { s.outs j with buf := (s.outs j).buf ++ [v] }
  have hs : (s.outs j).send v = .ready ch := by
    rcases (s.outs j).send_cases v with ⟨hclosed, -⟩ | ⟨-, -, hs⟩ | ⟨-, hfull, -⟩
    · rw [hopen] at hclosed
      cases hclosed
    · exact hs
    · exact absurd hroom (not_lt.mpr hfull)
  let t : Sys α n := { s.setOut j ch with dispatcher := Sys.next v todo }
  have hstep : s.step w .dispatch = some t := by
    simp only [Sys.step, Sys.dispatch, hd, Sys.send, hs, t]
  refine ⟨t, hstep, by simp [Sys.events, hd, hs], rfl, rfl, fun k hk => ?_, ?_⟩
  · exact Function.update_of_ne (by simpa using hk) _ _
  · exact closed_update ch rfl

theorem step_receive (hd : s.dispatcher = .receiving) (hrest : s.input.rest ≠ []) :
    ∃ v t, s.step w .dispatch = some t ∧ t.dispatcher = Sys.next v w.sends ∧ t.outs = s.outs := by
  obtain ⟨v, f, htake⟩ := Feed.exists_take hrest
  refine ⟨v, { s with input := f, dispatcher := Sys.next v w.sends }, ?_, rfl, rfl⟩
  simp only [Sys.step, Sys.dispatch, hd, Sys.receive, htake]

/-- The goroutine serves the first outputs of its list, if they all have room. -/
theorem run_pass {v : α} (served todo : List (Fin n))
    (hd : s.dispatcher = Sys.next v (served ++ todo)) (hnodup : served.Nodup)
    (hopen : ∀ k, (s.outs k).closed = false) (hroom : ∀ k ∈ served, HasRoom (s.outs k)) :
    ∃ ys t, (∀ y ∈ ys, y = .dispatch) ∧ run (Sys.step w) s ys = some t ∧
      t.dispatcher = Sys.next v todo ∧ t.input = s.input ∧ Passed s t served := by
  induction served generalizing s with
  | nil => exact ⟨[], s, by simp, rfl, hd, rfl, fun _ _ => rfl, fun _ => rfl⟩
  | cons c served ih =>
      obtain ⟨hc, hnodup⟩ := List.nodup_cons.mp hnodup
      obtain ⟨u, hu, -, hud, hinput, hpassed⟩ :=
        step_send (w := w) hd (hopen c) (hroom c List.mem_cons_self)
      have hroom' : ∀ k ∈ served, HasRoom (u.outs k) := by
        intro k hk
        have hne : k ≠ c := fun heq => hc (heq ▸ hk)
        rw [hpassed.outs k (by simpa using hne)]
        exact hroom k (List.mem_cons_of_mem c hk)
      obtain ⟨ys, t, hys, hrun, htd, hinput', hpassed'⟩ :=
        ih hud hnodup (fun k => (hpassed.closed k).trans (hopen k)) hroom'
      refine ⟨.dispatch :: ys, t, ?_, run_cons_eq_some.mpr ⟨u, hu, hrun⟩, htd,
        hinput'.trans hinput, fun k hk => ?_, fun k => ?_⟩
      · simpa using hys
      · have hks : k ∉ served := fun h => hk (List.mem_cons_of_mem c h)
        have hkc : k ∉ [c] := fun h => hk (by simp [List.mem_singleton.mp h])
        rw [hpassed'.outs k hks, hpassed.outs k hkc]
      · exact (hpassed'.closed k).trans (hpassed.closed k)

/-- The part of a list in front of an element. -/
theorem takeWhile_ne {served rest : List (Fin n)} (hj : j ∉ served) :
    (served ++ j :: rest).takeWhile (· ≠ j) = served := by
  rw [List.takeWhile_append_of_pos]
  · simp
  · intro k hk
    simpa using fun heq : k = j => hj (heq ▸ hk)

/-- The item that the goroutine holds gets to `j`. -/
theorem delivers_of_mem {v : α} {todo : List (Fin n)} (hd : s.dispatcher = Sys.next v todo)
    (hnodup : todo.Nodup) (hj : j ∈ todo) (hopen : ∀ k, (s.outs k).closed = false)
    (hroom : HasRoom (s.outs j)) (hahead : ∀ k ∈ todo.takeWhile (· ≠ j), HasRoom (s.outs k)) :
    Delivers w s j := by
  obtain ⟨served, rest, rfl, hnotin⟩ := List.eq_append_cons_of_mem hj
  rw [takeWhile_ne hnotin] at hahead
  obtain ⟨ys, t, hys, hrun, htd, -, hpassed⟩ :=
    run_pass (w := w) _ _ hd (List.nodup_append.mp hnodup).1 hopen hahead
  have hroom' : HasRoom (t.outs j) := by
    rw [hpassed.outs j hnotin]
    exact hroom
  obtain ⟨u, hu, hevents, -⟩ :=
    step_send (w := w) htd ((hpassed.closed j).trans (hopen j)) hroom'
  refine ⟨ys ++ [.dispatch], u, v, fun y hy => ?_, ?_, ?_⟩
  · have hyd : y = .dispatch := by simpa using (List.mem_append.mp hy).imp_left (hys y)
    subst hyd
    trivial
  · exact run_append_eq_some.mpr ⟨t, hrun, run_cons_eq_some.mpr ⟨u, hu, rfl⟩⟩
  · rw [logOf, collect_append hrun]
    apply List.mem_append_right
    simp [collect, hevents]

theorem Delivers.of_run {ys : List (Action n)} (hrun : run (Sys.step w) s ys = some t)
    (hys : ∀ y ∈ ys, Action.Serves j y) (h : Delivers w t j) : Delivers w s j := by
  obtain ⟨zs, u, v, hzs, hrun', hsent⟩ := h
  refine ⟨ys ++ zs, u, v, fun y hy => ?_, run_append_eq_some.mpr ⟨t, hrun, hrun'⟩, ?_⟩
  · exact (List.mem_append.mp hy).elim (hys y) (hzs y)
  · rw [logOf, collect_append hrun]
    exact List.mem_append_right _ hsent

/-- The next item of the input gets to `j`. -/
theorem delivers_of_receiving (hd : s.dispatcher = .receiving) (hrest : s.input.rest ≠ [])
    (hopen : ∀ k, (s.outs k).closed = false) (hroom : HasRoom (s.outs j))
    (hahead : ∀ k ∈ w.sends.takeWhile (· ≠ j), HasRoom (s.outs k)) : Delivers w s j := by
  obtain ⟨v, t, hstep, htd, houts⟩ := step_receive (w := w) hd hrest
  have hrun : run (Sys.step w) s [.dispatch] = some t := run_cons_eq_some.mpr ⟨t, hstep, rfl⟩
  apply Delivers.of_run hrun
  · simp [Action.Serves]
  · apply delivers_of_mem htd w.nodup_sends (w.mem_sends j) <;> simpa only [houts]

/-- The outputs that have yet to get the item are the last ones. -/
def Aligned (w : Wiring n) : Dispatcher α n → Prop
  | .sending _ todo => todo ≠ [] ∧ todo <:+ w.sends
  | _ => True

theorem aligned_next {v : α} {todo : List (Fin n)} (h : todo <:+ w.sends) :
    Aligned w (Sys.next v todo) := by
  cases todo with
  | nil => trivial
  | cons c todo => exact ⟨List.cons_ne_nil c todo, h⟩

theorem aligned_step {x : Action n} (h : Aligned w s.dispatcher) (hstep : s.step w x = some t) :
    Aligned w t.dispatcher := by
  obtain ⟨es, -, heffect⟩ := effect_of_step hstep
  cases heffect with
  | received hd hrest => exact aligned_next List.suffix_rfl
  | @sent v c todo hd hopen hroom =>
      rw [hd] at h
      exact aligned_next ((List.suffix_cons c todo).trans h.2)
  | ended | closed | exited | gaveUp => trivial
  | produced | sendCrashes | closeCrashes | got | drained | cancelled => exact h

/-- What comes before `j` has been served, if `j` has. -/
theorem not_mem_of_aligned {todo : List (Fin n)} (h : todo <:+ w.sends) (hj : j ∉ todo)
    (hk : k ∈ w.sends.takeWhile (· ≠ j)) : k ∉ todo := by
  obtain ⟨served, hserved⟩ := h
  have hmem : j ∈ served := by
    have hall := w.mem_sends j
    rw [← hserved] at hall
    exact (List.mem_append.mp hall).resolve_right hj
  obtain ⟨first, rest, rfl, hnotin⟩ := List.eq_append_cons_of_mem hmem
  have hsplit : first ++ j :: (rest ++ todo) = w.sends := by simpa using hserved
  rw [← hsplit, takeWhile_ne hnotin] at hk
  have hnodup := w.nodup_sends
  rw [← hserved] at hnodup
  exact fun hkt => List.disjoint_of_nodup_append hnodup (List.mem_append_left _ hk) hkt

theorem delivers_of_ahead (haligned : Aligned w s.dispatcher) {items received : List α}
    {sent : Fin n → List α} (hprogress : Progress items s received sent s.dispatcher)
    (hnext : HasNext s j) (hroom : HasRoom (s.outs j))
    (hahead : ∀ k ∈ ahead w j s.dispatcher, HasRoom (s.outs k)) : Delivers w s j := by
  unfold HasNext at hnext
  cases hd : s.dispatcher with
  | receiving =>
      rw [hd] at hprogress hahead hnext
      exact delivers_of_receiving hd hnext hprogress.1 hroom hahead
  | sending v todo =>
      rw [hd] at hprogress hahead hnext haligned
      obtain ⟨hopen, -, hnodup, -⟩ := hprogress
      have hd' : s.dispatcher = Sys.next v todo := by
        obtain ⟨c, rest, rfl⟩ := List.exists_cons_of_ne_nil haligned.1
        exact hd
      by_cases hj : j ∈ todo
      · simp only [ahead, hj, if_true] at hahead
        exact delivers_of_mem hd' hnodup hj hopen hroom hahead
      · simp only [ahead, hj, if_false] at hahead
        -- The goroutine first gets rid of the item that it holds.
        obtain ⟨ys, t, hys, hrun, htd, hinput, hpassed⟩ := run_pass (w := w) todo []
          (by simpa using hd') hnodup hopen fun k hk => hahead k (List.mem_append_left _ hk)
        apply Delivers.of_run hrun (fun y hy => by rw [hys y hy]; trivial)
        apply delivers_of_receiving htd
        · rw [hinput]
          exact hnext.resolve_left hj
        · exact fun k => (hpassed.closed k).trans (hopen k)
        · rw [hpassed.outs j hj]
          exact hroom
        · intro k hk
          rw [hpassed.outs k (not_mem_of_aligned haligned.2 hj hk)]
          exact hahead k (List.mem_append_right _ hk)
  | closing | exited => simp [hd] at hnext

/-! ## Somebody is in the way -/

def Dispatcher.inLoop : Dispatcher α n → Bool
  | .receiving => true
  | .sending .. => true
  | _ => false

/-- The goroutine has to get past a full buffer before it serves `j`. -/
structure Blocked (w : Wiring n) (j k : Fin n) (s : Sys α n) : Prop where
  ne : k ≠ j
  full : ¬HasRoom (s.outs k)
  mem : s.dispatcher.inLoop = true → k ∈ ahead w j s.dispatcher

theorem mem_ahead_next {v : α} {c : Fin n} {todo : List (Fin n)} (hck : c ≠ k)
    (h : k ∈ ahead w j (.sending v (c :: todo))) :
    c ≠ j ∧ k ∈ ahead w j (Sys.next v todo) := by
  have hcj : c ≠ j := by
    rintro rfl
    simp [ahead] at h
  refine ⟨hcj, ?_⟩
  rw [ahead_next]
  by_cases hj : j ∈ todo
  · simpa [ahead, hj, hcj, hck.symm] using h
  · simpa [ahead, hj, hcj.symm, hck.symm] using h

theorem blocked_step {x : Action n} (h : Blocked w j k s) (hx : Action.Serves j x)
    (hstep : s.step w x = some t) :
    Blocked w j k t ∧ ∀ v, Event.sent j v ∉ s.events x := by
  obtain ⟨es, hes, heffect⟩ := effect_of_step hstep
  rw [hes]
  cases heffect with
  | produced | cancelled => exact hx.elim
  | @received v f hd hrest =>
      refine ⟨⟨h.ne, h.full, fun _ => ?_⟩, by simp⟩
      have hmem := h.mem (by simp [hd, Dispatcher.inLoop])
      rw [hd] at hmem
      dsimp only
      rw [ahead_next, if_pos (w.mem_sends j)]
      exact hmem
  | ended hd hrest => exact ⟨⟨h.ne, h.full, by simp [Dispatcher.inLoop]⟩, by simp⟩
  | @sent v c todo hd hopen hroom =>
      have hck : c ≠ k := by
        rintro rfl
        exact h.full hroom
      have hmem := h.mem (by simp [hd, Dispatcher.inLoop])
      rw [hd] at hmem
      obtain ⟨hcj, hmem'⟩ := mem_ahead_next hck hmem
      refine ⟨⟨h.ne, ?_, fun _ => hmem'⟩, by simp [hcj.symm]⟩
      simpa [Sys.setOut, hck.symm] using h.full
  | sendCrashes hd hclosed => exact ⟨⟨h.ne, h.full, h.mem⟩, by simp⟩
  | @closed c todo hd hopen =>
      refine ⟨⟨h.ne, ?_, by simp [Dispatcher.inLoop]⟩, by simp⟩
      by_cases hkc : k = c
      · subst hkc
        simpa [Sys.setOut, HasRoom] using h.full
      · simpa [Sys.setOut, hkc] using h.full
  | closeCrashes hd hclosed => exact ⟨⟨h.ne, h.full, h.mem⟩, by simp⟩
  | exited hd => exact ⟨⟨h.ne, h.full, by simp [Dispatcher.inLoop]⟩, by simp⟩
  | gaveUp hd hcancelled => exact ⟨⟨h.ne, h.full, by simp [Dispatcher.inLoop]⟩, by simp⟩
  | @got c v buf hbuf =>
      obtain rfl : c = j := hx
      refine ⟨⟨h.ne, ?_, h.mem⟩, by simp⟩
      simpa [Sys.setOut, h.ne] using h.full
  | drained hbuf hclosed => exact ⟨h, by simp⟩

theorem Blocked.not_delivers (h : Blocked w j k s) : ¬Delivers w s j := by
  rintro ⟨ys, t, v, hys, hrun, hsent⟩
  have hsilent : Blocked w j k t ∧ ∀ v, Event.sent j v ∉ logOf w s ys := by
    refine run_collect (P := fun t log => Blocked w j k t ∧ ∀ v, Event.sent j v ∉ log) ?_
      ⟨h, by simp⟩ (C := fun _ x => Action.Serves j x)
      (along_of_forall fun y hy _ => hys y hy) hrun
    rintro s log x t ⟨hblocked, hlog⟩ hx hstep
    obtain ⟨hblocked', hevents⟩ := blocked_step hblocked hx hstep
    exact ⟨hblocked', fun v hv => (List.mem_append.mp hv).elim (hlog v) (hevents v)⟩
  exact hsilent.2 v hsent

theorem ne_of_mem_ahead {d : Dispatcher α n} (h : k ∈ ahead w j d) : k ≠ j := by
  have hfirst : ∀ l : List (Fin n), k ∈ l.takeWhile (· ≠ j) → k ≠ j := fun l hk => by
    simpa using List.mem_takeWhile_imp hk
  cases d with
  | receiving | closing | exited => exact hfirst _ h
  | sending v todo =>
      by_cases hj : j ∈ todo
      · simp only [ahead, hj, if_true] at h
        exact hfirst _ h
      · simp only [ahead, hj, if_false, List.mem_append] at h
        rcases h with h | h
        · rintro rfl
          exact hj h
        · exact hfirst _ h

theorem delivers_iff {input : Feed α} {xs : List (Action n)}
    (h : run (Sys.step w) (start input) xs = some s) (hnext : HasNext s j)
    (hroom : HasRoom (s.outs j)) :
    Delivers w s j ↔ ∀ k ∈ ahead w j s.dispatcher, HasRoom (s.outs k) := by
  have hinv := run_inv h
  have hstart : Aligned w (start input : Sys α n).dispatcher := trivial
  have haligned : Aligned w s.dispatcher :=
    run_forall (P := fun s : Sys α n => Aligned w s.dispatcher)
      (fun _ _ _ hs hstep => aligned_step hs hstep) hstart h
  constructor
  · intro hdelivers k hk
    by_contra hfull
    exact Blocked.not_delivers ⟨ne_of_mem_ahead hk, hfull, fun _ => hk⟩ hdelivers
  · exact delivers_of_ahead haligned hinv.progress hnext hroom

def pairOuts (first second : List ℕ) : Fin 2 → Chan ℕ :=
  fun j => ⟨if j = 0 then first else second, 16, false⟩

theorem update_pairOuts_zero (first second buf : List ℕ) :
    Function.update (pairOuts first second) 0 ⟨buf, 16, false⟩ = pairOuts buf second := by
  funext j
  fin_cases j <;> rfl

theorem update_pairOuts_one (first second buf : List ℕ) :
    Function.update (pairOuts first second) 1 ⟨buf, 16, false⟩ = pairOuts first buf := by
  funext j
  fin_cases j <;> rfl

/-- `FanOut` or `Tee` on two outputs, with what is left of the input and what is
in the buffers. -/
def pairState (d : Dispatcher ℕ 2) (rest first second : List ℕ) : Sys ℕ 2 :=
  ⟨false, .ofList 0 rest, d, pairOuts first second, none⟩

/-- An item that the receiver of the second output takes and the other one does
not. -/
def lazyRound : List (Action 2) := [.dispatch, .dispatch, .dispatch, .consume 1]

theorem run_lazyRound {w : Wiring 2} (hw : w.sends = [0, 1]) (v : ℕ) (rest first : List ℕ)
    (hroom : first.length < 16) :
    run (Sys.step w) (pairState .receiving (v :: rest) first []) lazyRound =
      some (pairState .receiving rest (first ++ [v]) []) := by
  have hreceive : (pairState .receiving (v :: rest) first []).step w .dispatch =
      some (pairState (.sending v [0, 1]) rest first []) := by
    simp only [Sys.step, Sys.dispatch, pairState, Sys.receive, hw]
    rfl
  have hfirst : (pairState (.sending v [0, 1]) rest first []).step w .dispatch =
      some (pairState (.sending v [1]) rest (first ++ [v]) []) := by
    have hs : (pairOuts first [] 0).send v = .ready ⟨first ++ [v], 16, false⟩ := by
      simp [pairOuts, Chan.send, hroom]
    simp only [Sys.step, Sys.dispatch, pairState, Sys.send, hs, Sys.setOut, update_pairOuts_zero]
    rfl
  have hsecond : (pairState (.sending v [1]) rest (first ++ [v]) []).step w .dispatch =
      some (pairState .receiving rest (first ++ [v]) [v]) := by
    have hs : (pairOuts (first ++ [v]) [] 1).send v = .ready ⟨[v], 16, false⟩ := rfl
    simp only [Sys.step, Sys.dispatch, pairState, Sys.send, hs, Sys.setOut, update_pairOuts_one]
    rfl
  have hconsume : (pairState .receiving rest (first ++ [v]) [v]).step w (.consume 1) =
      some (pairState .receiving rest (first ++ [v]) []) := by
    have hr : (pairOuts (first ++ [v]) [v] 1).recv = .ready (some v, ⟨[], 16, false⟩) := rfl
    simp only [Sys.step, Sys.consume, pairState, hr, Sys.setOut, update_pairOuts_one]
  simp [lazyRound, run, hreceive, hfirst, hsecond, hconsume]

theorem run_lazyRounds {w : Wiring 2} (hw : w.sends = [0, 1]) (vs rest first : List ℕ)
    (hroom : first.length + vs.length ≤ 16) :
    run (Sys.step w) (pairState .receiving (vs ++ rest) first [])
        (List.replicate vs.length lazyRound).flatten =
      some (pairState .receiving rest (first ++ vs) []) := by
  induction vs generalizing first with
  | nil => simp
  | cons v vs ih =>
      have hround := run_lazyRound hw v (vs ++ rest) first (by simp at hroom; omega)
      rw [List.length_cons, List.replicate_succ, List.flatten_cons, run_append, List.cons_append,
        hround]
      simpa using ih (first ++ [v]) (by simp at hroom ⊢; omega)

theorem hasRoom_pairState (d : Dispatcher ℕ 2) (rest first : List ℕ) :
    HasRoom ((pairState d rest first []).outs 1) := by
  simp [HasRoom, pairState, pairOuts]

theorem blocked_pairState {w : Wiring 2} (hw : w.sends = [0, 1]) (rest second : List ℕ)
    {first : List ℕ} (hfull : 16 ≤ first.length) :
    Blocked w 1 0 (pairState .receiving rest first second) where
  ne := by decide
  full := not_lt.mpr hfull
  mem _ := by simp [pairState, ahead, hw]

/-- After sixteen items that only the receiver of the second output has taken, the
next one does not get to it. -/
def Starves (w : Wiring 2) : Prop :=
  ∃ s, run (Sys.step w) (start (.ofList 0 (List.range 17)))
      (List.replicate 16 lazyRound).flatten = some s ∧
    s.cancelled = false ∧ HasNext s 1 ∧ HasRoom (s.outs 1) ∧ ¬Delivers w s 1

theorem starves_of_sends {w : Wiring 2} (hw : w.sends = [0, 1]) : Starves w := by
  have hstart : (start (.ofList 0 (List.range 17)) : Sys ℕ 2) =
      pairState .receiving (List.range 16 ++ [16]) [] [] := by
    have houts : (fun _ => ⟨[], 16, false⟩) = pairOuts [] [] := by
      funext j
      fin_cases j <;> rfl
    have hrange : List.range 17 = List.range 16 ++ [16] := List.range_succ
    simp only [start, pairState, houts, hrange]
  have hrun := run_lazyRounds hw (List.range 16) [16] [] (by simp)
  rw [List.length_range, ← hstart] at hrun
  have hblocked := blocked_pairState hw [16] [] (by simp : 16 ≤ ([] ++ List.range 16).length)
  exact ⟨_, hrun, rfl, by simp [HasNext, pairState], hasRoom_pairState _ _ _,
    hblocked.not_delivers⟩

theorem full_buffer_starves : Starves (fanOut 2) ∧ Starves tee := by
  have hfanOut : (fanOut 2).sends = [0, 1] := rfl
  have htee : tee.sends = [0, 1] := rfl
  exact ⟨starves_of_sends hfanOut, starves_of_sends htee⟩

/-- In every state that `FanOut` or `Tee` can get into, an output with room for
another item can be served without the help of the other receivers exactly if
the outputs that come before it have room too. -/
theorem served_alone_iff (b : Broadcaster) (input : Feed α) {xs : List (Action b.outputs)}
    {s : Sys α b.outputs} (h : run (Sys.step b.wiring) (start input) xs = some s)
    {j : Fin b.outputs} (hnext : HasNext s j) (hroom : HasRoom (s.outs j)) :
    Delivers b.wiring s j ↔ ∀ k ∈ ahead b.wiring j s.dispatcher, HasRoom (s.outs k) :=
  delivers_iff h hnext hroom

/-- Both outputs are empty and two items are coming. -/
theorem second_output_served :
    Delivers (Broadcaster.fanOut 2).wiring (start (.ofList 0 ["a", "b"])) (1 : Fin 2) := by
  have hrun : run (Sys.step (Broadcaster.fanOut 2).wiring) (start (.ofList 0 ["a", "b"])) [] =
      some (start (.ofList 0 ["a", "b"])) := rfl
  have hiff := served_alone_iff (.fanOut 2) (.ofList 0 ["a", "b"]) hrun (j := (1 : Fin 2))
    (by simp [HasNext, start]) (by simp [HasRoom, start])
  exact hiff.mpr fun k _ => by simp [HasRoom, start]

end Gkit.FanOut
