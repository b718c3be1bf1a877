import Gkit.PubSub.Log

/-!
# Delivery

As long as no subscription ends under a running `Publish` that has copied it,
each call tries the live subscriptions of its topic once each, in the order in
which they were made.  A subscription with a buffer passes its handler what was
offered to it, in that order, without what it found no room for.
-/

namespace Gkit.PubSub

open Gkit.Lib

variable {ι κ P : Type}

/-- The handlers of a call that has not ended. -/
def Publish.running : Publish ι P → List ι
  | .sending _ _ tried todo => tried ++ todo
  | _ => []

/-- No subscription is removed while a call that has copied it is running. -/
def RemovesApart (s : Sys ι κ P) : Action ι κ P → Prop
  | .remove h => ∀ p, h ∉ (s.calls p).running
  | _ => True

instance [DecidableEq ι] [Fintype κ] (s : Sys ι κ P) : ∀ x, Decidable (RemovesApart s x)
  | .remove h => inferInstanceAs (Decidable (∀ p, h ∉ (s.calls p).running))
  | .subscribe _ _ _ | .publish _ _ _ | .send _ | .cancel _ | .close _ | .park _ | .take _
  | .quit _ | .call _ | .finish _ => inferInstanceAs (Decidable True)

/-- What a running call has copied has not begun to end. -/
def Attached (s : Sys ι κ P) : Prop :=
  ∀ p, ∀ h ∈ (s.calls p).running, ∀ sub ∈ s.handlers h, sub.unsubscribe = .notCalled

variable {s s' : Sys ι κ P} {x : Action ι κ P}

theorem Attached.setSub [DecidableEq ι] (hs : Attached s) {h : ι} {sub sub' : Subscription κ P}
    (hsub : s.handlers h = some sub) (hun : sub'.unsubscribe = sub.unsubscribe) :
    Attached (s.setSub h sub') := by
  intro p g hg sub₁ h₁
  rcases handlers_setSub.mp h₁ with ⟨rfl, rfl⟩ | ⟨-, h₁⟩
  · exact hun.trans (hs p g hg sub hsub)
  · exact hs p g hg sub₁ h₁

theorem Attached.setCall [DecidableEq κ] (hs : Attached s) {p : κ} {call : Publish ι P}
    (hcall : ∀ h ∈ call.running, ∀ sub ∈ s.handlers h, sub.unsubscribe = .notCalled) :
    Attached (s.setCall p call) := by
  intro q g hg
  by_cases hq : q = p
  · subst hq
    simp only [Sys.setCall, Function.update_self] at hg
    exact hcall g hg
  · simp only [Sys.setCall, Function.update_of_ne hq] at hg
    exact hs q g hg

variable [DecidableEq ι] [DecidableEq κ]

theorem Attached.tried (hs : Attached s) {p : κ} {topic : String} {payload : P}
    {tried todo : List ι} {h : ι} {sub sub' : Subscription κ P}
    (hp : s.calls p = .sending topic payload tried (h :: todo)) (hsub : s.handlers h = some sub)
    (hun : sub'.unsubscribe = sub.unsubscribe) :
    Attached ((s.setSub h sub').setCall p (.sending topic payload (tried ++ [h]) todo)) := by
  have hset := hs.setSub hsub hun
  refine hset.setCall fun g hg => hset p g ?_
  simpa [Sys.setSub, hp, Publish.running] using hg

omit [DecidableEq κ] in
/-- A step on a subscription whose end has begun concerns no running call. -/
theorem Attached.detached (hs : Attached s) {h : ι} {sub sub' : Subscription κ P}
    (hsub : s.handlers h = some sub) (hun : sub.unsubscribe ≠ .notCalled) :
    Attached (s.setSub h sub') := by
  intro p g hg sub₁ h₁
  rcases handlers_setSub.mp h₁ with ⟨rfl, rfl⟩ | ⟨-, h₁⟩
  · exact absurd (hs p g hg sub hsub) hun
  · exact hs p g hg sub₁ h₁

theorem Attached.step (hs : Attached s) (hr : Registry s) (hx : RemovesApart s x)
    (h : s.step x = some s') : Attached s' := by
  obtain ⟨es, -, heffect⟩ := effect_of_step h
  cases heffect with
  | subscribed hnew =>
      intro p g hg sub₁ h₁
      rcases handlers_setSub.mp h₁ with ⟨-, rfl⟩ | ⟨-, h₁⟩
      · rfl
      · exact hs p g hg sub₁ h₁
  | @published p topic payload hp =>
      refine hs.setCall fun g hg sub hsub => ?_
      obtain ⟨sub', hsub', -, hun⟩ := (hr.mem topic g).mp (by simpa [Publish.running] using hg)
      obtain rfl := Option.some.inj (hsub.symm.trans hsub')
      exact hun
  | returned hp => exact hs.setCall fun g hg => by simp [Publish.running] at hg
  | panicked hp hsub hclosed => exact hs.setCall fun g hg => by simp [Publish.running] at hg
  | handed hp hsub hopen hparked => exact hs.tried hp hsub rfl
  | queued hp hsub hopen hbusy hroom => exact hs.tried hp hsub rfl
  | @dropped p topic payload tried todo g sub hp hsub hopen hbusy hfull =>
      refine hs.setCall fun g' hg' => hs p g' ?_
      simpa [hp, Publish.running] using hg'
  | @removed g sub hsub hun =>
      intro p g' hg' sub₁ h₁
      rcases handlers_setSub.mp h₁ with ⟨rfl, -⟩ | ⟨-, h₁⟩
      · exact absurd hg' (hx p)
      · exact hs p g' hg' sub₁ h₁
  | cancelled hsub hun => exact hs.detached hsub (by simp [hun])
  | closed hsub hun hopen => exact hs.detached hsub (by simp [hun])
  | closePanics hsub hun hclosed => exact hs.detached hsub (by simp [hun])
  | parked hsub hd hdone hbuf hopen => exact hs.setSub hsub rfl
  | took hsub hd hbuf => exact hs.setSub hsub rfl
  | drained hsub hd hbuf hclosed => exact hs.setSub hsub rfl
  | quit hsub hd hdone => exact hs.setSub hsub rfl
  | called hsub hd => exact hs.setSub hsub rfl
  | finished hsub hd => exact hs.setSub hsub rfl

theorem Attached.closesApart (hs : Attached s) (h : s.step x = some s') : ClosesApart s x := by
  obtain ⟨es, -, heffect⟩ := effect_of_step h
  have hfree {h : ι} {sub : Subscription κ P} (hsub : s.handlers h = some sub)
      (hun : sub.unsubscribe = .cancelled) (p : κ) : h ∉ (s.calls p).todo := by
    intro hmem
    have hrunning : h ∈ (s.calls p).running := by
      cases hp : s.calls p with
      | sending topic payload tried todo =>
          rw [hp] at hmem
          exact List.mem_append_right tried hmem
      | _ => simp [hp, Publish.todo] at hmem
    have := hs p h hrunning sub hsub
    simp [hun] at this
  cases heffect with
  | closed hsub hun hopen => exact hfree hsub hun
  | closePanics hsub hun hclosed => exact hfree hsub hun
  | _ => trivial

/-- The call works on a fixed list of handlers. -/
def Follows (p : κ) (topic : String) (payload : P) (handlers : List ι) (s : Sys ι κ P) : Prop :=
  s.calls p = .returned topic payload handlers ∨
    (∃ tried todo, s.calls p = .sending topic payload tried todo ∧ tried ++ todo = handlers) ∨
    (s.calls p).isPanicked = true

omit [DecidableEq ι] in
theorem Follows.setCall {p q : κ} {topic : String} {payload : P} {handlers : List ι}
    {call : Publish ι P} (hs : Follows p topic payload handlers s)
    (hcall : q = p → Follows p topic payload handlers (s.setCall p call)) :
    Follows p topic payload handlers (s.setCall q call) := by
  by_cases hq : q = p
  · subst hq
    exact hcall rfl
  · simpa only [Follows, Sys.setCall, Function.update_of_ne (Ne.symm hq)] using hs

omit [DecidableEq ι] in
theorem Follows.tried {p q : κ} {topic topic' : String} {payload payload' : P}
    {handlers tried todo : List ι} {h : ι} (hs : Follows p topic payload handlers s)
    (hq : s.calls q = .sending topic' payload' tried (h :: todo)) :
    Follows p topic payload handlers
      (s.setCall q (.sending topic' payload' (tried ++ [h]) todo)) := by
  refine hs.setCall ?_
  rintro rfl
  rcases hs with hp | ⟨tried₁, todo₁, hp, hall⟩ | hp
  · simp [hq] at hp
  · obtain ⟨rfl, rfl, rfl, rfl⟩ : topic' = topic ∧ payload' = payload ∧ tried = tried₁ ∧
        h :: todo = todo₁ := by
      simpa [hq] using hp
    exact .inr (.inl ⟨tried ++ [h], todo, by simp [Sys.setCall], by simpa using hall⟩)
  · simp [hq, Publish.isPanicked] at hp

theorem Follows.step {p : κ} {topic : String} {payload : P} {handlers : List ι}
    (hs : Follows p topic payload handlers s) (h : s.step x = some s') :
    Follows p topic payload handlers s' := by
  obtain ⟨es, -, heffect⟩ := effect_of_step h
  cases heffect with
  | @published q topic' payload' hq =>
      refine hs.setCall ?_
      rintro rfl
      simp [Follows, hq, Publish.isPanicked] at hs
  | @returned q topic' payload' tried hq =>
      refine hs.setCall ?_
      rintro rfl
      have hall : topic' = topic ∧ payload' = payload ∧ tried = handlers := by
        simpa [Follows, hq, Publish.isPanicked, and_assoc] using hs
      obtain ⟨rfl, rfl, rfl⟩ := hall
      exact .inl (by simp [Sys.setCall])
  | panicked hq hsub hclosed =>
      exact hs.setCall fun _ => .inr (.inr (by simp [Sys.setCall, Publish.isPanicked]))
  | handed hq hsub hopen hparked => exact Follows.tried (s := s.setSub _ _) hs hq
  | queued hq hsub hopen hbusy hroom => exact Follows.tried (s := s.setSub _ _) hs hq
  | dropped hq hsub hopen hbusy hfull => exact hs.tried hq
  | _ => exact hs

theorem attempts_of_publish {xs ys zs : List (Action ι κ P)} {p : κ} {topic : String} {payload : P}
    (hrun : run Sys.step newBus xs = some s) (hxs : xs = ys ++ .publish p topic payload :: zs) :
    (live topic (history ys)).Nodup ∧ Follows p topic payload (live topic (history ys)) s := by
  subst hxs
  obtain ⟨t, ht, hrest⟩ := run_append_eq_some.mp hrun
  obtain ⟨u, hu, hrest⟩ := run_cons_eq_some.mp hrest
  have hlogged := logged_of_run ht
  have hlive := hlogged.listed.live topic
  have hfollows : Follows p topic payload (live topic (history ys)) u := by
    obtain ⟨es, -, heffect⟩ := effect_of_step hu
    cases heffect with
    | published hp => exact .inr (.inl ⟨[], _, by simp [Sys.setCall], hlive⟩)
  exact ⟨hlive ▸ hlogged.registry.nodup topic,
    run_forall (fun _ _ _ hs h => hs.step h) hfollows hrest⟩

theorem dropped_of_full {xs : List (Action ι κ P)} (hrun : run Sys.step newBus xs = some s)
    {p : κ} {h : ι} {m : Message κ P} (hstep : s.step (.send p) = some s')
    (hdrop : .offered h m false ∈ events s (.send p)) :
    ∃ sub, s.handlers h = some sub ∧ sub.ch.cap = sub.ch.buf.length ∧
      sub.ch.buf.Sublist (offersTo h (history xs)) := by
  have hlogged := logged_of_run hrun
  obtain ⟨es, hes, heffect⟩ := effect_of_step hstep
  rw [hes] at hdrop
  cases heffect with
  | @dropped _ topic payload tried todo g sub hp hsub hopen hbusy hfull =>
      simp only [List.mem_singleton, Event.offered.injEq, and_true] at hdrop
      obtain ⟨rfl, -⟩ := hdrop
      refine ⟨sub, hsub, le_antisymm hfull (hlogged.registry.sound h sub hsub).buf, ?_⟩
      have htaken := hlogged.queued.taken h
      simp only [Sys.buffer, hsub, Option.elim_some] at htaken
      have hsuffix : sub.ch.buf.Sublist (takenBy h (history xs)) :=
        htaken ▸ List.sublist_append_right _ _
      exact hsuffix.trans (takenBy_sublist h _)
  | _ => simp at hdrop

/-- What each call tries to deliver, and can deliver on its own, what each handler
gets, and when a message is dropped. -/
theorem bus_delivers {xs : List (Action ι κ P)} (hrun : run Sys.step newBus xs = some s)
    (hapart : Along Sys.step RemovesApart newBus xs) :
    (∀ ys zs p topic payload, xs = ys ++ .publish p topic payload :: zs →
      (live topic (history ys)).Nodup ∧
        ((s.calls p = .returned topic payload (live topic (history ys)) ∧
          attemptsOf p (history xs) =
            (live topic (history ys)).map fun h => (h, ⟨p, topic, payload⟩)) ∨
        ∃ tried todo, s.calls p = .sending topic payload tried todo ∧
          tried ++ todo = live topic (history ys) ∧
          attemptsOf p (history xs) = (tried.map fun h => (h, ⟨p, topic, payload⟩)) ∧
          ∃ k s', run Sys.step s (List.replicate k (.send p)) = some s' ∧
            s'.calls p = .returned topic payload (live topic (history ys)))) ∧
    (∀ h sub, s.handlers h = some sub → 1 ≤ sub.bufSize → sub.unsubscribe = .notCalled →
      callsOf h (history xs) <+: takenBy h (history xs) ∧
        (takenBy h (history xs)).Sublist (offersTo h (history xs)) ∧
        ((offersTo h (history xs)).map Message.call).Nodup) ∧
    (∀ ys zs p t h m, xs = ys ++ .send p :: zs → run Sys.step newBus ys = some t →
      .offered h m false ∈ events t (.send p) → ∃ sub, t.handlers h = some sub ∧
        (1 ≤ sub.bufSize → (sub.ch.buf.length : ℤ) = sub.bufSize) ∧
        sub.ch.buf.Sublist (offersTo h (history ys))) := by
  have hlogged := logged_of_run hrun
  have hquiet : Quiet s := by
    have : Registry s ∧ Attached s ∧ Quiet s := by
      refine run_invariant (P := fun t => Registry t ∧ Attached t ∧ Quiet t) (C := RemovesApart) ?_
        ⟨registry_newBus, fun p h hp => by simp [newBus, Publish.running] at hp, quiet_newBus⟩
        hapart hrun
      rintro t x u ⟨hr, ha, hq⟩ hx hu
      exact ⟨hr.step hu, ha.step hr hx hu, hq.step hr (ha.closesApart hu) hu⟩
    exact this.2.2
  refine ⟨fun ys zs p topic payload hxs => ?_, fun h sub hsub hbuf hun => ?_,
    fun ys zs p t h m hxs ht hdrop => ?_⟩
  · obtain ⟨hnodup, hfollows⟩ := attempts_of_publish hrun hxs
    have hattempts := hlogged.tried.attempts p (hquiet.calls p)
    refine ⟨hnodup, ?_⟩
    rcases hfollows with hp | ⟨tried, todo, hp, hall⟩ | hp
    · exact .inl ⟨hp, by simpa [hp, Publish.attempts] using hattempts⟩
    · refine .inr ⟨tried, todo, hp, hall, by simpa [hp, Publish.attempts] using hattempts, ?_⟩
      have hopen := hquiet.ahead p
      rw [hp] at hopen
      obtain ⟨k, s', hsends, hreturned, -⟩ := sends_return hlogged.registry hp hopen
      exact ⟨k, s', hsends, hall ▸ hreturned⟩
    · simp [hquiet.calls p] at hp
  · refine ⟨?_, takenBy_sublist h _, hlogged.tried.once h⟩
    rw [hlogged.queued.taken, hlogged.queued.received, List.append_assoc]
    exact List.prefix_append _ _
  · subst hxs
    obtain ⟨t', ht', hrest⟩ := run_append_eq_some.mp hrun
    obtain rfl := Option.some.inj (ht.symm.trans ht')
    obtain ⟨u, hu, -⟩ := run_cons_eq_some.mp hrest
    obtain ⟨sub, hsub, hcap, hold⟩ := dropped_of_full ht hu hdrop
    refine ⟨sub, hsub, fun hsize => ?_, hold⟩
    have := ((logged_of_run ht).registry.sound h sub hsub).cap
    omega

/-- Two subscriptions, one call, and the end of the first subscription. -/
def twoSubscriptions : List (Action Bool Unit ℕ) :=
  [.subscribe false "nums" 1, .subscribe true "nums" 1, .publish () "nums" 7, .send (), .send (),
    .send (), .remove false]

theorem two_subscriptions_delivered : ∃ s : Sys Bool Unit ℕ,
    run Sys.step newBus twoSubscriptions = some s ∧
      s.calls () = .returned "nums" 7 [false, true] ∧
      attemptsOf () (history twoSubscriptions) =
        [(false, ⟨(), "nums", 7⟩), (true, ⟨(), "nums", 7⟩)] := by
  have hrun : (run Sys.step newBus twoSubscriptions).map (fun s => s.calls ()) =
      some (.returned "nums" 7 [false, true]) := by
    decide
  obtain ⟨s, hs, hcall⟩ := Option.map_eq_some_iff.mp hrun
  obtain ⟨-, hdone | ⟨tried, todo, hp, -⟩⟩ := (bus_delivers hs (by decide)).1
    [.subscribe false "nums" 1, .subscribe true "nums" 1]
    [.send (), .send (), .send (), .remove false] () "nums" 7 rfl
  · exact ⟨s, hs, hdone⟩
  · simp [hcall] at hp

end Gkit.PubSub
