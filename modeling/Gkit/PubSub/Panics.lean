import Gkit.PubSub.Registry

/-!
# Sends on closed channels

`Publish` sends to a copy of the handlers, so a subscription can end between the
copy and the send, and the send on its closed channel panics.  This is the only
way to a panic: while a channel is closed only with no call on its way to it,
neither `Publish` nor the end of a subscription panics.
-/

namespace Gkit.PubSub

open Gkit.Lib

variable {ι κ P : Type}

def Publish.isPanicked : Publish ι P → Bool
  | .panicked _ _ _ => true
  | _ => false

def Unsubscribe.isPanicked : Unsubscribe → Bool
  | .panicked _ => true
  | _ => false

/-- A channel is closed only while no call has its handler ahead. -/
def ClosesApart (s : Sys ι κ P) : Action ι κ P → Prop
  | .close h => ∀ p, h ∉ (s.calls p).todo
  | _ => True

instance [DecidableEq ι] [Fintype κ] (s : Sys ι κ P) : ∀ x, Decidable (ClosesApart s x)
  | .close h => inferInstanceAs (Decidable (∀ p, h ∉ (s.calls p).todo))
  | .subscribe _ _ _ | .publish _ _ _ | .send _ | .remove _ | .cancel _ | .park _ | .take _
  | .quit _ | .call _ | .finish _ => inferInstanceAs (Decidable True)

/-- No call has panicked, and none has a closed channel ahead. -/
structure Quiet (s : Sys ι κ P) : Prop where
  ahead : ∀ p, ∀ h ∈ (s.calls p).todo, ∀ sub ∈ s.handlers h, sub.ch.closed = false
  calls : ∀ p, (s.calls p).isPanicked = false

theorem quiet_newBus : Quiet (newBus : Sys ι κ P) where
  ahead p h hp := by simp [newBus, Publish.todo] at hp
  calls p := rfl

variable {s s' : Sys ι κ P} {x : Action ι κ P}

theorem Quiet.setSub [DecidableEq ι] (hs : Quiet s) {h : ι} {sub sub' : Subscription κ P}
    (hsub : s.handlers h = some sub) (hclosed : sub'.ch.closed = sub.ch.closed) :
    Quiet (s.setSub h sub') where
  ahead p g hg sub₁ h₁ := by
    rcases handlers_setSub.mp h₁ with ⟨rfl, rfl⟩ | ⟨-, h₁⟩
    · exact hclosed.trans (hs.ahead p g hg sub hsub)
    · exact hs.ahead p g hg sub₁ h₁
  calls := hs.calls

theorem Quiet.setCall [DecidableEq κ] (hs : Quiet s) {p : κ} {call : Publish ι P}
    (htodo : ∀ h ∈ call.todo, ∀ sub ∈ s.handlers h, sub.ch.closed = false)
    (hcall : call.isPanicked = false) : Quiet (s.setCall p call) where
  ahead q g hg := by
    by_cases hq : q = p
    · subst hq
      simp only [Sys.setCall, Function.update_self] at hg
      exact htodo g hg
    · simp only [Sys.setCall, Function.update_of_ne hq] at hg
      exact hs.ahead q g hg
  calls q := by
    by_cases hq : q = p
    · subst hq
      simpa only [Sys.setCall, Function.update_self] using hcall
    · simpa only [Sys.setCall, Function.update_of_ne hq] using hs.calls q

variable [DecidableEq ι] [DecidableEq κ]

theorem Quiet.tried (hs : Quiet s) {p : κ} {topic : String} {payload : P} {tried todo : List ι}
    {h : ι} {sub sub' : Subscription κ P}
    (hp : s.calls p = .sending topic payload tried (h :: todo)) (hsub : s.handlers h = some sub)
    (hclosed : sub'.ch.closed = sub.ch.closed) :
    Quiet ((s.setSub h sub').setCall p (.sending topic payload (tried ++ [h]) todo)) := by
  have hset := hs.setSub hsub hclosed
  refine hset.setCall (fun g hg => hset.ahead p g ?_) rfl
  simpa [Sys.setSub, hp, Publish.todo] using .inr hg

theorem Quiet.step (hs : Quiet s) (hr : Registry s) (hx : ClosesApart s x)
    (h : s.step x = some s') : Quiet s' := by
  obtain ⟨es, -, heffect⟩ := effect_of_step h
  cases heffect with
  | @subscribed g topic bufSize hnew =>
      refine ⟨fun p g' hg' sub₁ h₁ => ?_, hs.calls⟩
      rcases handlers_setSub.mp h₁ with ⟨-, rfl⟩ | ⟨-, h₁⟩
      · rfl
      · exact hs.ahead p g' hg' sub₁ h₁
  | @published p topic payload hp =>
      refine hs.setCall (fun g hg sub hsub => ?_) rfl
      -- what is registered has not begun to end
      obtain ⟨sub', hsub', -, hun⟩ := (hr.mem topic g).mp hg
      obtain rfl := Option.some.inj (hsub.symm.trans hsub')
      exact (hr.sound g sub hsub).open_of_ne (by simp [hun])
  | returned hp => exact hs.setCall (fun g hg => by simp [Publish.todo] at hg) rfl
  | @panicked p topic payload tried todo g sub hp hsub hclosed =>
      have hopen := hs.ahead p g (by simp [hp, Publish.todo]) sub hsub
      rw [hclosed] at hopen
      nomatch hopen
  | handed hp hsub hopen hparked => exact hs.tried hp hsub rfl
  | queued hp hsub hopen hbusy hroom => exact hs.tried hp hsub rfl
  | @dropped p topic payload tried todo g sub hp hsub hopen hbusy hfull =>
      refine hs.setCall (fun g' hg' => hs.ahead p g' ?_) rfl
      simpa [hp, Publish.todo] using .inr hg'
  | @removed g sub hsub hun =>
      have hset : Quiet (s.setSub g { sub with unsubscribe := .removed }) := hs.setSub hsub rfl
      exact ⟨hset.ahead, hset.calls⟩
  | @closed g sub hsub hun hopen =>
      refine ⟨fun p g' hg' sub₁ h₁ => ?_, hs.calls⟩
      rcases handlers_setSub.mp h₁ with ⟨rfl, -⟩ | ⟨-, h₁⟩
      · exact absurd hg' (hx p)
      · exact hs.ahead p g' hg' sub₁ h₁
  | cancelled hsub hun => exact hs.setSub hsub rfl
  | closePanics hsub hun hclosed => exact hs.setSub hsub rfl
  | parked hsub hd hdone hbuf hopen => exact hs.setSub hsub rfl
  | took hsub hd hbuf => exact hs.setSub hsub rfl
  | drained hsub hd hbuf hclosed => exact hs.setSub hsub rfl
  | quit hsub hd hdone => exact hs.setSub hsub rfl
  | called hsub hd => exact hs.setSub hsub rfl
  | finished hsub hd => exact hs.setSub hsub rfl

/-! ## A closed channel ahead -/

omit [DecidableEq κ] in
theorem setSub_self {h : ι} {sub : Subscription κ P} (hsub : s.handlers h = some sub) :
    s.setSub h sub = s := by
  rw [Sys.setSub, ← hsub, Function.update_eq_self]

/-- A round of the loop never blocks: it panics on a closed channel, and otherwise
goes on, whether the message was dropped or not. -/
theorem send_round (hr : Registry s) {p : κ} {topic : String} {payload : P} {tried todo : List ι}
    {g : ι} (hp : s.calls p = .sending topic payload tried (g :: todo)) :
    ∃ sub, s.handlers g = some sub ∧
      ((sub.ch.closed = true ∧ s.step (.send p) =
          some (s.setCall p (.panicked topic payload "send on closed channel"))) ∨
        (sub.ch.closed = false ∧ ∃ sub', sub'.ch.closed = false ∧
          sub'.unsubscribe = sub.unsubscribe ∧ sub'.bufSize = sub.bufSize ∧
          s.step (.send p) = some ((s.setSub g sub').setCall p
            (.sending topic payload (tried ++ [g]) todo)))) := by
  obtain ⟨sub, hsub, -⟩ := hr.known p g (by simp [hp, Publish.handlers])
  refine ⟨sub, hsub, ?_⟩
  simp only [Sys.step, Sys.send, hp, hsub, Option.map_some]
  rcases sub.offer_cases g ⟨p, sub.topic, payload⟩ with ⟨hclosed, ho, -⟩ | ⟨hopen, -, ho, -⟩ |
    ⟨hopen, -, -, ho, -⟩ | ⟨hopen, -, -, ho, -⟩
  · exact .inl ⟨hclosed, by rw [ho]⟩
  · exact .inr ⟨hopen, { sub with dispatcher := .received ⟨p, sub.topic, payload⟩ }, hopen, rfl,
      rfl, by rw [ho]⟩
  · exact .inr ⟨hopen, { sub with ch := { sub.ch with
      buf := sub.ch.buf ++ [⟨p, sub.topic, payload⟩] } }, hopen, rfl, rfl, by rw [ho]⟩
  · exact .inr ⟨hopen, sub, hopen, rfl, rfl, by rw [ho, setSub_self hsub]⟩

/-- A call with a closed channel ahead ends with a panic, there or earlier. -/
theorem sends_panic (hr : Registry s) {p : κ} {topic : String} {payload : P} {tried todo : List ι}
    (hp : s.calls p = .sending topic payload tried todo) {h : ι} (hh : h ∈ todo)
    {sub : Subscription κ P} (hsub : s.handlers h = some sub) (hclosed : sub.ch.closed = true) :
    ∃ k s', run Sys.step s (List.replicate k (.send p)) = some s' ∧
      (s'.calls p).isPanicked = true := by
  induction todo generalizing s tried sub with
  | nil => simp at hh
  | cons g todo ih =>
      obtain ⟨sub₁, hsub₁, ⟨-, hstep⟩ | ⟨hopen, sub', hopen', -, -, hstep⟩⟩ := send_round hr hp
      · refine ⟨1, _, run_cons_eq_some.mpr ⟨_, hstep, rfl⟩, ?_⟩
        simp [Sys.setCall, Publish.isPanicked]
      · have hne : h ≠ g := by
          rintro rfl
          obtain rfl := Option.some.inj (hsub.symm.trans hsub₁)
          simp [hclosed] at hopen
        have hsub' : (s.setSub g sub').handlers h = some sub := by simp [Sys.setSub, hne, hsub]
        obtain ⟨k, s', hrun, hpanic⟩ := ih (hr.step hstep) (Function.update_self ..)
          ((List.mem_cons.mp hh).resolve_left hne) hsub' hclosed
        exact ⟨k + 1, s', run_cons_eq_some.mpr ⟨_, hstep, hrun⟩, hpanic⟩

/-- A call with nothing but open channels ahead can go on to its end, which ends
no subscription. -/
theorem sends_return (hr : Registry s) {p : κ} {topic : String} {payload : P} {tried todo : List ι}
    (hp : s.calls p = .sending topic payload tried todo)
    (hopen : ∀ h ∈ todo, ∀ sub ∈ s.handlers h, sub.ch.closed = false) :
    ∃ k s', run Sys.step s (List.replicate k (.send p)) = some s' ∧
      s'.calls p = .returned topic payload (tried ++ todo) ∧
      ∀ h, ∀ sub ∈ s.handlers h, ∃ sub' ∈ s'.handlers h,
        sub'.unsubscribe = sub.unsubscribe ∧ sub'.bufSize = sub.bufSize := by
  induction todo generalizing s tried with
  | nil =>
      have hstep : s.step (.send p) = some (s.setCall p (.returned topic payload tried)) := by
        simp [Sys.step, Sys.send, hp]
      refine ⟨1, _, run_cons_eq_some.mpr ⟨_, hstep, rfl⟩, ?_, fun h sub hsub => ?_⟩
      · simp [Sys.setCall]
      · exact ⟨sub, hsub, rfl, rfl⟩
  | cons g todo ih =>
      obtain ⟨sub₁, hsub₁, ⟨hclosed, -⟩ | ⟨-, sub', hopen', hun, hsize, hstep⟩⟩ := send_round hr hp
      · simp [hopen g List.mem_cons_self sub₁ hsub₁] at hclosed
      · have hrest : ∀ h ∈ todo, ∀ sub ∈ (s.setSub g sub').handlers h, sub.ch.closed = false := by
          intro h hh sub hsub
          rcases handlers_setSub.mp hsub with ⟨-, rfl⟩ | ⟨-, hsub⟩
          · exact hopen'
          · exact hopen h (List.mem_cons_of_mem g hh) sub hsub
        obtain ⟨k, s', hrun, hret, hkept⟩ := ih (hr.step hstep) (Function.update_self ..) hrest
        refine ⟨k + 1, s', run_cons_eq_some.mpr ⟨_, hstep, hrun⟩, by simpa using hret,
          fun h sub hsub => ?_⟩
        by_cases hg : h = g
        · subst hg
          obtain rfl := Option.some.inj (hsub₁.symm.trans hsub)
          obtain ⟨sub'', hsub'', hun'', hsize''⟩ := hkept h sub' (by simp [Sys.setCall, Sys.setSub])
          exact ⟨sub'', hsub'', hun''.trans hun, hsize''.trans hsize⟩
        · exact hkept h sub (by simpa [Sys.setCall, Sys.setSub, hg] using hsub)

/-- With a call on its way to the channel, the end of the subscription leads to a
panic. -/
theorem publish_panics_after_close (hr : Registry s) {h : ι} (hs : s.step (.close h) = some s')
    (hx : ¬ ClosesApart s (.close h)) :
    ∃ p k t, run Sys.step s (.close h :: List.replicate k (.send p)) = some t ∧
      (t.calls p).isPanicked = true := by
  simp only [ClosesApart, not_forall, not_not] at hx
  obtain ⟨p, hp⟩ := hx
  obtain ⟨sub', hsub', hclosed⟩ : ∃ sub, s'.handlers h = some sub ∧ sub.ch.closed = true := by
    obtain ⟨es, -, heffect⟩ := effect_of_step hs
    cases heffect with
    | closed hsub hun hopen => exact ⟨_, Function.update_self .., rfl⟩
    | closePanics hsub hun hclosed => exact ⟨_, Function.update_self .., hclosed⟩
  have hcalls : s'.calls = s.calls := by
    obtain ⟨es, -, heffect⟩ := effect_of_step hs
    cases heffect <;> rfl
  cases hcall : s.calls p with
  | sending topic payload tried todo =>
      have hh : h ∈ todo := by simpa [hcall, Publish.todo] using hp
      obtain ⟨k, t, hrun, hpanic⟩ := sends_panic (hr.step hs) (hcalls ▸ hcall) hh hsub' hclosed
      exact ⟨p, k, t, run_cons_eq_some.mpr ⟨s', hs, hrun⟩, hpanic⟩
  | _ => simp [hcall, Publish.todo] at hp

/-- Runs in which a channel is closed only with no call on its way to it have no
panics; any other close can be followed by one.  The end of a subscription never
panics itself. -/
theorem bus_never_panics {xs : List (Action ι κ P)} (hrun : run Sys.step newBus xs = some s) :
    (Along Sys.step ClosesApart newBus xs → ∀ p, (s.calls p).isPanicked = false) ∧
      (∀ h sub, s.handlers h = some sub → sub.unsubscribe.isPanicked = false) ∧
      ∀ h s', s.step (.close h) = some s' → ¬ ClosesApart s (.close h) →
        ∃ p k t, run Sys.step s (.close h :: List.replicate k (.send p)) = some t ∧
          (t.calls p).isPanicked = true := by
  have hr : Registry s := run_forall (fun _ _ _ hs h => hs.step h) registry_newBus hrun
  refine ⟨fun halong => ?_, fun h sub hsub => ?_,
    fun h s' hs hx => publish_panics_after_close hr hs hx⟩
  · have hq : Registry s ∧ Quiet s := by
      refine run_invariant (P := fun t => Registry t ∧ Quiet t) (C := ClosesApart) ?_
        ⟨registry_newBus, quiet_newBus⟩ halong hrun
      intro t x u ht hx hu
      exact ⟨ht.1.step hu, ht.2.step ht.1 hx hu⟩
    exact hq.2.calls
  · have := (hr.sound h sub hsub).unsubscribe
    cases hun : sub.unsubscribe with
    | panicked text => exact absurd hun (this text)
    | _ => rfl

/-- A subscription ends between the copy of the handlers and the send. -/
def publishDuringUnsubscribe : List (Action Unit Unit ℕ) :=
  [.subscribe () "nums" 1, .publish () "nums" 7, .remove (), .cancel (), .close (), .send ()]

theorem publish_during_unsubscribe_panics :
    (run Sys.step newBus publishDuringUnsubscribe).map (fun s => s.calls ()) =
      some (.panicked "nums" 7 "send on closed channel") := by
  decide

/-- The subscription ends after the call has sent. -/
def publishBeforeUnsubscribe : List (Action Unit Unit ℕ) :=
  [.subscribe () "nums" 1, .publish () "nums" 7, .send (), .send (), .remove (), .cancel (),
    .close ()]

theorem publish_before_unsubscribe_returns : ∃ s : Sys Unit Unit ℕ,
    run Sys.step newBus publishBeforeUnsubscribe = some s ∧
      s.calls () = .returned "nums" 7 [()] ∧ (s.calls ()).isPanicked = false := by
  have hrun : (run Sys.step newBus publishBeforeUnsubscribe).map (fun s => s.calls ()) =
      some (.returned "nums" 7 [()]) := by
    decide
  obtain ⟨s, hs, hcall⟩ := Option.map_eq_some_iff.mp hrun
  exact ⟨s, hs, hcall, (bus_never_panics hs).1 (by decide) ()⟩

end Gkit.PubSub
