import Gkit.PubSub.Log

/-!
# Calls of a handler after the end of its subscription

The function that ends a subscription closes the channel and does not wait for
the dispatcher.  The dispatcher may still hold a message, and its `select` may
take the case of the channel, as long as messages wait there, although the
context is done.  Whether the handler is called once more is decided by what is
left at that moment.
-/

namespace Gkit.PubSub

open Gkit.Lib

variable {ι κ P : Type}

/-- The dispatcher is at its end, or has no message in its hands and none to take. -/
def Subscription.settled (sub : Subscription κ P) : Bool :=
  match sub.dispatcher with
  | .exited => true
  | .received _ => false
  | _ => sub.ch.buf.isEmpty

variable [DecidableEq ι] [DecidableEq κ] {s s' : Sys ι κ P} {x : Action ι κ P}

/-- The subscription has ended with nothing left to do. -/
structure Over (h : ι) (s : Sys ι κ P) : Prop where
  registry : Registry s
  sub : ∃ sub, s.handlers h = some sub ∧ sub.unsubscribe = .returned ∧ sub.settled = true

omit [DecidableEq κ] in
/-- A step of some subscription keeps what is over, if it does so for its own. -/
theorem Over.setSub {h g : ι} {sub sub' : Subscription κ P} (hs : Over h s) (hr : Registry s')
    (hsub : s.handlers g = some sub) (hh : s'.handlers = Function.update s.handlers g (some sub'))
    (hkeep : sub.unsubscribe = .returned → sub.settled = true →
      sub'.unsubscribe = .returned ∧ sub'.settled = true) : Over h s' := by
  obtain ⟨sub₁, hsub₁, hun, hsettled⟩ := hs.sub
  refine ⟨hr, ?_⟩
  rw [hh]
  by_cases hg : h = g
  · subst hg
    obtain rfl := Option.some.inj (hsub.symm.trans hsub₁)
    exact ⟨sub', Function.update_self .., hkeep hun hsettled⟩
  · exact ⟨sub₁, by rwa [Function.update_of_ne hg], hun, hsettled⟩

theorem Over.step {h : ι} (hs : Over h s) (hstep : s.step x = some s') :
    Over h s' ∧ callsOf h (events s x) = [] := by
  have hr := hs.registry.step hstep
  -- a send or a wait on a channel that is still open
  have hclash {g : ι} {sub : Subscription κ P} (hsub : s.handlers g = some sub)
      (hopen : sub.ch.closed = false) (hun : sub.unsubscribe = .returned) : False := by
    rw [(hs.registry.sound g sub hsub).closed.mpr hun] at hopen
    nomatch hopen
  obtain ⟨es, hes, heffect⟩ := effect_of_step hstep
  rw [hes]
  cases heffect with
  | @subscribed g topic bufSize hnew =>
      obtain ⟨sub, hsub, hun, hsettled⟩ := hs.sub
      have hg : h ≠ g := by
        rintro rfl
        simp [hnew] at hsub
      exact ⟨⟨hr, sub, by simpa [Sys.setSub, hg] using hsub, hun, hsettled⟩, rfl⟩
  | handed hp hsub hopen hparked =>
      exact ⟨hs.setSub hr hsub rfl fun hun _ => (hclash hsub hopen hun).elim, rfl⟩
  | queued hp hsub hopen hbusy hroom =>
      exact ⟨hs.setSub hr hsub rfl fun hun _ => (hclash hsub hopen hun).elim, rfl⟩
  | removed hsub hun => exact ⟨hs.setSub hr hsub rfl fun h => by simp [hun] at h, rfl⟩
  | cancelled hsub hun => exact ⟨hs.setSub hr hsub rfl fun h => by simp [hun] at h, rfl⟩
  | closed hsub hun hopen => exact ⟨hs.setSub hr hsub rfl fun h => by simp [hun] at h, rfl⟩
  | closePanics hsub hun hclosed =>
      exact ⟨hs.setSub hr hsub rfl fun h => by simp [hun] at h, rfl⟩
  | parked hsub hd hdone hbuf hopen =>
      exact ⟨hs.setSub hr hsub rfl fun hun _ => (hclash hsub hopen hun).elim, rfl⟩
  | took hsub hd hbuf =>
      exact ⟨hs.setSub hr hsub rfl fun _ h => by simp [Subscription.settled, hd, hbuf] at h, rfl⟩
  | drained hsub hd hbuf hclosed => exact ⟨hs.setSub hr hsub rfl fun hun _ => ⟨hun, rfl⟩, rfl⟩
  | quit hsub hd hdone => exact ⟨hs.setSub hr hsub rfl fun hun _ => ⟨hun, rfl⟩, rfl⟩
  | @called g sub m hsub hd =>
      refine ⟨hs.setSub hr hsub rfl fun _ h => by simp [Subscription.settled, hd] at h, ?_⟩
      have hg : g ≠ h := by
        rintro rfl
        obtain ⟨sub₁, hsub₁, -, hsettled⟩ := hs.sub
        obtain rfl := Option.some.inj (hsub.symm.trans hsub₁)
        simp [Subscription.settled, hd] at hsettled
      simp [callsOf, hg]
  | finished hsub hd =>
      refine ⟨hs.setSub hr hsub rfl fun hun h => ⟨hun, ?_⟩, rfl⟩
      simpa [Subscription.settled, hd] using h
  | _ => exact ⟨⟨hr, hs.sub⟩, rfl⟩

theorem Over.run {h : ι} (hs : Over h s) {zs : List (Action ι κ P)}
    (hrun : run Sys.step s zs = some s') : callsOf h (collect Sys.step events s zs) = [] := by
  have hover : Over h s' ∧ callsOf h (collect Sys.step events s zs) = [] := by
    apply run_collect (P := fun t log => Over h t ∧ callsOf h log = []) (C := fun _ _ => True) ?_
      ⟨hs, rfl⟩ (along_of_forall fun _ _ _ => trivial) hrun
    rintro t log x u ⟨ht, hlog⟩ - hu
    obtain ⟨hu', hcalls⟩ := ht.step hu
    exact ⟨hu', by rw [callsOf_append, hlog, hcalls]; rfl⟩
  exact hover.2

/-! ## What is left leads to a call -/

/-- Some continuation of the run has a call of the handler. -/
def CanCall (h : ι) (s : Sys ι κ P) : Prop :=
  ∃ zs s', run Sys.step s zs = some s' ∧ callsOf h (collect Sys.step events s zs) ≠ []

theorem CanCall.of_step {h : ι} (hstep : s.step x = some s') (hs : CanCall h s') : CanCall h s := by
  obtain ⟨zs, t, hrun, hcalls⟩ := hs
  refine ⟨x :: zs, t, run_cons_eq_some.mpr ⟨s', hstep, hrun⟩, fun hnil => hcalls ?_⟩
  simp only [collect, hstep, Option.elim_some, callsOf_append, List.append_eq_nil_iff] at hnil
  exact hnil.2

theorem canCall_of_received {h : ι} {sub : Subscription κ P} {m : Message κ P}
    (hsub : s.handlers h = some sub) (hd : sub.dispatcher = .received m) : CanCall h s := by
  have hstep : s.step (.call h) = some (s.setSub h { sub with dispatcher := .running m }) := by
    simp [Sys.step, Sys.update, hsub, Subscription.call, hd]
  refine ⟨[.call h], _, run_cons_eq_some.mpr ⟨_, hstep, rfl⟩, ?_⟩
  simp [collect, events, hsub, hd, callsOf]

theorem canCall_of_selecting {h : ι} {sub : Subscription κ P} {m : Message κ P}
    {buf : List (Message κ P)} (hsub : s.handlers h = some sub)
    (hd : sub.dispatcher = .selecting) (hbuf : sub.ch.buf = m :: buf) : CanCall h s := by
  have hstep : s.step (.take h) = some (s.setSub h { sub with
      ch := { sub.ch with buf := buf }, dispatcher := .received m }) := by
    simp [Sys.step, Sys.update, hsub, Subscription.take, hd, Chan.recv, hbuf]
  exact (canCall_of_received (Function.update_self ..) rfl).of_step hstep

theorem canCall_of_running {h : ι} {sub : Subscription κ P} {m m' : Message κ P}
    {buf : List (Message κ P)} (hsub : s.handlers h = some sub)
    (hd : sub.dispatcher = .running m') (hbuf : sub.ch.buf = m :: buf) : CanCall h s := by
  have hstep : s.step (.finish h) = some (s.setSub h { sub with dispatcher := .selecting }) := by
    simp [Sys.step, Sys.update, hsub, Subscription.finish, hd]
  have hsub' : (s.setSub h { sub with dispatcher := .selecting }).handlers h =
      some { sub with dispatcher := .selecting } := Function.update_self ..
  exact (canCall_of_selecting hsub' rfl hbuf).of_step hstep

theorem canCall_of_unsettled {h : ι} {sub : Subscription κ P} (hr : Registry s)
    (hsub : s.handlers h = some sub) (hsettled : sub.settled = false) : CanCall h s := by
  cases hbuf : sub.ch.buf with
  | nil =>
      cases hd : sub.dispatcher with
      | received m => exact canCall_of_received hsub hd
      | _ => simp [Subscription.settled, hd, hbuf] at hsettled
  | cons m buf =>
      cases hd : sub.dispatcher with
      | selecting => exact canCall_of_selecting hsub hd hbuf
      | parked => simp [(hr.sound h sub hsub).parked hd] at hbuf
      | received m => exact canCall_of_received hsub hd
      | running m' => exact canCall_of_running hsub hd hbuf
      | exited => simp [Subscription.settled, hd] at hsettled

/-- Once the function that ends a subscription has returned, no call of its handler
begins exactly if nothing was left then. -/
theorem silent_after_unsubscribe_iff {xs : List (Action ι κ P)}
    (hrun : run Sys.step newBus xs = some s) {h : ι} {sub : Subscription κ P}
    (hsub : s.handlers h = some sub) (hun : sub.unsubscribe = .returned) :
    (∀ zs s', run Sys.step s zs = some s' → callsOf h (collect Sys.step events s zs) = []) ↔
      sub.settled = true := by
  have hr : Registry s := run_forall (fun _ _ _ hs h => hs.step h) registry_newBus hrun
  constructor
  · intro hsilent
    by_contra hsettled
    obtain ⟨zs, s', hzs, hcalls⟩ := canCall_of_unsettled hr hsub (Bool.eq_false_iff.mpr hsettled)
    exact hcalls (hsilent zs s' hzs)
  · intro hsettled zs s' hzs
    exact Over.run ⟨hr, sub, hsub, hun, hsettled⟩ hzs

/-- A message waits in the channel when the subscription ends. -/
def unsubscribeWithQueue : List (Action Unit Unit ℕ) :=
  [.subscribe () "nums" 1, .publish () "nums" 7, .send (), .send (), .remove (), .cancel (),
    .close ()]

theorem call_after_unsubscribe :
    (run Sys.step newBus unsubscribeWithQueue).map (fun s =>
      ((s.handlers ()).map (fun sub => sub.unsubscribe),
        (run Sys.step s [.take (), .call ()]).isSome,
        callsOf () (collect Sys.step events s [.take (), .call ()]))) =
      some (some .returned, true, [⟨(), "nums", 7⟩]) := by
  decide

/-- The handler has got the message, and the dispatcher waits, when the
subscription ends. -/
def unsubscribeWhenIdle : List (Action Unit Unit ℕ) :=
  [.subscribe () "nums" 1, .publish () "nums" 7, .send (), .send (), .take (), .call (), .finish (),
    .park (), .remove (), .cancel (), .close ()]

theorem silent_after_idle_unsubscribe : ∃ s : Sys Unit Unit ℕ, ∃ sub,
    run Sys.step newBus unsubscribeWhenIdle = some s ∧ s.handlers () = some sub ∧
      sub.unsubscribe = .returned ∧ ∀ zs s', run Sys.step s zs = some s' →
        callsOf () (collect Sys.step events s zs) = [] := by
  have hrun : ((run Sys.step newBus unsubscribeWhenIdle).bind fun s => s.handlers ()).map
      (fun sub => (sub.unsubscribe, sub.settled)) = some (.returned, true) := by
    decide
  obtain ⟨sub, hs, hsub'⟩ := Option.map_eq_some_iff.mp hrun
  obtain ⟨s, hs, hsub⟩ := Option.bind_eq_some_iff.mp hs
  obtain ⟨hun, hsettled⟩ := Prod.mk.inj hsub'
  exact ⟨s, sub, hs, hsub, hun, (silent_after_unsubscribe_iff hs hsub hun).mpr hsettled⟩

end Gkit.PubSub
