import Gkit.PubSub.Model

/-!
# What a step of the bus can do

One constructor for each outcome of each operation, with the condition under
which it comes about and with what the step adds to the log of the run.  The log
is kept beside the run; no step reads it.
-/

namespace Gkit.PubSub

open Gkit.Lib

variable {ι κ P : Type}

inductive Event (ι κ P : Type) where
  | subscribed (h : ι) (topic : String)
  | removed (h : ι)
  /-- A `Publish` tries to deliver a message, which is dropped if not taken. -/
  | offered (h : ι) (m : Message κ P) (taken : Bool)
  | received (h : ι) (m : Message κ P)
  /-- A call of the handler begins. -/
  | called (h : ι) (m : Message κ P)
  deriving DecidableEq

def Subscription.offers (sub : Subscription κ P) (h : ι) (m : Message κ P) : List (Event ι κ P) :=
  match sub.ch.closed, sub.dispatcher with
  | true, _ => []
  | false, .parked => [.offered h m true, .received h m]
  | false, _ => [.offered h m (sub.ch.buf.length < sub.ch.cap)]

def events (s : Sys ι κ P) : Action ι κ P → List (Event ι κ P)
  | .subscribe h topic _ => [.subscribed h topic]
  | .remove h => [.removed h]
  | .send p =>
      match s.calls p with
      | .sending _ payload _ (h :: _) =>
          (s.handlers h).elim [] fun sub => sub.offers h ⟨p, sub.topic, payload⟩
      | _ => []
  | .take h =>
      (s.handlers h).elim [] fun sub =>
        match sub.ch.buf with
        | m :: _ => [.received h m]
        | [] => []
  | .call h =>
      (s.handlers h).elim [] fun sub =>
        match sub.dispatcher with
        | .received m => [.called h m]
        | _ => []
  | _ => []

theorem Subscription.offer_cases (sub : Subscription κ P) (h : ι) (m : Message κ P) :
    (sub.ch.closed = true ∧ sub.offer m = .panics "send on closed channel" ∧
        sub.offers h m = []) ∨
      (sub.ch.closed = false ∧ sub.dispatcher = .parked ∧
        sub.offer m = .ready { sub with dispatcher := .received m } ∧
        sub.offers h m = [.offered h m true, .received h m]) ∨
      (sub.ch.closed = false ∧ sub.dispatcher ≠ .parked ∧ sub.ch.buf.length < sub.ch.cap ∧
        sub.offer m = .ready { sub with ch := { sub.ch with buf := sub.ch.buf ++ [m] } } ∧
        sub.offers h m = [.offered h m true]) ∨
      (sub.ch.closed = false ∧ sub.dispatcher ≠ .parked ∧ sub.ch.cap ≤ sub.ch.buf.length ∧
        sub.offer m = .blocked ∧ sub.offers h m = [.offered h m false]) := by
  rcases sub.ch.send_cases m with ⟨hclosed, hs⟩ | ⟨hopen, hroom, hs⟩ | ⟨hopen, hfull, hs⟩
  · exact .inl ⟨hclosed, by simp [offer, hclosed, hs], by simp [offers, hclosed]⟩
  · cases hd : sub.dispatcher with
    | parked =>
        exact .inr (.inl ⟨hopen, rfl, by simp [offer, hopen, hd], by simp [offers, hopen, hd]⟩)
    | _ =>
        refine .inr (.inr (.inl ⟨hopen, by simp, hroom, by simp [offer, hopen, hd, hs], ?_⟩))
        simp [offers, hopen, hd, hroom]
  · cases hd : sub.dispatcher with
    | parked =>
        exact .inr (.inl ⟨hopen, rfl, by simp [offer, hopen, hd], by simp [offers, hopen, hd]⟩)
    | _ =>
        refine .inr (.inr (.inr ⟨hopen, by simp, hfull, by simp [offer, hopen, hd, hs], ?_⟩))
        simp [offers, hopen, hd, hfull]

variable [DecidableEq ι] [DecidableEq κ]

inductive Effect (s : Sys ι κ P) : Action ι κ P → List (Event ι κ P) → Sys ι κ P → Prop where
  | subscribed {h : ι} {topic : String} {bufSize : ℤ} (hnew : s.handlers h = none) :
      Effect s (.subscribe h topic bufSize) [.subscribed h topic]
        { s.setSub h (.new topic bufSize) with
          subs := Function.update s.subs topic (s.subs topic ++ [h]) }
  | published {p : κ} {topic : String} {payload : P} (hp : s.calls p = .idle) :
      Effect s (.publish p topic payload) []
        (s.setCall p (.sending topic payload [] (s.subs topic)))
  | returned {p : κ} {topic : String} {payload : P} {tried : List ι}
      (hp : s.calls p = .sending topic payload tried []) :
      Effect s (.send p) [] (s.setCall p (.returned topic payload tried))
  | panicked {p : κ} {topic : String} {payload : P} {tried todo : List ι} {h : ι}
      {sub : Subscription κ P} (hp : s.calls p = .sending topic payload tried (h :: todo))
      (hsub : s.handlers h = some sub) (hclosed : sub.ch.closed = true) :
      Effect s (.send p) [] (s.setCall p (.panicked topic payload "send on closed channel"))
  | handed {p : κ} {topic : String} {payload : P} {tried todo : List ι} {h : ι}
      {sub : Subscription κ P} (hp : s.calls p = .sending topic payload tried (h :: todo))
      (hsub : s.handlers h = some sub) (hopen : sub.ch.closed = false)
      (hparked : sub.dispatcher = .parked) :
      Effect s (.send p)
        [.offered h ⟨p, sub.topic, payload⟩ true, .received h ⟨p, sub.topic, payload⟩]
        ((s.setSub h { sub with dispatcher := .received ⟨p, sub.topic, payload⟩ }).setCall p
          (.sending topic payload (tried ++ [h]) todo))
  | queued {p : κ} {topic : String} {payload : P} {tried todo : List ι} {h : ι}
      {sub : Subscription κ P} (hp : s.calls p = .sending topic payload tried (h :: todo))
      (hsub : s.handlers h = some sub) (hopen : sub.ch.closed = false)
      (hbusy : sub.dispatcher ≠ .parked) (hroom : sub.ch.buf.length < sub.ch.cap) :
      Effect s (.send p) [.offered h ⟨p, sub.topic, payload⟩ true]
        ((s.setSub h { sub with
          ch := { sub.ch with buf := sub.ch.buf ++ [⟨p, sub.topic, payload⟩] } }).setCall p
          (.sending topic payload (tried ++ [h]) todo))
  | dropped {p : κ} {topic : String} {payload : P} {tried todo : List ι} {h : ι}
      {sub : Subscription κ P} (hp : s.calls p = .sending topic payload tried (h :: todo))
      (hsub : s.handlers h = some sub) (hopen : sub.ch.closed = false)
      (hbusy : sub.dispatcher ≠ .parked) (hfull : sub.ch.cap ≤ sub.ch.buf.length) :
      Effect s (.send p) [.offered h ⟨p, sub.topic, payload⟩ false]
        (s.setCall p (.sending topic payload (tried ++ [h]) todo))
  | removed {h : ι} {sub : Subscription κ P} (hsub : s.handlers h = some sub)
      (hun : sub.unsubscribe = .notCalled) :
      Effect s (.remove h) [.removed h]
        { s.setSub h { sub with unsubscribe := .removed } with
          subs := Function.update s.subs sub.topic ((s.subs sub.topic).erase h) }
  | cancelled {h : ι} {sub : Subscription κ P} (hsub : s.handlers h = some sub)
      (hun : sub.unsubscribe = .removed) :
      Effect s (.cancel h) [] (s.setSub h { sub with
        done := true, dispatcher := sub.dispatcher.wake, unsubscribe := .cancelled })
  | closed {h : ι} {sub : Subscription κ P} (hsub : s.handlers h = some sub)
      (hun : sub.unsubscribe = .cancelled) (hopen : sub.ch.closed = false) :
      Effect s (.close h) [] (s.setSub h { sub with
        ch := { sub.ch with closed := true }, dispatcher := sub.dispatcher.wake,
        unsubscribe := .returned })
  | closePanics {h : ι} {sub : Subscription κ P} (hsub : s.handlers h = some sub)
      (hun : sub.unsubscribe = .cancelled) (hclosed : sub.ch.closed = true) :
      Effect s (.close h) [] (s.setSub h { sub with
        unsubscribe := .panicked "close of closed channel" })
  | parked {h : ι} {sub : Subscription κ P} (hsub : s.handlers h = some sub)
      (hd : sub.dispatcher = .selecting) (hdone : sub.done = false) (hbuf : sub.ch.buf = [])
      (hopen : sub.ch.closed = false) :
      Effect s (.park h) [] (s.setSub h { sub with dispatcher := .parked })
  | took {h : ι} {sub : Subscription κ P} {m : Message κ P} {buf : List (Message κ P)}
      (hsub : s.handlers h = some sub) (hd : sub.dispatcher = .selecting)
      (hbuf : sub.ch.buf = m :: buf) :
      Effect s (.take h) [.received h m] (s.setSub h { sub with
        ch := { sub.ch with buf := buf }, dispatcher := .received m })
  | drained {h : ι} {sub : Subscription κ P} (hsub : s.handlers h = some sub)
      (hd : sub.dispatcher = .selecting) (hbuf : sub.ch.buf = []) (hclosed : sub.ch.closed = true) :
      Effect s (.take h) [] (s.setSub h { sub with dispatcher := .exited })
  | quit {h : ι} {sub : Subscription κ P} (hsub : s.handlers h = some sub)
      (hd : sub.dispatcher = .selecting) (hdone : sub.done = true) :
      Effect s (.quit h) [] (s.setSub h { sub with dispatcher := .exited })
  | called {h : ι} {sub : Subscription κ P} {m : Message κ P} (hsub : s.handlers h = some sub)
      (hd : sub.dispatcher = .received m) :
      Effect s (.call h) [.called h m] (s.setSub h { sub with dispatcher := .running m })
  | finished {h : ι} {sub : Subscription κ P} {m : Message κ P} (hsub : s.handlers h = some sub)
      (hd : sub.dispatcher = .running m) :
      Effect s (.finish h) [] (s.setSub h { sub with dispatcher := .selecting })

variable {s s' : Sys ι κ P}

theorem effect_subscribe {h : ι} {topic : String} {bufSize : ℤ}
    (hs : s.subscribe h topic bufSize = some s') :
    Effect s (.subscribe h topic bufSize) (events s (.subscribe h topic bufSize)) s' := by
  unfold Sys.subscribe at hs
  cases hh : s.handlers h with
  | some sub => simp [hh] at hs
  | none =>
      simp only [hh, Option.some.injEq] at hs
      subst hs
      exact .subscribed hh

theorem effect_publish {p : κ} {topic : String} {payload : P}
    (hs : s.publish p topic payload = some s') :
    Effect s (.publish p topic payload) (events s (.publish p topic payload)) s' := by
  unfold Sys.publish at hs
  cases hp : s.calls p with
  | idle =>
      simp only [hp, Option.some.injEq] at hs
      subst hs
      exact .published hp
  | _ => simp [hp] at hs

theorem effect_send {p : κ} (hs : s.send p = some s') :
    Effect s (.send p) (events s (.send p)) s' := by
  unfold Sys.send at hs
  cases hp : s.calls p with
  | sending topic payload tried todo =>
      cases todo with
      | nil =>
          simp only [hp, Option.some.injEq] at hs
          subst hs
          simp only [events, hp]
          exact .returned hp
      | cons h todo =>
          simp only [hp, Option.map_eq_some_iff] at hs
          obtain ⟨sub, hsub, rfl⟩ := hs
          simp only [events, hp, hsub, Option.elim_some]
          rcases sub.offer_cases h ⟨p, sub.topic, payload⟩ with ⟨hclosed, ho, hes⟩ |
            ⟨hopen, hparked, ho, hes⟩ | ⟨hopen, hbusy, hroom, ho, hes⟩ |
            ⟨hopen, hbusy, hfull, ho, hes⟩
          · simp only [ho, hes]
            exact .panicked hp hsub hclosed
          · simp only [ho, hes]
            exact .handed hp hsub hopen hparked
          · simp only [ho, hes]
            exact .queued hp hsub hopen hbusy hroom
          · simp only [ho, hes]
            exact .dropped hp hsub hopen hbusy hfull
  | _ => simp [hp] at hs

theorem effect_remove {h : ι} (hs : s.remove h = some s') :
    Effect s (.remove h) (events s (.remove h)) s' := by
  simp only [Sys.remove, Option.bind_eq_some_iff, Option.map_eq_some_iff] at hs
  obtain ⟨sub, hsub, sub', hop, rfl⟩ := hs
  cases hun : sub.unsubscribe with
  | notCalled =>
      simp only [Subscription.remove, hun, Option.some.injEq] at hop
      subst hop
      exact .removed hsub hun
  | _ => simp [Subscription.remove, hun] at hop

omit [DecidableEq κ] in
theorem Sys.update_eq_some {h : ι} {op : Subscription κ P → Option (Subscription κ P)} :
    s.update h op = some s' ↔
      ∃ sub sub', s.handlers h = some sub ∧ op sub = some sub' ∧ s' = s.setSub h sub' := by
  simp only [Sys.update, Option.bind_eq_some_iff, Option.map_eq_some_iff]
  constructor
  · rintro ⟨sub, hsub, sub', hop, rfl⟩
    exact ⟨sub, sub', hsub, hop, rfl⟩
  · rintro ⟨sub, sub', hsub, hop, rfl⟩
    exact ⟨sub, hsub, sub', hop, rfl⟩

theorem effect_cancel {h : ι} (hs : s.update h Subscription.cancel = some s') :
    Effect s (.cancel h) (events s (.cancel h)) s' := by
  obtain ⟨sub, sub', hsub, hop, rfl⟩ := Sys.update_eq_some.mp hs
  cases hun : sub.unsubscribe with
  | removed =>
      simp only [Subscription.cancel, hun, Option.some.injEq] at hop
      subst hop
      exact .cancelled hsub hun
  | _ => simp [Subscription.cancel, hun] at hop

theorem effect_close {h : ι} (hs : s.update h Subscription.close = some s') :
    Effect s (.close h) (events s (.close h)) s' := by
  obtain ⟨sub, sub', hsub, hop, rfl⟩ := Sys.update_eq_some.mp hs
  cases hun : sub.unsubscribe with
  | cancelled =>
      cases hclosed : sub.ch.closed with
      | true =>
          simp only [Subscription.close, hun, Chan.close, hclosed, if_true,
            Option.some.injEq] at hop
          subst hop
          exact .closePanics hsub hun hclosed
      | false =>
          simp only [Subscription.close, hun, Chan.close, hclosed, Bool.false_eq_true, if_false,
            Option.some.injEq] at hop
          subst hop
          exact .closed hsub hun hclosed
  | _ => simp [Subscription.close, hun] at hop

theorem effect_park {h : ι} (hs : s.update h Subscription.park = some s') :
    Effect s (.park h) (events s (.park h)) s' := by
  obtain ⟨sub, sub', hsub, hop, rfl⟩ := Sys.update_eq_some.mp hs
  unfold Subscription.park at hop
  split at hop
  · next hd hdone hrecv =>
      simp only [Option.some.injEq] at hop
      subst hop
      rcases sub.ch.recv_cases with ⟨m, buf, -, hr⟩ | ⟨-, -, hr⟩ | ⟨hbuf, hopen, -⟩
      · simp [hr] at hrecv
      · simp [hr] at hrecv
      · exact .parked hsub hd hdone hbuf hopen
  · nomatch hop

theorem effect_take {h : ι} (hs : s.update h Subscription.take = some s') :
    Effect s (.take h) (events s (.take h)) s' := by
  obtain ⟨sub, sub', hsub, hop, rfl⟩ := Sys.update_eq_some.mp hs
  unfold Subscription.take at hop
  cases hd : sub.dispatcher with
  | selecting =>
      rcases sub.ch.recv_cases with ⟨m, buf, hbuf, hr⟩ | ⟨hbuf, hclosed, hr⟩ | ⟨-, -, hr⟩
      · simp only [hd, hr, Option.some.injEq] at hop
        subst hop
        simp only [events, hsub, Option.elim_some, hbuf]
        exact .took hsub hd hbuf
      · simp only [hd, hr, Option.some.injEq] at hop
        subst hop
        simp only [events, hsub, Option.elim_some, hbuf]
        exact .drained hsub hd hbuf hclosed
      · simp [hd, hr] at hop
  | _ => simp [hd] at hop

theorem effect_quit {h : ι} (hs : s.update h Subscription.quit = some s') :
    Effect s (.quit h) (events s (.quit h)) s' := by
  obtain ⟨sub, sub', hsub, hop, rfl⟩ := Sys.update_eq_some.mp hs
  unfold Subscription.quit at hop
  split at hop
  · next hd hdone =>
      simp only [Option.some.injEq] at hop
      subst hop
      exact .quit hsub hd hdone
  · nomatch hop

theorem effect_call {h : ι} (hs : s.update h Subscription.call = some s') :
    Effect s (.call h) (events s (.call h)) s' := by
  obtain ⟨sub, sub', hsub, hop, rfl⟩ := Sys.update_eq_some.mp hs
  unfold Subscription.call at hop
  split at hop
  · next m hd =>
      simp only [Option.some.injEq] at hop
      subst hop
      simp only [events, hsub, Option.elim_some, hd]
      exact .called hsub hd
  · cases hop

theorem effect_finish {h : ι} (hs : s.update h Subscription.finish = some s') :
    Effect s (.finish h) (events s (.finish h)) s' := by
  obtain ⟨sub, sub', hsub, hop, rfl⟩ := Sys.update_eq_some.mp hs
  unfold Subscription.finish at hop
  split at hop
  · next m hd =>
      simp only [Option.some.injEq] at hop
      subst hop
      exact .finished hsub hd
  · nomatch hop

/-- What a step does, together with what it leaves in the log. -/
theorem effect_of_step {x : Action ι κ P} (h : s.step x = some s') :
    ∃ es, events s x = es ∧ Effect s x es s' := by
  refine ⟨_, rfl, ?_⟩
  cases x with
  | subscribe h topic bufSize => exact effect_subscribe ‹_›
  | publish p topic payload => exact effect_publish ‹_›
  | send p => exact effect_send ‹_›
  | remove h => exact effect_remove ‹_›
  | cancel h => exact effect_cancel ‹_›
  | close h => exact effect_close ‹_›
  | park h => exact effect_park ‹_›
  | take h => exact effect_take ‹_›
  | quit h => exact effect_quit ‹_›
  | call h => exact effect_call ‹_›
  | finish h => exact effect_finish ‹_›

end Gkit.PubSub
