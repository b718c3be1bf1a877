import Gkit.PubSub.Log

/-!
# Subscriptions without a buffer

`Publish` does not wait for a subscription without a buffer: its `select` has a
default case, and drops the message unless the dispatcher is blocked in its own
`select` at that moment.  A message that was dropped is never received.
-/

namespace Gkit.PubSub

open Gkit.Lib

variable {ι κ P : Type}

/-- A call sends to a live subscription without a buffer only while its dispatcher
waits. -/
def MeetsParked (s : Sys ι κ P) : Action ι κ P → Prop
  | .send p => ∀ h ∈ (s.calls p).todo.head?, ∀ sub ∈ s.handlers h, sub.bufSize = 0 →
      sub.unsubscribe = .notCalled → sub.dispatcher = .parked
  | _ => True

instance [DecidableEq κ] [DecidableEq P] (s : Sys ι κ P) : ∀ x, Decidable (MeetsParked s x)
  | .send p => inferInstanceAs (Decidable (∀ h ∈ (s.calls p).todo.head?, ∀ sub ∈ s.handlers h,
      sub.bufSize = 0 → sub.unsubscribe = .notCalled → sub.dispatcher = .parked))
  | .subscribe _ _ _ | .publish _ _ _ | .remove _ | .cancel _ | .close _ | .park _ | .take _
  | .quit _ | .call _ | .finish _ => inferInstanceAs (Decidable True)

/-- The message of a call that has returned was received by each handler without a
buffer that is still subscribed. -/
def Lossless [DecidableEq ι] (s : Sys ι κ P) (log : List (Event ι κ P)) : Prop :=
  ∀ p topic payload handlers, s.calls p = .returned topic payload handlers →
    ∀ h ∈ handlers, ∀ sub ∈ s.handlers h, sub.bufSize = 0 → sub.unsubscribe = .notCalled →
      ⟨p, topic, payload⟩ ∈ receivedBy h log

variable [DecidableEq ι] [DecidableEq κ] {s s' : Sys ι κ P} {x : Action ι κ P}
  {log es : List (Event ι κ P)}

/-- The same for every attempt, also of a call that has not returned yet. -/
def Delivered (s : Sys ι κ P) (log : List (Event ι κ P)) : Prop :=
  ∀ p, ∀ a ∈ (s.calls p).attempts p, ∀ sub ∈ s.handlers a.1, sub.bufSize = 0 →
    sub.unsubscribe = .notCalled → a.2 ∈ receivedBy a.1 log

omit [DecidableEq ι] [DecidableEq κ] in
theorem Publish.mem_handlers {call : Publish ι P} {p : κ} {a : ι × Message κ P}
    (h : a ∈ call.attempts p) : a.1 ∈ call.handlers := by
  cases call with
  | sending topic payload tried todo =>
      obtain ⟨g, hg, rfl⟩ := List.mem_map.mp h
      exact List.mem_append_left todo hg
  | returned topic payload handlers =>
      obtain ⟨g, hg, rfl⟩ := List.mem_map.mp h
      exact hg
  | _ => simp [Publish.attempts] at h

omit [DecidableEq κ] in
theorem Delivered.append (hs : Delivered s log) (es : List (Event ι κ P)) :
    Delivered s (log ++ es) := by
  intro p a ha sub hsub hsize hun
  rw [receivedBy_append]
  exact List.mem_append_left _ (hs p a ha sub hsub hsize hun)

omit [DecidableEq κ] in
theorem Delivered.setSub (hs : Delivered s log) {h : ι} {sub sub' : Subscription κ P}
    (hsub : s.handlers h = some sub) (hsize : sub'.bufSize = sub.bufSize)
    (hun : sub'.unsubscribe = .notCalled → sub.unsubscribe = .notCalled) :
    Delivered (s.setSub h sub') log := by
  intro p a ha sub₁ hsub₁ hsize₁ hun₁
  rcases handlers_setSub.mp hsub₁ with ⟨hah, rfl⟩ | ⟨-, hsub₁⟩
  · exact hs p a ha sub (hah ▸ hsub) (hsize ▸ hsize₁) (hun hun₁)
  · exact hs p a ha sub₁ hsub₁ hsize₁ hun₁

theorem Delivered.setCall (hs : Delivered s log) {p : κ} {call : Publish ι P}
    (hcall : ∀ a ∈ call.attempts p, a ∈ (s.calls p).attempts p ∨
      ∀ sub ∈ s.handlers a.1, sub.bufSize = 0 → sub.unsubscribe = .notCalled →
        a.2 ∈ receivedBy a.1 log) : Delivered (s.setCall p call) log := by
  intro q a ha
  by_cases hq : q = p
  · subst hq
    simp only [Sys.setCall, Function.update_self] at ha
    rcases hcall a ha with ha | ha
    · exact hs q a ha
    · exact ha
  · simp only [Sys.setCall, Function.update_of_ne hq] at ha
    exact hs q a ha

/-- One more attempt, at a handler that is buffered or ending or gets the message. -/
theorem Delivered.tried (hs : Delivered s log) {p : κ} {topic : String} {payload : P}
    {tried todo : List ι} {h : ι} {sub : Subscription κ P}
    (hp : s.calls p = .sending topic payload tried (h :: todo)) (hsub : s.handlers h = some sub)
    (hgot : sub.bufSize = 0 → sub.unsubscribe = .notCalled →
      ⟨p, topic, payload⟩ ∈ receivedBy h log) :
    Delivered (s.setCall p (.sending topic payload (tried ++ [h]) todo)) log := by
  refine hs.setCall fun a ha => ?_
  simp only [Publish.attempts, List.map_append, List.map_cons, List.map_nil, List.mem_append,
    List.mem_singleton] at ha
  rcases ha with ha | rfl
  · exact .inl (by simpa [hp, Publish.attempts] using ha)
  · refine .inr fun sub₁ hsub₁ => ?_
    obtain rfl := Option.some.inj (hsub.symm.trans hsub₁)
    exact hgot

theorem Delivered.step (hs : Delivered s log) (hr : Registry s) (hx : MeetsParked s x)
    (h : s.step x = some s') : Delivered s' (log ++ events s x) := by
  obtain ⟨es, hes, heffect⟩ := effect_of_step h
  rw [hes]
  have hs := hs.append es
  cases heffect with
  | @subscribed g topic bufSize hnew =>
      intro p a ha sub hsub
      rcases handlers_setSub.mp hsub with ⟨hag, -⟩ | ⟨-, hsub⟩
      · -- nobody has tried what was not subscribed
        obtain ⟨sub₁, hsub₁, -⟩ := hr.known p a.1 (Publish.mem_handlers ha)
        simp [hag, hnew] at hsub₁
      · exact hs p a ha sub hsub
  | published hp => exact hs.setCall fun a ha => by simp [Publish.attempts] at ha
  | @returned p topic payload tried hp =>
      exact hs.setCall fun a ha => .inl (by simpa [hp, Publish.attempts] using ha)
  | panicked hp hsub hclosed => exact hs.setCall fun a ha => by simp [Publish.attempts] at ha
  | @handed p topic payload tried todo g sub hp hsub hopen hparked =>
      obtain rfl := hr.topic_eq hp hsub
      have hset : Delivered (s.setSub g { sub with
          dispatcher := .received ⟨p, sub.topic, payload⟩ }) _ := hs.setSub hsub rfl id
      exact hset.tried hp (Function.update_self ..) fun _ _ => by simp [receivedBy]
  | @queued p topic payload tried todo g sub hp hsub hopen hbusy hroom =>
      have hset : Delivered (s.setSub g { sub with ch := { sub.ch with
          buf := sub.ch.buf ++ [⟨p, sub.topic, payload⟩] } }) _ := hs.setSub hsub rfl id
      refine hset.tried hp (Function.update_self ..) fun hsize _ => ?_
      -- there is no room without a buffer
      have hcap := (hr.sound g sub hsub).cap
      have hsize : sub.bufSize = 0 := hsize
      omega
  | @dropped p topic payload tried todo g sub hp hsub hopen hbusy hfull =>
      refine hs.tried hp hsub fun hsize hun => absurd ?_ hbusy
      exact hx g (by simp [hp, Publish.todo]) sub hsub hsize hun
  | @removed g sub hsub hun =>
      have hset : Delivered (s.setSub g { sub with unsubscribe := .removed }) _ :=
        hs.setSub hsub rfl (by simp)
      exact hset
  | cancelled hsub hun => exact hs.setSub hsub rfl (by simp)
  | closed hsub hun hopen => exact hs.setSub hsub rfl (by simp)
  | closePanics hsub hun hclosed => exact hs.setSub hsub rfl (by simp)
  | parked hsub hd hdone hbuf hopen => exact hs.setSub hsub rfl id
  | took hsub hd hbuf => exact hs.setSub hsub rfl id
  | drained hsub hd hbuf hclosed => exact hs.setSub hsub rfl id
  | quit hsub hd hdone => exact hs.setSub hsub rfl id
  | called hsub hd => exact hs.setSub hsub rfl id
  | finished hsub hd => exact hs.setSub hsub rfl id

/-! ## What was dropped is lost -/

omit [DecidableEq κ] in
theorem not_mem_takenBy_of_dropped {h : ι} {m : Message κ P} (hdrop : .offered h m false ∈ log)
    (honce : ((offersTo h log).map Message.call).Nodup) : m ∉ takenBy h log := by
  obtain ⟨l₁, l₂, rfl⟩ := List.append_of_mem hdrop
  have htaken : takenBy h (l₁ ++ .offered h m false :: l₂) = takenBy h l₁ ++ takenBy h l₂ := by
    simp [takenBy]
  have hoffers : offersTo h (l₁ ++ .offered h m false :: l₂) =
      offersTo h l₁ ++ m :: offersTo h l₂ := by
    simp [offersTo]
  have hnodup : (offersTo h l₁ ++ m :: offersTo h l₂).Nodup := hoffers ▸ honce.of_map _
  obtain ⟨-, hrest, hdisjoint⟩ := List.nodup_append'.mp hnodup
  rw [htaken, List.mem_append]
  rintro (hm | hm)
  · exact hdisjoint ((takenBy_sublist h l₁).subset hm) List.mem_cons_self
  · exact (List.nodup_cons.mp hrest).1 ((takenBy_sublist h l₂).subset hm)

/-- A message that was dropped is received in no continuation. -/
theorem Logged.not_received (hs : Logged s log) {h : ι} {m : Message κ P}
    (hdrop : .offered h m false ∈ log) : m ∉ receivedBy h log := by
  intro hm
  apply not_mem_takenBy_of_dropped hdrop (hs.tried.once h)
  rw [hs.queued.taken]
  exact List.mem_append_left _ hm

/-- Without a buffer a send drops the message unless the dispatcher waits. -/
theorem send_drops (hr : Registry s) {p : κ} {topic : String} {payload : P} {tried todo : List ι}
    {h : ι} {sub : Subscription κ P} (hp : s.calls p = .sending topic payload tried (h :: todo))
    (hsub : s.handlers h = some sub) (hopen : sub.ch.closed = false) (hsize : sub.bufSize = 0)
    (hbusy : sub.dispatcher ≠ .parked) :
    s.step (.send p) = some (s.setCall p (.sending topic payload (tried ++ [h]) todo)) ∧
      events s (.send p) = [.offered h ⟨p, topic, payload⟩ false] := by
  obtain rfl := hr.topic_eq hp hsub
  have hcap := (hr.sound h sub hsub).cap
  simp only [Sys.step, Sys.send, events, hp, hsub, Option.map_some, Option.elim_some]
  rcases sub.offer_cases h ⟨p, sub.topic, payload⟩ with ⟨hclosed, -⟩ | ⟨-, hparked, -⟩ |
    ⟨-, -, hroom, -⟩ | ⟨-, -, -, ho, hes⟩
  · simp [hopen] at hclosed
  · exact absurd hparked hbusy
  · omega
  · exact ⟨by rw [ho], hes⟩

/-- A send to a dispatcher that does not wait, by a call that can return. -/
theorem loses_of_not_parked {xs : List (Action ι κ P)} (hrun : run Sys.step newBus xs = some s)
    {p : κ} (hx : ¬ MeetsParked s (.send p))
    (hopen : ∀ h ∈ (s.calls p).todo, ∀ sub ∈ s.handlers h, sub.ch.closed = false) :
    ∃ k t, run Sys.step s (List.replicate k (.send p)) = some t ∧
      ¬ Lossless t (history (xs ++ List.replicate k (.send p))) := by
  have hr := (logged_of_run hrun).registry
  simp only [MeetsParked, not_forall] at hx
  obtain ⟨h, hh, sub, hsub, hsize, hun, hbusy⟩ := hx
  cases hp : s.calls p with
  | sending topic payload tried todo =>
      cases todo with
      | nil => simp [hp, Publish.todo] at hh
      | cons g todo =>
          obtain rfl : g = h := by simpa [hp, Publish.todo] using hh
          rw [hp] at hopen
          obtain ⟨hstep, hes⟩ :=
            send_drops hr hp hsub (hopen g List.mem_cons_self sub hsub) hsize hbusy
          obtain ⟨k, t, hsends, hreturned, hkept⟩ := sends_return (hr.step hstep)
            (Function.update_self ..) fun h hh => hopen h (List.mem_cons_of_mem g hh)
          obtain ⟨sub', hsub', hun', hsize'⟩ := hkept g sub hsub
          have hrest : run Sys.step s (List.replicate (k + 1) (.send p)) = some t :=
            run_cons_eq_some.mpr ⟨_, hstep, hsends⟩
          have hlogged := logged_of_run (run_append_eq_some.mpr ⟨s, hrun, hrest⟩)
          have hdrop : .offered g ⟨p, topic, payload⟩ false ∈
              history (xs ++ List.replicate (k + 1) (.send p)) := by
            rw [history, collect_append hrun, List.replicate_succ, collect, hes]
            simp
          refine ⟨k + 1, t, hrest, fun hlossless => hlogged.not_received hdrop ?_⟩
          exact hlossless p topic payload _ hreturned g (by simp) sub' hsub' (hsize'.trans hsize)
            (hun'.trans hun)
  | _ => simp [hp, Publish.todo] at hh

/-- While every send to a live subscription without a buffer meets a dispatcher
that waits, every message is received by the time the call returns; any other
send can lose one. -/
theorem unbuffered_lossless {xs : List (Action ι κ P)} (hrun : run Sys.step newBus xs = some s) :
    (Along Sys.step MeetsParked newBus xs → Lossless s (history xs)) ∧
      ∀ p, ¬ MeetsParked s (.send p) →
        (∀ h ∈ (s.calls p).todo, ∀ sub ∈ s.handlers h, sub.ch.closed = false) →
        ∃ k t, run Sys.step s (List.replicate k (.send p)) = some t ∧
          ¬ Lossless t (history (xs ++ List.replicate k (.send p))) := by
  refine ⟨fun halong => ?_, fun p => loses_of_not_parked hrun⟩
  have hdelivered : Registry s ∧ Delivered s (history xs) := by
    apply run_collect (P := fun t log => Registry t ∧ Delivered t log) (C := MeetsParked) ?_
      ⟨registry_newBus, fun p a ha => by simp [newBus, Publish.attempts] at ha⟩ halong hrun
    rintro t log x u ⟨hr, ht⟩ hx hu
    exact ⟨hr.step hu, ht.step hr hx hu⟩
  intro p topic payload handlers hp h hh sub hsub hsize hun
  exact hdelivered.2 p (h, ⟨p, topic, payload⟩) (by simpa [hp, Publish.attempts] using hh) sub hsub
    hsize hun

/-- The dispatcher has not come to its `select` yet. -/
def publishBeforeSelect : List (Action Unit Unit ℕ) :=
  [.subscribe () "nums" 0, .publish () "nums" 7, .send (), .send ()]

theorem publish_before_select_lost :
    (run Sys.step newBus publishBeforeSelect).map (fun s =>
      (s.calls (), (s.handlers ()).map fun sub => (sub.bufSize, sub.unsubscribe))) =
      some (.returned "nums" 7 [()], some (0, .notCalled)) ∧
    receivedBy () (history publishBeforeSelect) = [] := by
  decide

def publishWhileParked : List (Action Unit Unit ℕ) :=
  [.subscribe () "nums" 0, .park (), .publish () "nums" 7, .send (), .send ()]

theorem publish_while_parked_received : ∃ s : Sys Unit Unit ℕ,
    run Sys.step newBus publishWhileParked = some s ∧ s.calls () = .returned "nums" 7 [()] ∧
      ⟨(), "nums", 7⟩ ∈ receivedBy () (history publishWhileParked) := by
  have hrun : (run Sys.step newBus publishWhileParked).map (fun s =>
      (s.calls (), (s.handlers ()).map fun sub => (sub.bufSize, sub.unsubscribe))) =
      some (.returned "nums" 7 [()], some (0, .notCalled)) := by
    decide
  obtain ⟨s, hs, hpair⟩ := Option.map_eq_some_iff.mp hrun
  obtain ⟨hcall, hhandler⟩ := Prod.mk.inj hpair
  obtain ⟨sub, hsub, hpair⟩ := Option.map_eq_some_iff.mp hhandler
  obtain ⟨hsize, hun⟩ := Prod.mk.inj hpair
  have hlossless := (unbuffered_lossless hs).1 (by decide)
  exact ⟨s, hs, hcall, hlossless () "nums" 7 [()] hcall () List.mem_cons_self sub hsub hsize hun⟩

end Gkit.PubSub
