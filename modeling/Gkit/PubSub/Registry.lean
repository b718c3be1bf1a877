import Gkit.PubSub.Effects

/-!
# The registered handlers

What holds in every run: the list of a topic has the subscriptions to it whose
end has not begun, each once; a channel is closed only at the end, and a
dispatcher blocks only on an empty channel that is open.
-/

namespace Gkit.PubSub

open Gkit.Lib

variable {ι κ P : Type}

namespace Subscription

structure Sound (sub : Subscription κ P) : Prop where
  cap : sub.ch.cap = (max sub.bufSize 0).toNat
  buf : sub.ch.buf.length ≤ sub.ch.cap
  closed : sub.ch.closed = true ↔ sub.unsubscribe = .returned
  unsubscribe : ∀ text, sub.unsubscribe ≠ .panicked text
  parked : sub.dispatcher = .parked → sub.ch.buf = []

theorem sound_new (topic : String) (bufSize : ℤ) :
    (Subscription.new topic bufSize : Subscription κ P).Sound :=
  ⟨rfl, Nat.zero_le _, by simp [Subscription.new], (fun _ h => nomatch h), (fun h => nomatch h)⟩

theorem Sound.open_of_ne {sub : Subscription κ P} (h : sub.Sound)
    (hun : sub.unsubscribe ≠ .returned) : sub.ch.closed = false := by
  cases hclosed : sub.ch.closed with
  | false => rfl
  | true => exact absurd (h.closed.mp hclosed) hun

end Subscription

theorem Dispatcher.wake_ne_parked (d : Dispatcher κ P) : d.wake ≠ .parked := by
  cases d <;> simp [wake]

/-- The handlers of a call, tried or not. -/
def Publish.handlers : Publish ι P → List ι
  | .sending _ _ tried todo => tried ++ todo
  | .returned _ _ handlers => handlers
  | _ => []

def Publish.todo : Publish ι P → List ι
  | .sending _ _ _ todo => todo
  | _ => []

def Publish.topic : Publish ι P → Option String
  | .sending topic _ _ _ | .returned topic _ _ | .panicked topic _ _ => some topic
  | .idle => none

structure Registry (s : Sys ι κ P) : Prop where
  nodup : ∀ topic, (s.subs topic).Nodup
  mem : ∀ topic h, h ∈ s.subs topic ↔
    ∃ sub, s.handlers h = some sub ∧ sub.topic = topic ∧ sub.unsubscribe = .notCalled
  sound : ∀ h sub, s.handlers h = some sub → sub.Sound
  /-- What a call has copied are subscriptions to its topic. -/
  known : ∀ p h, h ∈ (s.calls p).handlers →
    ∃ sub, s.handlers h = some sub ∧ (s.calls p).topic = some sub.topic

theorem registry_newBus : Registry (newBus : Sys ι κ P) where
  nodup _ := List.nodup_nil
  mem topic h := by simp [newBus]
  sound h sub hsub := by simp [newBus] at hsub
  known p h hp := by simp [newBus, Publish.handlers] at hp

variable {s s' : Sys ι κ P} {x : Action ι κ P}

/-- The next handler of a call is subscribed to its topic. -/
theorem Registry.topic_eq (hr : Registry s) {p : κ} {topic : String} {payload : P}
    {tried todo : List ι} {h : ι} {sub : Subscription κ P}
    (hp : s.calls p = .sending topic payload tried (h :: todo)) (hsub : s.handlers h = some sub) :
    sub.topic = topic := by
  obtain ⟨sub', hsub', ht⟩ := hr.known p h (by simp [hp, Publish.handlers])
  obtain rfl := Option.some.inj (hsub.symm.trans hsub')
  simpa [hp, Publish.topic] using ht.symm

section

variable [DecidableEq ι]

theorem handlers_setSub {h h' : ι} {sub sub' : Subscription κ P} :
    (s.setSub h sub).handlers h' = some sub' ↔
      (h' = h ∧ sub' = sub) ∨ (h' ≠ h ∧ s.handlers h' = some sub') := by
  by_cases hh : h' = h
  · subst hh
    simp [Sys.setSub, eq_comm]
  · simp [Sys.setSub, hh]

/-- A subscription changes, but not its topic and not whether it is live. -/
theorem Registry.setSub (hs : Registry s) {h : ι} {sub sub' : Subscription κ P}
    (hsub : s.handlers h = some sub) (htopic : sub'.topic = sub.topic)
    (hlive : sub'.unsubscribe = .notCalled ↔ sub.unsubscribe = .notCalled) (hsound : sub'.Sound) :
    Registry (s.setSub h sub') where
  nodup := hs.nodup
  mem topic g := by
    refine (hs.mem topic g).trans ?_
    by_cases hg : g = h
    · subst hg
      simp [handlers_setSub, hsub, htopic, hlive]
    · simp [handlers_setSub, hg]
  sound g sub₁ hg := by
    rcases handlers_setSub.mp hg with ⟨-, rfl⟩ | ⟨-, hg⟩
    · exact hsound
    · exact hs.sound g sub₁ hg
  known p g hp := by
    obtain ⟨sub₁, hg, ht⟩ := hs.known p g hp
    by_cases hgh : g = h
    · subst hgh
      obtain rfl := Option.some.inj (hsub.symm.trans hg)
      exact ⟨sub', by simp [Sys.setSub], by rw [htopic]; exact ht⟩
    · exact ⟨sub₁, by simpa [Sys.setSub, hgh] using hg, ht⟩

/-- Only the dispatcher of a subscription moves. -/
theorem Registry.dispatch (hs : Registry s) {h : ι} {sub : Subscription κ P}
    (hsub : s.handlers h = some sub) {d : Dispatcher κ P} (hd : d = .parked → sub.ch.buf = []) :
    Registry (s.setSub h { sub with dispatcher := d }) := by
  have hsound := hs.sound h sub hsub
  exact hs.setSub hsub rfl Iff.rfl
    ⟨hsound.cap, hsound.buf, hsound.closed, hsound.unsubscribe, hd⟩

theorem Registry.subscribe (hs : Registry s) {h : ι} (hnew : s.handlers h = none) (topic : String)
    (bufSize : ℤ) :
    Registry { s.setSub h (.new topic bufSize) with
      subs := Function.update s.subs topic (s.subs topic ++ [h]) } := by
  have hfree (t : String) : h ∉ s.subs t := by simp [hs.mem, hnew]
  refine ⟨fun t => ?_, fun t g => ?_, fun g sub hg => ?_, fun p g hp => ?_⟩
  · by_cases ht : t = topic
    · subst ht
      simpa using List.Nodup.concat (hfree t) (hs.nodup t)
    · simpa [ht] using hs.nodup t
  · by_cases hg : g = h
    · subst hg
      by_cases ht : t = topic
      · subst ht
        simp [Sys.setSub, Subscription.new]
      · simp [Sys.setSub, Subscription.new, ht, hfree, Ne.symm ht]
    · by_cases ht : t = topic
      · subst ht
        simp [Sys.setSub, hg, hs.mem]
      · simp [Sys.setSub, hg, ht, hs.mem]
  · rcases handlers_setSub.mp hg with ⟨-, rfl⟩ | ⟨-, hg⟩
    · exact Subscription.sound_new topic bufSize
    · exact hs.sound g sub hg
  · obtain ⟨sub, hg, ht⟩ := hs.known p g hp
    have hgh : g ≠ h := by
      rintro rfl
      simp [hnew] at hg
    exact ⟨sub, by simpa [Sys.setSub, hgh] using hg, ht⟩

theorem Registry.remove (hs : Registry s) {h : ι} {sub : Subscription κ P}
    (hsub : s.handlers h = some sub) (hun : sub.unsubscribe = .notCalled) :
    Registry { s.setSub h { sub with unsubscribe := .removed } with
      subs := Function.update s.subs sub.topic ((s.subs sub.topic).erase h) } := by
  have hsound := hs.sound h sub hsub
  have hopen := hsound.open_of_ne (by simp [hun])
  refine ⟨fun t => ?_, fun t g => ?_, fun g sub₁ hg => ?_, fun p g hp => ?_⟩
  · by_cases ht : t = sub.topic
    · subst ht
      simpa using (hs.nodup _).erase h
    · simpa [ht] using hs.nodup t
  · by_cases ht : t = sub.topic
    · subst ht
      simp only [Function.update_self, (hs.nodup _).mem_erase_iff, hs.mem, handlers_setSub]
      by_cases hg : g = h
      · simp [hg]
      · simp [hg]
    · simp only [Function.update_of_ne ht, hs.mem, handlers_setSub]
      by_cases hg : g = h
      · subst hg
        simp [hsub, Ne.symm ht]
      · simp [hg]
  · rcases handlers_setSub.mp hg with ⟨-, rfl⟩ | ⟨-, hg⟩
    · exact ⟨hsound.cap, hsound.buf, by simp [hopen], by simp, hsound.parked⟩
    · exact hs.sound g sub₁ hg
  · obtain ⟨sub₁, hg, ht⟩ := hs.known p g hp
    by_cases hgh : g = h
    · subst hgh
      obtain rfl := Option.some.inj (hsub.symm.trans hg)
      exact ⟨{ sub with unsubscribe := .removed }, by simp [Sys.setSub], ht⟩
    · exact ⟨sub₁, by simpa [Sys.setSub, hgh] using hg, ht⟩

end

section

variable [DecidableEq κ]

/-- A call moves on, with no handlers but those it had. -/
theorem Registry.setCall (hs : Registry s) {p : κ} {call : Publish ι P}
    (hcall : ∀ h ∈ call.handlers, ∃ sub, s.handlers h = some sub ∧ call.topic = some sub.topic) :
    Registry (s.setCall p call) where
  nodup := hs.nodup
  mem := hs.mem
  sound := hs.sound
  known q h hq := by
    by_cases hqp : q = p
    · subst hqp
      simp only [Sys.setCall, Function.update_self] at hq ⊢
      exact hcall h hq
    · simp only [Sys.setCall, Function.update_of_ne hqp] at hq ⊢
      exact hs.known q h hq

/-- A round of the loop keeps the handlers of the call. -/
theorem Registry.tried (hs : Registry s) {p : κ} {topic : String} {payload : P}
    {tried todo : List ι} {h : ι} (hp : s.calls p = .sending topic payload tried (h :: todo)) :
    Registry (s.setCall p (.sending topic payload (tried ++ [h]) todo)) := by
  apply hs.setCall
  intro g hg
  have := hs.known p g (by simpa [hp, Publish.handlers] using hg)
  simpa [hp, Publish.topic] using this

end

variable [DecidableEq ι] [DecidableEq κ]

theorem Registry.step (hs : Registry s) (h : s.step x = some s') : Registry s' := by
  obtain ⟨es, -, heffect⟩ := effect_of_step h
  cases heffect with
  | subscribed hnew => exact hs.subscribe hnew _ _
  | @published p topic payload hp =>
      apply hs.setCall
      intro g hg
      obtain ⟨sub, hsub, ht, -⟩ := (hs.mem topic g).mp (by simpa [Publish.handlers] using hg)
      exact ⟨sub, hsub, by simp [Publish.topic, ht]⟩
  | @returned p topic payload tried hp =>
      apply hs.setCall
      intro g hg
      have := hs.known p g (by simpa [hp, Publish.handlers] using hg)
      simpa [hp, Publish.topic] using this
  | panicked hp hsub hclosed => exact hs.setCall fun g hg => by simp [Publish.handlers] at hg
  | @handed p topic payload tried todo g sub hp hsub hopen hparked =>
      have hset := hs.dispatch hsub (d := .received ⟨p, sub.topic, payload⟩) (by simp)
      exact hset.tried hp
  | @queued p topic payload tried todo g sub hp hsub hopen hbusy hroom =>
      have hsound := hs.sound _ _ hsub
      have hset : Registry (s.setSub g { sub with ch := { sub.ch with
          buf := sub.ch.buf ++ [⟨p, sub.topic, payload⟩] } }) :=
        hs.setSub hsub rfl Iff.rfl ⟨hsound.cap, by simpa using hroom, hsound.closed,
          hsound.unsubscribe, fun h => absurd h hbusy⟩
      exact hset.tried hp
  | dropped hp hsub hopen hbusy hfull => exact hs.tried hp
  | removed hsub hun => exact hs.remove hsub hun
  | cancelled hsub hun =>
      have hsound := hs.sound _ _ hsub
      have hopen := hsound.open_of_ne (by simp [hun])
      exact hs.setSub hsub rfl (by simp [hun]) ⟨hsound.cap, hsound.buf,
        by simp [hopen], by simp, fun h => absurd h (Dispatcher.wake_ne_parked _)⟩
  | closed hsub hun hopen =>
      have hsound := hs.sound _ _ hsub
      exact hs.setSub hsub rfl (by simp [hun]) ⟨hsound.cap, hsound.buf, by simp, by simp,
        fun h => absurd h (Dispatcher.wake_ne_parked _)⟩
  | closePanics hsub hun hclosed =>
      have := (hs.sound _ _ hsub).closed.mp hclosed
      simp [hun] at this
  | parked hsub hd hdone hbuf hopen => exact hs.dispatch hsub fun _ => hbuf
  | took hsub hd hbuf =>
      have hsound := hs.sound _ _ hsub
      have hlen := hsound.buf
      rw [hbuf, List.length_cons] at hlen
      exact hs.setSub hsub rfl Iff.rfl ⟨hsound.cap, Nat.le_of_succ_le hlen, hsound.closed,
        hsound.unsubscribe, fun h => by simp at h⟩
  | drained hsub hd hbuf hclosed => exact hs.dispatch hsub (by simp)
  | quit hsub hd hdone => exact hs.dispatch hsub (by simp)
  | called hsub hd => exact hs.dispatch hsub (by simp)
  | finished hsub hd => exact hs.dispatch hsub (by simp)

end Gkit.PubSub
