import Gkit.PubSub.Panics

/-!
# What the log of a run says

The log has what happened in the order in which it happened, for all topics and
subscriptions.  Its projections are compared with the state: the live
subscriptions with the registered ones, the attempts of a call with its progress,
and what a subscription has taken with what its channel and its dispatcher hold.
-/

namespace Gkit.PubSub

open Gkit.Lib

variable {ι κ P : Type} {log log' es : List (Event ι κ P)}

/-! ## The live subscriptions -/

def subscribedTo (topic : String) (log : List (Event ι κ P)) : List ι :=
  log.flatMap fun
    | .subscribed h t => if t = topic then [h] else []
    | _ => []

def removals (log : List (Event ι κ P)) : List ι :=
  log.flatMap fun
    | .removed h => [h]
    | _ => []

@[simp] theorem subscribedTo_append (topic : String) :
    subscribedTo topic (log ++ log') = subscribedTo topic log ++ subscribedTo topic log' :=
  List.flatMap_append

@[simp] theorem removals_append : removals (log ++ log') = removals log ++ removals log' :=
  List.flatMap_append

section

variable [DecidableEq ι]

/-- The subscriptions to the topic that have not ended, in the order in which
they were made. -/
def live (topic : String) (log : List (Event ι κ P)) : List ι :=
  (subscribedTo topic log).filter (· ∉ removals log)

theorem live_append_of_nil {topic : String} (hsub : subscribedTo topic es = [])
    (hrem : removals es = []) : live topic (log ++ es) = live topic log := by
  simp [live, hsub, hrem]

theorem live_subscribed {topic : String} {h : ι} (hh : h ∉ removals log) (t : String) :
    live t (log ++ [.subscribed h topic]) =
      if topic = t then live t log ++ [h] else live t log := by
  have hrem : removals (log ++ [.subscribed h topic]) = removals log := by simp [removals]
  unfold live
  rw [hrem, subscribedTo_append, List.filter_append]
  by_cases ht : topic = t
  · simp [subscribedTo, ht, hh]
  · simp [subscribedTo, ht]

theorem live_removed {h : ι} (t : String) :
    live t (log ++ [.removed h]) = (live t log).filter (· != h) := by
  have hsub : subscribedTo t (log ++ [.removed h]) = subscribedTo t log := by simp [subscribedTo]
  have hrem : removals (log ++ [.removed h]) = removals log ++ [h] := by simp [removals]
  unfold live
  rw [hsub, hrem, List.filter_filter]
  apply List.filter_congr
  intro g _
  by_cases hg : g = h
  · simp [hg]
  · simp [hg]

end

variable {s s' : Sys ι κ P} {x : Action ι κ P}

theorem isSome_of_step [DecidableEq ι] [DecidableEq κ] {h : ι} (hh : (s.handlers h).isSome = true)
    (hstep : s.step x = some s') : (s'.handlers h).isSome = true := by
  have hset (g : ι) (sub : Subscription κ P) : ((s.setSub g sub).handlers h).isSome = true := by
    by_cases hg : h = g
    · simp [Sys.setSub, hg]
    · simpa [Sys.setSub, hg] using hh
  obtain ⟨es, -, heffect⟩ := effect_of_step hstep
  cases heffect with
  | published hp => exact hh
  | returned hp => exact hh
  | panicked hp hsub hclosed => exact hh
  | dropped hp hsub hopen hbusy hfull => exact hh
  | _ => exact hset _ _

/-- The registered handlers are the live subscriptions. -/
structure Listed [DecidableEq ι] (s : Sys ι κ P) (log : List (Event ι κ P)) : Prop where
  live : ∀ topic, s.subs topic = live topic log
  removed : ∀ h ∈ removals log, (s.handlers h).isSome = true

theorem Listed.step [DecidableEq ι] [DecidableEq κ] (hs : Listed s log) (hr : Registry s)
    (h : s.step x = some s') : Listed s' (log ++ events s x) := by
  have hsome (g : ι) (hg : g ∈ removals log) : (s'.handlers g).isSome = true :=
    isSome_of_step (hs.removed g hg) h
  obtain ⟨es, hes, heffect⟩ := effect_of_step h
  rw [hes]
  cases heffect with
  | @subscribed g topic bufSize hnew =>
      have hg : g ∉ removals log := by
        intro hmem
        have := hs.removed g hmem
        simp [hnew] at this
      refine ⟨fun t => ?_, fun g' hg' => hsome g' (by simpa [removals] using hg')⟩
      rw [live_subscribed hg]
      by_cases ht : topic = t
      · simp [ht, hs.live]
      · simp [ht, Ne.symm ht, hs.live]
  | @removed g sub hsub hun =>
      refine ⟨fun t => ?_, fun g' hg' => ?_⟩
      · rw [live_removed, ← hs.live]
        by_cases ht : t = sub.topic
        · subst ht
          simpa using (hr.nodup _).erase_eq_filter g
        · -- the subscription is not in the list of another topic
          have hg : g ∉ s.subs t := by simp [hr.mem, hsub, Ne.symm ht]
          have hall : ∀ h ∈ s.subs t, (h != g) = true := by
            intro h hh
            exact bne_iff_ne.mpr fun heq => hg (heq ▸ hh)
          rw [List.filter_eq_self.mpr hall]
          simp [ht]
      · rcases List.mem_append.mp (removals_append ▸ hg') with hmem | hmem
        · exact hsome g' hmem
        · simp [removals] at hmem
          simp [hmem, Sys.setSub]
  | _ =>
      refine ⟨fun t => ?_, fun g' hg' => hsome g' (by simpa [removals] using hg')⟩
      rw [live_append_of_nil rfl rfl]
      exact hs.live t

/-! ## The attempts of a call -/

/-- The attempts of a call to deliver, in their order. -/
def attemptsOf [DecidableEq κ] (p : κ) (log : List (Event ι κ P)) : List (ι × Message κ P) :=
  log.flatMap fun
    | .offered h m _ => if m.call = p then [(h, m)] else []
    | _ => []

def offersTo [DecidableEq ι] (h : ι) (log : List (Event ι κ P)) : List (Message κ P) :=
  log.flatMap fun
    | .offered g m _ => if g = h then [m] else []
    | _ => []

@[simp] theorem attemptsOf_append [DecidableEq κ] (p : κ) :
    attemptsOf p (log ++ log') = attemptsOf p log ++ attemptsOf p log' :=
  List.flatMap_append

@[simp] theorem offersTo_append [DecidableEq ι] (h : ι) :
    offersTo h (log ++ log') = offersTo h log ++ offersTo h log' :=
  List.flatMap_append

/-- The attempts and the offers are the same events, sorted by the call or by the
subscription. -/
theorem mem_attemptsOf_iff_mem_offersTo [DecidableEq ι] [DecidableEq κ] {h : ι} {m : Message κ P} :
    (h, m) ∈ attemptsOf m.call log ↔ m ∈ offersTo h log := by
  simp only [offersTo, attemptsOf, List.mem_flatMap]
  refine exists_congr fun e => and_congr_right fun _ => ?_
  cases e with
  | offered g m' taken =>
      by_cases hm : m = m'
      · subst hm
        simp [eq_comm]
      · simp [hm]
  | _ => simp

/-- The attempts a call has made so far. -/
def Publish.attempts (p : κ) : Publish ι P → List (ι × Message κ P)
  | .sending topic payload tried _ => tried.map fun h => (h, ⟨p, topic, payload⟩)
  | .returned topic payload handlers => handlers.map fun h => (h, ⟨p, topic, payload⟩)
  | _ => []

variable [DecidableEq ι] [DecidableEq κ]

structure Tried (s : Sys ι κ P) (log : List (Event ι κ P)) : Prop where
  attempts : ∀ p, (s.calls p).isPanicked = false → attemptsOf p log = (s.calls p).attempts p
  nodup : ∀ p, (s.calls p).handlers.Nodup
  once : ∀ h, ((offersTo h log).map Message.call).Nodup

/-- Nothing is offered, and one call moves on. -/
theorem Tried.skip (hs : Tried s log) {p : κ} {call : Publish ι P}
    (hcalls : s'.calls = Function.update s.calls p call)
    (hcall : call.isPanicked = false →
      (s.calls p).isPanicked = false ∧ call.attempts p = (s.calls p).attempts p)
    (hnodup : call.handlers.Nodup) (hatt : ∀ q, attemptsOf q es = [])
    (hoff : ∀ h, offersTo h es = []) : Tried s' (log ++ es) where
  attempts q hq := by
    rw [attemptsOf_append, hatt, List.append_nil]
    rw [hcalls] at hq ⊢
    by_cases hqp : q = p
    · subst hqp
      rw [Function.update_self] at hq ⊢
      rw [hs.attempts q (hcall hq).1, (hcall hq).2]
    · rw [Function.update_of_ne hqp] at hq ⊢
      exact hs.attempts q hq
  nodup q := by
    rw [hcalls]
    by_cases hqp : q = p
    · subst hqp
      rwa [Function.update_self]
    · rw [Function.update_of_ne hqp]
      exact hs.nodup q
  once h := by
    rw [offersTo_append, hoff, List.append_nil]
    exact hs.once h

theorem Tried.offer (hs : Tried s log) {p : κ} {topic : String} {payload : P}
    {tried todo : List ι} {h : ι} (hp : s.calls p = .sending topic payload tried (h :: todo))
    (hcalls : s'.calls =
      Function.update s.calls p (.sending topic payload (tried ++ [h]) todo))
    (hatt : ∀ q, attemptsOf q es = if p = q then [(h, ⟨p, topic, payload⟩)] else [])
    (hoff : ∀ g, offersTo g es = if h = g then [⟨p, topic, payload⟩] else []) :
    Tried s' (log ++ es) where
  attempts q hq := by
    rw [attemptsOf_append, hatt]
    rw [hcalls] at hq ⊢
    by_cases hqp : q = p
    · subst hqp
      simp [hs.attempts q (by simp [hp, Publish.isPanicked]), hp, Publish.attempts]
    · rw [Function.update_of_ne hqp] at hq ⊢
      simpa [Ne.symm hqp] using hs.attempts q hq
  nodup q := by
    rw [hcalls]
    by_cases hqp : q = p
    · subst hqp
      simpa [hp, Publish.handlers] using hs.nodup q
    · rw [Function.update_of_ne hqp]
      exact hs.nodup q
  once g := by
    rw [offersTo_append, hoff]
    by_cases hg : h = g
    · subst hg
      have hfree : p ∉ (offersTo h log).map Message.call := by
        intro hmem
        obtain ⟨m, hm, rfl⟩ := List.mem_map.mp hmem
        have hatt := mem_attemptsOf_iff_mem_offersTo.mpr hm
        rw [hs.attempts m.call (by simp [hp, Publish.isPanicked]), hp] at hatt
        have htried : h ∈ tried := by
          simp only [Publish.attempts, List.mem_map, Prod.mk.injEq] at hatt
          obtain ⟨g, hg, rfl, -⟩ := hatt
          exact hg
        have hnodup := hs.nodup m.call
        rw [hp] at hnodup
        exact List.disjoint_of_nodup_append hnodup htried List.mem_cons_self
      simpa using List.Nodup.concat hfree (hs.once h)
    · simpa [hg] using hs.once g

theorem Tried.keep (hs : Tried s log) (hcalls : s'.calls = s.calls)
    (hatt : ∀ q, attemptsOf q es = []) (hoff : ∀ h, offersTo h es = []) : Tried s' (log ++ es) where
  attempts q hq := by
    rw [attemptsOf_append, hatt, List.append_nil]
    rw [hcalls] at hq ⊢
    exact hs.attempts q hq
  nodup q := hcalls ▸ hs.nodup q
  once h := by
    rw [offersTo_append, hoff, List.append_nil]
    exact hs.once h

theorem Tried.step (hs : Tried s log) (hr : Registry s) (h : s.step x = some s') :
    Tried s' (log ++ events s x) := by
  obtain ⟨es, hes, heffect⟩ := effect_of_step h
  rw [hes]
  cases heffect with
  | @published p topic payload hp =>
      refine hs.skip rfl (fun _ => ?_) (hr.nodup topic) (fun _ => rfl) (fun _ => rfl)
      simp [hp, Publish.isPanicked, Publish.attempts]
  | @returned p topic payload tried hp =>
      refine hs.skip rfl (fun _ => ?_) ?_ (fun _ => rfl) (fun _ => rfl)
      · simp [hp, Publish.isPanicked, Publish.attempts]
      · simpa [hp, Publish.handlers] using hs.nodup p
  | panicked hp hsub hclosed =>
      exact hs.skip rfl (fun hcall => by simp [Publish.isPanicked] at hcall) List.nodup_nil
        (fun _ => rfl) (fun _ => rfl)
  | handed hp hsub hopen hparked =>
      obtain rfl := hr.topic_eq hp hsub
      exact hs.offer hp rfl (fun q => by simp [attemptsOf]) (fun g => by simp [offersTo])
  | queued hp hsub hopen hbusy hroom =>
      obtain rfl := hr.topic_eq hp hsub
      exact hs.offer hp rfl (fun q => by simp [attemptsOf]) (fun g => by simp [offersTo])
  | dropped hp hsub hopen hbusy hfull =>
      obtain rfl := hr.topic_eq hp hsub
      exact hs.offer hp rfl (fun q => by simp [attemptsOf]) (fun g => by simp [offersTo])
  | _ => exact hs.keep rfl (fun _ => rfl) (fun _ => rfl)

/-! ## The queue of a subscription -/

/-- The messages that were not dropped. -/
def takenBy (h : ι) (log : List (Event ι κ P)) : List (Message κ P) :=
  log.flatMap fun
    | .offered g m true => if g = h then [m] else []
    | _ => []

def receivedBy (h : ι) (log : List (Event ι κ P)) : List (Message κ P) :=
  log.flatMap fun
    | .received g m => if g = h then [m] else []
    | _ => []

/-- The messages the handler was called with. -/
def callsOf (h : ι) (log : List (Event ι κ P)) : List (Message κ P) :=
  log.flatMap fun
    | .called g m => if g = h then [m] else []
    | _ => []

section

omit [DecidableEq κ]

@[simp] theorem takenBy_append (h : ι) :
    takenBy h (log ++ log') = takenBy h log ++ takenBy h log' :=
  List.flatMap_append

@[simp] theorem receivedBy_append (h : ι) :
    receivedBy h (log ++ log') = receivedBy h log ++ receivedBy h log' :=
  List.flatMap_append

@[simp] theorem callsOf_append (h : ι) :
    callsOf h (log ++ log') = callsOf h log ++ callsOf h log' :=
  List.flatMap_append

theorem takenBy_sublist (h : ι) (log : List (Event ι κ P)) :
    (takenBy h log).Sublist (offersTo h log) := by
  induction log with
  | nil => exact List.Sublist.refl []
  | cons e log ih =>
      cases e with
      | offered g m taken =>
          by_cases hg : g = h
          · cases taken with
            | true => simpa [takenBy, offersTo, hg] using ih
            | false => simpa [takenBy, offersTo, hg] using ih.cons m
          · cases taken <;> simpa [takenBy, offersTo, hg] using ih
      | _ => simpa [takenBy, offersTo] using ih

end

/-- A message between its receipt and the call of the handler. -/
def Dispatcher.held : Dispatcher κ P → List (Message κ P)
  | .received m => [m]
  | _ => []

omit [DecidableEq κ] in
theorem Dispatcher.held_wake (d : Dispatcher κ P) : d.wake.held = d.held := by
  cases d <;> rfl

def Sys.buffer (s : Sys ι κ P) (h : ι) : List (Message κ P) :=
  (s.handlers h).elim [] fun sub => sub.ch.buf

def Sys.held (s : Sys ι κ P) (h : ι) : List (Message κ P) :=
  (s.handlers h).elim [] fun sub => sub.dispatcher.held

/-- What a subscription has taken was received or waits in its channel, and what
was received was passed to the handler or is about to be. -/
structure Queued (s : Sys ι κ P) (log : List (Event ι κ P)) : Prop where
  taken : ∀ h, takenBy h log = receivedBy h log ++ s.buffer h
  received : ∀ h, receivedBy h log = callsOf h log ++ s.held h

omit [DecidableEq κ] in
/-- A step of one subscription, in balance with what it adds to the log. -/
theorem Queued.setSub (hs : Queued s log) {h : ι} {sub' : Subscription κ P}
    (hh : s'.handlers = Function.update s.handlers h (some sub'))
    (hother : ∀ g, g ≠ h → takenBy g es = [] ∧ receivedBy g es = [] ∧ callsOf g es = [])
    (htaken : s.buffer h ++ takenBy h es = receivedBy h es ++ sub'.ch.buf)
    (hreceived : s.held h ++ receivedBy h es = callsOf h es ++ sub'.dispatcher.held) :
    Queued s' (log ++ es) where
  taken g := by
    rw [takenBy_append, receivedBy_append, hs.taken, Sys.buffer, Sys.buffer, hh]
    by_cases hg : g = h
    · subst hg
      rw [Function.update_self, List.append_assoc, List.append_assoc]
      exact congrArg _ htaken
    · simp [hother g hg, hg]
  received g := by
    rw [receivedBy_append, callsOf_append, hs.received, Sys.held, Sys.held, hh]
    by_cases hg : g = h
    · subst hg
      rw [Function.update_self, List.append_assoc, List.append_assoc]
      exact congrArg _ hreceived
    · simp [hother g hg, hg]

omit [DecidableEq κ] in
theorem Queued.keep (hs : Queued s log) (hh : s'.handlers = s.handlers)
    (htaken : ∀ g, takenBy g es = []) (hreceived : ∀ g, receivedBy g es = [])
    (hcalls : ∀ g, callsOf g es = []) : Queued s' (log ++ es) where
  taken g := by
    rw [takenBy_append, receivedBy_append, htaken, hreceived, hs.taken, Sys.buffer, Sys.buffer, hh]
    simp
  received g := by
    rw [receivedBy_append, callsOf_append, hreceived, hcalls, hs.received, Sys.held, Sys.held, hh]
    simp

omit [DecidableEq κ] in
/-- A step of one subscription that passes no message on. -/
theorem Queued.rest (hs : Queued s log) {h : ι} {sub sub' : Subscription κ P}
    (hsub : s.handlers h = some sub) (hh : s'.handlers = Function.update s.handlers h (some sub'))
    (hbuf : sub'.ch.buf = sub.ch.buf) (hheld : sub'.dispatcher.held = sub.dispatcher.held)
    (htaken : ∀ g, takenBy g es = []) (hreceived : ∀ g, receivedBy g es = [])
    (hcalls : ∀ g, callsOf g es = []) : Queued s' (log ++ es) := by
  refine hs.setSub hh (fun g _ => ⟨htaken g, hreceived g, hcalls g⟩) ?_ ?_
  · simp [Sys.buffer, hsub, htaken, hreceived, hbuf]
  · simp [Sys.held, hsub, hreceived, hcalls, hheld]

theorem Queued.step (hs : Queued s log) (hr : Registry s) (h : s.step x = some s') :
    Queued s' (log ++ events s x) := by
  obtain ⟨es, hes, heffect⟩ := effect_of_step h
  rw [hes]
  cases heffect with
  | subscribed hnew =>
      refine hs.setSub rfl (fun _ _ => ⟨rfl, rfl, rfl⟩) ?_ ?_
      · simp [Sys.buffer, hnew, takenBy, receivedBy, Subscription.new]
      · simp [Sys.held, hnew, callsOf, receivedBy, Subscription.new, Dispatcher.held]
  | published hp => exact hs.keep rfl (fun _ => rfl) (fun _ => rfl) (fun _ => rfl)
  | returned hp => exact hs.keep rfl (fun _ => rfl) (fun _ => rfl) (fun _ => rfl)
  | panicked hp hsub hclosed => exact hs.keep rfl (fun _ => rfl) (fun _ => rfl) (fun _ => rfl)
  | handed hp hsub hopen hparked =>
      have hbuf := (hr.sound _ _ hsub).parked hparked
      refine hs.setSub rfl (fun g hg => ?_) ?_ ?_
      · simp [takenBy, receivedBy, callsOf, Ne.symm hg]
      · simp [Sys.buffer, hsub, takenBy, receivedBy, hbuf]
      · simp [Sys.held, hsub, hparked, callsOf, receivedBy, Dispatcher.held]
  | queued hp hsub hopen hbusy hroom =>
      refine hs.setSub rfl (fun g hg => ?_) ?_ ?_
      · simp [takenBy, receivedBy, callsOf, Ne.symm hg]
      · simp [Sys.buffer, hsub, takenBy, receivedBy]
      · simp [Sys.held, hsub, callsOf, receivedBy]
  | dropped hp hsub hopen hbusy hfull =>
      exact hs.keep rfl (fun _ => rfl) (fun _ => rfl) (fun _ => rfl)
  | took hsub hd hbuf =>
      refine hs.setSub rfl (fun g hg => ?_) ?_ ?_
      · simp [takenBy, receivedBy, callsOf, Ne.symm hg]
      · simp [Sys.buffer, hsub, takenBy, receivedBy, hbuf]
      · simp [Sys.held, hsub, hd, callsOf, receivedBy, Dispatcher.held]
  | called hsub hd =>
      refine hs.setSub rfl (fun g hg => ?_) ?_ ?_
      · simp [takenBy, receivedBy, callsOf, Ne.symm hg]
      · simp [Sys.buffer, hsub, takenBy, receivedBy]
      · simp [Sys.held, hsub, hd, callsOf, receivedBy, Dispatcher.held]
  | removed hsub hun => exact hs.rest hsub rfl rfl rfl (fun _ => rfl) (fun _ => rfl) (fun _ => rfl)
  | cancelled hsub hun =>
      exact hs.rest hsub rfl rfl (Dispatcher.held_wake _) (fun _ => rfl) (fun _ => rfl)
        (fun _ => rfl)
  | closed hsub hun hopen =>
      exact hs.rest hsub rfl rfl (Dispatcher.held_wake _) (fun _ => rfl) (fun _ => rfl)
        (fun _ => rfl)
  | closePanics hsub hun hclosed =>
      exact hs.rest hsub rfl rfl rfl (fun _ => rfl) (fun _ => rfl) (fun _ => rfl)
  | parked hsub hd hdone hbuf hopen =>
      exact hs.rest hsub rfl rfl (by rw [hd]; rfl) (fun _ => rfl) (fun _ => rfl) (fun _ => rfl)
  | drained hsub hd hbuf hclosed =>
      exact hs.rest hsub rfl rfl (by rw [hd]; rfl) (fun _ => rfl) (fun _ => rfl) (fun _ => rfl)
  | quit hsub hd hdone =>
      exact hs.rest hsub rfl rfl (by rw [hd]; rfl) (fun _ => rfl) (fun _ => rfl) (fun _ => rfl)
  | finished hsub hd =>
      exact hs.rest hsub rfl rfl (by rw [hd]; rfl) (fun _ => rfl) (fun _ => rfl) (fun _ => rfl)

/-! ## Runs from the new bus -/

def history (xs : List (Action ι κ P)) : List (Event ι κ P) := collect Sys.step events newBus xs

structure Logged (s : Sys ι κ P) (log : List (Event ι κ P)) : Prop where
  registry : Registry s
  listed : Listed s log
  tried : Tried s log
  queued : Queued s log

theorem logged_newBus : Logged (newBus : Sys ι κ P) [] where
  registry := registry_newBus
  listed := ⟨fun _ => rfl, fun h hh => by simp [removals] at hh⟩
  tried := ⟨fun _ _ => rfl, fun _ => List.nodup_nil, fun _ => List.nodup_nil⟩
  queued := ⟨fun _ => rfl, fun _ => rfl⟩

theorem Logged.step (hs : Logged s log) (h : s.step x = some s') :
    Logged s' (log ++ events s x) where
  registry := hs.registry.step h
  listed := hs.listed.step hs.registry h
  tried := hs.tried.step hs.registry h
  queued := hs.queued.step hs.registry h

theorem logged_of_run {xs : List (Action ι κ P)} (hrun : run Sys.step newBus xs = some s) :
    Logged s (history xs) := by
  apply run_collect (P := Logged) (C := fun _ _ => True) ?_ logged_newBus
    (along_of_forall fun _ _ _ => trivial) hrun
  intro t log x u ht _ hu
  exact ht.step hu

end Gkit.PubSub
