import Gkit.Locking.Handles

/-!
# `WithLock`

`WithLock` acquires the lock, runs the function and releases the lock in a deferred
call, with the context of the caller throughout.  A command issued with a context
that is done fails without executing.  So the lock is given back exactly if the
context is still live when the deferred `Release` runs its script.
-/

namespace Gkit.Locking.WithLock

open Gkit.Lib

/-- How a call comes to its end. -/
inductive Ended where
  | returned (err : Option GoError)
  | panicked
  deriving DecidableEq

inductive Stage where
  /-- In the loop of `Acquire`, before `TryAcquire`. -/
  | trying (world : Locking.Sys) (attempts : ℤ)
  | asleep (world : Locking.Sys) (attempts : ℤ)
  | inside (h : Watched.Sys Unit)
  /-- The function has ended, and the deferred call is under way. -/
  | deferred (h : Watched.Sys Unit) (r : Ended)
  | over (world : Locking.Sys) (lock : Option Lock) (r : Ended)

structure Sys where
  key : String
  ttl : ℤ
  /-- The number given to `WithRetry`. -/
  retryN : Option ℤ
  /-- The error of the caller's context, once it is done. -/
  ctxErr : Option GoError
  stage : Stage

inductive Action where
  | cancel (err : GoError)
  /-- A step of another client before the lock is acquired. -/
  | world (x : Locking.Action)
  | tryAcquire (fault : Option GoError)
  | wake
  | giveUp
  | fn (r : Ended)
  | handle (x : Watched.Action Unit)
  | finish

def start (w : Locking.Sys) (key : String) (ttl : ℤ) (retryN : Option ℤ)
    (ctxErr : Option GoError) : Sys :=
  ⟨key, ttl, retryN, ctxErr, .trying w 0⟩

/-- One turn of the loop of `Acquire`, after `TryAcquire` has returned. -/
def Sys.afterTry (s : Sys) (w : Locking.Sys) (attempts : ℤ) : Except GoError Lock → Stage
  | .ok l => .inside (Watched.acquired w l)
  | .error err =>
      if err.is errNotAcquired then
        if s.retryN.any fun n => decide (n ≤ attempts + 1) then
          .over w none (.returned (some errNotAcquired))
        else .asleep w (attempts + 1)
      else .over w none (.returned (some err))

/-- The steps of the deferred call itself. -/
def isRelease : Watched.Action Unit → Bool
  | .call _ | .test _ | .close _ | .await _ | .script .. => true
  | _ => false

/-- A script can be run in the deferred call only, and its fate is that of the context. -/
def Sys.permits (s : Sys) : Watched.Action Unit → Bool
  | .script _ fault => fault = s.ctxErr
  | .call _ => false
  | _ => true

def Sys.step (s : Sys) : Action → Option Sys
  | .cancel err => if s.ctxErr = none then some { s with ctxErr := some err } else none
  | .world x =>
      match s.stage with
      | .trying w n => (w.step x).map fun w => { s with stage := .trying w n }
      | .asleep w n => (w.step x).map fun w => { s with stage := .asleep w n }
      | _ => none
  | .tryAcquire fault =>
      match s.stage with
      | .trying w n =>
          if s.ctxErr = none ∨ fault = s.ctxErr then
            let res := (Locking.tryAcquire fault w.store w.fresh s.key s.ttl).2
            (w.step (.tryAcquire s.key s.ttl fault)).map fun w' =>
              { s with stage := s.afterTry w' n res }
          else none
      | _ => none
  | .wake =>
      match s.stage with
      | .asleep w n => some { s with stage := .trying w n }
      | _ => none
  | .giveUp =>
      match s.stage, s.ctxErr with
      | .asleep w _, some err =>
          let err := .wrapping ("lock: acquire " ++ quote s.key) err
          some { s with stage := .over w none (.returned (some err)) }
      | _, _ => none
  | .fn r =>
      match s.stage with
      | .inside h => (h.step (.call ())).map fun h => { s with stage := .deferred h r }
      | _ => none
  | .handle x =>
      match s.stage with
      | .inside h =>
          if isRelease x then none else (h.step x).map fun h => { s with stage := .inside h }
      | .deferred h r =>
          if s.permits x then (h.step x).map fun h => { s with stage := .deferred h r } else none
      | _ => none
  | .finish =>
      match s.stage with
      | .deferred h r =>
          -- the error of the deferred call is dropped
          match h.calls () with
          | .returned _ => some { s with stage := .over h.world (some h.lock) r }
          | _ => none
      | _ => none

/-! ## What a step leads to -/

/-- The world can be reached, and the token of a lock that is given back is not in it. -/
def Stage.Sound : Stage → Prop
  | .trying w _ | .asleep w _ => ∃ xs, run Locking.Sys.step Locking.start xs = some w
  | .inside h => Watched.Control h ∧ Watched.Ledger h
  | .deferred h _ => Watched.Control h ∧ Watched.Ledger h ∧
      (∀ err, h.calls () = .returned err → ¬h.world.store.holds h.lock.key h.lock.token)
  | .over w l _ => ∀ l' ∈ l, ¬w.store.holds l'.key l'.token

/-- The script of the deferred call finds the context live, or the token gone already. -/
def Live (s : Sys) : Action → Prop
  | .handle (.script ..) => s.ctxErr = none ∨
      ∀ h r, s.stage = .deferred h r → ¬h.world.store.holds h.lock.key h.lock.token
  | _ => True

theorem exists_run_step {w w' : Locking.Sys} {x : Locking.Action}
    (hw : ∃ xs, run Locking.Sys.step Locking.start xs = some w) (h : w.step x = some w') :
    ∃ xs, run Locking.Sys.step Locking.start xs = some w' := by
  obtain ⟨xs, hxs⟩ := hw
  exact ⟨xs ++ [x], run_append_eq_some.mpr ⟨w, hxs, run_cons_eq_some.mpr ⟨w', h, rfl⟩⟩⟩

theorem sound_afterTry {s : Sys} {w w' : Locking.Sys} {n : ℤ} {fault : Option GoError}
    (hw : ∃ xs, run Locking.Sys.step Locking.start xs = some w)
    (h : w.step (.tryAcquire s.key s.ttl fault) = some w') :
    (s.afterTry w' n (Locking.tryAcquire fault w.store w.fresh s.key s.ttl).2).Sound := by
  cases hres : (Locking.tryAcquire fault w.store w.fresh s.key s.ttl).2 with
  | ok l =>
      obtain ⟨xs, hxs⟩ := hw
      have hl : l = ⟨s.key, w.fresh, s.ttl⟩ := (held_of_acquired hres h).1
      have hacquired : Watched.Acquired w' l := by
        rw [hl] at hres ⊢
        exact ⟨xs, w, fault, hxs, hres, h⟩
      exact ⟨Watched.control_acquired w' l, Watched.ledger_acquired hacquired⟩
  | error err =>
      simp only [Sys.afterTry]
      split_ifs
      · simp [Stage.Sound]
      · exact exists_run_step hw h
      · simp [Stage.Sound]

/-- The deferred call has returned only if its script has run. -/
theorem released_of_step {s : Sys} {h h' : Watched.Sys Unit} {r : Ended} {x : Watched.Action Unit}
    (hs : (Stage.deferred h r).Sound) (hstage : s.stage = .deferred h r)
    (hx : Live s (.handle x)) (hpermits : s.permits x = true) (heffect : Watched.Effect h x h')
    {err : Option GoError} (hret : h'.calls () = .returned err) :
    ¬h'.world.store.holds h'.lock.key h'.lock.token := by
  intro hholds
  obtain ⟨hbefore, hscript⟩ := hs.2.1.holds_of_step heffect hholds
  have hbusy : ∀ err, h.calls () ≠ .returned err := fun err hcall => hs.2.2 err hcall hbefore
  cases heffect with
  | world hf hw => exact hbusy err hret
  | @script i fault w hi hw =>
      have hlive : s.ctxErr = none := hx.resolve_right fun hgone => hgone h r hstage hbefore
      have hfault : fault = s.ctxErr := by simpa [Sys.permits] using hpermits
      exact hscript i (by rw [hfault, hlive])
  | renew hk hw => exact hbusy err hret
  | exit hk hw => exact hbusy err hret
  | call hi => simp [Watched.Sys.setCall] at hret
  | foundClosed hi hstop => simp [Watched.Sys.setCall] at hret
  | foundOpen hi hstop => simp [Watched.Sys.setCall] at hret
  | closed hi hstop => simp [Watched.Sys.setCall] at hret
  | closedTwice hi hstop => simp [Watched.Sys.setCall] at hret
  | await hi hdone => simp [Watched.Sys.setCall] at hret
  | start hk hpos => exact hbusy err hret
  | crash hk hpos => exact hbusy err hret
  | tick hk => exact hbusy err hret
  | seeStop hk hstop => exact hbusy err hret

theorem Stage.Sound.step {s s' : Sys} {x : Action} (hs : s.stage.Sound) (hx : Live s x)
    (h : s.step x = some s') : s'.stage.Sound := by
  cases x with
  | cancel err =>
      simp only [Sys.step] at h
      split_ifs at h
      obtain rfl := Option.some.inj h
      exact hs
  | world x =>
      cases hstage : s.stage <;> simp only [Sys.step, hstage, reduceCtorEq] at h
      all_goals
        obtain ⟨w', hw', rfl⟩ := Option.map_eq_some_iff.mp h
        rw [hstage] at hs
        exact exists_run_step hs hw'
  | tryAcquire fault =>
      cases hstage : s.stage <;> simp only [Sys.step, hstage, reduceCtorEq] at h
      split_ifs at h
      obtain ⟨w', hw', rfl⟩ := Option.map_eq_some_iff.mp h
      rw [hstage] at hs
      exact sound_afterTry hs hw'
  | wake =>
      cases hstage : s.stage <;> simp only [Sys.step, hstage, reduceCtorEq] at h
      obtain rfl := Option.some.inj h
      rw [hstage] at hs
      exact hs
  | giveUp =>
      cases hstage : s.stage <;> cases hctx : s.ctxErr <;>
        simp only [Sys.step, hstage, hctx, reduceCtorEq] at h
      obtain rfl := Option.some.inj h
      simp [Stage.Sound]
  | fn r =>
      cases hstage : s.stage <;> simp only [Sys.step, hstage, reduceCtorEq] at h
      obtain ⟨h', hh', rfl⟩ := Option.map_eq_some_iff.mp h
      rw [hstage] at hs
      have heffect := Watched.step_iff.mp hh'
      refine ⟨hs.1.step heffect, hs.2.step hs.1 heffect, fun err hret => ?_⟩
      cases heffect with
      | call hi => simp [Watched.Sys.setCall] at hret
  | handle x =>
      cases hstage : s.stage <;> simp only [Sys.step, hstage, reduceCtorEq] at h
      · split_ifs at h
        obtain ⟨h', hh', rfl⟩ := Option.map_eq_some_iff.mp h
        rw [hstage] at hs
        have heffect := Watched.step_iff.mp hh'
        exact ⟨hs.1.step heffect, hs.2.step hs.1 heffect⟩
      · split_ifs at h with hpermits
        obtain ⟨h', hh', rfl⟩ := Option.map_eq_some_iff.mp h
        rw [hstage] at hs
        have heffect := Watched.step_iff.mp hh'
        exact ⟨hs.1.step heffect, hs.2.1.step hs.1 heffect,
          fun err hret => released_of_step hs hstage hx hpermits heffect hret⟩
  | finish =>
      cases hstage : s.stage <;> simp only [Sys.step, hstage, reduceCtorEq] at h
      rename_i h' r
      rw [hstage] at hs
      cases hcall : h'.calls () <;> simp only [hcall, reduceCtorEq] at h
      obtain rfl := Option.some.inj h
      rintro l ⟨⟩
      exact hs.2.2 _ hcall

/-- A deferred script that meets a context that is done leaves the token in the key, and
`WithLock` returns as if nothing had happened. -/
theorem kept_of_not_live {s s' : Sys} {x : Action} (h : s.step x = some s') (hx : ¬Live s x)
    (hs : s.stage.Sound) :
    ∃ s'' w l r, run Sys.step s [x, .finish] = some s'' ∧ s''.stage = .over w (some l) r ∧
      w.store.holds l.key l.token := by
  obtain ⟨i, fault, rfl⟩ : ∃ i fault, x = .handle (.script i fault) := by
    cases x with
    | handle x => cases x <;> simp [Live] at hx ⊢
    | _ => simp [Live] at hx
  simp only [Live, not_or, not_forall, not_not] at hx
  obtain ⟨hdone, held, r, hstage, hholds⟩ := hx
  rw [hstage] at hs
  have hstep := h
  simp only [Sys.step, hstage] at h
  split_ifs at h with hpermits
  obtain ⟨held', hh', rfl⟩ := Option.map_eq_some_iff.mp h
  have hfault : fault = s.ctxErr := by simpa [Sys.permits] using hpermits
  obtain ⟨err, rfl⟩ := Option.ne_none_iff_exists'.mp (hfault ▸ hdone)
  -- the script fails, so the world stays as it is
  obtain ⟨err', hret, hworld, hlock⟩ : ∃ err', held'.calls () = .returned err' ∧
      held'.world = held.world ∧ held'.lock = held.lock := by
    cases Watched.step_iff.mp hh' with
    | script hi hw =>
        obtain rfl := Watched.release_world hs.2.1 hw
        exact ⟨_, Function.update_self () _ held.calls, rfl, rfl⟩
  refine ⟨{ s with stage := .over held'.world (some held'.lock) r }, _, _, _,
    run_cons_eq_some.mpr ⟨_, hstep, run_cons_eq_some.mpr ⟨_, ?_, rfl⟩⟩, rfl, ?_⟩
  · simp only [Sys.step, hret]
  · rw [hworld, hlock]
    exact hholds

/-- Whatever the function does and whenever the context is cancelled, the key does not store
the token any more when `WithLock` has come to its end, provided the context is live when the
deferred call runs its script. -/
theorem lock_given_back {w : Locking.Sys}
    (hw : ∃ ys, run Locking.Sys.step Locking.start ys = some w) {key : String} {ttl : ℤ}
    {retryN : Option ℤ} {ctxErr : Option GoError} {xs : List Action} {s : Sys}
    (hxs : Along Sys.step Live (start w key ttl retryN ctxErr) xs)
    (h : run Sys.step (start w key ttl retryN ctxErr) xs = some s) :
    (∀ w' l r, s.stage = .over w' (some l) r → ¬w'.store.holds l.key l.token) ∧
    ∀ x s', s.step x = some s' → ¬Live s x →
      ∃ s'' w' l r, run Sys.step s [x, .finish] = some s'' ∧ s''.stage = .over w' (some l) r ∧
        w'.store.holds l.key l.token := by
  have hs : s.stage.Sound := run_invariant (P := fun s => s.stage.Sound)
    (fun _ _ _ hs hx hstep => hs.step hx hstep) hw hxs h
  refine ⟨fun w' l r hstage => ?_, fun x s' hstep hx => kept_of_not_live hstep hx hs⟩
  rw [hstage] at hs
  exact hs l rfl

/-- The function returns nil, and the deferred call waits for the goroutine to end. -/
def upToScript : List Action :=
  [.fn (.returned none), .handle (.test ()), .handle (.close ()), .handle .seeStop,
    .handle .exit, .handle (.await ())]

/-- With a context that stays live the key is gone at the end. -/
theorem live_context_gives_back :
    ∃ s w l, run Sys.step (start Locking.start "k" 30000000000 none none)
        (.tryAcquire none :: .handle .start :: upToScript ++
          [.handle (.script () none), .finish]) = some s ∧
      s.stage = .over w (some l) (.returned none) ∧ ¬w.store.holds l.key l.token := by
  have hxs : Along Sys.step Live (start Locking.start "k" 30000000000 none none)
      (.tryAcquire none :: .handle .start :: upToScript ++
        [.handle (.script () none), .finish]) := by
    refine along_append.mpr ⟨along_of_forall ?_, ?_⟩
    · simp [upToScript, Live]
    · rintro t ht
      obtain rfl := Option.some.inj ht
      exact ⟨.inl rfl, fun _ _ => ⟨trivial, fun _ _ => trivial⟩⟩
  have hback := (lock_given_back ⟨[], rfl⟩ hxs rfl).1
  exact ⟨_, _, _, rfl, rfl, hback _ _ _ rfl⟩

/-- The context is cancelled while the function runs: `WithLock` returns nil, and the key still
stores the token. -/
theorem cancelled_context_keeps :
    ∃ s w, run Sys.step (start Locking.start "k" 30000000000 none none)
        (.tryAcquire none :: .handle .start :: .cancel (.new "context canceled") :: upToScript ++
          [.handle (.script () (some (.new "context canceled"))), .finish]) = some s ∧
      s.stage = .over w (some ⟨"k", 0, 30000000000⟩) (.returned none) ∧ w.store.holds "k" 0 :=
  ⟨_, _, rfl, rfl, by decide⟩

end Gkit.Locking.WithLock
