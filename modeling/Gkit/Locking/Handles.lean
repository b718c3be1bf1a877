import Gkit.Locking.Exclusion

/-!
# One handle, its goroutine and its callers

The clients' system goes on beside one handle that is looked at closely: its two
channels, the keepalive goroutine, and any number of calls of `Release` on it, each
of which tests the stop channel, closes it, waits for the other channel and runs its
script.  Their Redis commands are steps of the clients' system.
-/

namespace Gkit.Locking.Watched

open Gkit.Lib

inductive Keepalive where
  | starting
  | selecting
  | renewing
  | leaving
  | exited
  | panicked
  deriving DecidableEq, Repr

inductive Call where
  | idle
  | testing
  | closing
  | waiting
  | running
  | returned (err : Option GoError)
  | panicked
  deriving DecidableEq

/-- The scripts that Redis has run for the handle. -/
inductive Command where
  | renewed
  | released (n : ℤ)
  deriving DecidableEq, Repr

structure Sys (ι : Type) where
  world : Locking.Sys
  lock : Lock
  /-- The stop channel is closed. -/
  stop : Bool
  /-- The done channel is closed. -/
  done : Bool
  keep : Keepalive
  calls : ι → Call
  log : List Command

inductive Action (ι : Type) where
  /-- A step that does not belong to the handle. -/
  | world (x : Locking.Action)
  | call (i : ι)
  | test (i : ι)
  | close (i : ι)
  | await (i : ι)
  | script (i : ι) (fault : Option GoError)
  | start
  | tick
  | renew (fault : Option GoError)
  | seeStop
  | exit
  deriving DecidableEq

/-- The action is not one of the holder of the token. -/
def foreign (token : ℕ) : Locking.Action → Bool
  | .renew t _ | .stop t | .release t _ => t ≠ token
  | .tryAcquire .. | .expire _ => true

variable {ι : Type} [DecidableEq ι]

def acquired (w : Locking.Sys) (l : Lock) : Sys ι :=
  ⟨w, l, false, false, .starting, fun _ => .idle, []⟩

def Sys.setCall (s : Sys ι) (i : ι) (c : Call) : Sys ι :=
  { s with calls := Function.update s.calls i c }

/-- A script that fails has not been run. -/
def executed (fault : Option GoError) (c : Command) : List Command :=
  if fault.isNone then [c] else []

def Sys.step (s : Sys ι) : Action ι → Option (Sys ι)
  | .world x =>
      if foreign s.lock.token x then (s.world.step x).map fun w => { s with world := w } else none
  | .call i => if s.calls i = .idle then some (s.setCall i .testing) else none
  | .test i =>
      if s.calls i = .testing then some (s.setCall i (if s.stop then .waiting else .closing))
      else none
  | .close i =>
      if s.calls i = .closing then
        -- closing a closed channel panics
        some (if s.stop then s.setCall i .panicked
          else { s.setCall i .waiting with stop := true })
      else none
  | .await i => if s.calls i = .waiting ∧ s.done then some (s.setCall i .running) else none
  | .script i fault =>
      if s.calls i = .running then
        (s.world.step (.release s.lock.token fault)).map fun w =>
          { s.setCall i (.returned (s.lock.release fault s.world.store).2) with
            world := w
            log := s.log ++ executed fault
              (.released (s.world.store.releaseScript s.lock.key s.lock.token).2) }
      else none
  | .start =>
      if s.keep = .starting then
        -- the deferred close runs when `time.NewTicker` panics
        some (if 0 < s.lock.interval then { s with keep := .selecting }
          else { s with keep := .panicked, done := true })
      else none
  | .tick => if s.keep = .selecting then some { s with keep := .renewing } else none
  | .renew fault =>
      if s.keep = .renewing then
        (s.world.step (.renew s.lock.token fault)).map fun w =>
          { s with world := w, keep := .selecting, log := s.log ++ executed fault .renewed }
      else none
  | .seeStop => if s.keep = .selecting ∧ s.stop then some { s with keep := .leaving } else none
  | .exit =>
      if s.keep = .leaving then
        (s.world.step (.stop s.lock.token)).map fun w =>
          { s with world := w, keep := .exited, done := true }
      else none

/-- What a step does. -/
inductive Effect (s : Sys ι) : Action ι → Sys ι → Prop
  | world {x : Locking.Action} {w : Locking.Sys} (hx : foreign s.lock.token x = true)
      (hw : s.world.step x = some w) : Effect s (.world x) { s with world := w }
  | call {i : ι} (hi : s.calls i = .idle) : Effect s (.call i) (s.setCall i .testing)
  | foundClosed {i : ι} (hi : s.calls i = .testing) (hstop : s.stop = true) :
      Effect s (.test i) (s.setCall i .waiting)
  | foundOpen {i : ι} (hi : s.calls i = .testing) (hstop : s.stop = false) :
      Effect s (.test i) (s.setCall i .closing)
  | closed {i : ι} (hi : s.calls i = .closing) (hstop : s.stop = false) :
      Effect s (.close i) { s.setCall i .waiting with stop := true }
  | closedTwice {i : ι} (hi : s.calls i = .closing) (hstop : s.stop = true) :
      Effect s (.close i) (s.setCall i .panicked)
  | await {i : ι} (hi : s.calls i = .waiting) (hdone : s.done = true) :
      Effect s (.await i) (s.setCall i .running)
  | script {i : ι} {fault : Option GoError} {w : Locking.Sys} (hi : s.calls i = .running)
      (hw : s.world.step (.release s.lock.token fault) = some w) :
      Effect s (.script i fault)
        { s.setCall i (.returned (s.lock.release fault s.world.store).2) with
          world := w
          log := s.log ++ executed fault
            (.released (s.world.store.releaseScript s.lock.key s.lock.token).2) }
  | start (hk : s.keep = .starting) (hpos : 0 < s.lock.interval) :
      Effect s .start { s with keep := .selecting }
  | crash (hk : s.keep = .starting) (hpos : ¬0 < s.lock.interval) :
      Effect s .start { s with keep := .panicked, done := true }
  | tick (hk : s.keep = .selecting) : Effect s .tick { s with keep := .renewing }
  | renew {fault : Option GoError} {w : Locking.Sys} (hk : s.keep = .renewing)
      (hw : s.world.step (.renew s.lock.token fault) = some w) :
      Effect s (.renew fault)
        { s with world := w, keep := .selecting, log := s.log ++ executed fault .renewed }
  | seeStop (hk : s.keep = .selecting) (hstop : s.stop = true) :
      Effect s .seeStop { s with keep := .leaving }
  | exit {w : Locking.Sys} (hk : s.keep = .leaving)
      (hw : s.world.step (.stop s.lock.token) = some w) :
      Effect s .exit { s with world := w, keep := .exited, done := true }

theorem step_iff {s s' : Sys ι} {x : Action ι} : s.step x = some s' ↔ Effect s x s' := by
  constructor
  · intro h
    cases x with
    | world x =>
        simp only [Sys.step] at h
        split_ifs at h with hx
        obtain ⟨w, hw, rfl⟩ := Option.map_eq_some_iff.mp h
        exact .world hx hw
    | call i =>
        simp only [Sys.step] at h
        split_ifs at h with hi
        exact Option.some.inj h ▸ .call hi
    | test i =>
        simp only [Sys.step] at h
        split_ifs at h with hi hstop
        · exact Option.some.inj h ▸ .foundClosed hi hstop
        · exact Option.some.inj h ▸ .foundOpen hi (by simpa using hstop)
    | close i =>
        simp only [Sys.step] at h
        split_ifs at h with hi hstop
        · exact Option.some.inj h ▸ .closedTwice hi hstop
        · exact Option.some.inj h ▸ .closed hi (by simpa using hstop)
    | await i =>
        simp only [Sys.step] at h
        split_ifs at h with hi
        exact Option.some.inj h ▸ .await hi.1 hi.2
    | script i fault =>
        simp only [Sys.step] at h
        split_ifs at h with hi
        obtain ⟨w, hw, rfl⟩ := Option.map_eq_some_iff.mp h
        exact .script hi hw
    | start =>
        simp only [Sys.step] at h
        split_ifs at h with hk hpos
        · exact Option.some.inj h ▸ .start hk hpos
        · exact Option.some.inj h ▸ .crash hk hpos
    | tick =>
        simp only [Sys.step] at h
        split_ifs at h with hk
        exact Option.some.inj h ▸ .tick hk
    | renew fault =>
        simp only [Sys.step] at h
        split_ifs at h with hk
        obtain ⟨w, hw, rfl⟩ := Option.map_eq_some_iff.mp h
        exact .renew hk hw
    | seeStop =>
        simp only [Sys.step] at h
        split_ifs at h with hk
        exact Option.some.inj h ▸ .seeStop hk.1 hk.2
    | exit =>
        simp only [Sys.step] at h
        split_ifs at h with hk
        obtain ⟨w, hw, rfl⟩ := Option.map_eq_some_iff.mp h
        exact .exit hk hw
  · intro h
    cases h <;> simp [Sys.step, *]

/-! ## The goroutine and the callers -/

structure Control (s : Sys ι) : Prop where
  done_iff : s.done = true ↔ s.keep = .exited ∨ s.keep = .panicked
  ticker : s.keep ≠ .starting → (s.keep = .panicked ↔ ¬0 < s.lock.interval)
  stopped : s.keep = .leaving ∨ s.keep = .exited → s.stop = true
  awaited : ∀ i, s.calls i = .running ∨ (∃ err, s.calls i = .returned err) → s.done = true

omit [DecidableEq ι] in
theorem control_acquired (w : Locking.Sys) (l : Lock) : Control (acquired w l : Sys ι) := by
  constructor <;> simp [acquired]

/-- A call that has not passed the done channel changes nothing but itself. -/
theorem Control.setCall {s : Sys ι} (hs : Control s) (i : ι) {c : Call}
    (hc : c = .running ∨ (∃ err, c = .returned err) → s.done = true) :
    Control (s.setCall i c) := by
  refine ⟨hs.done_iff, hs.ticker, hs.stopped, fun j hj => ?_⟩
  by_cases hji : j = i
  · subst hji
    simp only [Sys.setCall, Function.update_self] at hj
    exact hc hj
  · simp only [Sys.setCall, Function.update_of_ne hji] at hj
    exact hs.awaited j hj

theorem Control.step {s s' : Sys ι} {x : Action ι} (hs : Control s) (h : Effect s x s') :
    Control s' := by
  cases h with
  | world hx hw => exact ⟨hs.done_iff, hs.ticker, hs.stopped, hs.awaited⟩
  | call hi => exact hs.setCall _ (by simp)
  | foundClosed hi hstop => exact hs.setCall _ (by simp)
  | foundOpen hi hstop => exact hs.setCall _ (by simp)
  | @closed i hi hstop =>
      have hcall := hs.setCall i (c := .waiting) (by simp)
      exact ⟨hcall.done_iff, hcall.ticker, fun _ => rfl, hcall.awaited⟩
  | closedTwice hi hstop => exact hs.setCall _ (by simp)
  | await hi hdone => exact hs.setCall _ fun _ => hdone
  | @script i fault w hi hw =>
      have hcall := hs.setCall i (c := .returned (s.lock.release fault s.world.store).2)
        fun _ => hs.awaited i (.inl hi)
      exact ⟨hcall.done_iff, hcall.ticker, hcall.stopped, hcall.awaited⟩
  | start hk hpos =>
      refine ⟨?_, by simp [hpos], by simp, hs.awaited⟩
      simpa [hk] using hs.done_iff
  | crash hk hpos => exact ⟨by simp, by simp [hpos], by simp, fun _ _ => rfl⟩
  | tick hk =>
      have hpos := hs.ticker (by simp [hk])
      refine ⟨?_, fun _ => by simpa [hk] using hpos, by simp, hs.awaited⟩
      simpa [hk] using hs.done_iff
  | renew hk hw =>
      have hpos := hs.ticker (by simp [hk])
      refine ⟨?_, fun _ => by simpa [hk] using hpos, by simp, hs.awaited⟩
      simpa [hk] using hs.done_iff
  | seeStop hk hstop =>
      have hpos := hs.ticker (by simp [hk])
      refine ⟨?_, fun _ => by simpa [hk] using hpos, fun _ => hstop, hs.awaited⟩
      simpa [hk] using hs.done_iff
  | exit hk hw =>
      have hpos := hs.ticker (by simp [hk])
      exact ⟨by simp, fun _ => by simpa [hk] using hpos, fun _ => hs.stopped (.inl hk),
        fun _ _ => rfl⟩

/-! ## What others can do -/

/-- Nobody else has the handle. -/
theorem handles_of_foreign {s s' : Locking.Sys} {x : Locking.Action} {t : ℕ} {g : Handle}
    (hd : Drawn s) (hg : s.handles t = some g) (hx : foreign t x = true)
    (h : s.step x = some s') : s'.handles t = some g := by
  rcases step_cases h with ⟨key, ttl, fault, -, rfl⟩ | ⟨u, fault, g', -, -, -, rfl⟩ |
    ⟨u, g', rfl, hg', rfl⟩ | ⟨u, fault, g', -, -, -, rfl⟩ | ⟨key, -, rfl⟩
  · rcases tryAcquire_cases fault s.store s.fresh key ttl with ⟨-, -, hres⟩ | ⟨-, err, hres⟩
    · simp only [hres, Sys.give]
      rwa [Function.update_of_ne (hd t g hg).2.1.ne]
    · simpa only [hres, Sys.give] using hg
  · exact hg
  · have hne : u ≠ t := by simpa [foreign] using hx
    exact (Function.update_of_ne hne.symm ..).trans hg
  · exact hg
  · exact hg

theorem holds_set_iff {store : Store} {key k : String} {e : Option Entry} {t : ℕ}
    (he : e.map Entry.token ≠ some t) :
    (store.set key e).holds k t ↔ k ≠ key ∧ store.holds k t := by
  by_cases hk : k = key
  · subst hk
    simp [Store.holds, he]
  · simp [Store.holds, Store.set_other _ hk, hk]

/-- Nobody else stores the token. -/
theorem holds_of_foreign {s s' : Locking.Sys} {x : Locking.Action} {t : ℕ} {k : String}
    (hd : Drawn s) (ht : t < s.fresh) (hx : foreign t x = true) (h : s.step x = some s')
    (hholds : s'.store.holds k t) : s.store.holds k t := by
  rcases step_cases h with ⟨key, ttl, fault, -, rfl⟩ | ⟨u, fault, g, rfl, hg, -, rfl⟩ |
    ⟨u, g, -, -, rfl⟩ | ⟨u, fault, g, rfl, hg, -, rfl⟩ | ⟨key, -, rfl⟩
  · rcases tryAcquire_cases fault s.store s.fresh key ttl with ⟨-, -, hres⟩ | ⟨-, err, hres⟩
    · simp only [hres] at hholds
      exact ((holds_set_iff (by simpa using ht.ne')).mp hholds).2
    · simpa only [hres] using hholds
  · have hne : g.lock.token ≠ t := by
      rw [(hd u g hg).1]
      simpa [foreign] using hx
    cases fault with
    | some err => exact hholds
    | none =>
        rcases s.store.renewScript_cases g.lock.key g.lock.token (g.lock.ttl.tdiv millisecond) with
          ⟨-, hs⟩ | ⟨-, hs⟩
        · simp only [Lock.renew, hs] at hholds
          refine ((holds_set_iff ?_).mp hholds).2
          split_ifs <;> simp [hne]
        · simpa only [Lock.renew, hs] using hholds
  · exact hholds
  · cases fault with
    | some err => exact hholds
    | none =>
        rcases s.store.releaseScript_cases g.lock.key g.lock.token with ⟨-, hs⟩ | ⟨-, hs⟩
        · simp only [Lock.release, hs, one_ne_zero, if_false] at hholds
          exact ((holds_set_iff (by simp)).mp hholds).2
        · simpa only [Lock.release, hs, if_true] using hholds
  · exact ((holds_set_iff (by simp)).mp hholds).2

/-! ## The scripts -/

structure Ledger (s : Sys ι) : Prop where
  drawn : Drawn s.world
  handle : s.world.handles s.lock.token =
    some ⟨s.lock, decide (0 < s.lock.interval ∧ s.keep ≠ .exited)⟩
  released : ∀ n, .released n ∈ s.log → s.done = true
  silent : s.log.Pairwise fun c d => (∃ n, c = .released n) → d ≠ .renewed
  once : s.log.count (.released 1) +
    (if s.world.store.holds s.lock.key s.lock.token then 1 else 0) ≤ 1

omit [DecidableEq ι] in
theorem Ledger.fresh {s : Sys ι} (hs : Ledger s) : s.lock.token < s.world.fresh :=
  (hs.drawn _ _ hs.handle).2.1

omit [DecidableEq ι] in
/-- A step that runs none of the handle's scripts and does not end its goroutine. -/
theorem Ledger.frame {s s' : Sys ι} (hs : Ledger s) (hworld : s'.world = s.world)
    (hlock : s'.lock = s.lock) (hlog : s'.log = s.log) (hdone : s.done = true → s'.done = true)
    (hkeep : s'.keep = .exited ↔ s.keep = .exited) : Ledger s' := by
  obtain ⟨hdrawn, hhandle, hreleased, hsilent, honce⟩ := hs
  refine ⟨hworld ▸ hdrawn, ?_, ?_, hlog ▸ hsilent, ?_⟩
  · simpa only [hworld, hlock, ne_eq, hkeep] using hhandle
  · exact fun n hn => hdone (hreleased n (hlog ▸ hn))
  · rw [hworld, hlock, hlog]
    exact honce

omit [DecidableEq ι] in
theorem release_world {s : Sys ι} (hs : Ledger s) {fault : Option GoError} {w : Locking.Sys}
    (hw : s.world.step (.release s.lock.token fault) = some w) :
    w = { s.world with store := (s.lock.release fault s.world.store).1 } := by
  simp only [Locking.Sys.step, hs.handle, Option.bind_some] at hw
  split_ifs at hw
  exact (Option.some.inj hw).symm

omit [DecidableEq ι] in
theorem renew_world {s : Sys ι} (hs : Ledger s) {fault : Option GoError} {w : Locking.Sys}
    (hw : s.world.step (.renew s.lock.token fault) = some w) :
    w = { s.world with store := s.lock.renew fault s.world.store } := by
  simp only [Locking.Sys.step, hs.handle, Option.bind_some] at hw
  split_ifs at hw
  exact (Option.some.inj hw).symm

omit [DecidableEq ι] in
theorem stop_world {s : Sys ι} (hs : Ledger s) {w : Locking.Sys}
    (hw : s.world.step (.stop s.lock.token) = some w) :
    w = { s.world with
      handles := Function.update s.world.handles s.lock.token (some ⟨s.lock, false⟩) } := by
  simp only [Locking.Sys.step, hs.handle, Option.map_some] at hw
  exact (Option.some.inj hw).symm

/-- The script that deletes the key is the one that uses the token up. -/
theorem once_release {store : Store} {l : Lock} {log : List Command} (fault : Option GoError)
    (honce : log.count (.released 1) + (if store.holds l.key l.token then 1 else 0) ≤ 1) :
    (log ++ executed fault (.released (store.releaseScript l.key l.token).2)).count
        (.released 1) +
      (if (l.release fault store).1.holds l.key l.token then 1 else 0) ≤ 1 := by
  cases fault with
  | some err =>
      change (log ++ []).count _ + _ ≤ 1
      rw [List.append_nil]
      exact honce
  | none =>
      rcases store.releaseScript_cases l.key l.token with ⟨h, hs⟩ | ⟨h, hs⟩
      · have hgone : ¬(store.set l.key none).holds l.key l.token := by simp [Store.holds]
        simp only [h, if_true] at honce
        simp only [executed, Lock.release, hs, one_ne_zero, if_false, hgone, List.count_append,
          Option.isNone_none, if_true, List.count_singleton_self]
        omega
      · simp only [h, if_false] at honce
        simp only [executed, Lock.release, hs, if_true, h, if_false, List.count_append,
          Option.isNone_none]
        simpa using honce

theorem Lock.holds_of_renew {l : Lock} {store : Store} {fault : Option GoError}
    (h : (l.renew fault store).holds l.key l.token) : store.holds l.key l.token := by
  by_contra hno
  cases fault with
  | some err => exact hno h
  | none =>
      rcases store.renewScript_cases l.key l.token (l.ttl.tdiv millisecond) with ⟨hh, -⟩ | ⟨-, hs⟩
      · exact hno hh
      · exact hno (by simpa only [Lock.renew, hs] using h)

omit [DecidableEq ι] in
/-- The token does not come back to the key. -/
theorem Ledger.once_of_imp {s : Sys ι} (hs : Ledger s) {store : Store}
    (h : store.holds s.lock.key s.lock.token → s.world.store.holds s.lock.key s.lock.token) :
    s.log.count (.released 1) + (if store.holds s.lock.key s.lock.token then 1 else 0) ≤ 1 := by
  refine le_trans (Nat.add_le_add_left ?_ _) hs.once
  by_cases hholds : store.holds s.lock.key s.lock.token
  · rw [if_pos hholds, if_pos (h hholds)]
  · rw [if_neg hholds]
    exact Nat.zero_le _

theorem Ledger.step {s s' : Sys ι} {x : Action ι} (hc : Control s) (hs : Ledger s)
    (h : Effect s x s') : Ledger s' := by
  cases h with
  | world hx hw =>
      exact ⟨hs.drawn.step hw, handles_of_foreign hs.drawn hs.handle hx hw, hs.released,
        hs.silent, hs.once_of_imp (holds_of_foreign hs.drawn hs.fresh hx hw)⟩
  | call hi => exact hs.frame rfl rfl rfl id Iff.rfl
  | foundClosed hi hstop => exact hs.frame rfl rfl rfl id Iff.rfl
  | foundOpen hi hstop => exact hs.frame rfl rfl rfl id Iff.rfl
  | closed hi hstop => exact hs.frame rfl rfl rfl id Iff.rfl
  | closedTwice hi hstop => exact hs.frame rfl rfl rfl id Iff.rfl
  | await hi hdone => exact hs.frame rfl rfl rfl id Iff.rfl
  | @script i fault w hi hw =>
      have hdone := hs.drawn.step hw
      obtain rfl := release_world hs hw
      refine ⟨hdone, hs.handle, fun _ _ => hc.awaited i (.inl hi), ?_, once_release fault hs.once⟩
      refine List.pairwise_append.mpr ⟨hs.silent, ?_, ?_⟩
      · cases fault <;> simp [executed]
      · cases fault <;> simp [executed]
  | start hk hpos => exact hs.frame rfl rfl rfl id (by simp [hk])
  | crash hk hpos => exact hs.frame rfl rfl rfl (fun _ => rfl) (by simp [hk])
  | tick hk => exact hs.frame rfl rfl rfl id (by simp [hk])
  | @renew fault w hk hw =>
      have hdrawn := hs.drawn.step hw
      obtain rfl := renew_world hs hw
      -- the goroutine still runs, so no script has released anything
      have hnone : ∀ n, .released n ∉ s.log := by
        intro n hn
        have hdone := hc.done_iff.mp (hs.released n hn)
        simp [hk] at hdone
      have hhandle := hs.handle
      refine ⟨hdrawn, by simpa [hk] using hhandle, ?_, ?_, ?_⟩
      · cases fault <;> simp [executed, hnone]
      · refine List.pairwise_append.mpr ⟨hs.silent, ?_, ?_⟩
        · cases fault <;> simp [executed]
        · rintro c hmem d - ⟨n, rfl⟩
          exact absurd hmem (hnone n)
      · have hcount : (s.log ++ executed fault .renewed).count (.released 1) =
            s.log.count (.released 1) := by cases fault <;> simp [executed]
        rw [hcount]
        exact hs.once_of_imp Lock.holds_of_renew
  | seeStop hk hstop => exact hs.frame rfl rfl rfl id (by simp [hk])
  | exit hk hw =>
      have hdrawn := hs.drawn.step hw
      obtain rfl := stop_world hs hw
      exact ⟨hdrawn, by simp, fun _ _ => rfl, hs.silent, hs.once⟩

theorem Lock.holds_of_release {l : Lock} {store : Store} {fault : Option GoError}
    (h : (l.release fault store).1.holds l.key l.token) :
    fault ≠ none ∧ store.holds l.key l.token := by
  cases fault with
  | some err => exact ⟨by simp, h⟩
  | none =>
      rcases store.releaseScript_cases l.key l.token with ⟨-, hs⟩ | ⟨hno, hs⟩
      · simp [Lock.release, hs, Store.holds] at h
      · exact absurd (by simpa [Lock.release, hs] using h) hno

/-- No step brings the token back, and a script that runs takes it away. -/
theorem Ledger.holds_of_step {s s' : Sys ι} {x : Action ι} (hs : Ledger s) (h : Effect s x s')
    (hholds : s'.world.store.holds s'.lock.key s'.lock.token) :
    s.world.store.holds s.lock.key s.lock.token ∧ ∀ i, x ≠ .script i none := by
  cases h with
  | world hx hw => exact ⟨holds_of_foreign hs.drawn hs.fresh hx hw hholds, by simp⟩
  | script hi hw =>
      obtain rfl := release_world hs hw
      obtain ⟨hfault, hbefore⟩ := Lock.holds_of_release hholds
      exact ⟨hbefore, fun i hx => hfault (Action.script.inj hx).2⟩
  | renew hk hw =>
      obtain rfl := renew_world hs hw
      exact ⟨Lock.holds_of_renew hholds, by simp⟩
  | exit hk hw =>
      obtain rfl := stop_world hs hw
      exact ⟨hholds, by simp⟩
  | call hi => exact ⟨hholds, by simp⟩
  | foundClosed hi hstop => exact ⟨hholds, by simp⟩
  | foundOpen hi hstop => exact ⟨hholds, by simp⟩
  | closed hi hstop => exact ⟨hholds, by simp⟩
  | closedTwice hi hstop => exact ⟨hholds, by simp⟩
  | await hi hdone => exact ⟨hholds, by simp⟩
  | start hk hpos => exact ⟨hholds, by simp⟩
  | crash hk hpos => exact ⟨hholds, by simp⟩
  | tick hk => exact ⟨hholds, by simp⟩
  | seeStop hk hstop => exact ⟨hholds, by simp⟩

/-- A client has just got this handle. -/
def Acquired (w : Locking.Sys) (l : Lock) : Prop :=
  ∃ xs s fault, run Locking.Sys.step start xs = some s ∧
    (tryAcquire fault s.store s.fresh l.key l.ttl).2 = .ok l ∧
    s.step (.tryAcquire l.key l.ttl fault) = some w

/-- The first handle of all. -/
def firstWorld (ttl : ℤ) : Locking.Sys := (start.step (.tryAcquire "k" ttl none)).getD start

theorem acquired_first (ttl : ℤ) : Acquired (firstWorld ttl) ⟨"k", 0, ttl⟩ :=
  ⟨[], start, none, rfl, rfl, rfl⟩

omit [DecidableEq ι] in
theorem ledger_acquired {w : Locking.Sys} {l : Lock} (hl : Acquired w l) :
    Ledger (acquired w l : Sys ι) := by
  obtain ⟨xs, s, fault, hxs, hok, hw⟩ := hl
  have hdrawn := (drawn_of_run hxs).step hw
  rcases tryAcquire_cases fault s.store s.fresh l.key l.ttl with ⟨-, -, hres⟩ | ⟨-, err, hres⟩
  · have hl : ⟨l.key, s.fresh, l.ttl⟩ = l := by simpa [hres] using hok
    have htoken : l.token = s.fresh := (congrArg Lock.token hl).symm
    refine ⟨hdrawn, ?_, by simp [acquired], by simp [acquired], ?_⟩
    · have hhandles : w.handles = s.give (tryAcquire fault s.store s.fresh l.key l.ttl).2 :=
        congrArg Locking.Sys.handles (Option.some.inj hw).symm
      simp [acquired, hhandles, hok, Locking.Sys.give, htoken]
    · split_ifs <;> simp [acquired]
  · simp [hres] at hok

theorem reached {w : Locking.Sys} {l : Lock} (hl : Acquired w l) {xs : List (Action ι)}
    {s : Sys ι} (h : run Sys.step (acquired w l) xs = some s) : Control s ∧ Ledger s :=
  run_forall (P := fun s => Control s ∧ Ledger s)
    (fun _ _ _ hs hx => ⟨hs.1.step (step_iff.mp hx), hs.2.step hs.1 (step_iff.mp hx)⟩)
    ⟨control_acquired w l, ledger_acquired hl⟩ h

theorem lock_eq {w : Locking.Sys} {l : Lock} {xs : List (Action ι)} {s : Sys ι}
    (h : run Sys.step (acquired w l) xs = some s) : s.lock = l :=
  run_forall (P := fun s => s.lock = l)
    (fun s x t hs hx => by cases step_iff.mp hx <;> exact hs) rfl h

/-! ## Calls beside each other -/

/-- No call tests the stop channel while another one is about to close it. -/
def Apart (s : Sys ι) : Action ι → Prop
  | .test _ => ∀ j, s.calls j ≠ .closing
  | _ => True

instance [Fintype ι] (s : Sys ι) (x : Action ι) : Decidable (Apart s x) :=
  match x with
  | .test _ => inferInstanceAs (Decidable (∀ j, s.calls j ≠ .closing))
  | .world _ | .call _ | .close _ | .await _ | .script _ _ | .start | .tick | .renew _ | .seeStop
  | .exit => isTrue trivial

structure Single (s : Sys ι) : Prop where
  safe : ∀ i, s.calls i ≠ .panicked
  unstopped : ∀ i, s.calls i = .closing → s.stop = false
  unique : ∀ i j, s.calls i = .closing → s.calls j = .closing → i = j

omit [DecidableEq ι] in
theorem single_acquired (w : Locking.Sys) (l : Lock) : Single (acquired w l : Sys ι) := by
  constructor <;> simp [acquired]

/-- A call that goes on and is not about to close the channel. -/
theorem Single.setCall {s : Sys ι} (hs : Single s) (i : ι) {c : Call} (hsafe : c ≠ .panicked)
    (hc : c ≠ .closing) : Single (s.setCall i c) := by
  have hcalls : ∀ j, (s.setCall i c).calls j = .closing → s.calls j = .closing := by
    intro j hj
    by_cases hji : j = i
    · subst hji
      simp [Sys.setCall, hc] at hj
    · simpa [Sys.setCall, hji] using hj
  refine ⟨fun j => ?_, fun j hj => hs.unstopped j (hcalls j hj),
    fun j k hj hk => hs.unique j k (hcalls j hj) (hcalls k hk)⟩
  by_cases hji : j = i
  · simpa [Sys.setCall, hji] using hsafe
  · simpa [Sys.setCall, hji] using hs.safe j

theorem Single.step {s s' : Sys ι} {x : Action ι} (hs : Single s) (hx : Apart s x)
    (h : Effect s x s') : Single s' := by
  cases h with
  | world hf hw => exact ⟨hs.safe, hs.unstopped, hs.unique⟩
  | call hi => exact hs.setCall _ (by simp) (by simp)
  | foundClosed hi hstop => exact hs.setCall _ (by simp) (by simp)
  | @foundOpen i hi hstop =>
      -- the only call that is about to close the channel is this one
      have honly : ∀ j, (s.setCall i .closing).calls j = .closing → j = i := by
        intro j hj
        by_contra hji
        exact hx j (by simpa [Sys.setCall, hji] using hj)
      refine ⟨fun j => ?_, fun _ _ => hstop, fun j k hj hk => (honly j hj).trans (honly k hk).symm⟩
      by_cases hji : j = i
      · simp [Sys.setCall, hji]
      · simpa [Sys.setCall, hji] using hs.safe j
  | @closed i hi hstop =>
      have hcall := hs.setCall i (c := .waiting) (by simp) (by simp)
      refine ⟨hcall.safe, fun j hj => ?_, hcall.unique⟩
      by_cases hji : j = i
      · simp [Sys.setCall, hji] at hj
      · exact absurd (hs.unique j i (by simpa [Sys.setCall, hji] using hj) hi) hji
  | closedTwice hi hstop => simp [hs.unstopped _ hi] at hstop
  | await hi hdone => exact hs.setCall _ (by simp) (by simp)
  | @script i fault w hi hw =>
      have hcall := hs.setCall i (c := .returned (s.lock.release fault s.world.store).2)
        (by simp) (by simp)
      exact ⟨hcall.safe, hcall.unstopped, hcall.unique⟩
  | start hk hpos => exact ⟨hs.safe, hs.unstopped, hs.unique⟩
  | crash hk hpos => exact ⟨hs.safe, hs.unstopped, hs.unique⟩
  | tick hk => exact ⟨hs.safe, hs.unstopped, hs.unique⟩
  | renew hk hw => exact ⟨hs.safe, hs.unstopped, hs.unique⟩
  | seeStop hk hstop => exact ⟨hs.safe, hs.unstopped, hs.unique⟩
  | exit hk hw => exact ⟨hs.safe, hs.unstopped, hs.unique⟩

/-! ## Returning -/

/-- The call returns after a few steps of its own. -/
def Returns (s : Sys ι) (i : ι) (n : ℕ) : Prop :=
  ∃ ys s' err, ys.length ≤ n ∧ (∀ y ∈ ys, y = .test i ∨ y = .close i ∨ y = .await i ∨
    ∃ fault, y = .script i fault) ∧ run Sys.step s ys = some s' ∧ s'.calls i = .returned err

theorem Returns.cons {s t : Sys ι} {i : ι} {n : ℕ} {x : Action ι} (ht : Returns t i n)
    (hx : x = .test i ∨ x = .close i ∨ x = .await i ∨ ∃ fault, x = .script i fault)
    (h : Effect s x t) : Returns s i (n + 1) := by
  obtain ⟨ys, s', err, hlength, hown, hrun, hret⟩ := ht
  refine ⟨x :: ys, s', err, Nat.succ_le_succ hlength, ?_, ?_, hret⟩
  · intro y hy
    rcases List.mem_cons.mp hy with rfl | hy
    · exact hx
    · exact hown y hy
  · exact run_cons_eq_some.mpr ⟨t, step_iff.mpr h, hrun⟩

theorem returns_of_running {s : Sys ι} (hc : Control s) (hs : Ledger s) {i : ι}
    (hi : s.calls i = .running) : Returns s i 1 := by
  have hdead : ¬(0 < s.lock.interval ∧ s.keep ≠ .exited) := by
    rintro ⟨hpos, hkeep⟩
    rcases hc.done_iff.mp (hc.awaited i (.inl hi)) with hk | hk
    · exact hkeep hk
    · exact (hc.ticker (by simp [hk])).mp hk hpos
  have hw : s.world.step (.release s.lock.token none) =
      some { s.world with store := (s.lock.release none s.world.store).1 } := by
    simp [Locking.Sys.step, hs.handle, hdead]
  refine Returns.cons ?_ (.inr (.inr (.inr ⟨none, rfl⟩))) (.script hi hw)
  exact ⟨[], _, _, le_rfl, by simp, rfl, Function.update_self ..⟩

theorem returns_of_waiting {s : Sys ι} (hc : Control s) (hs : Ledger s) (hdone : s.done = true)
    {i : ι} (hi : s.calls i = .waiting) : Returns s i 2 := by
  have h : Effect s (.await i) (s.setCall i .running) := .await hi hdone
  refine Returns.cons ?_ (.inr (.inr (.inl rfl))) h
  exact returns_of_running (hc.step h) (hs.step hc h) (Function.update_self ..)

theorem returns_of_closing {s : Sys ι} (hc : Control s) (hs : Ledger s) (hdone : s.done = true)
    {i : ι} (hi : s.calls i = .closing) (hstop : s.stop = false) : Returns s i 3 := by
  have h : Effect s (.close i) { s.setCall i .waiting with stop := true } := .closed hi hstop
  refine Returns.cons ?_ (.inr (.inl rfl)) h
  exact returns_of_waiting (hc.step h) (hs.step hc h) hdone (Function.update_self ..)

theorem returns_of_testing {s : Sys ι} (hc : Control s) (hs : Ledger s) (hdone : s.done = true)
    {i : ι} (hi : s.calls i = .testing) : Returns s i 4 := by
  cases hstop : s.stop with
  | false =>
      have h : Effect s (.test i) (s.setCall i .closing) := .foundOpen hi hstop
      refine Returns.cons ?_ (.inl rfl) h
      exact returns_of_closing (hc.step h) (hs.step hc h) hdone (Function.update_self ..) hstop
  | true =>
      have h : Effect s (.test i) (s.setCall i .waiting) := .foundClosed hi hstop
      obtain ⟨ys, s', err, hlength, hrest⟩ := Returns.cons
        (returns_of_waiting (hc.step h) (hs.step hc h) hdone (Function.update_self ..))
        (.inl rfl) h
      exact ⟨ys, s', err, hlength.trans (by decide), hrest⟩

/-- Calls of `Release` that do not meet between the test and the close of the stop channel do
not panic; the key is deleted at most once, a call returns by its own steps once the goroutine
is gone, and no renewal stands behind a release.  Two calls that do meet can panic. -/
theorem release_repeatable {w : Locking.Sys} {l : Lock} (hl : Acquired w l)
    {xs : List (Action ι)} {s : Sys ι} (hxs : Along Sys.step Apart (acquired w l) xs)
    (h : run Sys.step (acquired w l) xs = some s) :
    (∀ i, s.calls i ≠ .panicked) ∧
    s.log.count (.released 1) ≤ 1 ∧
    (s.done = true → ∀ i, s.calls i = .idle ∨ (∃ err, s.calls i = .returned err) ∨
      Returns s i 4) ∧
    s.log.Pairwise (fun c d => (∃ n, c = .released n) → d ≠ .renewed) ∧
    ∀ i, s.calls i = .testing → ¬Apart s (.test i) →
      ∃ ys s', run Sys.step s (.test i :: ys) = some s' ∧ s'.calls i = .panicked := by
  obtain ⟨hc, hs⟩ := reached hl h
  have hsingle : Single s := run_invariant (P := Single)
    (fun _ _ _ hs hx hstep => hs.step hx (step_iff.mp hstep)) (single_acquired w l) hxs h
  refine ⟨hsingle.safe, le_trans (Nat.le_add_right _ _) hs.once, ?_, hs.silent, ?_⟩
  · intro hdone i
    have hmono : ∀ {n}, n ≤ 4 → Returns s i n → Returns s i 4 :=
      fun hn ⟨ys, s', err, hlength, hrest⟩ => ⟨ys, s', err, hlength.trans hn, hrest⟩
    cases hi : s.calls i with
    | idle => exact .inl rfl
    | testing => exact .inr (.inr (returns_of_testing hc hs hdone hi))
    | closing =>
        exact .inr (.inr (hmono (by decide)
          (returns_of_closing hc hs hdone hi (hsingle.unstopped i hi))))
    | waiting => exact .inr (.inr (hmono (by decide) (returns_of_waiting hc hs hdone hi)))
    | running => exact .inr (.inr (hmono (by decide) (returns_of_running hc hs hi)))
    | returned err => exact .inr (.inl ⟨err, rfl⟩)
    | panicked => exact absurd hi (hsingle.safe i)
  · intro i hi hmeet
    obtain ⟨j, hj⟩ : ∃ j, s.calls j = .closing := by simpa [Apart] using hmeet
    have hji : j ≠ i := by
      rintro rfl
      simp [hi] at hj
    have hstop := hsingle.unstopped j hj
    -- both calls have found the channel open; this one comes second
    refine ⟨[.close j, .close i],
      Sys.setCall { (s.setCall i .closing).setCall j .waiting with stop := true } i .panicked,
      run_cons_eq_some.mpr ⟨_, step_iff.mpr (.foundOpen hi hstop), ?_⟩, Function.update_self ..⟩
    refine run_cons_eq_some.mpr ⟨_, step_iff.mpr (.closed ?_ hstop), ?_⟩
    · simpa [Sys.setCall, hji] using hj
    refine run_cons_eq_some.mpr ⟨_, step_iff.mpr (.closedTwice ?_ rfl), rfl⟩
    simp [Sys.setCall, hji.symm]

/-- Two calls that both wait for the goroutine. -/
def twoReleases : List (Action (Fin 2)) :=
  [.call 0, .call 1, .start, .tick, .renew none, .test 0, .close 0, .test 1, .seeStop, .exit,
    .await 0, .script 0 none, .await 1, .script 1 none]

theorem second_release_returns :
    ∃ s, run Sys.step (acquired (firstWorld 30000000000) ⟨"k", 0, 30000000000⟩) twoReleases =
        some s ∧ (∀ i, s.calls i ≠ .panicked) ∧ s.log.count (.released 1) ≤ 1 := by
  obtain ⟨s, hs⟩ := Option.isSome_iff_exists.mp (by decide : (run Sys.step
    (acquired (firstWorld 30000000000) ⟨"k", 0, 30000000000⟩) twoReleases).isSome = true)
  have hapart : Along Sys.step Apart
      (acquired (firstWorld 30000000000) ⟨"k", 0, 30000000000⟩) twoReleases := by decide
  obtain ⟨hsafe, honce, -⟩ := release_repeatable (acquired_first 30000000000) hapart hs
  exact ⟨s, hs, hsafe, honce⟩

/-- Two calls both find the stop channel open, and the second close panics. -/
theorem second_close_panics :
    ((run Sys.step (acquired (firstWorld 30000000000) ⟨"k", 0, 30000000000⟩ : Sys (Fin 2))
      [.call 0, .call 1, .test 0, .test 1, .close 0, .close 1]).map fun s =>
        (s.calls 0, s.calls 1)) = some (.waiting, .panicked) := by
  decide

/-! ## The lease -/

/-- The goroutine does not panic, and no renewal takes the token from the key. -/
def Kept (ι : Type) [DecidableEq ι] (ttl : ℤ) : Prop :=
  ∀ w l (xs : List (Action ι)) s, Acquired w l → l.ttl = ttl →
    run Sys.step (acquired w l) xs = some s →
    s.keep ≠ .panicked ∧ ∀ fault s', s.step (.renew fault) = some s' →
      s.world.store.holds l.key l.token → s'.world.store.holds l.key l.token

/-- A renewal to a lease of no milliseconds deletes the key. -/
theorem not_holds_renew {l : Lock} (hzero : l.ttl.tdiv millisecond = 0) (store : Store) :
    ¬(l.renew none store).holds l.key l.token := by
  rcases store.renewScript_cases l.key l.token (l.ttl.tdiv millisecond) with ⟨-, hs⟩ | ⟨hno, hs⟩
  · simp only [Lock.renew, hs]
    simp [hzero, Store.holds]
  · simpa only [Lock.renew, hs] using hno

/-- The period of the ticker is counted in nanoseconds and the renewed lease in whole
milliseconds, so the lease has to last one. -/
theorem keepalive_keeps_iff (ι : Type) [DecidableEq ι] (ttl : ℤ) :
    Kept ι ttl ↔ millisecond ≤ ttl := by
  constructor
  · intro hkept
    by_contra hshort
    rw [not_le] at hshort
    by_cases h3 : 3 ≤ ttl
    · -- the first renewal deletes the key
      have hpos : 0 < (⟨"k", 0, ttl⟩ : Lock).interval := (Lock.interval_pos_iff _).mpr h3
      have hzero : ttl.tdiv millisecond = 0 := Int.tdiv_eq_zero_of_lt (by omega) hshort
      have hrun : run Sys.step (acquired (firstWorld ttl) ⟨"k", 0, ttl⟩ : Sys ι) [.start, .tick] =
          some { acquired (firstWorld ttl) ⟨"k", 0, ttl⟩ with keep := .renewing } := by
        simp [run, Sys.step, acquired, hpos]
      have hheld : (firstWorld ttl).store.holds "k" 0 := by
        simp [firstWorld, Locking.Sys.step, tryAcquire, start, Store.setNX, Store.holds]
      have hhandle := (ledger_acquired (ι := ι) (acquired_first ttl)).handle
      have hw : (firstWorld ttl).step (.renew 0 none) = some { firstWorld ttl with
          store := (⟨"k", 0, ttl⟩ : Lock).renew none (firstWorld ttl).store } := by
        simp only [acquired] at hhandle
        simp [Locking.Sys.step, hhandle, hpos]
      obtain ⟨-, hrenew⟩ := hkept _ _ _ _ (acquired_first ttl) rfl hrun
      exact not_holds_renew hzero _ (hrenew none _ (step_iff.mpr (.renew rfl hw)) hheld)
    · have hpos : ¬0 < (⟨"k", 0, ttl⟩ : Lock).interval := mt (Lock.interval_pos_iff _).mp h3
      have hrun : run Sys.step (acquired (firstWorld ttl) ⟨"k", 0, ttl⟩ : Sys ι) [.start] =
          some _ :=
        run_cons_eq_some.mpr ⟨_, step_iff.mpr (.crash rfl hpos), rfl⟩
      exact (hkept _ _ _ _ (acquired_first ttl) rfl hrun).1 rfl
  · intro hms w l xs s hl httl hrun
    obtain ⟨hc, hs⟩ := reached hl hrun
    obtain rfl := lock_eq hrun
    have hpos : 0 < s.lock.interval := by
      rw [Lock.interval_pos_iff, httl]
      exact le_trans (by decide) hms
    refine ⟨fun hk => (hc.ticker (by simp [hk])).mp hk hpos, fun fault s' hstep hholds => ?_⟩
    cases step_iff.mp hstep with
    | renew hk hw =>
        obtain rfl := renew_world hs hw
        exact Lock.holds_renew hholds (httl ▸ hms) fault

/-- Without a lease the goroutine panics, and a lease of half a millisecond loses its key to
the first renewal. -/
theorem short_leases_lost :
    (run Sys.step (acquired (firstWorld 0) ⟨"k", 0, 0⟩ : Sys Unit) [.start]).map Sys.keep =
        some .panicked ∧
      (firstWorld 500000).store.holds "k" 0 ∧
      (run Sys.step (acquired (firstWorld 500000) ⟨"k", 0, 500000⟩ : Sys Unit)
        [.start, .tick, .renew none]).map (fun s => (s.log, s.world.store "k")) =
          some ([.renewed], none) := by
  decide

end Gkit.Locking.Watched
