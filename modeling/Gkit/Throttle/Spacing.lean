import Gkit.Lib.Channels
import Gkit.Lib.Runs

/-!
# The throttle of package `async`

The ticker fires at each multiple of the limit after the creation, and the
goroutine replenishes the permit then and there; time does not pass a tick that
has not fired.  Calls of the throttled function come at any time, also on a tick,
before or after it fires.  A permit that is taken between two ticks is replaced
less than a limit later.
-/

namespace Gkit.Throttle

open Gkit.Lib

structure Sys where
  limit : ℤ
  clock : ℤ
  /-- The ticks that have fired. -/
  ticks : ℕ
  permit : Chan Unit
  deriving DecidableEq

inductive Action where
  | advance (d : ℕ)
  | tick
  | call
  deriving DecidableEq

/-- `Throttle`; the error is the text that `time.NewTicker` panics with. -/
def throttle (limit : ℤ) : Except String Sys :=
  if limit ≤ 0 then .error "non-positive interval for NewTicker"
  else .ok ⟨limit, 0, 0, ⟨[()], 1, false⟩⟩

namespace Sys

/-- The time of the latest tick, or of the creation. -/
def last (s : Sys) : ℤ := s.ticks * s.limit

def due (s : Sys) : ℤ := s.last + s.limit

/-- The `select` with a default case. -/
def replenish (s : Sys) : Chan Unit :=
  match s.permit.send () with
  | .ready ch => ch
  | _ => s.permit

/-- The throttled function; the permit it takes, if there is one. -/
def call (s : Sys) : Sys :=
  match s.permit.recv with
  | .ready (_, ch) => { s with permit := ch }
  | _ => s

def step (s : Sys) : Action → Option Sys
  | .advance d => if s.clock + d ≤ s.due then some { s with clock := s.clock + d } else none
  | .tick =>
      if s.clock = s.due then some { s with ticks := s.ticks + 1, permit := s.replenish } else none
  | .call => some s.call

end Sys

/-- The times at which `fn` is called. -/
def invocations (s : Sys) : Action → List ℤ
  | .call =>
      match s.permit.recv with
      | .ready _ => [s.clock]
      | _ => []
  | _ => []

/-- A call that gets a permit gets it at the time of the latest tick. -/
def OnTick (s : Sys) : Action → Prop
  | .call => s.permit.buf ≠ [] → s.clock = s.last
  | _ => True

instance (s : Sys) : ∀ x, Decidable (OnTick s x)
  | .call => inferInstanceAs (Decidable (s.permit.buf ≠ [] → s.clock = s.last))
  | .advance _ | .tick => inferInstanceAs (Decidable True)

/-- At least the limit apart. -/
def Spaced (limit : ℤ) (times : List ℤ) : Prop := times.Pairwise fun t t' => t + limit ≤ t'

/-! ## What a step can do -/

structure Sound (limit : ℤ) (s : Sys) : Prop where
  interval : s.limit = limit
  positive : 0 < limit
  notBefore : s.last ≤ s.clock
  notAfter : s.clock ≤ s.due
  permit : s.permit = ⟨[()], 1, false⟩ ∨ s.permit = ⟨[], 1, false⟩

inductive Effect (s : Sys) : Action → List ℤ → Sys → Prop where
  | advanced {d : ℕ} (h : s.clock + d ≤ s.due) :
      Effect s (.advance d) [] { s with clock := s.clock + d }
  | ticked (h : s.clock = s.due) :
      Effect s .tick [] { s with ticks := s.ticks + 1, permit := ⟨[()], 1, false⟩ }
  | invoked (h : s.permit = ⟨[()], 1, false⟩) :
      Effect s .call [s.clock] { s with permit := ⟨[], 1, false⟩ }
  | dropped (h : s.permit = ⟨[], 1, false⟩) : Effect s .call [] s

variable {limit : ℤ} {s s' : Sys} {x : Action} {times : List ℤ}

theorem invoke (hp : s.permit = ⟨[()], 1, false⟩) :
    s.step .call = some { s with permit := ⟨[], 1, false⟩ } ∧
      invocations s .call = [s.clock] := by
  simp only [Sys.step, Sys.call, invocations, hp]
  exact ⟨rfl, rfl⟩

theorem Sound.replenish_eq (hs : Sound limit s) : s.replenish = ⟨[()], 1, false⟩ := by
  rcases hs.permit with hp | hp
  · rw [Sys.replenish, hp]; rfl
  · rw [Sys.replenish, hp]; rfl

theorem Sound.effect (hs : Sound limit s) (h : s.step x = some s') :
    ∃ new, invocations s x = new ∧ Effect s x new s' := by
  cases x with
  | advance d =>
      simp only [Sys.step] at h
      split_ifs at h with hdue
      exact ⟨[], rfl, Option.some.inj h ▸ .advanced hdue⟩
  | tick =>
      simp only [Sys.step, hs.replenish_eq] at h
      split_ifs at h with hdue
      exact ⟨[], rfl, Option.some.inj h ▸ .ticked hdue⟩
  | call =>
      rcases hs.permit with hp | hp
      · obtain ⟨hcall, htimes⟩ := invoke hp
        obtain rfl := Option.some.inj (hcall.symm.trans h)
        exact ⟨[s.clock], htimes, .invoked hp⟩
      · simp only [Sys.step, Sys.call, hp] at h
        obtain rfl := Option.some.inj h
        refine ⟨[], ?_, .dropped hp⟩
        rw [invocations, hp]
        rfl

theorem last_tick (s : Sys) (permit : Chan Unit) :
    Sys.last { s with ticks := s.ticks + 1, permit := permit } = s.due := by
  simp only [Sys.last, Sys.due]
  push_cast
  ring

theorem Sound.step (hs : Sound limit s) (h : s.step x = some s') : Sound limit s' := by
  obtain ⟨new, -, heffect⟩ := hs.effect h
  cases heffect with
  | @advanced d hdue =>
      have hlater : s.clock ≤ s.clock + d := by omega
      exact { hs with notBefore := hs.notBefore.trans hlater, notAfter := hdue }
  | ticked hdue =>
      have hlast := last_tick s ⟨[()], 1, false⟩
      refine { hs with notBefore := (hlast.trans hdue.symm).le, notAfter := ?_, permit := .inl rfl }
      rw [Sys.due, hlast, hs.interval, ← hdue]
      exact le_add_of_nonneg_right hs.positive.le
  | invoked hp => exact { hs with permit := .inr rfl }
  | dropped hp => exact hs

theorem sound_throttle (h : throttle limit = .ok s) : Sound limit s := by
  unfold throttle at h
  split_ifs at h with hlimit
  obtain rfl := Except.ok.inj h
  have hpos : 0 < limit := not_le.mp hlimit
  refine ⟨rfl, hpos, ?_, ?_, .inl rfl⟩
  · simp [Sys.last]
  · simp [Sys.due, Sys.last, hpos.le]

/-! ## Calls on the ticks -/

/-- As long as all calls are made on ticks, a permit is a limit away from them. -/
structure Kept (limit : ℤ) (s : Sys) (times : List ℤ) : Prop where
  spaced : Spaced limit times
  past : ∀ t ∈ times, t ≤ s.last
  apart : s.permit.buf ≠ [] → ∀ t ∈ times, t + limit ≤ s.last

theorem Kept.step (hk : Kept limit s times) (hs : Sound limit s) (hx : OnTick s x)
    (h : s.step x = some s') : Kept limit s' (times ++ invocations s x) := by
  obtain ⟨new, hnew, heffect⟩ := hs.effect h
  rw [hnew]
  cases heffect with
  | advanced hdue =>
      rw [List.append_nil]
      exact { hk with }
  | ticked hdue =>
      have hlast := last_tick s ⟨[()], 1, false⟩
      rw [List.append_nil]
      refine ⟨hk.spaced, fun t ht => ?_, fun _ t ht => ?_⟩
      · rw [hlast, Sys.due, hs.interval]
        exact (hk.past t ht).trans (le_add_of_nonneg_right hs.positive.le)
      · rw [hlast, Sys.due, hs.interval]
        exact add_le_add_left (hk.past t ht) limit
  | invoked hp =>
      have hfull : s.permit.buf ≠ [] := by rw [hp]; nofun
      have hclock : s.clock = s.last := hx hfull
      refine ⟨?_, ?_, fun hne => absurd rfl hne⟩
      · apply List.pairwise_append.mpr
        refine ⟨hk.spaced, List.pairwise_singleton _ _, fun t ht t' ht' => ?_⟩
        rw [List.mem_singleton.mp ht', hclock]
        exact hk.apart hfull t ht
      · intro t ht
        rcases List.mem_append.mp ht with hold | hnew
        · exact hk.past t hold
        · exact ((List.mem_singleton.mp hnew).trans hclock).le
  | dropped hp =>
      rw [List.append_nil]
      exact hk

/-! ## Calls between two ticks -/

/-- The permit is back at the next tick. -/
theorem exists_close_call (hs : Sound limit s) (hx : ¬ OnTick s .call) :
    ∃ ys s', run Sys.step s (.call :: ys) = some s' ∧
      ¬ Spaced limit (collect Sys.step invocations s (.call :: ys)) := by
  obtain ⟨hfull, hoff⟩ : s.permit.buf ≠ [] ∧ s.clock ≠ s.last := by
    simpa only [OnTick, Classical.not_imp] using hx
  have hp : s.permit = ⟨[()], 1, false⟩ :=
    hs.permit.resolve_right fun hempty => hfull (by rw [hempty])
  have hlast : s.last < s.clock := hs.notBefore.lt_of_ne' hoff
  obtain ⟨d, hd⟩ := Int.le.dest hs.notAfter
  let taken : Sys := { s with permit := ⟨[], 1, false⟩ }
  let onTick : Sys := { taken with clock := taken.clock + d }
  let ticked : Sys := { onTick with ticks := onTick.ticks + 1, permit := ⟨[()], 1, false⟩ }
  obtain ⟨hcall, htimes⟩ := invoke hp
  have hadvance : taken.step (.advance d) = some onTick := if_pos hd.le
  have htick : onTick.step .tick = some ticked := if_pos hd
  obtain ⟨hcall', htimes'⟩ := invoke (s := ticked) rfl
  refine ⟨[.advance d, .tick, .call], _, run_cons_eq_some.mpr ⟨taken, hcall,
    run_cons_eq_some.mpr ⟨onTick, hadvance, run_cons_eq_some.mpr ⟨ticked, htick,
      run_cons_eq_some.mpr ⟨_, hcall', rfl⟩⟩⟩⟩, fun hspaced => ?_⟩
  have hlog : collect Sys.step invocations s [.call, .advance d, .tick, .call] =
      [s.clock, s.clock + d] := by
    rw [collect_cons hcall, collect_cons hadvance, collect_cons htick, collect_cons hcall', htimes,
      htimes']
    rfl
  rw [hlog] at hspaced
  have hclose := List.rel_of_pairwise_cons hspaced (List.mem_singleton_self _)
  rw [hd, Sys.due, hs.interval] at hclose
  exact absurd hlast (not_lt.mpr (le_of_add_le_add_right hclose))

/-- The calls of `fn` are a limit apart as long as each is made at the time of a
tick; any other call of it can be followed too early by the next. -/
theorem invocations_spaced {s₀ : Sys} {xs : List Action} (hnew : throttle limit = .ok s₀)
    (hrun : run Sys.step s₀ xs = some s) :
    (Along Sys.step OnTick s₀ xs → Spaced limit (collect Sys.step invocations s₀ xs)) ∧
      (¬ OnTick s .call → ∃ ys s', run Sys.step s₀ (xs ++ .call :: ys) = some s' ∧
        ¬ Spaced limit (collect Sys.step invocations s₀ (xs ++ .call :: ys))) := by
  have hsound := sound_throttle hnew
  have hs : Sound limit s := run_forall (fun _ _ _ ht h => ht.step h) hsound hrun
  refine ⟨fun halong => ?_, fun hx => ?_⟩
  · have hkept : Sound limit s ∧ Kept limit s (collect Sys.step invocations s₀ xs) := by
      refine run_collect (P := fun t log => Sound limit t ∧ Kept limit t log) (C := OnTick) ?_
        ⟨hsound, List.Pairwise.nil, nofun, fun _ => nofun⟩ halong hrun
      rintro t log x u ⟨ht, hk⟩ hx hu
      exact ⟨ht.step hu, hk.step ht hx hu⟩
    exact hkept.2.spaced
  · obtain ⟨ys, s', hys, hclose⟩ := exists_close_call hs hx
    refine ⟨ys, s', run_append_eq_some.mpr ⟨s, hrun, hys⟩, fun hspaced => hclose ?_⟩
    rw [collect_append hrun] at hspaced
    exact (List.pairwise_append.mp hspaced).2.1

/-- A call just before a tick, and one just after it. -/
def aroundTick : List Action := [.advance 99, .call, .advance 1, .tick, .call]

theorem around_tick_too_close : ∃ s₀ s : Sys, throttle 100 = .ok s₀ ∧
    run Sys.step s₀ aroundTick = some s ∧
      collect Sys.step invocations s₀ aroundTick = [99, 100] ∧ ¬ Spaced 100 [99, 100] :=
  ⟨_, _, rfl, rfl, by decide, by simp [Spaced]⟩

/-- A call at the creation, a second that is dropped, and one on the first tick. -/
theorem on_ticks_spaced : ∃ s₀ : Sys, throttle 100 = .ok s₀ ∧
    Spaced 100 (collect Sys.step invocations s₀
      [.call, .call, .advance 100, .tick, .call]) :=
  ⟨_, rfl, (invocations_spaced (show throttle 100 = .ok _ from rfl)
    (show run Sys.step _ [.call, .call, .advance 100, .tick, .call] = some _ from rfl)).1
      (by decide)⟩

end Gkit.Throttle
