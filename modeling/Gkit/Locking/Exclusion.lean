import Gkit.Locking.Model

/-!
# Mutual exclusion

Nobody but the holder of a token can change the key that stores it.  Whether a
holder keeps the key to itself until it releases it is decided by its own
renewals: they put the lease of the handle in whole milliseconds, and a lease of
none deletes the key.
-/

namespace Gkit.Locking

open Gkit.Lib

namespace Store

@[simp] theorem set_same (store : Store) (key : String) (e : Option Entry) :
    store.set key e key = e :=
  Function.update_self ..

theorem set_other (store : Store) {key k : String} (h : k ≠ key) (e : Option Entry) :
    store.set key e k = store k :=
  Function.update_of_ne h ..

theorem holds_iff {store : Store} {key : String} {token : ℕ} :
    store.holds key token ↔ ∃ px, store key = some ⟨token, px⟩ := by
  unfold holds
  cases h : store key with
  | none => simp
  | some e =>
      obtain ⟨t, px⟩ := e
      simp [eq_comm]

/-- Only the token it is run for lets the script delete the key. -/
theorem releaseScript_cases (store : Store) (key : String) (token : ℕ) :
    (store.holds key token ∧ store.releaseScript key token = (store.set key none, 1)) ∨
      (¬ store.holds key token ∧ store.releaseScript key token = (store, 0)) := by
  by_cases h : store.holds key token
  · obtain ⟨px, hpx⟩ := holds_iff.mp h
    exact .inl ⟨h, by simp [releaseScript, h, del, hpx]⟩
  · exact .inr ⟨h, by simp [releaseScript, h]⟩

theorem renewScript_cases (store : Store) (key : String) (token : ℕ) (ms : ℤ) :
    (store.holds key token ∧ store.renewScript key token ms =
      (store.set key (if 0 < ms then some ⟨token, some ms⟩ else none), 1)) ∨
      (¬ store.holds key token ∧ store.renewScript key token ms = (store, 0)) := by
  by_cases h : store.holds key token
  · obtain ⟨px, hpx⟩ := holds_iff.mp h
    exact .inl ⟨h, by simp [renewScript, h, pexpire, hpx]⟩
  · exact .inr ⟨h, by simp [renewScript, h]⟩

end Store

/-- From one store to the next, only the key of the lock may have changed, and
only if it stored the token of the lock. -/
def Lock.Guards (l : Lock) (store store' : Store) : Prop :=
  ∀ k, store' k ≠ store k → k = l.key ∧ store.holds l.key l.token

theorem Lock.guards_set {l : Lock} {store : Store} (h : store.holds l.key l.token)
    (e : Option Entry) : l.Guards store (store.set l.key e) := by
  intro k hk
  by_cases hkey : k = l.key
  · exact ⟨hkey, h⟩
  · exact absurd (store.set_other hkey e) hk

theorem Lock.guards_release (l : Lock) (fault : Option GoError) (store : Store) :
    l.Guards store (l.release fault store).1 := by
  cases fault with
  | some err => exact fun k hk => absurd rfl hk
  | none =>
      rcases store.releaseScript_cases l.key l.token with ⟨h, hs⟩ | ⟨-, hs⟩
      · simp only [release, hs, one_ne_zero, if_false]
        exact Lock.guards_set h none
      · simp only [release, hs, if_true]
        exact fun k hk => absurd rfl hk

theorem Lock.guards_renew (l : Lock) (fault : Option GoError) (store : Store) :
    l.Guards store (l.renew fault store) := by
  cases fault with
  | some err => exact fun k hk => absurd rfl hk
  | none =>
      rcases store.renewScript_cases l.key l.token (l.ttl.tdiv millisecond) with
        ⟨h, hs⟩ | ⟨-, hs⟩
      · simp only [renew, hs]
        exact Lock.guards_set h _
      · simp only [renew, hs]
        exact fun k hk => absurd rfl hk

/-- `Release` returns nil exactly if its script deleted the token. -/
theorem Lock.release_eq_none_iff (l : Lock) (fault : Option GoError) (store : Store) :
    (l.release fault store).2 = none ↔
      store.holds l.key l.token ∧ (l.release fault store).1 l.key = none := by
  cases fault with
  | some err =>
      simp only [release, reduceCtorEq, false_iff, not_and]
      intro h hnone
      obtain ⟨px, hpx⟩ := Store.holds_iff.mp h
      simp [hpx] at hnone
  | none =>
      rcases store.releaseScript_cases l.key l.token with ⟨h, hs⟩ | ⟨h, hs⟩
      · simp [release, hs, h]
      · simp [release, hs, h]

theorem tryAcquire_cases (fault : Option GoError) (store : Store) (token : ℕ) (key : String)
    (ttl : ℤ) :
    (fault = none ∧ store key = none ∧ tryAcquire fault store token key ttl =
      (store.set key (some ⟨token, Store.lease ttl⟩), .ok ⟨key, token, ttl⟩)) ∨
      ((fault ≠ none ∨ store key ≠ none) ∧
        ∃ err, tryAcquire fault store token key ttl = (store, .error err)) := by
  cases fault with
  | some err => exact .inr ⟨.inl (by simp), _, rfl⟩
  | none =>
      cases h : store key with
      | none => exact .inl ⟨rfl, rfl, by simp [tryAcquire, Store.setNX, h]⟩
      | some e => exact .inr ⟨.inr (by simp), errNotAcquired, by simp [tryAcquire, Store.setNX, h]⟩

theorem Lock.interval_pos_iff (l : Lock) : 0 < l.interval ↔ 3 ≤ l.ttl := by
  unfold interval
  rcases le_or_gt 0 l.ttl with h | h
  · rw [Int.tdiv_eq_ediv_of_nonneg h]
    omega
  · have hneg : 0 ≤ (-l.ttl).tdiv 3 := Int.tdiv_nonneg (by omega) (by decide)
    rw [Int.neg_tdiv] at hneg
    omega

/-! ## Steps -/

theorem step_cases {s s' : Sys} {x : Action} (h : s.step x = some s') :
    (∃ key ttl fault, x = .tryAcquire key ttl fault ∧
      s' = ⟨(tryAcquire fault s.store s.fresh key ttl).1,
        s.give (tryAcquire fault s.store s.fresh key ttl).2, s.fresh + 1⟩) ∨
    (∃ t fault g, x = .renew t fault ∧ s.handles t = some g ∧ g.alive = true ∧
      s' = { s with store := g.lock.renew fault s.store }) ∨
    (∃ t g, x = .stop t ∧ s.handles t = some g ∧
      s' = { s with handles := Function.update s.handles t (some { g with alive := false }) }) ∨
    (∃ t fault g, x = .release t fault ∧ s.handles t = some g ∧ g.alive = false ∧
      s' = { s with store := (g.lock.release fault s.store).1 }) ∨
    ∃ key, x = .expire key ∧ s' = { s with store := s.store.set key none } := by
  cases x with
  | tryAcquire key ttl fault =>
      exact .inl ⟨key, ttl, fault, rfl, (Option.some.inj h).symm⟩
  | renew t fault =>
      obtain ⟨g, hg, hs'⟩ := Option.bind_eq_some_iff.mp h
      split_ifs at hs' with halive
      exact .inr (.inl ⟨t, fault, g, rfl, hg, halive, (Option.some.inj hs').symm⟩)
  | stop t =>
      obtain ⟨g, hg, rfl⟩ := Option.map_eq_some_iff.mp h
      exact .inr (.inr (.inl ⟨t, g, rfl, hg, rfl⟩))
  | release t fault =>
      obtain ⟨g, hg, hs'⟩ := Option.bind_eq_some_iff.mp h
      split_ifs at hs' with halive
      exact .inr (.inr (.inr (.inl ⟨t, fault, g, rfl, hg, by simpa using halive,
        (Option.some.inj hs').symm⟩)))
  | expire key => exact .inr (.inr (.inr (.inr ⟨key, rfl, (Option.some.inj h).symm⟩)))

/-- A handle stands under its token, which has been drawn; its keepalive
goroutine lives only if it has a ticker. -/
def Drawn (s : Sys) : Prop :=
  ∀ t g, s.handles t = some g → g.lock.token = t ∧ t < s.fresh ∧
    (g.alive = true → 0 < g.lock.interval)

theorem Drawn.step {s s' : Sys} {x : Action} (hs : Drawn s) (h : s.step x = some s') :
    Drawn s' := by
  rcases step_cases h with ⟨key, ttl, fault, -, rfl⟩ | ⟨t, fault, g, -, -, -, rfl⟩ |
    ⟨t, g, -, hg, rfl⟩ | ⟨t, fault, g, -, -, -, rfl⟩ | ⟨key, -, rfl⟩
  · intro t g hg
    rcases tryAcquire_cases fault s.store s.fresh key ttl with ⟨-, -, hres⟩ | ⟨-, err, hres⟩
    · simp only [hres, Sys.give] at hg ⊢
      by_cases ht : t = s.fresh
      · rw [ht, Function.update_self, Option.some.injEq] at hg
        subst hg ht
        exact ⟨rfl, Nat.lt_succ_self _, of_decide_eq_true⟩
      · rw [Function.update_of_ne ht] at hg
        obtain ⟨htoken, hlt, halive⟩ := hs t g hg
        exact ⟨htoken, Nat.lt_succ_of_lt hlt, halive⟩
    · simp only [hres, Sys.give] at hg ⊢
      obtain ⟨htoken, hlt, halive⟩ := hs t g hg
      exact ⟨htoken, Nat.lt_succ_of_lt hlt, halive⟩
  · exact hs
  · intro u g' hg'
    by_cases hu : u = t
    · subst hu
      simp only [Function.update_self, Option.some.injEq] at hg'
      subst hg'
      exact ⟨(hs u g hg).1, (hs u g hg).2.1, by simp⟩
    · exact hs u g' ((Function.update_of_ne hu ..).symm.trans hg')
  · exact hs
  · exact hs

theorem drawn_of_run {xs : List Action} {s : Sys} (h : run Sys.step start xs = some s) :
    Drawn s :=
  run_forall (fun _ _ _ hs => hs.step) (fun _ _ hg => by simp [start] at hg) h

/-! ## While a lock is held -/

def Held (l : Lock) (s : Sys) : Prop :=
  (∃ alive, s.handles l.token = some ⟨l, alive⟩) ∧ s.store.holds l.key l.token

theorem Store.holds_of_guards {l g : Lock} {store store' : Store}
    (h : store.holds l.key l.token) (hg : g.Guards store store') (hne : g.token ≠ l.token) :
    store'.holds l.key l.token := by
  by_cases hkey : store' l.key = store l.key
  · rwa [holds, hkey]
  · obtain ⟨hk, hother⟩ := hg l.key hkey
    rw [holds, ← hk, h, Option.some.injEq] at hother
    exact absurd hother.symm hne

/-- A renewal of its own keeps the key, unless the lease is shorter than a
millisecond. -/
theorem Lock.holds_renew {l : Lock} {store : Store} (h : store.holds l.key l.token)
    (httl : millisecond ≤ l.ttl) (fault : Option GoError) :
    (l.renew fault store).holds l.key l.token := by
  cases fault with
  | some err => exact h
  | none =>
      have hms : 0 < l.ttl.tdiv millisecond := by
        rw [Int.tdiv_eq_ediv_of_nonneg (le_trans (by decide) httl)]
        exact Int.le_ediv_of_mul_le (by decide) (by simpa using httl)
      rcases store.renewScript_cases l.key l.token (l.ttl.tdiv millisecond) with
        ⟨-, hs⟩ | ⟨hno, -⟩
      · simp [renew, hs, hms, Store.holds]
      · exact absurd h hno

theorem Held.step {l : Lock} {s s' : Sys} {x : Action} (hd : Drawn s) (hs : Held l s)
    (httl : l.interval ≤ 0 ∨ millisecond ≤ l.ttl) (hexpire : x ≠ .expire l.key)
    (hrelease : ∀ fault, x ≠ .release l.token fault) (h : s.step x = some s') : Held l s' := by
  obtain ⟨⟨alive, hhandle⟩, hholds⟩ := hs
  obtain ⟨px, hpx⟩ := Store.holds_iff.mp hholds
  have hfresh := (hd l.token _ hhandle).2.1
  rcases step_cases h with ⟨key, ttl, fault, -, rfl⟩ | ⟨t, fault, g, -, hg, halive, rfl⟩ |
    ⟨t, g, -, hg, rfl⟩ | ⟨t, fault, g, rfl, hg, -, rfl⟩ | ⟨key, rfl, rfl⟩
  · rcases tryAcquire_cases fault s.store s.fresh key ttl with ⟨-, hnone, hres⟩ | ⟨-, err, hres⟩
    · simp only [Held, hres, Sys.give]
      have hkey : l.key ≠ key := by
        rintro rfl
        simp [hpx] at hnone
      refine ⟨⟨alive, ?_⟩, ?_⟩
      · rwa [Function.update_of_ne hfresh.ne]
      · rwa [Store.holds, Store.set_other _ hkey]
    · simp only [Held, hres, Sys.give]
      exact ⟨⟨alive, hhandle⟩, hholds⟩
  · refine ⟨⟨alive, hhandle⟩, ?_⟩
    obtain ⟨htoken, -, hticker⟩ := hd t g hg
    by_cases ht : t = l.token
    · rw [ht, hhandle, Option.some.injEq] at hg
      subst hg
      exact Lock.holds_renew hholds (httl.resolve_left (hticker halive).not_ge) fault
    · exact Store.holds_of_guards hholds (g.lock.guards_renew fault s.store) (htoken.trans_ne ht)
  · refine ⟨?_, hholds⟩
    by_cases ht : l.token = t
    · rw [← ht, hhandle, Option.some.injEq] at hg
      subst hg ht
      exact ⟨false, Function.update_self ..⟩
    · exact ⟨alive, (Function.update_of_ne ht ..).trans hhandle⟩
  · refine ⟨⟨alive, hhandle⟩, ?_⟩
    have ht : g.lock.token ≠ l.token := by
      rw [(hd t g hg).1]
      rintro rfl
      exact hrelease fault rfl
    exact Store.holds_of_guards hholds (g.lock.guards_release fault s.store) ht
  · refine ⟨⟨alive, hhandle⟩, ?_⟩
    have hkey : l.key ≠ key := fun hkey => hexpire (congrArg Action.expire hkey.symm)
    simpa only [Store.holds, Store.set_other _ hkey] using hholds

/-! ## The theorem -/

/-- Between an acquisition with this lease and the script that releases it, as
long as the key does not expire, nobody acquires the key. -/
def Exclusive (ttl : ℤ) : Prop :=
  ∀ xs s key fault l s' ys u, run Sys.step start xs = some s →
    (tryAcquire fault s.store s.fresh key ttl).2 = .ok l →
    s.step (.tryAcquire key ttl fault) = some s' → run Sys.step s' ys = some u →
    (∀ y ∈ ys, y ≠ .expire key ∧ ∀ f, y ≠ .release l.token f) →
    ∀ ttl' fault', ∃ err, (tryAcquire fault' u.store u.fresh key ttl').2 = .error err

theorem held_of_acquired {s s' : Sys} {key : String} {ttl : ℤ} {fault : Option GoError} {l : Lock}
    (hl : (tryAcquire fault s.store s.fresh key ttl).2 = .ok l)
    (h : s.step (.tryAcquire key ttl fault) = some s') :
    l = ⟨key, s.fresh, ttl⟩ ∧ Held l s' := by
  have hs' : s' = ⟨(tryAcquire fault s.store s.fresh key ttl).1,
      s.give (tryAcquire fault s.store s.fresh key ttl).2, s.fresh + 1⟩ :=
    (Option.some.inj h).symm
  rcases tryAcquire_cases fault s.store s.fresh key ttl with ⟨-, -, hres⟩ | ⟨-, err, hres⟩
  · simp only [hres, Except.ok.injEq] at hl
    subst hl hs'
    simp only [hres, Held, Sys.give]
    exact ⟨trivial, ⟨_, Function.update_self ..⟩, by simp [Store.holds]⟩
  · simp [hres] at hl

theorem exclusive_of_lease {ttl : ℤ} (h : ttl < 3 ∨ millisecond ≤ ttl) : Exclusive ttl := by
  intro xs s key fault l s' ys u hxs hl hstep hys hquiet ttl' fault'
  obtain ⟨rfl, hheld⟩ := held_of_acquired hl hstep
  have httl : (⟨key, s.fresh, ttl⟩ : Lock).interval ≤ 0 ∨ millisecond ≤ ttl := by
    refine h.imp_left fun hlt => ?_
    rw [← not_lt, Lock.interval_pos_iff]
    exact hlt.not_ge
  have hu : Drawn u ∧ Held ⟨key, s.fresh, ttl⟩ u := by
    refine run_invariant (P := fun v => Drawn v ∧ Held ⟨key, s.fresh, ttl⟩ v)
      (C := fun _ y => y ≠ .expire key ∧ ∀ f, y ≠ .release s.fresh f) ?_
      ⟨(drawn_of_run hxs).step hstep, hheld⟩ (along_of_forall fun y hy _ => hquiet y hy) hys
    intro v y w hv hy hw
    exact ⟨hv.1.step hw, hv.2.step hv.1 httl hy.1 hy.2 hw⟩
  obtain ⟨px, hpx⟩ := Store.holds_iff.mp hu.2.2
  rcases tryAcquire_cases fault' u.store u.fresh key ttl' with ⟨-, hnone, -⟩ | ⟨-, err, hres⟩
  · exact absurd (hnone.symm.trans hpx) (by simp)
  · exact ⟨err, by rw [hres]⟩

/-- The first renewal of a lease shorter than a millisecond gives the key away. -/
theorem not_exclusive_of_lease {ttl : ℤ} (h3 : 3 ≤ ttl) (hms : ttl < millisecond) :
    ¬ Exclusive ttl := by
  intro hexcl
  have halive : 0 < (⟨"k", 0, ttl⟩ : Lock).interval := (Lock.interval_pos_iff _).mpr h3
  have hzero : ttl.tdiv millisecond = 0 := Int.tdiv_eq_zero_of_lt (by omega) hms
  obtain ⟨err, herr⟩ := hexcl [] start "k" none ⟨"k", 0, ttl⟩ _ [.renew 0 none] _ rfl rfl rfl
    (by simp [run, Sys.step, Store.setNX, start, Sys.give, halive]; rfl) (by simp) ttl none
  simp [Lock.renew, hzero, Store.renewScript, Store.holds, Store.pexpire, tryAcquire,
    Store.setNX] at herr

/-- A renewal or a release changes a key only where it stores the token of the
handle; a release reports success exactly if it has deleted that token; and a
lock excludes all others until then, up to expiry, exactly if its lease lasts a
millisecond or has no keepalive. -/
theorem lock_safety (ttl : ℤ) :
    (∀ xs s t g fault, run Sys.step start xs = some s → s.handles t = some g →
      g.lock.token = t ∧ g.lock.Guards s.store (g.lock.renew fault s.store) ∧
      g.lock.Guards s.store (g.lock.release fault s.store).1 ∧
      ((g.lock.release fault s.store).2 = none ↔ s.store.holds g.lock.key t ∧
        (g.lock.release fault s.store).1 g.lock.key = none)) ∧
      (Exclusive ttl ↔ ttl < 3 ∨ millisecond ≤ ttl) := by
  constructor
  · intro xs s t g fault hxs hg
    obtain ⟨rfl, -, -⟩ := drawn_of_run hxs t g hg
    exact ⟨rfl, g.lock.guards_renew fault s.store, g.lock.guards_release fault s.store,
      g.lock.release_eq_none_iff fault s.store⟩
  · constructor
    · intro hexcl
      by_contra hno
      push Not at hno
      exact not_exclusive_of_lease hno.1 hno.2 hexcl
    · exact exclusive_of_lease

/-- With a lease of half a millisecond two handles to one key are out after a
renewal, though nothing has expired and nothing was released. -/
theorem short_lease_shared :
    (run Sys.step start [.tryAcquire "k" 500000 none, .renew 0 none,
      .tryAcquire "k" 500000 none]).map (fun s => (s.handles 0, s.handles 1)) =
    some (some ⟨⟨"k", 0, 500000⟩, true⟩, some ⟨⟨"k", 1, 500000⟩, true⟩) := by
  decide

end Gkit.Locking
