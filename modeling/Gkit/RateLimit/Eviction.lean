import Gkit.RateLimit.Keyed

/-!
# Eviction of idle keys

Forgetting a limiter cannot be noticed if its bucket is full by then, for a new
one is full too.  The bucket of an idle key is full when it is evicted exactly
if an empty bucket fills up within the retention time and the nanosecond after
it.  The numbers of tokens are exact here, where the source rounds them to
`float64`, and a call reads the clock once, where the source reads it for the key
and once more for its bucket.
-/

namespace Gkit.RateLimit

open Gkit.Lib

/-- A limiter of this configuration whose bucket is not overdrawn. -/
structure Limiter.Fits (l : Limiter) (rate burst : ℚ) (now : ℤ) : Prop where
  rate : l.rate = rate
  burst : l.burst = burst
  tokens : 0 ≤ l.tokens
  lastFill : l.lastFill ≤ now

/-- From now on the limiter is like a new one at the time it is asked. -/
def Limiter.FullFrom (l : Limiter) (rate : ℚ) (burst now : ℤ) : Prop :=
  ∀ u, now ≤ u → l.refill u = Limiter.new rate burst u

namespace Limiter

theorem FullFrom.mono {l : Limiter} {rate : ℚ} {burst now u : ℤ} (h : l.FullFrom rate burst now)
    (hu : now ≤ u) : l.FullFrom rate burst u :=
  fun v hv => h v (hu.trans hv)

theorem fullFrom_of_inflow {l : Limiter} {rate : ℚ} {burst now t : ℤ}
    (h : l.Fits rate burst t) (hr : 0 ≤ rate)
    (hin : burst ≤ l.tokens + seconds (now - l.lastFill) * rate) :
    l.FullFrom rate burst now := by
  intro u hu
  have hmono : seconds (now - l.lastFill) * rate ≤ seconds (u - l.lastFill) * rate :=
    mul_le_mul_of_nonneg_right (seconds_le (by omega)) hr
  have hfull : min l.burst (l.tokens + seconds (u - l.lastFill) * l.rate) = burst := by
    rw [h.burst, h.rate]
    exact min_eq_left (hin.trans (by linarith))
  rw [refill, hfull, h.rate, h.burst, new]

theorem fits_new {rate : ℚ} {burst now : ℤ} (hb : 0 ≤ burst) :
    (new rate burst now).Fits rate burst now :=
  ⟨rfl, rfl, by simpa [new] using hb, le_rfl⟩

theorem fullFrom_new {rate : ℚ} {burst now : ℤ} (hr : 0 ≤ rate) (hb : 0 ≤ burst) :
    (new rate burst now).FullFrom rate burst now :=
  fullFrom_of_inflow (fits_new hb) hr (by simp [new, seconds])

theorem allowN_congr {l l' : Limiter} {now : ℤ} (h : l.refill now = l'.refill now) (n : ℤ) :
    l.allowN now n = l'.allowN now n := by
  simp only [allowN, h]

theorem Fits.allowN {l : Limiter} {rate burst : ℚ} {now u : ℤ} (h : l.Fits rate burst now)
    (hr : 0 ≤ rate) (hb : 0 ≤ burst) (hu : now ≤ u) (n : ℤ) :
    (l.allowN u n).1.Fits rate burst u := by
  have hin : 0 ≤ seconds (u - l.lastFill) * l.rate := by
    rw [h.rate]
    exact mul_nonneg (seconds_nonneg (sub_nonneg.mpr (h.lastFill.trans hu))) hr
  have htokens : 0 ≤ (l.refill u).tokens :=
    le_min (h.burst ▸ hb) (add_nonneg h.tokens hin)
  unfold Limiter.allowN
  dsimp only
  split_ifs with hlt
  · exact ⟨h.rate, h.burst, htokens, le_rfl⟩
  · exact ⟨h.rate, h.burst, sub_nonneg.mpr (le_of_not_gt hlt), le_rfl⟩

end Limiter

variable {K : Type} [DecidableEq K]

namespace KeyedLimiter

/-- The two differ at most in keys that the first has forgotten and whose
buckets are full in the second. -/
structure Sim (kl kl' : KeyedLimiter K) (now : ℤ) : Prop where
  config : kl.SameConfig kl'
  wf : kl.WF
  wf' : kl'.WF
  fits : ∀ k l, kl.bucket k = some l → l.Fits kl.rate kl.burst now
  buckets : ∀ k, kl.bucket k = kl'.bucket k ∨
    (kl.bucket k = none ∧ ∃ l', kl'.bucket k = some l' ∧ l'.FullFrom kl.rate kl.burst now)

variable {kl kl' : KeyedLimiter K} {now u : ℤ}

theorem Sim.refill_target (h : Sim kl kl' now) (hr : 0 ≤ kl.rate) (hb : 0 ≤ kl.burst)
    (hu : now ≤ u) (key : K) : (kl.target u key).refill u = (kl'.target u key).refill u := by
  rcases h.buckets key with hsame | ⟨hnone, l', hl', hfull⟩
  · rw [target, target, hsame, h.config.rate, h.config.burst]
  · rw [target, target, hnone, hl', Option.getD_none, Option.getD_some, hfull u hu]
    exact Limiter.fullFrom_new hr hb u le_rfl

theorem Sim.fits_target (h : Sim kl kl' now) (hb : 0 ≤ kl.burst) (hu : now ≤ u) (key : K) :
    (kl.target u key).Fits kl.rate kl.burst u := by
  unfold target
  cases hk : kl.bucket key with
  | none => exact Limiter.fits_new hb
  | some l =>
      obtain ⟨hrate, hburst, htokens, hfill⟩ := h.fits key l hk
      exact ⟨hrate, hburst, htokens, hfill.trans hu⟩

theorem Sim.allowN (h : Sim kl kl' now) (hr : 0 ≤ kl.rate) (hb : 0 ≤ kl.burst) (hu : now ≤ u)
    (key : K) (n : ℤ) :
    (kl.allowN u key n).2 = (kl'.allowN u key n).2 ∧
      Sim (kl.allowN u key n).1 (kl'.allowN u key n).1 u := by
  obtain ⟨hres, hwf, hconfig, hbucket⟩ := allowN_spec h.wf u key n
  obtain ⟨hres', hwf', hconfig', hbucket'⟩ := allowN_spec h.wf' u key n
  have hsame := Limiter.allowN_congr (h.refill_target hr hb hu key) n
  refine ⟨by rw [hres, hres', hsame], ⟨?_, ?_, ?_⟩, hwf, hwf', ?_, ?_⟩
  · rw [hconfig'.rate, hconfig.rate, h.config.rate]
  · rw [hconfig'.burst, hconfig.burst, h.config.burst]
  · rw [hconfig'.ttl, hconfig.ttl, h.config.ttl]
  · intro k l hl
    rw [hconfig.rate, hconfig.burst]
    rw [hbucket] at hl
    split_ifs at hl with hk
    · rw [← Option.some.inj hl]
      exact (h.fits_target hb hu key).allowN hr (by exact_mod_cast hb) le_rfl n
    · obtain ⟨hrate, hburst, htokens, hfill⟩ := h.fits k l hl
      exact ⟨hrate, hburst, htokens, hfill.trans hu⟩
  · intro k
    rw [hbucket, hbucket', hconfig.rate, hconfig.burst]
    split_ifs with hk
    · exact .inl (by rw [hsame])
    · rcases h.buckets k with heq | ⟨hnone, l', hl', hfull⟩
      · exact .inl heq
      · exact .inr ⟨hnone, l', hl', hfull.mono hu⟩

theorem Sim.evict (h : Sim kl kl' now) (hr : 0 ≤ kl.rate)
    (hfill : (kl.burst : ℚ) ≤ kl.rate * seconds (kl.ttl + 1)) (hu : now ≤ u) :
    Sim (kl.evict u).1 kl' u := by
  obtain ⟨hwf, hconfig, hbucket⟩ := evict_spec h.wf u
  refine ⟨⟨h.config.rate, h.config.burst, h.config.ttl⟩, hwf, h.wf', ?_, ?_⟩
  · intro k l hl
    rw [hbucket, Option.filter_eq_some_iff] at hl
    obtain ⟨hrate, hburst, htokens, hlast⟩ := h.fits k l hl.1
    exact ⟨hrate, hburst, htokens, hlast.trans hu⟩
  · intro k
    rw [hbucket]
    rcases h.buckets k with heq | ⟨hnone, l', hl', hfull⟩
    · cases hl : kl.bucket k with
      | none => exact .inl (by rw [← heq, hl]; rfl)
      | some l =>
          by_cases hidle : l.lastFill < u - kl.ttl
          · -- The key is forgotten: its bucket has had the time to fill up.
            refine .inr ⟨by simp [Option.filter, hidle], l, heq.symm.trans hl, ?_⟩
            have hfits := h.fits k l hl
            have htime : seconds (kl.ttl + 1) * kl.rate ≤ seconds (u - l.lastFill) * kl.rate :=
              mul_le_mul_of_nonneg_right (seconds_le (by omega)) hr
            refine Limiter.fullFrom_of_inflow hfits hr ?_
            have htokens := hfits.tokens
            rw [hconfig.rate, hconfig.burst]
            linarith
          · exact .inl (by simp [Option.filter, hidle, ← heq, hl])
    · exact .inr ⟨by simp [hnone], l', hl', hfull.mono hu⟩

/-- With enough time to fill up, the outcomes of a run are those of the run
without its evictions. -/
theorem Sim.outcomes_eq (h : Sim kl kl' now) (hr : 0 ≤ kl.rate) (hb : 0 ≤ kl.burst)
    (hfill : (kl.burst : ℚ) ≤ kl.rate * seconds (kl.ttl + 1)) {xs : List (ℤ × Call K)}
    (hxs : Timed now xs) : kl.outcomes xs = kl'.outcomes (withoutEvict xs) := by
  induction xs generalizing kl kl' now with
  | nil => rfl
  | cons x xs ih =>
      obtain ⟨u, c⟩ := x
      obtain ⟨hu, hxs⟩ := hxs
      -- `Allow` is `AllowN` of one token
      have hask : ∀ key n, kl.outcomes ((u, .allowN key n) :: xs) =
          kl'.outcomes ((u, .allowN key n) :: withoutEvict xs) := by
        intro key n
        obtain ⟨hres, hsim⟩ := h.allowN hr hb hu key n
        have hconfig := (allowN_spec h.wf u key n).2.2.1
        have hrest := ih hsim (hconfig.rate ▸ hr) (hconfig.burst ▸ hb)
          (by rw [hconfig.rate, hconfig.burst, hconfig.ttl]; exact hfill) hxs
        rw [outcomes, outcomes, hres, hrest]
      cases c with
      | allow key => exact hask key 1
      | allowN key n => exact hask key n
      | evict => exact ih (h.evict hr hfill hu) hr hb hfill hxs

end KeyedLimiter

/-! ## One key of a run without evictions -/

def Call.amount : Call K → ℤ
  | .allow _ => 1
  | .allowN _ n => n
  | .evict => 0

def Call.opFor (key : K) : Call K → Option Op
  | .allow k => if k = key then some .allow else none
  | .allowN k n => if k = key then some (.allowN n) else none
  | .evict => none

def opsOn (key : K) (xs : List (ℤ × Call K)) : List (ℤ × Op) :=
  xs.filterMap fun x => (x.2.opFor key).map (Prod.mk x.1)

theorem opsOn_cons_same (key : K) (u : ℤ) {c : Call K} {o : Op} (h : c.opFor key = some o)
    (xs : List (ℤ × Call K)) : opsOn key ((u, c) :: xs) = (u, o) :: opsOn key xs := by
  simp [opsOn, h]

theorem opsOn_cons_other (key : K) (u : ℤ) {c : Call K} (h : c.opFor key = none)
    (xs : List (ℤ × Call K)) : opsOn key ((u, c) :: xs) = opsOn key xs := by
  simp [opsOn, h]

theorem grantsTo_cons (key : K) (o : Outcome K) (os : List (Outcome K)) :
    grantsTo key (o :: os) = if o.key = key then
      (o.time, if o.ok then o.amount else 0) :: grantsTo key os else grantsTo key os := by
  unfold grantsTo
  by_cases h : o.key = key <;> simp [h]

theorem amounts_opsOn {xs : List (ℤ × Call K)} (h : ∀ x ∈ xs, 0 ≤ x.2.amount) (key : K) :
    Limiter.Amounts (opsOn key xs) := by
  intro y hy
  obtain ⟨⟨t, c⟩, hx, hmap⟩ := List.mem_filterMap.mp hy
  obtain ⟨o, ho, rfl⟩ := Option.map_eq_some_iff.mp hmap
  have hc := h _ hx
  cases c with
  | allow k =>
      obtain ⟨-, ho⟩ := Option.ite_none_right_eq_some.mp ho
      obtain rfl := Option.some.inj ho
      exact hc
  | allowN k n =>
      obtain ⟨-, ho⟩ := Option.ite_none_right_eq_some.mp ho
      obtain rfl := Option.some.inj ho
      exact hc
  | evict => nomatch ho

namespace KeyedLimiter

variable {kl : KeyedLimiter K} {t : ℤ} {key : K} {L : Limiter}

/-- The key is served as by this limiter from the time on. -/
def ServedBy (kl : KeyedLimiter K) (key : K) (L : Limiter) (t : ℤ) : Prop :=
  kl.bucket key = some L ∨ (kl.bucket key = none ∧ L.FullFrom kl.rate kl.burst t)

theorem ServedBy.refill_target (h : kl.ServedBy key L t) (hr : 0 ≤ kl.rate) (hb : 0 ≤ kl.burst)
    {u : ℤ} (hu : t ≤ u) : (kl.target u key).refill u = L.refill u := by
  rcases h with hsome | ⟨hnone, hfull⟩
  · rw [target, hsome, Option.getD_some]
  · rw [target, hnone, Option.getD_none, hfull u hu]
    exact Limiter.fullFrom_new hr hb u le_rfl

theorem ServedBy.allowN (h : kl.ServedBy key L t) (hwf : kl.WF) (hr : 0 ≤ kl.rate)
    (hb : 0 ≤ kl.burst) {u : ℤ} (hu : t ≤ u) (k : K) (n : ℤ) :
    (k = key → (kl.allowN u k n).2 = (L.allowN u n).2) ∧
      (kl.allowN u k n).1.ServedBy key (if k = key then (L.allowN u n).1 else L) u := by
  obtain ⟨hres, -, hconfig, hbucket⟩ := allowN_spec hwf u k n
  by_cases hk : k = key
  · subst hk
    have hsame := Limiter.allowN_congr (h.refill_target hr hb hu) n
    exact ⟨fun _ => by rw [hres, hsame], .inl (by rw [hbucket, if_pos rfl, if_pos rfl, hsame])⟩
  · refine ⟨fun heq => absurd heq hk, ?_⟩
    rw [ServedBy, hbucket, if_neg (Ne.symm hk), if_neg hk, hconfig.rate, hconfig.burst]
    exact h.imp_right fun hfull => ⟨hfull.1, hfull.2.mono hu⟩

theorem ServedBy.grantsTo_outcomes (h : kl.ServedBy key L t) (hwf : kl.WF) (hr : 0 ≤ kl.rate)
    (hb : 0 ≤ kl.burst) {xs : List (ℤ × Call K)} (hxs : Timed t xs)
    (hno : ∀ x ∈ xs, x.2.isEvict = false) :
    grantsTo key (kl.outcomes xs) = L.grants (opsOn key xs) := by
  induction xs generalizing kl L t with
  | nil => rfl
  | cons x xs ih =>
      obtain ⟨u, c⟩ := x
      obtain ⟨hu, hxs⟩ := hxs
      have hno' : ∀ y ∈ xs, y.2.isEvict = false := fun y hy => hno y (List.mem_cons_of_mem _ hy)
      have hcall : ∀ k n, grantsTo key ((kl.allowN u k n).1.outcomes xs) =
          (if k = key then (L.allowN u n).1 else L).grants (opsOn key xs) := by
        intro k n
        obtain ⟨-, hwf', hconfig, -⟩ := allowN_spec hwf u k n
        exact ih (h.allowN hwf hr hb hu k n).2 hwf' (hconfig.rate ▸ hr) (hconfig.burst ▸ hb) hxs
          hno'
      have hask : ∀ k n, grantsTo key (kl.outcomes ((u, .allowN k n) :: xs)) =
          if k = key then L.grants ((u, .allowN n) :: opsOn key xs)
          else L.grants (opsOn key xs) := by
        intro k n
        rw [outcomes, grantsTo_cons, hcall k n]
        by_cases hk : k = key
        · rw [if_pos hk, if_pos hk, if_pos hk, (h.allowN hwf hr hb hu k n).1 hk]
          rfl
        · rw [if_neg hk, if_neg hk, if_neg hk]
      cases c with
      | allow k =>
          refine (hask k 1).trans ?_
          by_cases hk : k = key
          · have hop : (Call.allow k).opFor key = some .allow := if_pos hk
            rw [if_pos hk, opsOn_cons_same key u hop]
            rfl
          · have hop : (Call.allow k).opFor key = none := if_neg hk
            rw [if_neg hk, opsOn_cons_other key u hop]
      | allowN k n =>
          refine (hask k n).trans ?_
          by_cases hk : k = key
          · have hop : (Call.allowN k n).opFor key = some (.allowN n) := if_pos hk
            rw [if_pos hk, opsOn_cons_same key u hop]
          · have hop : (Call.allowN k n).opFor key = none := if_neg hk
            rw [if_neg hk, opsOn_cons_other key u hop]
      | evict => simp [Call.isEvict] at hno

end KeyedLimiter

/-! ## When eviction can be noticed -/

/-- Leaving out every call of `Evict` changes no result. -/
def EvictUnobservable (K : Type) [DecidableEq K] (rate : ℚ) (burst ttl : ℤ) : Prop :=
  ∀ t (xs : List (ℤ × Call K)), Timed t xs →
    (newKeyed rate burst [withKeyTTL ttl]).outcomes xs =
      (newKeyed rate burst [withKeyTTL ttl]).outcomes (withoutEvict xs)

def KeyBound (K : Type) [DecidableEq K] (rate : ℚ) (burst ttl : ℤ) : Prop :=
  ∀ t (xs : List (ℤ × Call K)) (key : K) s u, Timed t xs → (∀ x ∈ xs, 0 ≤ x.2.amount) → s ≤ u →
    (granted s u (grantsTo key ((newKeyed rate burst [withKeyTTL ttl]).outcomes xs)) : ℚ) ≤
      burst + rate * seconds (u - s)

section

variable {rate : ℚ} {burst ttl : ℤ}

theorem evictUnobservable_of_fill (hr : 0 ≤ rate) (hb : 0 ≤ burst)
    (hfill : (burst : ℚ) ≤ rate * seconds (ttl + 1)) : EvictUnobservable K rate burst ttl := by
  intro t xs hxs
  have hwf := KeyedLimiter.wf_newKeyed (K := K) rate burst ttl
  have hsim : KeyedLimiter.Sim (newKeyed rate burst [withKeyTTL ttl] : KeyedLimiter K)
      (newKeyed rate burst [withKeyTTL ttl]) t := by
    refine ⟨⟨rfl, rfl, rfl⟩, hwf, hwf, fun k l hl => ?_, fun k => .inl rfl⟩
    simp [KeyedLimiter.bucket_newKeyed] at hl
  exact hsim.outcomes_eq hr hb hfill hxs

theorem keyBound_of_fill (hr : 0 ≤ rate) (hb : 1 ≤ burst)
    (hfill : (burst : ℚ) ≤ rate * seconds (ttl + 1)) : KeyBound K rate burst ttl := by
  intro t xs key s u hxs hn hsu
  have hb0 : 0 ≤ burst := by omega
  rw [evictUnobservable_of_fill hr hb0 hfill t xs hxs]
  have hserved : (newKeyed rate burst [withKeyTTL ttl] : KeyedLimiter K).ServedBy key
      (Limiter.new rate burst t) t := .inr ⟨rfl, Limiter.fullFrom_new hr hb0⟩
  have hkept : Timed t (withoutEvict xs) := hxs.filter _
  rw [hserved.grantsTo_outcomes (KeyedLimiter.wf_newKeyed rate burst ttl) hr hb0 hkept]
  · have hle := ((Limiter.valid_new hr hb t).granted_le (hkept.filterMap (Call.opFor key))
      (amounts_opsOn (fun x hx => hn x (List.mem_of_mem_filter hx)) key) hsu).1
    rwa [mul_comm] at hle
  · intro x hx
    simpa using (List.mem_filter.mp hx).2

theorem Limiter.allowN_burst (hr : 0 ≤ rate) (hb : 0 ≤ burst) (u : ℤ) :
    (Limiter.new rate burst u).allowN u burst = (⟨rate, burst, 0, u⟩, true) := by
  simp only [allowN, fullFrom_new hr hb u le_rfl]
  simp [new]

/-- A key spends its burst, is evicted and spends it again. -/
def spendTwice (key : K) (burst e : ℤ) : List (ℤ × Call K) :=
  [(0, .allowN key burst), (e, .evict), (e, .allowN key burst)]

/-- At a time past the retention of the key the second spending succeeds. -/
theorem outcomes_spendTwice (hr : 0 ≤ rate) (hb : 0 ≤ burst) (key : K) {e : ℤ} (he : ttl < e) :
    (newKeyed rate burst [withKeyTTL ttl]).outcomes (spendTwice key burst e) =
      [⟨0, key, burst, true⟩, ⟨e, key, burst, true⟩] := by
  obtain ⟨hres₁, hwf₁, hconfig₁, hbucket₁⟩ :=
    KeyedLimiter.allowN_spec (KeyedLimiter.wf_newKeyed (K := K) rate burst ttl) 0 key burst
  obtain ⟨hwf₂, hconfig₂, hbucket₂⟩ := KeyedLimiter.evict_spec hwf₁ e
  obtain ⟨hres₃, -, -, -⟩ := KeyedLimiter.allowN_spec hwf₂ e key burst
  have hfirst : (newKeyed rate burst [withKeyTTL ttl] : KeyedLimiter K).target 0 key =
      Limiter.new rate burst 0 := rfl
  rw [hfirst, Limiter.allowN_burst hr hb] at hres₁
  have hgone : (((newKeyed rate burst [withKeyTTL ttl]).allowN 0 key burst).1.evict e).1.bucket
      key = none := by
    have hidle : ttl < e := he
    rw [hbucket₂ key, hbucket₁, if_pos rfl, hfirst, Limiter.allowN_burst hr hb, hconfig₁.ttl]
    simp [Option.filter, newKeyed, withKeyTTL, hidle]
  have hagain : (((newKeyed rate burst [withKeyTTL ttl]).allowN 0 key burst).1.evict e).1.target
      e key = Limiter.new rate burst e := by
    rw [KeyedLimiter.target, hgone, Option.getD_none, hconfig₂.rate, hconfig₂.burst,
      hconfig₁.rate, hconfig₁.burst]
    rfl
  rw [hagain, Limiter.allowN_burst hr hb] at hres₃
  simp only [spendTwice, KeyedLimiter.outcomes, hres₁, hres₃]

/-- Without the eviction it fails, if the bucket has not filled up again. -/
theorem outcomes_spendTwice_kept (hr : 0 ≤ rate) (hb : 0 ≤ burst) (key : K) {e : ℤ}
    (he : rate * seconds e < burst) :
    (newKeyed rate burst [withKeyTTL ttl]).outcomes (withoutEvict (spendTwice key burst e)) =
      [⟨0, key, burst, true⟩, ⟨e, key, burst, false⟩] := by
  obtain ⟨hres₁, hwf₁, -, hbucket₁⟩ :=
    KeyedLimiter.allowN_spec (KeyedLimiter.wf_newKeyed (K := K) rate burst ttl) 0 key burst
  obtain ⟨hres₂, -, -, -⟩ := KeyedLimiter.allowN_spec hwf₁ e key burst
  have hfirst : (newKeyed rate burst [withKeyTTL ttl] : KeyedLimiter K).target 0 key =
      Limiter.new rate burst 0 := rfl
  rw [hfirst, Limiter.allowN_burst hr hb] at hres₁
  have hspent : ((newKeyed rate burst [withKeyTTL ttl]).allowN 0 key burst).1.target e key =
      ⟨rate, burst, 0, 0⟩ := by
    rw [KeyedLimiter.target, hbucket₁, if_pos rfl, hfirst, Limiter.allowN_burst hr hb]
    rfl
  have hrefuse : ((⟨rate, burst, 0, 0⟩ : Limiter).allowN e burst).2 = false := by
    simp only [Limiter.allowN, Limiter.refill, zero_add, sub_zero]
    rw [if_pos (min_lt_of_right_lt (by linarith))]
  rw [hspent, hrefuse] at hres₂
  simp only [spendTwice, withoutEvict, Call.isEvict, List.filter_cons, List.filter_nil]
  simp [KeyedLimiter.outcomes, hres₁, hres₂]

/-- A time at which an eviction takes the key although its bucket is not full. -/
theorem exists_early_eviction (hb : 1 ≤ burst)
    (hfill : rate * seconds (ttl + 1) < burst) :
    ∃ e, 0 ≤ e ∧ ttl < e ∧ rate * seconds e < burst := by
  have hpos : (0 : ℚ) < burst := by exact_mod_cast (by omega : (0 : ℤ) < burst)
  rcases le_total 0 (ttl + 1) with h | h
  · exact ⟨ttl + 1, h, by omega, hfill⟩
  · exact ⟨0, le_rfl, by omega, by simpa [seconds] using hpos⟩

/-- Eviction goes unnoticed, and every key keeps to its bound, exactly if an
empty bucket fills up in the time after which its key can be evicted. -/
theorem evict_unobservable_iff [Inhabited K] (hr : 0 < rate) (hb : 1 ≤ burst) :
    (EvictUnobservable K rate burst ttl ↔ (burst : ℚ) ≤ rate * seconds (ttl + 1)) ∧
      (KeyBound K rate burst ttl ↔ (burst : ℚ) ≤ rate * seconds (ttl + 1)) := by
  have hb0 : 0 ≤ burst := by omega
  refine ⟨⟨fun hun => ?_, evictUnobservable_of_fill hr.le hb0⟩,
    ⟨fun hbound => ?_, keyBound_of_fill hr.le hb⟩⟩
  · by_contra hfill
    obtain ⟨e, he, hidle, hlow⟩ := exists_early_eviction hb (lt_of_not_ge hfill)
    have heq := hun 0 (spendTwice (default : K) burst e) ⟨le_rfl, he, le_rfl, trivial⟩
    rw [outcomes_spendTwice hr.le hb0 _ hidle, outcomes_spendTwice_kept hr.le hb0 _ hlow] at heq
    simp at heq
  · by_contra hfill
    obtain ⟨e, he, hidle, hlow⟩ := exists_early_eviction hb (lt_of_not_ge hfill)
    have hle := hbound 0 (spendTwice (default : K) burst e) default 0 e
      ⟨le_rfl, he, le_rfl, trivial⟩ (by simp [spendTwice, Call.amount, hb0]) he
    have hsum : granted 0 e (grantsTo (default : K)
        [⟨0, default, burst, true⟩, ⟨e, default, burst, true⟩]) = burst + burst := by
      simp [grantsTo, granted, he]
    rw [outcomes_spendTwice hr.le hb0 _ hidle, hsum, Int.cast_add, sub_zero] at hle
    linarith

/-- One token a second, a burst of ten, and keys kept for a second. -/
theorem evicted_key_spends_twice :
    (newKeyed 1 10 [withKeyTTL 1000000000]).outcomes (spendTwice "client" 10 1000000001) =
        [⟨0, "client", 10, true⟩, ⟨1000000001, "client", 10, true⟩] ∧
      (newKeyed 1 10 [withKeyTTL 1000000000]).outcomes
          (withoutEvict (spendTwice "client" 10 1000000001)) =
        [⟨0, "client", 10, true⟩, ⟨1000000001, "client", 10, false⟩] := by
  constructor
  · exact outcomes_spendTwice (by norm_num) (by norm_num) "client" (by norm_num)
  · exact outcomes_spendTwice_kept (by norm_num) (by norm_num) "client" (by norm_num [seconds])

theorem ten_minutes_unobservable :
    EvictUnobservable String 1 10 600000000000 ∧ KeyBound String 1 10 600000000000 := by
  have hfill : ((10 : ℤ) : ℚ) ≤ 1 * seconds (600000000000 + 1) := by norm_num [seconds]
  obtain ⟨hevict, hbound⟩ := @evict_unobservable_iff String _ 1 10 600000000000 _ (by norm_num)
    (by norm_num)
  exact ⟨hevict.mpr hfill, hbound.mpr hfill⟩

end

end Gkit.RateLimit
