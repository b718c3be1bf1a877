import Gkit.RateLimit.Limiter

/-!
# Arguments and waits

No argument is checked.  A negative one is always granted and puts tokens into the
bucket, which shows until the next refill; the bucket is never overdrawn.  A call of
`WaitN` sleeps for the time its tokens take to flow in, cut to whole nanoseconds: what
is missing behind the first sleep flows in within one nanosecond, and the second sleep
lasts a millisecond.
-/

namespace Gkit.RateLimit

open Gkit.Lib

namespace Limiter

variable {l : Limiter} {now : ℤ}

/-! ## Arguments -/

structure Solvent (l : Limiter) : Prop where
  rate : 0 ≤ l.rate
  burst : 0 ≤ l.burst
  tokens : 0 ≤ l.tokens

theorem Solvent.refill (h : l.Solvent) (hnow : l.lastFill ≤ now) : (l.refill now).Solvent := by
  have hin := mul_nonneg (seconds_nonneg (sub_nonneg.mpr hnow)) h.rate
  exact ⟨h.rate, h.burst, le_min h.burst (add_nonneg h.tokens hin)⟩

theorem perform_of_le {o : Op} (h : (o.amount : ℚ) ≤ (l.refill now).tokens) :
    (l.perform now o).1 = { l.refill now with tokens := (l.refill now).tokens - o.amount } := by
  cases o with
  | allow =>
      simp only [Op.amount, Int.cast_one] at h
      simp [perform, allow, allowN, Op.amount, not_lt.mpr h]
  | allowN n =>
      simp only [Op.amount] at h
      simp [perform, allowN, Op.amount, not_lt.mpr h]
  | wait =>
      simp only [Op.amount, Int.cast_one] at h
      simp [perform, waitN, Op.amount, h]
  | waitN n =>
      simp only [Op.amount] at h
      simp [perform, waitN, Op.amount, h]
  | tokens => simp [perform, getTokens, Op.amount]

/-- Whatever the argument, a section overdraws nothing. -/
theorem Solvent.perform (h : l.Solvent) (hnow : l.lastFill ≤ now) (o : Op) :
    (l.perform now o).1.Solvent ∧ (l.perform now o).1.lastFill = now ∧
      (l.perform now o).1.rate = l.rate ∧ (l.perform now o).1.burst = l.burst := by
  have hfull := h.refill hnow
  rcases l.perform_cases now o with hp | ⟨hle, hp⟩
  · rw [hp]
    exact ⟨hfull, rfl, rfl, rfl⟩
  · rw [hp]
    exact ⟨⟨h.rate, h.burst, sub_nonneg.mpr hle⟩, rfl, rfl, rfl⟩

theorem Solvent.after (h : l.Solvent) {xs : List (ℤ × Op)} (hxs : Timed l.lastFill xs) :
    (l.after xs).Solvent ∧ (l.after xs).rate = l.rate ∧ (l.after xs).burst = l.burst := by
  induction xs generalizing l with
  | nil => exact ⟨h, rfl, rfl⟩
  | cons x xs ih =>
      obtain ⟨now, o⟩ := x
      obtain ⟨hsolvent, hfill, hrate, hburst⟩ := h.perform hxs.1 o
      obtain ⟨hrest, hrate', hburst'⟩ := ih hsolvent (by rw [hfill]; exact hxs.2)
      exact ⟨hrest, hrate'.trans hrate, hburst'.trans hburst⟩

/-- A section leaves no more than the refill has brought, and a bucket within its bounds. -/
def Conserving (l : Limiter) (now : ℤ) (o : Op) : Prop :=
  (l.perform now o).1.tokens ≤ (l.refill now).tokens ∧
    0 ≤ (l.perform now o).1.tokens ∧ (l.perform now o).1.tokens ≤ l.burst

theorem Solvent.conserving_iff (h : l.Solvent) (hnow : l.lastFill ≤ now) (o : Op) :
    l.Conserving now o ↔ 0 ≤ o.amount := by
  have hfull := h.refill hnow
  constructor
  · rintro ⟨hle, -, -⟩
    by_contra hneg
    have hamount : (o.amount : ℚ) < 0 := by exact_mod_cast not_le.mp hneg
    -- a negative amount is always there
    rw [perform_of_le (hamount.le.trans hfull.tokens)] at hle
    have : (l.refill now).tokens - o.amount ≤ (l.refill now).tokens := hle
    linarith
  · intro ho
    have hamount : (0 : ℚ) ≤ o.amount := by exact_mod_cast ho
    have hcap : (l.refill now).tokens ≤ l.burst := min_le_left ..
    have hle : (l.perform now o).1.tokens ≤ (l.refill now).tokens := by
      rcases l.perform_cases now o with hp | ⟨-, hp⟩
      · rw [hp]
      · rw [hp]
        exact sub_le_self _ hamount
    exact ⟨hle, (h.perform hnow o).1.tokens, hle.trans hcap⟩

/-- Every section of a run conserves. -/
def ConservingAll (l : Limiter) : List (ℤ × Op) → Prop
  | [] => True
  | (now, o) :: xs => l.Conserving now o ∧ (l.perform now o).1.ConservingAll xs

theorem Solvent.conservingAll_iff (h : l.Solvent) {xs : List (ℤ × Op)}
    (hxs : Timed l.lastFill xs) : l.ConservingAll xs ↔ Amounts xs := by
  induction xs generalizing l with
  | nil => simp [ConservingAll, Amounts]
  | cons x xs ih =>
      obtain ⟨now, o⟩ := x
      obtain ⟨hsolvent, hfill, -, -⟩ := h.perform hxs.1 o
      have hrest := ih hsolvent (by rw [hfill]; exact hxs.2)
      simp only [ConservingAll, h.conserving_iff hxs.1, hrest, Amounts, List.forall_mem_cons]

theorem solvent_new {rate : ℚ} {burst : ℤ} (hr : 0 ≤ rate) (hb : 1 ≤ burst) (now : ℤ) :
    (new rate burst now).Solvent := by
  have hburst : (0 : ℚ) ≤ burst := by exact_mod_cast (by omega : (0 : ℤ) ≤ burst)
  exact ⟨hr, hburst, hburst⟩

/-- Over any run, no call puts tokens into the bucket or leaves it out of bounds, exactly if no
argument is negative. -/
theorem no_minting_iff {rate : ℚ} {burst now : ℤ} (hr : 0 ≤ rate) (hb : 1 ≤ burst)
    {xs : List (ℤ × Op)} (hxs : Timed now xs) :
    (new rate burst now).ConservingAll xs ↔ ∀ x ∈ xs, 0 ≤ x.2.amount :=
  (solvent_new hr hb now).conservingAll_iff hxs

/-- The calls of the example take what is there. -/
theorem spree_mints_nothing : (new 2 2 0).ConservingAll spree :=
  (no_minting_iff (by norm_num) (by norm_num) (by simp [Timed, spree])).mpr
    (by simp [spree, Op.amount])

/-- A negative argument fills the bucket over its burst. -/
theorem negative_amount_mints :
    ((new 1 1 0).allowN 0 (-5)).2 = true ∧ ((new 1 1 0).allowN 0 (-5)).1.tokens = 6 ∧
      ((new 1 1 0).waitN 0 (-5)).2 = none ∧ ((new 1 1 0).waitN 0 (-5)).1.tokens = 6 ∧
      ¬(new 1 1 0).ConservingAll [(0, .allowN (-5))] := by
  have hallow : ((new 1 1 0).allowN 0 (-5)).1.tokens = 6 := by decide +kernel
  refine ⟨by decide +kernel, hallow, by decide +kernel, by decide +kernel, ?_⟩
  rintro ⟨⟨-, -, hle⟩, -⟩
  change ((new 1 1 0).allowN 0 (-5)).1.tokens ≤ 1 at hle
  rw [hallow] at hle
  norm_num at hle

/-! ## Waiting -/

theorem refill_refill (h : l.Solvent) {t u : ℤ} (htu : t ≤ u) :
    (l.refill t).refill u = l.refill u := by
  have hin := mul_nonneg (seconds_nonneg (sub_nonneg.mpr htu)) h.rate
  have hsplit : seconds (u - l.lastFill) = seconds (t - l.lastFill) + seconds (u - t) := by
    rw [← seconds_add]
    congr 1
    omega
  have htokens : min l.burst (min l.burst (l.tokens + seconds (t - l.lastFill) * l.rate) +
      seconds (u - t) * l.rate) = min l.burst (l.tokens + seconds (u - l.lastFill) * l.rate) := by
    rw [hsplit, add_mul, ← add_assoc, min_add, ← min_assoc,
      min_eq_left (le_add_of_nonneg_right hin)]
  simp only [refill, htokens]

/-- Truncation loses less than one. -/
theorem lt_tdiv_add_one {d : ℚ} (hd : 0 ≤ d) : d < ((d.num.tdiv d.den : ℤ) : ℚ) + 1 := by
  rw [Int.tdiv_eq_ediv_of_nonneg (Rat.num_nonneg.mpr hd), ← Rat.floor_def']
  exact Int.lt_floor_add_one d

/-- What is in the bucket when a sleep of at least this duration is over. -/
theorem refill_add_tokens (l : Limiter) (d : ℤ) :
    (l.refill (l.lastFill + d)).tokens = min l.burst (l.tokens + d / 10 ^ 9 * l.rate) := by
  simp [refill, seconds]

/-- A sleep that lasts as long as the tokens take to flow in is enough. -/
theorem le_tokens_of_le {n : ℤ} (hrate : 0 < l.rate) (hburst : (n : ℚ) ≤ l.burst) {d : ℤ}
    (hd : (n - l.tokens) / l.rate * 10 ^ 9 ≤ d) :
    (n : ℚ) ≤ (l.refill (l.lastFill + d)).tokens := by
  rw [refill_add_tokens]
  refine le_min hburst ?_
  have hflow : n - l.tokens ≤ d / 10 ^ 9 * l.rate := by
    rw [div_mul_eq_mul_div, div_le_iff₀ hrate] at hd
    rw [div_mul_eq_mul_div, le_div_iff₀ (by positivity)]
    exact hd
  linarith

/-- Any sleep that `WaitN` computes brings all but what flows in within a nanosecond. -/
theorem short_of_waitDur {n : ℤ} (hrate : 0 < l.rate) (hburst : (n : ℚ) ≤ l.burst)
    (hshort : l.tokens < n) {d : ℤ} (hd : l.waitDur n ≤ d) :
    n - (l.refill (l.lastFill + d)).tokens ≤ l.rate / 10 ^ 9 := by
  have hneed : 0 ≤ (n - l.tokens) / l.rate * 10 ^ 9 := by
    have := sub_pos.mpr hshort
    positivity
  have hle : (n - l.tokens) / l.rate * 10 ^ 9 ≤ ((d + 1 : ℤ) : ℚ) := by
    have htrunc : ((((n - l.tokens) / l.rate * 10 ^ 9).num.tdiv
        ((n - l.tokens) / l.rate * 10 ^ 9).den : ℤ) : ℚ) ≤ d := by
      exact_mod_cast (le_max_right _ _).trans hd
    push_cast
    linarith [lt_tdiv_add_one hneed]
  have hnext := le_tokens_of_le hrate hburst hle
  rw [refill_add_tokens] at hnext ⊢
  have hflow := (le_min_iff.mp hnext).2
  push_cast at hflow
  rcases min_choice l.burst (l.tokens + d / 10 ^ 9 * l.rate) with hmin | hmin
  · rw [hmin]
    have : 0 < l.rate / 10 ^ 9 := by positivity
    linarith
  · rw [hmin]
    have hexpand : ((d : ℚ) + 1) / 10 ^ 9 * l.rate = d / 10 ^ 9 * l.rate + l.rate / 10 ^ 9 := by
      ring
    linarith

def take (l : Limiter) (n : ℤ) : Limiter := { l with tokens := l.tokens - n }

theorem waitN_of_le {n : ℤ} (h : (n : ℚ) ≤ (l.refill now).tokens) :
    l.waitN now n = ((l.refill now).take n, none) := by
  simp [waitN, take, h]

theorem waitN_of_lt {n : ℤ} (h : (l.refill now).tokens < n) :
    l.waitN now n = (l.refill now, some ((l.refill now).waitDur n)) := by
  simp [waitN, not_le.mpr h]

/-- The loop of `WaitN` under a live context: the limiter and the time when it returns, and the
number of sleeps.  The `i`-th sleep lasts `late i` longer than asked for. -/
def waitLoop (n : ℤ) (late : ℕ → ℤ) : ℕ → Limiter → ℤ → ℕ → Option (Limiter × ℤ × ℕ)
  | 0, _, _, _ => none
  | fuel + 1, l, now, sleeps =>
      match l.waitN now n with
      | (l, none) => some (l, now, sleeps)
      | (l, some d) => waitLoop n late fuel l (now + d + late sleeps) (sleeps + 1)

section Loop

variable {n : ℤ} (late : ℕ → ℤ) (fuel sleeps : ℕ)

-- both read the body of the loop by `change`: its equation lemmas are slow to generate
theorem waitLoop_of_le (h : (n : ℚ) ≤ (l.refill now).tokens) :
    waitLoop n late (fuel + 1) l now sleeps = some ((l.refill now).take n, now, sleeps) := by
  change (match l.waitN now n with
    | (l, none) => some (l, now, sleeps)
    | (l, some d) => waitLoop n late fuel l (now + d + late sleeps) (sleeps + 1)) = _
  rw [waitN_of_le h]

theorem waitLoop_of_lt (h : (l.refill now).tokens < n) :
    waitLoop n late (fuel + 1) l now sleeps = waitLoop n late fuel (l.refill now)
      (now + (l.refill now).waitDur n + late sleeps) (sleeps + 1) := by
  change (match l.waitN now n with
    | (l, none) => some (l, now, sleeps)
    | (l, some d) => waitLoop n late fuel l (now + d + late sleeps) (sleeps + 1)) = _
  rw [waitN_of_lt h]

end Loop

/-- From a bucket that is short by what flows in within a nanosecond, one sleep is enough. -/
theorem waitLoop_of_short {n : ℤ} {late : ℕ → ℤ} (hlate : ∀ i, 0 ≤ late i) (hl : l.Solvent)
    (hrate : 0 < l.rate) (hburst : (n : ℚ) ≤ l.burst)
    (hshort : n - (l.refill now).tokens ≤ l.rate / 10 ^ 9) (sleeps : ℕ) :
    ∃ t k, (∀ fuel, waitLoop n late (fuel + 2) l now sleeps =
      some ((l.refill t).take n, t, k)) ∧ now ≤ t ∧ k ≤ sleeps + 1 := by
  by_cases h : (n : ℚ) ≤ (l.refill now).tokens
  · exact ⟨now, sleeps, fun fuel => waitLoop_of_le late _ sleeps h, le_rfl, Nat.le_succ _⟩
  · have hlt := not_le.mp h
    have hwait : 1 ≤ (l.refill now).waitDur n := (by decide : (1 : ℤ) ≤ millisecond).trans
      (le_max_left _ _)
    set t := now + (l.refill now).waitDur n + late sleeps with ht
    have htime : now ≤ t := by
      have := hlate sleeps
      omega
    -- a nanosecond would do
    have henough : (n : ℚ) ≤ (l.refill t).tokens := by
      have hd : (n - (l.refill now).tokens) / (l.refill now).rate * 10 ^ 9 ≤
          ((t - now : ℤ) : ℚ) := by
        have hone : (n - (l.refill now).tokens) / l.rate * 10 ^ 9 ≤ 1 := by
          rw [div_mul_eq_mul_div, div_le_one hrate]
          linarith [(le_div_iff₀ (by positivity : (0 : ℚ) < 10 ^ 9)).mp hshort]
        refine hone.trans ?_
        have := hlate sleeps
        exact_mod_cast (by omega : (1 : ℤ) ≤ t - now)
      have := le_tokens_of_le (l := l.refill now) hrate hburst hd
      rwa [show (l.refill now).lastFill + (t - now) = t by simp [refill],
        refill_refill hl htime] at this
    rw [← refill_refill hl htime] at henough
    refine ⟨t, sleeps + 1, fun fuel => ?_, htime, le_rfl⟩
    rw [waitLoop_of_lt late _ sleeps hlt, ← ht, waitLoop_of_le late fuel _ henough,
      refill_refill hl htime]

/-- From every state that calls can lead to, `WaitN` takes its tokens and returns after at most
two sleeps, and every duration it computes is in the range of the conversion. -/
theorem wait_sleeps_twice {rate : ℚ} {burst start : ℤ} (hr : 0 < rate) (hb : 1 ≤ burst)
    {xs : List (ℤ × Op)} (hxs : Timed start xs) {l : Limiter}
    (hl : l = (new rate burst start).after xs) {n : ℤ} (hburst : n ≤ burst)
    (hrange : n / rate * 10 ^ 9 < 2 ^ 63) (hnow : l.lastFill ≤ now) {late : ℕ → ℤ}
    (hlate : ∀ i, 0 ≤ late i) :
    (∃ t k, (∀ fuel, waitLoop n late (fuel + 3) l now 0 = some ((l.refill t).take n, t, k)) ∧
      now ≤ t ∧ k ≤ 2) ∧
    ∀ t, l.lastFill ≤ t → (n - (l.refill t).tokens) / rate * 10 ^ 9 < 2 ^ 63 := by
  obtain ⟨hsolvent, hlrate, hlburst⟩ := (solvent_new hr.le hb start).after hxs
  rw [← hl] at hsolvent hlrate hlburst
  have hrate : 0 < l.rate := hlrate ▸ hr
  have hcap : (n : ℚ) ≤ l.burst := hlburst ▸ (by exact_mod_cast hburst : (n : ℚ) ≤ burst)
  refine ⟨?_, fun t ht => ?_⟩
  · by_cases h : (n : ℚ) ≤ (l.refill now).tokens
    · exact ⟨now, 0, fun fuel => waitLoop_of_le late _ 0 h, le_rfl, Nat.zero_le _⟩
    · have hlt := not_le.mp h
      set d := (l.refill now).waitDur n + late 0 with hd
      have hwait : (l.refill now).waitDur n ≤ d := le_add_of_nonneg_right (hlate 0)
      have hpos : 0 ≤ d := ((by decide : (0 : ℤ) ≤ millisecond).trans (le_max_left _ _)).trans hwait
      have hfull := hsolvent.refill hnow
      -- behind the first sleep less than a nanosecond's flow is missing
      have hshort := short_of_waitDur (l := l.refill now) hrate hcap hlt hwait
      obtain ⟨t, k, hloop, htime, hk⟩ :=
        waitLoop_of_short (l := l.refill now) hlate hfull hrate hcap hshort 1
      change now + d ≤ t at htime
      have hnowt : now ≤ t := by omega
      refine ⟨t, k, fun fuel => ?_, hnowt, hk⟩
      rw [waitLoop_of_lt late _ 0 hlt, add_assoc, ← hd, ← refill_refill hsolvent hnowt]
      exact hloop fuel
  · have htokens := (hsolvent.refill ht).tokens
    refine lt_of_le_of_lt ?_ hrange
    gcongr
    linarith

/-- An empty bucket with seven tokens a second: the first sleep falls short. -/
theorem seventh_waits_twice :
    (∃ t k, (∀ fuel, waitLoop 1 (fun _ => 0) (fuel + 3) ((new 7 1 0).after [(0, .allow)]) 0 0 =
      some ((((new 7 1 0).after [(0, .allow)]).refill t).take 1, t, k)) ∧ 0 ≤ t ∧ k ≤ 2) ∧
    waitLoop 1 (fun _ => 0) 3 ((new 7 1 0).after [(0, .allow)]) 0 0 =
      some (⟨7, 1, 0, 143857142⟩, 143857142, 2) := by
  have htimed : Timed 0 [(0, Op.allow)] := by simp [Timed]
  have hfill : ((new 7 1 0).after [(0, .allow)]).lastFill ≤ 0 := by decide +kernel
  exact ⟨(wait_sleeps_twice (by norm_num) le_rfl htimed rfl le_rfl (by norm_num) hfill
    fun _ => le_rfl).1, by decide +kernel⟩

end Limiter

end Gkit.RateLimit
