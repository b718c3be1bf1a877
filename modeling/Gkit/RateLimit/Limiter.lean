import Gkit.Lib.Durations
import Gkit.Lib.Runs

/-!
# Package `ratelimit`: the token bucket

Tokens and rates are exact.  Every method is one critical section, and so is
each iteration of the loop in `WaitN`; what callers do in between does not touch
the bucket.  Over a window of time the bucket grants no more than it can hold
and what flows into it meanwhile.
-/

namespace Gkit.RateLimit

open Gkit.Lib

structure Limiter where
  rate : ℚ
  burst : ℚ
  tokens : ℚ
  lastFill : ℤ
  deriving DecidableEq, Repr

def seconds (d : ℤ) : ℚ := d / 10 ^ 9

namespace Limiter

/-- The constructor `New`. -/
def new (rate : ℚ) (burst : ℤ) (now : ℤ) : Limiter := ⟨rate, burst, burst, now⟩

def refill (l : Limiter) (now : ℤ) : Limiter :=
  { l with
    tokens := min l.burst (l.tokens + seconds (now - l.lastFill) * l.rate)
    lastFill := now }

def allowN (l : Limiter) (now n : ℤ) : Limiter × Bool :=
  let l := l.refill now
  if l.tokens < n then (l, false) else ({ l with tokens := l.tokens - n }, true)

def allow (l : Limiter) (now : ℤ) : Limiter × Bool := l.allowN now 1

/-- How long `WaitN` sleeps for `n` tokens. -/
def waitDur (l : Limiter) (n : ℤ) : ℤ :=
  let need := n - l.tokens
  let d := need / l.rate * 10 ^ 9
  max millisecond (d.num.tdiv d.den)

/-- One iteration of `WaitN`: the tokens are taken, or there is a time to sleep. -/
def waitN (l : Limiter) (now n : ℤ) : Limiter × Option ℤ :=
  let l := l.refill now
  if l.tokens ≥ n then ({ l with tokens := l.tokens - n }, none) else (l, some (l.waitDur n))

def getTokens (l : Limiter) (now : ℤ) : Limiter × ℚ :=
  let l := l.refill now
  (l, l.tokens)

end Limiter

inductive Op where
  | allow
  | allowN (n : ℤ)
  | wait
  | waitN (n : ℤ)
  | tokens

def Op.amount : Op → ℤ
  | .allow => 1
  | .allowN n => n
  | .wait => 1
  | .waitN n => n
  | .tokens => 0

namespace Limiter

/-- The limiter after a section, and the tokens that were granted. -/
def perform (l : Limiter) (now : ℤ) : Op → Limiter × ℤ
  | .allow =>
      let (l, ok) := l.allow now
      (l, if ok then 1 else 0)
  | .allowN n =>
      let (l, ok) := l.allowN now n
      (l, if ok then n else 0)
  | .wait =>
      let (l, sleep) := l.waitN now 1
      (l, if sleep = none then 1 else 0)
  | .waitN n =>
      let (l, sleep) := l.waitN now n
      (l, if sleep = none then n else 0)
  | .tokens => ((l.getTokens now).1, 0)

def after (l : Limiter) : List (ℤ × Op) → Limiter
  | [] => l
  | (now, o) :: xs => (l.perform now o).1.after xs

def grants (l : Limiter) : List (ℤ × Op) → List (ℤ × ℤ)
  | [] => []
  | (now, o) :: xs => (now, (l.perform now o).2) :: (l.perform now o).1.grants xs

end Limiter

/-- What was granted from `s` to `t`. -/
def granted (s t : ℤ) (gs : List (ℤ × ℤ)) : ℤ :=
  ((gs.filter fun g => s ≤ g.1 ∧ g.1 ≤ t).map Prod.snd).sum

theorem granted_cons (s t : ℤ) (g : ℤ × ℤ) (gs : List (ℤ × ℤ)) :
    granted s t (g :: gs) = (if s ≤ g.1 ∧ g.1 ≤ t then g.2 else 0) + granted s t gs := by
  unfold granted
  by_cases h : s ≤ g.1 ∧ g.1 ≤ t <;> simp [h]

theorem granted_eq_zero {s t : ℤ} {gs : List (ℤ × ℤ)} (h : ∀ g ∈ gs, t < g.1) :
    granted s t gs = 0 := by
  have hnil : gs.filter (fun g => decide (s ≤ g.1 ∧ g.1 ≤ t)) = [] := by
    refine List.filter_eq_nil_iff.mpr fun g hg => ?_
    have := h g hg
    simp only [decide_eq_true_eq]
    omega
  rw [granted, hnil, List.map_nil, List.sum_nil]

theorem seconds_nonneg {d : ℤ} (h : 0 ≤ d) : 0 ≤ seconds d := by
  have : (0 : ℚ) ≤ d := by exact_mod_cast h
  unfold seconds
  positivity

theorem seconds_add (d e : ℤ) : seconds (d + e) = seconds d + seconds e := by
  unfold seconds
  push_cast
  ring

theorem seconds_le {d e : ℤ} (h : d ≤ e) : seconds d ≤ seconds e := by
  have hnonneg := seconds_nonneg (sub_nonneg.mpr h)
  have hsum : seconds e = seconds d + seconds (e - d) := by
    rw [← seconds_add, add_sub_cancel]
  linarith

namespace Limiter

/-! ## One section -/

/-- Every section refills, and then takes nothing or its amount. -/
theorem perform_cases (l : Limiter) (now : ℤ) (o : Op) :
    l.perform now o = (l.refill now, 0) ∨
      ((o.amount : ℚ) ≤ (l.refill now).tokens ∧
        l.perform now o =
          ({ l.refill now with tokens := (l.refill now).tokens - o.amount }, o.amount)) := by
  have hallow : ∀ n : ℤ, l.allowN now n = (l.refill now, false) ∨
      ((n : ℚ) ≤ (l.refill now).tokens ∧ l.allowN now n =
        ({ l.refill now with tokens := (l.refill now).tokens - n }, true)) := by
    intro n
    by_cases h : (l.refill now).tokens < n
    · exact .inl (by simp [allowN, h])
    · exact .inr ⟨le_of_not_gt h, by simp [allowN, h]⟩
  have hwait : ∀ n : ℤ, (∃ d, l.waitN now n = (l.refill now, some d)) ∨
      ((n : ℚ) ≤ (l.refill now).tokens ∧ l.waitN now n =
        ({ l.refill now with tokens := (l.refill now).tokens - n }, none)) := by
    intro n
    by_cases h : (l.refill now).tokens ≥ n
    · exact .inr ⟨h, by simp [waitN, h]⟩
    · exact .inl ⟨(l.refill now).waitDur n, by simp [waitN, h]⟩
  cases o with
  | tokens => exact .inl rfl
  | allow =>
      rcases hallow 1 with h | ⟨hle, h⟩
      · exact .inl (by simp [perform, allow, h])
      · exact .inr ⟨hle, by simp [perform, allow, h, Op.amount]⟩
  | allowN n =>
      rcases hallow n with h | ⟨hle, h⟩
      · exact .inl (by simp [perform, h])
      · exact .inr ⟨hle, by simp [perform, h, Op.amount]⟩
  | wait =>
      rcases hwait 1 with ⟨d, h⟩ | ⟨hle, h⟩
      · exact .inl (by simp [perform, h])
      · exact .inr ⟨hle, by simp [perform, h, Op.amount]⟩
  | waitN n =>
      rcases hwait n with ⟨d, h⟩ | ⟨hle, h⟩
      · exact .inl (by simp [perform, h])
      · exact .inr ⟨hle, by simp [perform, h, Op.amount]⟩

structure Valid (l : Limiter) : Prop where
  rate : 0 ≤ l.rate
  tokens : 0 ≤ l.tokens
  le_burst : l.tokens ≤ l.burst

theorem Valid.burst_nonneg {l : Limiter} (h : l.Valid) : 0 ≤ l.burst := h.tokens.trans h.le_burst

theorem Valid.inflow_nonneg {l : Limiter} (h : l.Valid) {d : ℤ} (hd : 0 ≤ d) :
    0 ≤ seconds d * l.rate :=
  mul_nonneg (seconds_nonneg hd) h.rate

theorem Valid.refill {l : Limiter} (h : l.Valid) {now : ℤ} (hnow : l.lastFill ≤ now) :
    (l.refill now).Valid where
  rate := h.rate
  tokens := by
    have hin := h.inflow_nonneg (sub_nonneg.mpr hnow)
    exact le_min h.burst_nonneg (add_nonneg h.tokens hin)
  le_burst := min_le_left ..

/-- What a section grants comes out of the refilled bucket. -/
structure Grants (l l' : Limiter) (now n : ℤ) : Prop where
  rate : l'.rate = l.rate
  burst : l'.burst = l.burst
  lastFill : l'.lastFill = now
  tokens : l'.tokens = (l.refill now).tokens - n
  valid : l'.Valid

theorem Valid.grants_perform {l : Limiter} (h : l.Valid) {now : ℤ} (hnow : l.lastFill ≤ now)
    {o : Op} (ho : 0 ≤ o.amount) : Grants l (l.perform now o).1 now (l.perform now o).2 := by
  have hfull := h.refill hnow
  have hamount : (0 : ℚ) ≤ o.amount := by exact_mod_cast ho
  rcases l.perform_cases now o with hp | ⟨hle, hp⟩
  · rw [hp]
    exact ⟨rfl, rfl, rfl, by simp, hfull⟩
  · rw [hp]
    refine ⟨rfl, rfl, rfl, rfl, h.rate, sub_nonneg.mpr hle, ?_⟩
    exact (sub_le_self _ hamount).trans hfull.le_burst

/-! ## Whole runs -/

def Amounts (xs : List (ℤ × Op)) : Prop := ∀ x ∈ xs, 0 ≤ x.2.amount

theorem Valid.after {l : Limiter} (h : l.Valid) {xs : List (ℤ × Op)}
    (hxs : Timed l.lastFill xs) (hn : Amounts xs) :
    (l.after xs).Valid ∧ (l.after xs).burst = l.burst := by
  induction xs generalizing l with
  | nil => exact ⟨h, rfl⟩
  | cons x xs ih =>
      obtain ⟨now, o⟩ := x
      have hg := h.grants_perform hxs.1 (hn _ List.mem_cons_self)
      have hnext : Timed (l.perform now o).1.lastFill xs := by
        rw [hg.lastFill]
        exact hxs.2
      have hrest := ih hg.valid hnext fun y hy => hn y (List.mem_cons_of_mem _ hy)
      exact ⟨hrest.1, hrest.2.trans hg.burst⟩

theorem le_of_mem_grants {l : Limiter} {xs : List (ℤ × Op)} {t : ℤ} (h : Timed t xs) {g : ℤ × ℤ}
    (hg : g ∈ l.grants xs) : t ≤ g.1 := by
  induction xs generalizing l t with
  | nil => simp [grants] at hg
  | cons x xs ih =>
      obtain ⟨now, o⟩ := x
      rcases List.mem_cons.mp hg with rfl | hg
      · exact h.1
      · exact h.1.trans (ih h.2 hg)

/-- From a bucket filled inside the window comes what is in it and what flows
in; from one filled earlier, as much as it can hold at the start of the window. -/
theorem Valid.granted_le {l : Limiter} (h : l.Valid) {xs : List (ℤ × Op)}
    (hxs : Timed l.lastFill xs) (hn : Amounts xs) {s t : ℤ} (hst : s ≤ t) :
    (granted s t (l.grants xs) : ℚ) ≤ l.burst + seconds (t - s) * l.rate ∧
      (s ≤ l.lastFill → l.lastFill ≤ t →
        (granted s t (l.grants xs) : ℚ) ≤ l.tokens + seconds (t - l.lastFill) * l.rate) := by
  induction xs generalizing l with
  | nil =>
      have hin := h.inflow_nonneg (sub_nonneg.mpr hst)
      simp only [grants, granted, List.filter_nil, List.map_nil, List.sum_nil, Int.cast_zero]
      refine ⟨add_nonneg h.burst_nonneg hin, fun _ hle => ?_⟩
      exact add_nonneg h.tokens (h.inflow_nonneg (sub_nonneg.mpr hle))
  | cons x xs ih =>
      obtain ⟨now, o⟩ := x
      obtain ⟨hnow, hrest⟩ := hxs
      have hg := h.grants_perform hnow (hn _ List.mem_cons_self)
      have hnext : Timed (l.perform now o).1.lastFill xs := by
        rw [hg.lastFill]
        exact hrest
      obtain ⟨hearly, hlate⟩ := ih hg.valid hnext fun y hy => hn y (List.mem_cons_of_mem _ hy)
      have hin := h.inflow_nonneg (sub_nonneg.mpr hst)
      simp only [grants, granted_cons]
      rw [hg.burst, hg.rate] at hearly
      rw [hg.lastFill, hg.tokens, hg.rate] at hlate
      rcases lt_or_ge t now with htnow | htnow
      · -- The section is after the window, and so is all that follows.
        rw [if_neg (by omega), granted_eq_zero fun g hmem =>
          htnow.trans_le (le_of_mem_grants hrest hmem)]
        simp only [add_zero, Int.cast_zero]
        refine ⟨add_nonneg h.burst_nonneg hin, fun _ hle => ?_⟩
        exact add_nonneg h.tokens (h.inflow_nonneg (sub_nonneg.mpr hle))
      · rcases lt_or_ge now s with hnows | hnows
        · rw [if_neg (by omega), zero_add]
          exact ⟨hearly, fun hs _ => absurd (hs.trans hnow) (by omega)⟩
        · rw [if_pos ⟨hnows, htnow⟩, Int.cast_add]
          have hsum := hlate hnows htnow
          have hcap : (l.refill now).tokens ≤ l.burst := min_le_left ..
          have hflow : (l.refill now).tokens ≤ l.tokens + seconds (now - l.lastFill) * l.rate :=
            min_le_right ..
          constructor
          · have hshort := mul_le_mul_of_nonneg_right
              (seconds_le (show t - now ≤ t - s by omega)) h.rate
            linarith
          · intro _ _
            have hsplit : seconds (t - l.lastFill) =
                seconds (now - l.lastFill) + seconds (t - now) := by
              rw [← seconds_add]
              congr 1
              omega
            rw [hsplit, add_mul]
            linarith

theorem valid_new {rate : ℚ} {burst : ℤ} (hr : 0 ≤ rate) (hb : 1 ≤ burst) (now : ℤ) :
    (new rate burst now).Valid := by
  have hburst : (0 : ℚ) ≤ burst := by exact_mod_cast (by omega : (0 : ℤ) ≤ burst)
  exact ⟨hr, hburst, le_rfl⟩

/-- In any window a limiter grants at most its burst and what flows in, and its
bucket is never overdrawn or overfull. -/
theorem limiter_bound {rate : ℚ} {burst now : ℤ} (hr : 0 ≤ rate) (hb : 1 ≤ burst)
    {xs : List (ℤ × Op)} (hxs : Timed now xs) (hn : Amounts xs) :
    (∀ s t, s ≤ t → (granted s t ((new rate burst now).grants xs) : ℚ) ≤
      burst + rate * seconds (t - s)) ∧
      0 ≤ ((new rate burst now).after xs).tokens ∧
      ((new rate burst now).after xs).tokens ≤ burst := by
  have hvalid := valid_new hr hb now
  refine ⟨fun s t hst => ?_, ?_, ?_⟩
  · have hle := (hvalid.granted_le hxs hn hst).1
    rwa [mul_comm] at hle
  · exact (hvalid.after hxs hn).1.tokens
  · obtain ⟨hv, hburst⟩ := hvalid.after hxs hn
    exact hv.le_burst.trans hburst.le

def spree : List (ℤ × Op) :=
  [(0, .allowN 2), (0, .allow), (500000000, .waitN 1), (1000000000, .tokens)]

theorem spree_bound :
    ((new 2 2 0).grants spree).map Prod.snd = [2, 0, 1, 0] ∧
      (granted 0 1000000000 ((new 2 2 0).grants spree) : ℚ) ≤ 2 + 2 * seconds 1000000000 := by
  refine ⟨by decide +kernel, ?_⟩
  have hxs : Timed 0 spree := by simp [Timed, spree]
  have hn : Amounts spree := by simp [Amounts, spree, Op.amount]
  exact (@limiter_bound 2 2 0 (by norm_num) (by norm_num) spree hxs hn).1 0 1000000000 (by norm_num)

end Limiter

end Gkit.RateLimit
