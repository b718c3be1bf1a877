import Gkit.Lib.Durations
import Gkit.Retry.Loop

/-!
# Exponential backoff

`Next` converts the product before it compares it with `Max`.  A product of 2^63
nanoseconds or more converts to the smallest `time.Duration`, which is below every
cap: from there on the delay is negative, and `Do` does not sleep at all.
-/

namespace Gkit.Retry

open Gkit.Lib

/-- Truncation toward zero. -/
def trunc (q : ℚ) : ℤ := q.num.tdiv q.den

/-- The conversion `time.Duration(d)` as amd64 does it. -/
def toDuration (d : ℚ) : ℤ :=
  if -2 ^ 63 ≤ trunc d ∧ trunc d < 2 ^ 63 then trunc d else -2 ^ 63

structure ExponentialBackoff where
  initial : ℤ
  multiplier : ℚ
  max : ℤ

namespace ExponentialBackoff

/-- `float64(b.Initial) * math.Pow(b.Multiplier, float64(attempt))`, exactly. -/
def product (b : ExponentialBackoff) (attempt : ℕ) : ℚ := b.initial * b.multiplier ^ attempt

def next (b : ExponentialBackoff) (attempt : ℕ) : ℤ :=
  let d := b.product attempt
  if 0 < b.max ∧ b.max < toDuration d then b.max else toDuration d

def backoff {σ : Type} (b : ExponentialBackoff) : Backoff σ :=
  ⟨fun attempt s => (b.next attempt, s)⟩

/-- `DefaultExponential`. -/
def default : ExponentialBackoff := ⟨100 * millisecond, 2, 30000 * millisecond⟩

end ExponentialBackoff

theorem trunc_eq_floor {q : ℚ} (h : 0 ≤ q) : trunc q = ⌊q⌋ := by
  rw [trunc, Int.tdiv_eq_ediv_of_nonneg (Rat.num_nonneg.mpr h), Rat.floor_def']

theorem toDuration_eq {q : ℚ} (h : 0 ≤ q) : toDuration q = if q < 2 ^ 63 then ⌊q⌋ else -2 ^ 63 := by
  have hfloor : ⌊q⌋ < 2 ^ 63 ↔ q < 2 ^ 63 := by
    rw [Int.floor_lt]
    norm_num
  have hnonneg : -2 ^ 63 ≤ ⌊q⌋ := (by norm_num : (-2 ^ 63 : ℤ) ≤ 0).trans (Int.floor_nonneg.mpr h)
  simp only [toDuration, trunc_eq_floor h, hfloor, hnonneg, true_and]

namespace ExponentialBackoff

section Caps

variable {b : ExponentialBackoff}

theorem product_nonneg (hinitial : 0 ≤ b.initial) (hmultiplier : 1 ≤ b.multiplier) (attempt : ℕ) :
    0 ≤ b.product attempt := by
  have hpow : 0 ≤ b.multiplier ^ attempt := pow_nonneg (zero_le_one.trans hmultiplier) _
  exact mul_nonneg (by exact_mod_cast hinitial) hpow

theorem product_mono (hinitial : 0 ≤ b.initial) (hmultiplier : 1 ≤ b.multiplier) {i j : ℕ}
    (h : i ≤ j) : b.product i ≤ b.product j :=
  mul_le_mul_of_nonneg_left (pow_le_pow_right₀ hmultiplier h) (by exact_mod_cast hinitial)

theorem le_product (hinitial : 0 ≤ b.initial) (hmultiplier : 1 ≤ b.multiplier) (attempt : ℕ) :
    (b.initial : ℚ) ≤ b.product attempt := by
  simpa [product] using product_mono hinitial hmultiplier (Nat.zero_le attempt)

theorem next_of_lt (hinitial : 0 ≤ b.initial) (hmultiplier : 1 ≤ b.multiplier) (hmax : 0 < b.max)
    {attempt : ℕ} (h : b.product attempt < 2 ^ 63) :
    b.next attempt = min ⌊b.product attempt⌋ b.max := by
  have hnonneg := product_nonneg hinitial hmultiplier attempt
  simp only [next, toDuration_eq hnonneg, if_pos h, hmax, true_and]
  split_ifs with hlt
  · exact (min_eq_right hlt.le).symm
  · exact (min_eq_left (not_lt.mp hlt)).symm

/-- What does not fit is taken for a duration far in the past. -/
theorem next_of_le (hinitial : 0 ≤ b.initial) (hmultiplier : 1 ≤ b.multiplier) (hmax : 0 < b.max)
    {attempt : ℕ} (h : 2 ^ 63 ≤ b.product attempt) : b.next attempt = -2 ^ 63 := by
  have hnonneg := product_nonneg hinitial hmultiplier attempt
  simp only [next, toDuration_eq hnonneg, if_neg (not_lt.mpr h)]
  rw [if_neg]
  rintro ⟨-, hlt⟩
  have hneg : (-2 ^ 63 : ℤ) < 0 := by norm_num
  exact lt_asymm hmax (hlt.trans hneg)

theorem next_eq_min_iff (hinitial : 0 ≤ b.initial) (hmultiplier : 1 ≤ b.multiplier)
    (hmax : 0 < b.max) (attempt : ℕ) :
    b.next attempt = min (trunc (b.product attempt)) b.max ↔ b.product attempt < 2 ^ 63 := by
  have hnonneg := product_nonneg hinitial hmultiplier attempt
  rw [trunc_eq_floor hnonneg]
  refine ⟨fun heq => ?_, next_of_lt hinitial hmultiplier hmax⟩
  by_contra hlt
  rw [next_of_le hinitial hmultiplier hmax (not_lt.mp hlt)] at heq
  have hmin : 0 ≤ min ⌊b.product attempt⌋ b.max := le_min (Int.floor_nonneg.mpr hnonneg) hmax.le
  rw [← heq] at hmin
  exact absurd hmin (by norm_num)

theorem next_bounds (hinitial : 0 ≤ b.initial) (hmultiplier : 1 ≤ b.multiplier) (hmax : 0 < b.max)
    {i j : ℕ} (h : i ≤ j) (hj : b.product j < 2 ^ 63) :
    0 ≤ b.next i ∧ b.next i ≤ b.next j ∧ b.next j ≤ b.max := by
  have hmono := product_mono hinitial hmultiplier h
  rw [next_of_lt hinitial hmultiplier hmax hj,
    next_of_lt hinitial hmultiplier hmax (hmono.trans_lt hj)]
  have hnonneg := Int.floor_nonneg.mpr (product_nonneg hinitial hmultiplier i)
  exact ⟨le_min hnonneg hmax.le, min_le_min_right _ (Int.floor_le_floor hmono), min_le_right _ _⟩

theorem next_pos_iff (hinitial : 1 ≤ b.initial) (hmultiplier : 1 ≤ b.multiplier)
    (hmax : 0 < b.max) (attempt : ℕ) : 0 < b.next attempt ↔ b.product attempt < 2 ^ 63 := by
  have hinitial₀ : 0 ≤ b.initial := zero_le_one.trans hinitial
  constructor
  · intro hpos
    by_contra hlt
    rw [next_of_le hinitial₀ hmultiplier hmax (not_lt.mp hlt)] at hpos
    exact absurd hpos (by norm_num)
  · intro hlt
    rw [next_of_lt hinitial₀ hmultiplier hmax hlt]
    have hone : (1 : ℚ) ≤ b.product attempt :=
      (by exact_mod_cast hinitial : (1 : ℚ) ≤ b.initial).trans
        (le_product hinitial₀ hmultiplier attempt)
    exact lt_min (Int.floor_pos.mpr hone) hmax

end Caps

end ExponentialBackoff

/-! ## Sleeping before every retry -/

/-- There is a sleep between any two calls of `fn`; the flag says that the loop has
slept since the last one. -/
def Rested {α : Type} : Bool → List (Event α) → Prop
  | _, [] => True
  | slept, .call _ _ :: log => slept = true ∧ Rested false log
  | _, .sleep _ _ :: log => Rested true log
  | slept, _ :: log => Rested slept log

section Sleeps

variable {σ α : Type}

/-- A round followed by another call is rested exactly if it waits. -/
theorem rested_roundLog_iff (cfg : Options σ) (attempt : ℕ) (v : α) (err : Err) (d : ℤ)
    {log : List (Event α)} (hlog : ∃ v err log', log = .head none :: .call v err :: log') :
    Rested true (roundLog cfg attempt v err d none ++ log) ↔ 0 < d ∧ Rested true log := by
  obtain ⟨v', err', log', rfl⟩ := hlog
  unfold roundLog pauseLog
  split_ifs with honRetry hd hd <;> simp [Rested, hd]

theorem Trace.rested [Inhabited α] {ctx : Context σ} {cfg : Options σ}
    {fn : σ → (α × Option Err) × σ} {attempt : ℕ} {s : σ} {run : Run σ α}
    (h : Trace ctx cfg fn attempt s run)
    (hpos : ∀ i, i + 1 < cfg.maxAttempts → ∀ s, 0 < (cfg.backoff.next i s).1) :
    Rested true run.log := by
  induction h with
  | cancelled => trivial
  | succeeded => exact ⟨rfl, trivial⟩
  | stopped => exact ⟨rfl, trivial⟩
  | exhausted => exact ⟨rfl, trivial⟩
  | interrupted _ _ hd _ _ =>
      simp only [roundLog, pauseLog, if_pos hd]
      split_ifs <;> exact ⟨rfl, trivial⟩
  | again hlt _ hlog _ ih =>
      obtain ⟨s, s', hnext⟩ := next_of_chained hlog
        (List.mem_append_right _ (next_mem_pauseLog _ _ _ none))
      have hd := hpos _ hlt s
      rw [hnext] at hd
      simp only [Run.after, roundLog, pauseLog, if_pos hd]
      split_ifs <;> exact ⟨rfl, ih⟩

/-- A function that always fails. -/
def unavailable [Inhabited α] (s : σ) : (α × Option Err) × σ :=
  ((default, some (.new "unavailable")), s)

section Unavailable

variable [Inhabited α] {cfg : Options σ} {d : ℕ → ℤ}

theorem unavailable_last {attempt : ℕ} (hlast : attempt + 1 = cfg.maxAttempts)
    (last : Option Err) (s : σ) :
    (loop background cfg (unavailable (α := α)) 1 attempt last s).log =
      [.head none, .call default (some (.new "unavailable"))] := by
  have hagain : ¬attempt < cfg.maxAttempts - 1 := by omega
  simp [loop, Context.readErr, background, unavailable, Err.asStop, hagain, Run.after]

theorem unavailable_again (hd : ∀ i s, (cfg.backoff.next i s).1 = d i) {n attempt : ℕ}
    (hlt : attempt + 1 < cfg.maxAttempts) (last : Option Err) (s : σ) :
    ∃ last' s', (loop background cfg (unavailable (α := α)) (n + 1) attempt last s).log =
      roundLog cfg attempt default (.new "unavailable") (d attempt) none ++
        (loop background cfg (unavailable (α := α)) n (attempt + 1) last' s').log := by
  have hagain : attempt < cfg.maxAttempts - 1 := by omega
  rcases hpause : pause (α := α) background cfg attempt (.new "unavailable") s with
    ⟨events, sleepErr, s'⟩
  obtain ⟨delay, rfl, hevents, hsleep⟩ := pause_spec unavailable hpause
  obtain ⟨s₁, s₂, hnext⟩ := next_of_chained hevents (next_mem_pauseLog _ _ _ sleepErr)
  obtain rfl : d attempt = delay := by rw [← hd attempt s₁, hnext]
  cases sleepErr with
  | some e => exact absurd (hsleep e rfl).2 (by simp [background])
  | none =>
      refine ⟨some (.new "unavailable"), s', ?_⟩
      rw [roundLog]
      simp only [loop, Context.readErr, background, unavailable, Err.asStop, if_pos hagain]
      simp only [background] at hpause
      simp [hpause, Run.after]

/-- Such a loop makes every attempt, and it is rested only if every delay is
positive. -/
theorem pos_of_unavailable_rested (hd : ∀ i s, (cfg.backoff.next i s).1 = d i) {n attempt : ℕ}
    (hn : attempt + (n + 1) = cfg.maxAttempts) (last : Option Err) (s : σ) {log : List (Event α)}
    (hlog : (loop background cfg unavailable (n + 1) attempt last s).log = log) :
    (∃ v err log', log = .head none :: .call v err :: log') ∧
      (Rested true log → ∀ i, attempt ≤ i → i + 1 < cfg.maxAttempts → 0 < d i) := by
  induction n generalizing attempt last s log with
  | zero =>
      rw [unavailable_last (by omega)] at hlog
      refine ⟨⟨_, _, [], hlog.symm⟩, fun _ i hi hlt => ?_⟩
      omega
  | succ n ih =>
      obtain ⟨last', s', hagain⟩ := unavailable_again (α := α) (n := n + 1) hd
        (by omega : attempt + 1 < cfg.maxAttempts) last s
      obtain ⟨hhead, hrest⟩ := ih (by omega : attempt + 1 + (n + 1) = _) last' s' rfl
      obtain rfl := hagain.symm.trans hlog
      refine ⟨⟨_, _, _, rfl⟩, fun hrested i hi hlt => ?_⟩
      obtain ⟨hpos, hlater⟩ :=
        (rested_roundLog_iff cfg attempt default _ (d attempt) hhead).mp hrested
      rcases hi.eq_or_lt with rfl | hi
      · exact hpos
      · exact hrest hlater i hi hlt

end Unavailable

/-- Whatever happens, `Do` sleeps before every retry, if and only if every delay it
may ask for is positive. -/
theorem rested_iff [Inhabited σ] [Inhabited α] {opts : List (Options σ → Options σ)} {d : ℕ → ℤ}
    (hd : ∀ i s, ((configure opts).backoff.next i s).1 = d i) :
    (∀ (ctx : Context σ) (fn : σ → (α × Option Err) × σ) (s : σ),
        Rested true (doRetry ctx fn opts s).log) ↔
      ∀ i, i + 1 < (configure opts).maxAttempts → 0 < d i := by
  have hone := (configure opts).one_le
  constructor
  · intro hall i hi
    have hrested := hall background unavailable default
    obtain ⟨n, hn⟩ := Nat.exists_eq_succ_of_ne_zero (Nat.one_le_iff_ne_zero.mp hone)
    rw [doRetry, hn] at hrested
    exact (pos_of_unavailable_rested hd (by omega) none default rfl).2 hrested i (Nat.zero_le i) hi
  · intro hpos ctx fn s
    refine (trace_loop none s (Nat.zero_add _) hone).rested fun i hi s => ?_
    rw [hd]
    exact hpos i hi

end Sleeps

/-- The delay is the truncated product, capped, exactly as long as the product is
below 2^63 nanoseconds; as long as it is, the delays are in range and do not
decrease.  A loop sleeps before every retry exactly if the products of all its
retries are below that bound. -/
theorem next_capped_iff (b : ExponentialBackoff) (hinitial : 0 ≤ b.initial)
    (hmultiplier : 1 ≤ b.multiplier) (hmax : 0 < b.max) :
    (∀ attempt, b.next attempt = min (trunc (b.product attempt)) b.max ↔
      b.product attempt < 2 ^ 63) ∧
    (∀ i j, i ≤ j → b.product j < 2 ^ 63 →
      0 ≤ b.next i ∧ b.next i ≤ b.next j ∧ b.next j ≤ b.max) ∧
    ∀ (σ α : Type) [Inhabited σ] [Inhabited α] (opts : List (Options σ → Options σ)),
      1 ≤ b.initial → (configure opts).backoff = b.backoff →
        ((∀ (ctx : Context σ) (fn : σ → (α × Option Err) × σ) (s : σ),
            Rested true (doRetry ctx fn opts s).log) ↔
          ∀ i, i + 1 < (configure opts).maxAttempts → b.product i < 2 ^ 63) := by
  refine ⟨b.next_eq_min_iff hinitial hmultiplier hmax,
    fun i j hij hj => b.next_bounds hinitial hmultiplier hmax hij hj, ?_⟩
  intro σ α _ _ opts hone hbackoff
  have hd : ∀ i s, ((configure opts).backoff.next i s).1 = b.next i := by
    intro i s
    rw [hbackoff]
    rfl
  rw [rested_iff hd]
  exact forall₂_congr fun i _ => b.next_pos_iff hone hmultiplier hmax i

/-- Thirty-nine attempts with the default backoff. -/
def thirtyNine : List (Options Unit → Options Unit) :=
  (withMaxAttempts 39).toList ++ [withBackoff ExponentialBackoff.default.backoff]

/-- The delay is thirty seconds before the thirty-eighth attempt and negative before
the thirty-ninth, so that the loop does not sleep there. -/
theorem default_backoff_overflows :
    ExponentialBackoff.default.next 36 = ExponentialBackoff.default.max ∧
      ExponentialBackoff.default.next 37 = -2 ^ 63 ∧
      ¬Rested true (doRetry background (unavailable (α := Unit)) thirtyNine ()).log := by
  have hinitial : 0 ≤ ExponentialBackoff.default.initial := by decide
  have hmultiplier : 1 ≤ ExponentialBackoff.default.multiplier := by
    norm_num [ExponentialBackoff.default]
  have hmax : 0 < ExponentialBackoff.default.max := by decide
  have hfits : ExponentialBackoff.default.product 36 < 2 ^ 63 := by
    norm_num [ExponentialBackoff.product, ExponentialBackoff.default, millisecond]
  have hover : 2 ^ 63 ≤ ExponentialBackoff.default.product 37 := by
    norm_num [ExponentialBackoff.product, ExponentialBackoff.default, millisecond]
  have hnext := ExponentialBackoff.next_of_le hinitial hmultiplier hmax hover
  refine ⟨?_, hnext, fun hrested => ?_⟩
  · rw [ExponentialBackoff.next_of_lt hinitial hmultiplier hmax hfits]
    norm_num [ExponentialBackoff.product, ExponentialBackoff.default, millisecond]
  · have hd : ∀ i s, ((configure thirtyNine).backoff.next i s).1 =
        ExponentialBackoff.default.next i := fun _ _ => rfl
    have hpos := (pos_of_unavailable_rested (n := 38) hd rfl none () rfl).2 hrested 37
      (Nat.zero_le 37) (by decide)
    rw [hnext] at hpos
    exact absurd hpos (by norm_num)

/-- The default backoff below its overflow. -/
theorem default_backoff_capped :
    ExponentialBackoff.default.next 36 = min (trunc (ExponentialBackoff.default.product 36))
      ExponentialBackoff.default.max := by
  have hmultiplier : 1 ≤ ExponentialBackoff.default.multiplier := by
    norm_num [ExponentialBackoff.default]
  refine ((next_capped_iff .default (by decide) hmultiplier (by decide)).1 36).mpr ?_
  norm_num [ExponentialBackoff.product, ExponentialBackoff.default, millisecond]

end Gkit.Retry
