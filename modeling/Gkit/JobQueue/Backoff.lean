import Gkit.JobQueue.Accounting

/-!
# The delay before the next attempt

The delay is computed with a shift and two products that wrap, and capped after
that.  It is the intended one up to the twenty-ninth attempt, where the exact product
is still a `time.Duration`, and for thirteen numbers of attempts after that, for which
the overflow happens to leave an hour or more.
-/

namespace Gkit.JobQueue

open Gkit.Lib Gkit.Store

/-- `2^attempts * 10s`, capped at one hour. -/
def nominalBackoff (attempts : ℕ) : ℤ := min (2 ^ attempts * 10 * second) hour

/-- The numbers of attempts for which the delay comes out right. -/
def Fits (attempts : ℕ) : Prop :=
  attempts ≤ 29 ∨ attempts ∈ [31, 32, 34, 36, 38, 39, 40, 41, 42, 43, 45, 51, 52]

instance : DecidablePred Fits := fun _ => inferInstanceAs (Decidable (_ ∨ _))

theorem wrap64_wrap64_mul (a b : ℤ) : wrap64 (wrap64 a * b) = wrap64 (a * b) :=
  Int.bmod_mul_bmod

theorem wrap64_eq_self {a : ℤ} (h0 : 0 ≤ a) (h : a < 2 ^ 63) : wrap64 a = a := by
  apply Int.bmod_eq_of_le
  · norm_num
    omega
  · norm_num
    omega

theorem backoff_eq (attempts : ℕ) :
    backoff attempts = min (wrap64 (2 ^ attempts * 10 * second)) hour := by
  have hwrap : wrap64 (wrap64 (wrap64 (2 ^ attempts) * 10) * second) =
      wrap64 (2 ^ attempts * 10 * second) := by
    rw [wrap64_wrap64_mul (2 ^ attempts) 10, wrap64_wrap64_mul]
  simp only [backoff, hwrap]
  split_ifs with h
  · exact (min_eq_right h.le).symm
  · exact (min_eq_left (not_lt.mp h)).symm

theorem product_pos (attempts : ℕ) : 0 < 2 ^ attempts * 10 * second := by
  have hsecond : (0 : ℤ) < second := by decide
  positivity

theorem product_le {a b : ℕ} (h : a ≤ b) : 2 ^ a * 10 * second ≤ 2 ^ b * 10 * second := by
  have hpow : (2 : ℤ) ^ a ≤ 2 ^ b := pow_le_pow_right₀ (by norm_num) h
  have hsecond : (0 : ℤ) ≤ second := by decide
  gcongr

/-- Ten seconds are a multiple of 2^10 nanoseconds, so that nothing is left of the
product from the fifty-fourth attempt on. -/
theorem wrap64_product_eq_zero {attempts : ℕ} (h : 54 ≤ attempts) :
    wrap64 (2 ^ attempts * 10 * second) = 0 := by
  obtain ⟨k, rfl⟩ := Nat.exists_eq_add_of_le h
  have hfactor : (2 : ℤ) ^ (54 + k) * 10 * second = 2 ^ 64 * (2 ^ k * 5 ^ 10) := by
    have hsecond : 10 * second = 2 ^ 10 * 5 ^ 10 := by decide
    rw [mul_assoc, hsecond, pow_add]
    ring
  rw [hfactor]
  exact Int.bmod_eq_zero_of_dvd (Dvd.intro _ rfl)

/-- What is left of the products that do not fit. -/
theorem hour_le_wrap64_iff {attempts : ℕ} (h : 30 ≤ attempts) :
    hour ≤ wrap64 (2 ^ attempts * 10 * second) ↔
      attempts ∈ [31, 32, 34, 36, 38, 39, 40, 41, 42, 43, 45, 51, 52] := by
  by_cases hlast : 54 ≤ attempts
  · rw [wrap64_product_eq_zero hlast]
    constructor
    · intro hhour
      exact absurd hhour (by decide)
    · intro hmem
      have hle : ∀ n ∈ [31, 32, 34, 36, 38, 39, 40, 41, 42, 43, 45, 51, 52], n < 54 := by decide
      exact absurd (hle attempts hmem) (not_lt.mpr hlast)
  · rw [not_le] at hlast
    interval_cases attempts <;> decide

theorem backoff_eq_nominal_iff (attempts : ℕ) :
    backoff attempts = nominalBackoff attempts ↔ Fits attempts := by
  rw [backoff_eq, nominalBackoff, Fits]
  rcases Nat.lt_or_ge attempts 30 with hlt | hge
  · have hfits : 2 ^ attempts * 10 * second < 2 ^ 63 :=
      (product_le (Nat.le_of_lt_succ hlt)).trans_lt (by decide)
    rw [wrap64_eq_self (product_pos attempts).le hfits]
    exact ⟨fun _ => .inl (Nat.le_of_lt_succ hlt), fun _ => rfl⟩
  · have hhour : hour ≤ 2 ^ attempts * 10 * second :=
      (by decide : hour ≤ 2 ^ 30 * 10 * second).trans (product_le hge)
    rw [min_eq_right hhour, min_eq_right_iff, hour_le_wrap64_iff hge]
    exact ⟨.inr, fun h => h.resolve_left (by omega)⟩

theorem nominalBackoff_pos (attempts : ℕ) : 0 < nominalBackoff attempts :=
  lt_min (product_pos attempts) (by decide)

theorem nominalBackoff_mono {a b : ℕ} (h : a ≤ b) : nominalBackoff a ≤ nominalBackoff b :=
  min_le_min_right hour (product_le h)

/-- The program that `executeJob` runs after a failed attempt that was not the
last one adds the nominal delay exactly for the numbers of attempts listed; for these
the delays are positive and do not decrease. -/
theorem retry_delay_iff {U : Schema} {δ : Type} (tx : Tx δ) (job : Job)
    (hpos : 1 ≤ job.attempts + 1) (hlt : job.attempts + 1 < job.maxAttempts) (err : GoError) :
    ((settleJob tx job (some err) : GoProg (schema U) δ Unit) =
        (.op (.ext .now) fun now => .op (.exec tx (.updateJob (.pending (job.attempts + 1) err.error
          (now + nominalBackoff (job.attempts + 1).toNat)) job.id)) fun _ => .ret ()) ↔
      Fits (job.attempts + 1).toNat) ∧
    ∀ a b, Fits a → Fits b → a ≤ b → 0 < backoff a ∧ backoff a ≤ backoff b := by
  refine ⟨?_, fun a b ha hb hab => ?_⟩
  · have hset : ∀ now, settling job now (some err) = .pending (job.attempts + 1) err.error
        (now + backoff (job.attempts + 1).toNat) := fun _ => if_neg (not_le.mpr hlt)
    rw [settleJob_retry hlt (by omega), ← backoff_eq_nominal_iff]
    constructor
    · intro heq
      have hk := eq_of_heq (Prog.op.inj heq).2
      have hstmt := Op.exec.inj (Prog.op.inj (congrFun hk 0)).1
      have hupdate := (Stmt.updateJob.inj hstmt.2).1
      rw [hset] at hupdate
      simpa using (Update.pending.inj hupdate).2.2
    · intro heq
      refine congrArg (Prog.op _) (funext fun now => ?_)
      rw [hset now, heq]
  · rw [(backoff_eq_nominal_iff a).mpr ha, (backoff_eq_nominal_iff b).mpr hb]
    exact ⟨nominalBackoff_pos a, nominalBackoff_mono hab⟩

/-- The thirtieth failure of a job with a hundred attempts is followed by a delay
of minus 244 years, and from the fifty-fourth on there is no delay at all. -/
theorem thirtieth_retry_in_the_past :
    settling ⟨1, "mail", "null", 29, 100⟩ 0 (some (.new "timeout")) =
        .pending 30 "timeout" (-7709325833709551616) ∧
      nominalBackoff 30 = hour ∧ backoff 54 = 0 ∧ nominalBackoff 54 = hour := by
  decide

theorem first_retry_delayed :
    (settleJob ⟨(), 0⟩ ⟨1, "mail", "null", 0, 3⟩ (some errDivision) :
        GoProg (schema notes) Unit Unit) =
      .op (.ext .now) fun now => .op (.exec ⟨(), 0⟩ (.updateJob (.pending 1 errDivision.error
        (now + nominalBackoff 1)) 1)) fun _ => .ret () :=
  (retry_delay_iff ⟨(), 0⟩ ⟨1, "mail", "null", 0, 3⟩ (by decide) (by decide)
    errDivision).1.mpr (by decide)

end Gkit.JobQueue
