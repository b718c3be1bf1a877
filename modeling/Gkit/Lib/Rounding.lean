import Mathlib

/-!
# Rounding to a number of binary digits

A float with a significand of `p` bits and an exponent without bounds, as far as
integers go: `roundTo p m` is a number `q * 2 ^ e` with `q ≤ 2 ^ p`, as near to
`m` as any, and of two that are equally near the one whose significand is even.
-/

namespace Gkit.Lib

/-- The multiple of `d` nearest to `m`. -/
def nearestEven (d m : ℕ) : ℕ :=
  if 2 * (m % d) < d ∨ 2 * (m % d) = d ∧ m / d % 2 = 0 then m / d * d else (m / d + 1) * d

section Multiples

variable {d : ℕ}

theorem dvd_nearestEven (d m : ℕ) : d ∣ nearestEven d m := by
  unfold nearestEven
  split_ifs
  · exact Nat.dvd_mul_left d _
  · exact Nat.dvd_mul_left d _

theorem nearestEven_of_dvd {m : ℕ} (hd : 0 < d) (h : d ∣ m) : nearestEven d m = m := by
  have hmod := Nat.mod_eq_zero_of_dvd h
  rw [nearestEven, hmod, if_pos (Or.inl hd), Nat.div_mul_cancel h]

theorem nearestEven_mono (d : ℕ) : Monotone (nearestEven d) := by
  intro m m' h
  have hm := Nat.div_add_mod' m d
  have hm' := Nat.div_add_mod' m' d
  rcases (Nat.div_le_div_right (c := d) h).lt_or_eq with hq | hq
  · -- the next multiple above `m` is not above `m'`
    have hnext : (m / d + 1) * d ≤ m' / d * d := Nat.mul_le_mul_right d hq
    have hup : m / d * d ≤ (m / d + 1) * d := Nat.mul_le_mul_right d (Nat.le_succ _)
    have hup' : m' / d * d ≤ (m' / d + 1) * d := Nat.mul_le_mul_right d (Nat.le_succ _)
    unfold nearestEven
    split_ifs <;> omega
  · have hmod : m % d ≤ m' % d := by
      rw [← hq] at hm'
      omega
    have hup : m / d * d ≤ (m / d + 1) * d := Nat.mul_le_mul_right d (Nat.le_succ _)
    unfold nearestEven
    rw [← hq]
    split_ifs <;> omega

/-- No multiple is nearer. -/
theorem nearestEven_nearest (hd : 0 < d) (m k : ℕ) :
    Nat.dist (nearestEven d m) m ≤ Nat.dist (k * d) m := by
  have hm := Nat.div_add_mod' m d
  have hlt := Nat.mod_lt m hd
  have hsucc : (m / d + 1) * d = m / d * d + d := Nat.succ_mul _ _
  have hside : k * d ≤ m / d * d ∨ (m / d + 1) * d ≤ k * d := by
    rcases Nat.lt_or_ge (m / d) k with hk | hk
    · exact .inr (Nat.mul_le_mul_right d hk)
    · exact .inl (Nat.mul_le_mul_right d hk)
  unfold nearestEven Nat.dist
  split_ifs <;> omega

end Multiples

/-! ## Significands -/

def roundTo (p m : ℕ) : ℕ := nearestEven (2 ^ (m.log2 + 1 - p)) m

/-- A number whose significand has at most `p` bits. -/
def Significant (p v : ℕ) : Prop := ∃ q e, q < 2 ^ p ∧ v = q * 2 ^ e

variable {p : ℕ}

theorem significant_two_pow (hp : 0 < p) (e : ℕ) : Significant p (2 ^ e) :=
  ⟨1, e, Nat.one_lt_two_pow hp.ne', (Nat.one_mul _).symm⟩

/-- At the scale of a power of two that is not above it, a significant number is a
multiple of the last place. -/
theorem Significant.dvd {v k : ℕ} (h : Significant p v) (hv : 2 ^ k ≤ v) :
    2 ^ (k + 1 - p) ∣ v := by
  obtain ⟨q, e, hq, rfl⟩ := h
  have hlt : 2 ^ k < 2 ^ (p + e) := by
    calc 2 ^ k ≤ q * 2 ^ e := hv
      _ < 2 ^ p * 2 ^ e := Nat.mul_lt_mul_of_pos_right hq (Nat.two_pow_pos e)
      _ = 2 ^ (p + e) := (Nat.pow_add 2 p e).symm
  have hk : k < p + e := (Nat.pow_lt_pow_iff_right Nat.one_lt_two).mp hlt
  exact Nat.dvd_mul_left_of_dvd (Nat.pow_dvd_pow 2 (by omega)) q

theorem roundTo_zero (p : ℕ) : roundTo p 0 = 0 :=
  nearestEven_of_dvd (Nat.two_pow_pos _) (Nat.dvd_zero _)

theorem two_pow_log2_dvd (hp : 0 < p) (m : ℕ) : 2 ^ (m.log2 + 1 - p) ∣ 2 ^ m.log2 :=
  Nat.pow_dvd_pow 2 (by omega)

theorem two_pow_log2_le_roundTo (hp : 0 < p) {m : ℕ} (hm : m ≠ 0) :
    2 ^ m.log2 ≤ roundTo p m := by
  rw [← nearestEven_of_dvd (Nat.two_pow_pos _) (two_pow_log2_dvd hp m)]
  exact nearestEven_mono _ (Nat.log2_self_le hm)

theorem roundTo_le_two_pow (p m : ℕ) : roundTo p m ≤ 2 ^ (m.log2 + 1) := by
  have hdvd : 2 ^ (m.log2 + 1 - p) ∣ 2 ^ (m.log2 + 1) := Nat.pow_dvd_pow 2 (by omega)
  rw [← nearestEven_of_dvd (Nat.two_pow_pos _) hdvd]
  exact nearestEven_mono _ Nat.lt_log2_self.le

theorem significant_roundTo (hp : 0 < p) (m : ℕ) : Significant p (roundTo p m) := by
  obtain ⟨q, hq⟩ := dvd_nearestEven (2 ^ (m.log2 + 1 - p)) m
  have hle := roundTo_le_two_pow p m
  rcases hle.lt_or_eq with hlt | heq
  · refine ⟨q, m.log2 + 1 - p, ?_, hq.trans (Nat.mul_comm _ _)⟩
    apply Nat.lt_of_mul_lt_mul_left (a := 2 ^ (m.log2 + 1 - p))
    calc 2 ^ (m.log2 + 1 - p) * q = roundTo p m := hq.symm
      _ < 2 ^ (m.log2 + 1) := hlt
      _ ≤ 2 ^ (m.log2 + 1 - p + p) := Nat.pow_le_pow_right Nat.two_pos (by omega)
      _ = 2 ^ (m.log2 + 1 - p) * 2 ^ p := Nat.pow_add 2 _ p
  · rw [heq]
    exact significant_two_pow hp _

theorem roundTo_nearest (hp : 0 < p) (m : ℕ) {v : ℕ} (hv : Significant p v) :
    Nat.dist (roundTo p m) m ≤ Nat.dist v m := by
  rcases Nat.lt_or_ge v (2 ^ m.log2) with hlt | hge
  · -- the power of two at or below `m` is nearer than anything below it
    rcases Nat.eq_zero_or_pos m with rfl | hm
    · rw [roundTo_zero, Nat.dist_self]
      exact Nat.zero_le _
    · obtain ⟨k, hk⟩ := two_pow_log2_dvd hp m
      have hnear := nearestEven_nearest (Nat.two_pow_pos (m.log2 + 1 - p)) m k
      have hle := Nat.log2_self_le hm.ne'
      rw [Nat.mul_comm, ← hk] at hnear
      unfold roundTo
      unfold Nat.dist at hnear ⊢
      omega
  · obtain ⟨k, hk⟩ := hv.dvd hge
    rw [hk, Nat.mul_comm]
    exact nearestEven_nearest (Nat.two_pow_pos _) m k

/-- The result has a significand of `p` bits, and no such number is nearer. -/
theorem roundTo_spec (hp : 0 < p) (m : ℕ) : Significant p (roundTo p m) ∧
    ∀ v, Significant p v → Nat.dist (roundTo p m) m ≤ Nat.dist v m :=
  ⟨significant_roundTo hp m, fun _ => roundTo_nearest hp m⟩

theorem roundTo_eq_self (hp : 0 < p) {m : ℕ} (hm : Significant p m) : roundTo p m = m := by
  have hdist := (roundTo_spec hp m).2 m hm
  rw [Nat.dist_self] at hdist
  exact Nat.eq_of_dist_eq_zero (Nat.le_zero.mp hdist)

theorem roundTo_mono (hp : 0 < p) : Monotone (roundTo p) := by
  intro m m' h
  rcases Nat.eq_zero_or_pos m with rfl | hm
  · rw [roundTo_zero]
    exact Nat.zero_le _
  have hm' : m' ≠ 0 := (hm.trans_le h).ne'
  have hlog : m.log2 ≤ m'.log2 := by
    by_contra! hlt
    have hbelow := (Nat.log2_lt hm').mp hlt
    exact absurd ((Nat.log2_self_le hm.ne').trans h) hbelow.not_ge
  rcases hlog.lt_or_eq with hlt | heq
  · calc roundTo p m ≤ 2 ^ (m.log2 + 1) := roundTo_le_two_pow p m
      _ ≤ 2 ^ m'.log2 := Nat.pow_le_pow_right Nat.two_pos hlt
      _ ≤ roundTo p m' := two_pow_log2_le_roundTo hp hm'
  · unfold roundTo
    rw [heq]
    exact nearestEven_mono _ h

/-! ## Integers -/

def roundInt (p : ℕ) : ℤ → ℤ
  | .ofNat m => roundTo p m
  | .negSucc m => -roundTo p (m + 1)

theorem roundInt_mono (hp : 0 < p) : Monotone (roundInt p) := by
  intro x y h
  cases x with
  | ofNat m =>
      cases y with
      | ofNat k => exact Int.ofNat_le.mpr (roundTo_mono hp (Int.ofNat_le.mp h))
      | negSucc k =>
          exact absurd h (Int.negSucc_lt_zero k |>.trans_le (Int.natCast_nonneg m)).not_ge
  | negSucc m =>
      cases y with
      | ofNat k =>
          simp only [roundInt]
          omega
      | negSucc k =>
          have hround := roundTo_mono hp (show k + 1 ≤ m + 1 by omega)
          simp only [roundInt]
          omega

theorem roundInt_eq_self (hp : 0 < p) {x : ℤ} (hx : x.natAbs ≤ 2 ^ p) : roundInt p x = x := by
  have hsig : Significant p x.natAbs := by
    rcases hx.lt_or_eq with hlt | heq
    · exact ⟨x.natAbs, 0, hlt, (Nat.mul_one _).symm⟩
    · rw [heq]
      exact significant_two_pow hp p
  have hround := roundTo_eq_self hp hsig
  cases x with
  | ofNat m => exact congrArg Int.ofNat hround
  | negSucc m => exact congrArg (fun k : ℕ => -(k : ℤ)) hround

/-- Rounding keeps the order of two numbers exactly if it keeps them apart. -/
theorem roundInt_lt_iff (hp : 0 < p) {x y : ℤ} (h : x < y) :
    roundInt p x < roundInt p y ↔ roundInt p x ≠ roundInt p y :=
  ⟨ne_of_lt, (roundInt_mono hp h.le).lt_of_ne⟩

end Gkit.Lib
