import Gkit.Feature.Model

/-!
# Evaluating a flag

A percentage of zero is meant to leave only the allow-list.  `IsEnabledFor` falls
through to the global mode instead, so an entity that is not on a list is enabled
by it.
-/

namespace Gkit.Feature

open Gkit.Lib Gkit.Lib.Redis

section Modes

variable (hashBucket : Text → ℕ → ℕ)

/-- The bucket of an entity. -/
def bucket (name entityID : Text) : ℕ := hashBucket (name ++ ":".toList ++ entityID) 100

/-- What the modes of a flag say about an answer.  Nothing is said about a flag that
is enabled without a percentage and without a list. -/
structure Follows (flag : Option Flag) (name entityID : Text) (answer : Bool) : Prop where
  off : (∀ f, flag = some f → f.enabled = false) → answer = false
  listed : ∀ f, flag = some f → f.enabled = true → entityID ∈ f.allowList → answer = true
  rollout : ∀ f, flag = some f → f.enabled = true → entityID ∉ f.allowList → 1 ≤ f.percentage →
    (answer = true ↔ (bucket hashBucket name entityID : ℤ) < f.percentage)
  unlisted : ∀ f, flag = some f → f.enabled = true → entityID ∉ f.allowList →
    f.percentage = 0 → f.allowList ≠ [] → answer = false

/-- The flag is for its allow-list only, and the entity is not on it. -/
def LeftOut (flag : Option Flag) (entityID : Text) : Prop :=
  ∃ f, flag = some f ∧ f.enabled = true ∧ f.percentage = 0 ∧ f.allowList ≠ [] ∧
    entityID ∉ f.allowList

variable (json : Json) (s : Store) {db db' : Keyspace} {name : Text}

theorem isEnabledFor_none (h : s.get json none db name = .ok none) (e : Text) :
    s.isEnabledFor json hashBucket none db name e = false := by
  rw [Store.isEnabledFor, h]

theorem isEnabledFor_some {f : Flag} (h : s.get json none db name = .ok (some f)) (e : Text) :
    s.isEnabledFor json hashBucket none db name e = true ↔
      f.enabled = true ∧ (e ∈ f.allowList ∨
        (0 < f.percentage → (bucket hashBucket name e : ℤ) < f.percentage)) := by
  rw [Store.isEnabledFor, h]
  cases hf : f.enabled with
  | false => simp [hf]
  | true =>
      by_cases he : e ∈ f.allowList
      · simp [hf, he]
      · by_cases hp : 0 < f.percentage <;> simp [hf, he, hp, bucket]

theorem follows_iff {flag : Option Flag} (h : s.get json none db name = .ok flag)
    (hrange : ∀ f, flag = some f → 0 ≤ f.percentage) (e : Text) :
    Follows hashBucket flag name e (s.isEnabledFor json hashBucket none db name e) ↔
      ¬LeftOut flag e := by
  cases flag with
  | none =>
      have hnone := isEnabledFor_none hashBucket json s h e
      refine iff_of_true ⟨fun _ => hnone, ?_, ?_, ?_⟩ ?_
      · rintro f ⟨⟩
      · rintro f ⟨⟩
      · rintro f ⟨⟩
      · rintro ⟨f, ⟨⟩, -⟩
  | some f =>
      have hsome := isEnabledFor_some hashBucket json s h e
      have hpercentage := hrange f rfl
      constructor
      · rintro hfollows ⟨_, ⟨⟩, hf, hzero, hlist, he⟩
        have hon := hsome.mpr ⟨hf, .inr fun hpos => absurd hzero hpos.ne'⟩
        have hoff := hfollows.unlisted f rfl hf he hzero hlist
        exact absurd (hon.symm.trans hoff) (by simp)
      · intro hout
        refine ⟨fun hoff => ?_, ?_, ?_, ?_⟩
        · rw [Bool.eq_false_iff, Ne, hsome, hoff f rfl]
          simp
        · rintro _ ⟨⟩ hf he
          exact hsome.mpr ⟨hf, .inl he⟩
        · rintro _ ⟨⟩ hf he hone
          rw [hsome]
          have hpos : 0 < f.percentage := by omega
          simp [hf, he, hpos]
        · rintro _ ⟨⟩ hf he hzero hlist
          exact absurd ⟨f, rfl, hf, hzero, hlist, he⟩ hout

/-- `IsEnabledFor` answers as the modes say, exactly if the flag is not one for an
allow-list the entity is not on.  A wider list and a higher percentage keep an
entity enabled, unless it was enabled by that fall-through and its bucket is
outside the new percentage.  An error is answered with false. -/
theorem modes_followed_iff (name : Text) (e : Text) :
    (∀ db flag, s.get json none db name = .ok flag →
      (∀ f, flag = some f → 0 ≤ f.percentage ∧ f.percentage ≤ 100) →
      (Follows hashBucket flag name e (s.isEnabledFor json hashBucket none db name e) ↔
        ¬LeftOut flag e)) ∧
    (∀ db db' f g, s.get json none db name = .ok (some f) →
      s.get json none db' name = .ok (some g) → f.enabled = true → g.enabled = true →
      f.allowList ≠ [] → f.allowList ⊆ g.allowList →
      0 ≤ f.percentage → f.percentage ≤ g.percentage → g.percentage ≤ 100 →
      ((s.isEnabledFor json hashBucket none db name e = true →
          s.isEnabledFor json hashBucket none db' name e = true) ↔
        ¬(LeftOut (some f) e ∧ e ∉ g.allowList ∧
          0 < g.percentage ∧ g.percentage ≤ bucket hashBucket name e))) ∧
    ∀ fault db err, s.get json fault db name = .error err →
      s.isEnabledFor json hashBucket fault db name e = false := by
  refine ⟨fun db flag h hrange => ?_, ?_, fun fault db err h => ?_⟩
  · exact follows_iff hashBucket json s h (fun f hf => (hrange f hf).1) e
  · intro db db' f g hf hg hfon hgon hlist hsub hp hpq _
    rw [isEnabledFor_some hashBucket json s hf, isEnabledFor_some hashBucket json s hg]
    by_cases he : e ∈ g.allowList
    · simp [hgon, he]
    · have hef : e ∉ f.allowList := fun hmem => he (hsub hmem)
      have hleft : LeftOut (some f) e ↔ f.percentage = 0 := by
        constructor
        · rintro ⟨_, ⟨⟩, -, hzero, -⟩
          exact hzero
        · exact fun hzero => ⟨f, rfl, hfon, hzero, hlist, hef⟩
      simp only [hfon, hgon, hef, he, hleft, true_and, false_or, not_false_eq_true]
      omega
  · rw [Store.isEnabledFor, h]

end Modes

/-- A codec that knows the texts of two flags. -/
def twoFlags (f g : Flag) : Json where
  marshal flag := .ok (if flag = f then ['f'] else ['g'])
  unmarshal raw := .ok (if raw = ['f'] then f else g)

/-- On for the first user only, and the same with one percent of all users. -/
def betaFlag : Flag := ⟨true, 0, ["u1".toList], 0⟩
def rolloutFlag : Flag := ⟨true, 1, ["u1".toList], 0⟩

/-- The store in which a flag is the only one. -/
def only (flag : Flag) : Keyspace :=
  ((newStore none).set (twoFlags betaFlag rolloutFlag) none 0 "beta".toList flag Table.empty).1

/-- A user that is not on the list is enabled under a percentage of zero, and not
under one. -/
theorem zero_percent_enables_all :
    (newStore none).get (twoFlags betaFlag rolloutFlag) none (only betaFlag) "beta".toList =
        .ok (some betaFlag) ∧
      (newStore none).isEnabledFor (twoFlags betaFlag rolloutFlag) hashBucket none
        (only betaFlag) "beta".toList "u2".toList = true ∧
      (newStore none).isEnabledFor (twoFlags betaFlag rolloutFlag) hashBucket none
        (only rolloutFlag) "beta".toList "u2".toList = false := by
  decide

end Gkit.Feature
