import Mathlib

/-!
# Elements that wait for others

A list in which each element comes behind all those that have to precede it.
-/

namespace Gkit.Lib

variable {α : Type*} {before before' : α → List α} {done done' l l' : List α}

/-- What precedes an element of the list is in front of it, or was `done` already. -/
def InTurn (before : α → List α) (done : List α) : List α → Prop
  | [] => True
  | b :: l => (∀ a ∈ before b, a ∈ done) ∧ InTurn before (done ++ [b]) l

instance InTurn.decidable [DecidableEq α] (before : α → List α) :
    ∀ done l, Decidable (InTurn before done l)
  | _, [] => isTrue trivial
  | done, b :: l =>
      have : Decidable (InTurn before (done ++ [b]) l) := InTurn.decidable before _ l
      inferInstanceAs (Decidable ((∀ a ∈ before b, a ∈ done) ∧ InTurn before (done ++ [b]) l))

theorem inTurn_append :
    InTurn before done (l ++ l') ↔ InTurn before done l ∧ InTurn before (done ++ l) l' := by
  induction l generalizing done with
  | nil => simp [InTurn]
  | cons b l ih => simp [InTurn, ih, and_assoc]

theorem inTurn_iff : InTurn before done l ↔
    ∀ pre b post, l = pre ++ b :: post → ∀ a ∈ before b, a ∈ done ++ pre := by
  constructor
  · rintro h pre b post rfl a ha
    exact (inTurn_append.mp h).2.1 a ha
  · intro h
    induction l generalizing done with
    | nil => trivial
    | cons b l ih =>
        refine ⟨fun a ha => by simpa using h [] b l rfl a ha, ih fun pre c post hl a ha => ?_⟩
        simpa using h (b :: pre) c post (by rw [hl, List.cons_append]) a ha

theorem inTurn_congr (h : ∀ b ∈ l, before b = before' b) :
    InTurn before done l ↔ InTurn before' done l := by
  induction l generalizing done with
  | nil => exact Iff.rfl
  | cons b l ih =>
      simp only [InTurn, h b List.mem_cons_self]
      exact and_congr_right fun _ => ih fun b hb => h b (List.mem_cons_of_mem _ hb)

end Gkit.Lib
