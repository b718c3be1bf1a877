import Mathlib

/-!
# Transducers

A machine that reads a list from the left.  On each element it stops, or goes on
with or without putting out a value; what it has put out in the end is a function
of the list.
-/

namespace Gkit.Lib

inductive Reaction (σ β : Type) where
  | stop
  | skip (s : σ)
  | emit (y : β) (s : σ)

structure Transducer (α β : Type) where
  State : Type
  init : State
  react : State → α → Reaction State β

namespace Transducer

variable {α β : Type} (T : Transducer α β) {s t : T.State} {x : α} {y : β}

/-- What it puts out, from a state, for a list. -/
def feed : T.State → List α → List β
  | _, [] => []
  | s, x :: xs =>
      match T.react s x with
      | .stop => []
      | .skip t => feed t xs
      | .emit y t => y :: feed t xs

@[simp] theorem feed_nil (s : T.State) : T.feed s [] = [] := rfl

variable {T}

theorem feed_stop (h : T.react s x = .stop) (xs : List α) : T.feed s (x :: xs) = [] := by
  simp [feed, h]

theorem feed_skip (h : T.react s x = .skip t) (xs : List α) :
    T.feed s (x :: xs) = T.feed t xs := by
  simp [feed, h]

theorem feed_emit (h : T.react s x = .emit y t) (xs : List α) :
    T.feed s (x :: xs) = y :: T.feed t xs := by
  simp [feed, h]

/-- On a shorter list it puts out less. -/
theorem feed_isPrefix (s : T.State) {xs ys : List α} (h : xs <+: ys) :
    T.feed s xs <+: T.feed s ys := by
  induction xs generalizing s ys with
  | nil => exact List.nil_prefix
  | cons x xs ih =>
      obtain ⟨zs, rfl⟩ := h
      have hzs : xs <+: xs ++ zs := List.prefix_append xs zs
      rw [List.cons_append]
      cases hr : T.react s x with
      | stop =>
          rw [feed_stop hr, feed_stop hr]
      | skip t =>
          rw [feed_skip hr, feed_skip hr]
          exact ih t hzs
      | emit y t =>
          rw [feed_emit hr, feed_emit hr]
          exact (List.prefix_cons_inj y).mpr (ih t hzs)

/-- One value for each element. -/
def Total (T : Transducer α β) : Prop := ∀ s x, ∃ y t, T.react s x = .emit y t

theorem Total.length_feed (hT : T.Total) (s : T.State) (xs : List α) :
    (T.feed s xs).length = xs.length := by
  induction xs generalizing s with
  | nil => rfl
  | cons x xs ih =>
      obtain ⟨y, t, hr⟩ := hT s x
      rw [feed_emit hr, List.length_cons, List.length_cons, ih]

end Transducer

end Gkit.Lib
