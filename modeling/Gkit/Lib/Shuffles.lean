import Mathlib

/-!
# Shuffles

A list is a shuffle of a family of lists if it comes about by taking one element
after the other, each behind the elements of its list that were taken before.
-/

namespace Gkit.Lib

variable {ι α : Type*} [DecidableEq ι]

inductive Shuffle : (ι → List α) → List α → Prop where
  | nil : Shuffle (fun _ => []) []
  | snoc {parts : ι → List α} {xs : List α} (h : Shuffle parts xs) (i : ι) (x : α) :
      Shuffle (Function.update parts i (parts i ++ [x])) (xs ++ [x])

end Gkit.Lib
