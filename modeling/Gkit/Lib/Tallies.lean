import Mathlib

/-!
# Sums over the threads of a state

A state with finitely many threads holds their local states as a function.  What
the threads hold together is a sum over them, in numbers or in multisets, and a
step of one thread exchanges one term of it.
-/

namespace Gkit.Lib

variable {ι β M : Type*} [Fintype ι] [AddCommMonoid M]

/-- What all threads hold together. -/
def tally (f : β → M) (threads : ι → β) : M := ∑ i, f (threads i)

theorem tally_eq_zero {threads : ι → β} {x : β} (h : ∀ i, threads i = x) (f : β → M)
    (hf : f x = 0) : tally f threads = 0 :=
  Finset.sum_eq_zero fun i _ => by rw [h i, hf]

theorem tally_congr {f : β → M} {threads threads' : ι → β}
    (h : ∀ i, f (threads i) = f (threads' i)) : tally f threads = tally f threads' :=
  Finset.sum_congr rfl fun i _ => h i

theorem mem_tally {γ : Type*} {f : β → Multiset γ} {threads : ι → β} {x : γ} :
    x ∈ tally f threads ↔ ∃ i, x ∈ f (threads i) := by
  simp [tally, Multiset.mem_sum]

theorem le_tally (f : β → ℕ) (threads : ι → β) (i : ι) : f (threads i) ≤ tally f threads :=
  Finset.single_le_sum (f := fun j => f (threads j)) (fun _ _ => Nat.zero_le _)
    (Finset.mem_univ i)

variable [DecidableEq ι]

theorem tally_update (f : β → M) (threads : ι → β) (i : ι) (x : β) :
    tally f (Function.update threads i x) + f (threads i) = tally f threads + f x := by
  have hrest : ∑ j ∈ Finset.univ.erase i, f (Function.update threads i x j) =
      ∑ j ∈ Finset.univ.erase i, f (threads j) := by
    apply Finset.sum_congr rfl
    intro j hj
    rw [Function.update_of_ne (Finset.ne_of_mem_erase hj)]
  have hnew := Finset.sum_erase_add Finset.univ (fun j => f (Function.update threads i x j))
    (Finset.mem_univ i)
  have hold := Finset.sum_erase_add Finset.univ (fun j => f (threads j)) (Finset.mem_univ i)
  rw [Function.update_self, hrest] at hnew
  unfold tally
  rw [← hnew, ← hold]
  abel

/-- What is outside of the threads changes by what one of them takes up or gives
back. -/
theorem tally_exchange {M : Type*} [AddCancelCommMonoid M] (f : β → M) {threads : ι → β} {i : ι}
    {x : β} {a b : M} (h : b + f x = a + f (threads i)) :
    b + tally f (Function.update threads i x) = a + tally f threads := by
  apply add_right_cancel (b := f (threads i))
  calc b + tally f (Function.update threads i x) + f (threads i)
      = b + f x + tally f threads := by rw [add_assoc, tally_update, add_comm (tally f threads),
          add_assoc]
    _ = a + tally f threads + f (threads i) := by rw [h, add_right_comm]

/-! ## Sums over a list of threads -/

/-- Threads that come and go are a list; a step of one of them exchanges one
term. -/
theorem sum_map_set {β M : Type*} [AddCommMonoid M] (f : β → M) {l : List β} {k : ℕ} {y : β}
    (h : l[k]? = some y) (x : β) :
    ((l.set k x).map f).sum + f y = (l.map f).sum + f x := by
  induction l generalizing k with
  | nil => simp at h
  | cons z l ih =>
      cases k with
      | zero =>
          obtain rfl : z = y := by simpa using h
          simp only [List.set_cons_zero, List.map_cons, List.sum_cons]
          abel
      | succ k =>
          simp only [List.set_cons_succ, List.map_cons, List.sum_cons, add_assoc]
          rw [ih (by simpa using h)]

theorem countP_le_sum {β : Type*} {p : β → Bool} {f : β → ℕ} (h : ∀ x, p x = true → 1 ≤ f x)
    (l : List β) : l.countP p ≤ (l.map f).sum := by
  induction l with
  | nil => simp
  | cons x l ih =>
      rw [List.countP_cons, List.map_cons, List.sum_cons]
      split_ifs with hx
      · have hfx := h x hx
        omega
      · omega

/-! ## Listing the defined values of a partial function -/

section

variable {ι α : Type*}

/-- The list holds every defined value of `g` once, with its argument. -/
structure Lists (l : List (ι × α)) (g : ι → Option α) : Prop where
  nodup : l.Nodup
  mem : ∀ i x, (i, x) ∈ l ↔ g i = some x

theorem Lists.perm {l l' : List (ι × α)} {g : ι → Option α} (h : Lists l g) (h' : Lists l' g) :
    l.Perm l' := by
  apply (List.perm_ext_iff_of_nodup h.nodup h'.nodup).mpr
  rintro ⟨i, x⟩
  rw [h.mem, h'.mem]

variable [DecidableEq ι]

theorem Lists.update_same {l : List (ι × α)} {g : ι → Option α} (h : Lists l g) {i : ι}
    {y : Option α} (hi : y = g i) : Lists l (Function.update g i y) := by
  rw [hi, Function.update_eq_self]
  exact h

theorem Lists.update_new {l : List (ι × α)} {g : ι → Option α} (h : Lists l g) {i : ι} (x : α)
    (hi : g i = none) : Lists ((i, x) :: l) (Function.update g i (some x)) where
  nodup := by
    refine List.nodup_cons.mpr ⟨fun hmem => ?_, h.nodup⟩
    rw [h.mem, hi] at hmem
    nomatch hmem
  mem j y := by
    by_cases hj : j = i
    · subst hj
      have hfree : (j, y) ∉ l := by simp [h.mem, hi]
      simp [hfree, eq_comm]
    · simp [h.mem, hj]

end

end Gkit.Lib
