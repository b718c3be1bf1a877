import Mathlib

/-!
# Finite runs of a partial step function

A system is given by a step function that returns `none` on a disabled action.
Runs are finite action lists, read from left to right.  An invariant is proved
for one step, possibly under a condition on the state before the step, and
carried by `run_invariant` along the runs all of whose steps meet it.
-/

namespace Gkit.Lib

/-! The threads of a concrete run are the literals of a small `Fin n`.  The library has
these instances, but by ways that depend on what a module imports; with them here
every module of the project finds the same ones. -/

instance neZero_one : NeZero 1 := ⟨by decide⟩

instance neZero_two : NeZero 2 := ⟨by decide⟩

instance neZero_three : NeZero 3 := ⟨by decide⟩

instance neZero_four : NeZero 4 := ⟨by decide⟩

instance lawfulBEq_fin (n : ℕ) : LawfulBEq (Fin n) := inferInstance

variable {σ a : Type*}

def run (step : σ → a → Option σ) : σ → List a → Option σ
  | s, [] => some s
  | s, x :: xs => (step s x).bind fun t => run step t xs

/-- Every step of the run starts in a state that meets `C` for its action. -/
def Along (step : σ → a → Option σ) (C : σ → a → Prop) : σ → List a → Prop
  | _, [] => True
  | s, x :: xs => C s x ∧ ∀ t ∈ step s x, Along step C t xs

variable {step : σ → a → Option σ}

instance Along.decidable {C : σ → a → Prop} [∀ s x, Decidable (C s x)] :
    ∀ s xs, Decidable (Along step C s xs)
  | _, [] => inferInstanceAs (Decidable True)
  | s, x :: xs =>
      have : ∀ t, Decidable (Along step C t xs) := fun t => Along.decidable t xs
      inferInstanceAs (Decidable (C s x ∧ ∀ t ∈ step s x, Along step C t xs))

@[simp] theorem run_nil (s : σ) : run step s [] = some s := rfl

theorem run_cons_eq_some {s t : σ} {x : a} {xs : List a} :
    run step s (x :: xs) = some t ↔
      ∃ u, step s x = some u ∧ run step u xs = some t := by
  simp [run, Option.bind_eq_some_iff]

theorem run_append (s : σ) (xs ys : List a) :
    run step s (xs ++ ys) = (run step s xs).bind fun t => run step t ys := by
  induction xs generalizing s with
  | nil => rfl
  | cons x xs ih =>
      cases h : step s x with
      | none => simp [run, h]
      | some t => simpa [run, h] using ih t

theorem run_append_eq_some {s t : σ} {xs ys : List a} :
    run step s (xs ++ ys) = some t ↔
      ∃ u, run step s xs = some u ∧ run step u ys = some t := by
  rw [run_append, Option.bind_eq_some_iff]

theorem along_of_forall {C : σ → a → Prop} {s : σ} {xs : List a} (h : ∀ x ∈ xs, ∀ s, C s x) :
    Along step C s xs := by
  induction xs generalizing s with
  | nil => trivial
  | cons x xs ih =>
      exact ⟨h x List.mem_cons_self s, fun t _ => ih fun y hy => h y (List.mem_cons_of_mem x hy)⟩

theorem along_append {C : σ → a → Prop} {s : σ} {xs ys : List a} :
    Along step C s (xs ++ ys) ↔
      Along step C s xs ∧ ∀ t, run step s xs = some t → Along step C t ys := by
  induction xs generalizing s with
  | nil => simp [Along]
  | cons x xs ih =>
      simp only [List.cons_append, Along, ih, run_cons_eq_some, and_assoc]
      refine and_congr_right fun _ => ⟨fun h => ?_, fun h t ht => ?_⟩
      · exact ⟨fun t ht => (h t ht).1, fun u ⟨t, ht, hu⟩ => (h t ht).2 u hu⟩
      · exact ⟨h.1 t ht, fun u hu => h.2 u ⟨t, ht, hu⟩⟩

theorem Along.imp {C D : σ → a → Prop} (hCD : ∀ s x, C s x → D s x) {s : σ} {xs : List a}
    (h : Along step C s xs) : Along step D s xs := by
  induction xs generalizing s with
  | nil => trivial
  | cons x xs ih => exact ⟨hCD s x h.1, fun t ht => ih (h.2 t ht)⟩

/-- A property of one state that every step preserves holds after every run
whose steps all meet the condition under which they preserve it. -/
theorem run_invariant {P : σ → Prop} {C : σ → a → Prop}
    (hstep : ∀ s x t, P s → C s x → step s x = some t → P t)
    {s t : σ} {xs : List a} (hs : P s) (hC : Along step C s xs)
    (h : run step s xs = some t) : P t := by
  induction xs generalizing s with
  | nil => exact Option.some.inj h ▸ hs
  | cons x xs ih =>
      obtain ⟨u, hu, hrest⟩ := run_cons_eq_some.mp h
      exact ih (hstep s x u hs hC.1 hu) (hC.2 u hu) hrest

theorem run_forall {P : σ → Prop} (hstep : ∀ s x t, P s → step s x = some t → P t)
    {s t : σ} {xs : List a} (hs : P s) (h : run step s xs = some t) : P t :=
  run_invariant (fun s x t hP _ => hstep s x t hP) hs (C := fun _ _ => True)
    (along_of_forall fun _ _ _ => trivial) h

/-- A run is no longer than the rank that its steps lower. -/
theorem length_add_rank_le (rank : σ → ℕ) {P : σ → Prop} {C : σ → a → Prop}
    (hP : ∀ s x t, P s → C s x → step s x = some t → P t ∧ rank t < rank s) {s t : σ} {xs : List a}
    (hs : P s) (hC : Along step C s xs) (h : run step s xs = some t) :
    xs.length + rank t ≤ rank s := by
  induction xs generalizing s with
  | nil => simp [Option.some.inj h]
  | cons x xs ih =>
      obtain ⟨u, hu, hrest⟩ := run_cons_eq_some.mp h
      obtain ⟨hPu, hlt⟩ := hP s x u hs hC.1 hu
      have := ih hPu (hC.2 u hu) hrest
      rw [List.length_cons]
      omega

/-- Where some step can be taken that lowers the rank, a run leads to the goal. -/
theorem exists_run_of_progress (rank : σ → ℕ) {P Q : σ → Prop}
    (hP : ∀ s, P s → Q s ∨ ∃ x t, step s x = some t ∧ P t ∧ rank t < rank s) {s : σ} (hs : P s) :
    ∃ xs t, run step s xs = some t ∧ P t ∧ Q t := by
  induction hr : rank s using Nat.strong_induction_on generalizing s with
  | _ r ih =>
      rcases hP s hs with hQ | ⟨x, u, hx, hu, hlt⟩
      · exact ⟨[], s, rfl, hs, hQ⟩
      · obtain ⟨xs, t, hrun, ht⟩ := ih (rank u) (hr ▸ hlt) hu rfl
        exact ⟨x :: xs, t, run_cons_eq_some.mpr ⟨u, hx, hrun⟩, ht⟩

/-- What the steps of a run leave in a log. -/
def collect {b : Type*} (step : σ → a → Option σ) (f : σ → a → List b) : σ → List a → List b
  | _, [] => []
  | s, x :: xs => f s x ++ (step s x).elim [] fun t => collect step f t xs

theorem collect_cons {b : Type*} {f : σ → a → List b} {s t : σ} {x : a} (h : step s x = some t)
    (xs : List a) : collect step f s (x :: xs) = f s x ++ collect step f t xs := by
  rw [collect, h, Option.elim_some]

theorem collect_append {b : Type*} {f : σ → a → List b} {s t : σ} {xs : List a}
    (h : run step s xs = some t) (ys : List a) :
    collect step f s (xs ++ ys) = collect step f s xs ++ collect step f t ys := by
  induction xs generalizing s with
  | nil => rw [Option.some.inj h, collect, List.nil_append, List.nil_append]
  | cons x xs ih =>
      obtain ⟨u, hu, hrest⟩ := run_cons_eq_some.mp h
      rw [List.cons_append, collect_cons hu, collect_cons hu, ih hrest, List.append_assoc]

theorem run_collect_append {b : Type*} {f : σ → a → List b} {P : σ → List b → Prop}
    {C : σ → a → Prop}
    (hstep : ∀ s log x t, P s log → C s x → step s x = some t → P t (log ++ f s x))
    {s t : σ} {log : List b} {xs : List a} (hs : P s log) (hC : Along step C s xs)
    (h : run step s xs = some t) : P t (log ++ collect step f s xs) := by
  induction xs generalizing s log with
  | nil => simpa [collect] using Option.some.inj h ▸ hs
  | cons x xs ih =>
      obtain ⟨u, hu, hrest⟩ := run_cons_eq_some.mp h
      rw [collect_cons hu, ← List.append_assoc]
      exact ih (hstep s log x u hs hC.1 hu) (hC.2 u hu) hrest

/-- An invariant that speaks about the state and about the log kept so far. -/
theorem run_collect {b : Type*} {f : σ → a → List b} {P : σ → List b → Prop} {C : σ → a → Prop}
    (hstep : ∀ s log x t, P s log → C s x → step s x = some t → P t (log ++ f s x))
    {s t : σ} {xs : List a} (hs : P s []) (hC : Along step C s xs)
    (h : run step s xs = some t) : P t (collect step f s xs) :=
  run_collect_append hstep hs hC h

/-- What holds of the whole log holds of what each step leaves. -/
theorem forall_mem_collect_iff {b : Type*} {f : σ → a → List b} {P : b → Prop} {s : σ}
    {xs : List a} :
    (∀ y ∈ collect step f s xs, P y) ↔ Along step (fun s x => ∀ y ∈ f s x, P y) s xs := by
  induction xs generalizing s with
  | nil => simp [collect, Along]
  | cons x xs ih =>
      cases hx : step s x with
      | none => simp [collect, Along, hx]
      | some t => simp [collect, Along, hx, ← ih, or_imp, forall_and]

/-- An invariant that speaks about the state and about the actions so far. -/
theorem run_history {P : σ → List a → Prop}
    (hstep : ∀ s xs x t, P s xs → step s x = some t → P t (xs ++ [x])) {s t : σ} {xs : List a}
    (hs : P s []) (h : run step s xs = some t) : P t xs := by
  induction xs using List.reverseRecOn generalizing t with
  | nil => exact Option.some.inj h ▸ hs
  | append_singleton xs x ih =>
      obtain ⟨u, hu, hx⟩ := run_append_eq_some.mp h
      obtain ⟨v, hv, ht⟩ := run_cons_eq_some.mp hx
      exact Option.some.inj ht ▸ hstep u xs x v (ih hu) hv

/-- Two runs over the same actions, side by side. -/
theorem run_pair {τ : Type*} {step' : τ → a → Option τ} {R : σ → τ → Prop}
    (hstep : ∀ s t x s' t', R s t → step s x = some s' → step' t x = some t' → R s' t')
    {s s' : σ} {t t' : τ} {xs : List a} (hR : R s t) (hs : run step s xs = some s')
    (ht : run step' t xs = some t') : R s' t' := by
  induction xs generalizing s t with
  | nil => exact Option.some.inj hs ▸ Option.some.inj ht ▸ hR
  | cons x xs ih =>
      obtain ⟨u, hu, hs⟩ := run_cons_eq_some.mp hs
      obtain ⟨v, hv, ht⟩ := run_cons_eq_some.mp ht
      exact ih (hstep s t x u v hR hu hv) hs ht

/-- Where a step keeps `P` exactly if it meets `C`, the runs through states with
`P` only are those whose steps all meet `C`. -/
theorem forall_prefix_iff_along {I P : σ → Prop} {C : σ → a → Prop}
    (hI : ∀ s x t, I s → step s x = some t → I t)
    (hP : ∀ s x t, I s → P s → step s x = some t → (P t ↔ C s x))
    {s t : σ} {xs : List a} (hs : I s) (hPs : P s) (h : run step s xs = some t) :
    (∀ ys zs u, xs = ys ++ zs → run step s ys = some u → P u) ↔ Along step C s xs := by
  induction xs generalizing s with
  | nil =>
      refine ⟨fun _ => trivial, fun _ ys zs u hys hu => ?_⟩
      obtain ⟨rfl, -⟩ := List.nil_eq_append_iff.mp hys
      exact Option.some.inj hu ▸ hPs
  | cons x xs ih =>
      obtain ⟨v, hv, hrest⟩ := run_cons_eq_some.mp h
      constructor
      · intro hall
        have hPv : P v := hall [x] xs v rfl (run_cons_eq_some.mpr ⟨v, hv, rfl⟩)
        refine ⟨(hP s x v hs hPs hv).mp hPv, fun w hw => ?_⟩
        obtain rfl := Option.some.inj (hv.symm.trans hw)
        apply (ih (hI s x v hs hv) hPv hrest).mp
        intro ys zs u hys hu
        exact hall (x :: ys) zs u (by simp [hys]) (run_cons_eq_some.mpr ⟨v, hv, hu⟩)
      · rintro ⟨hC, hnext⟩ ys zs u hys hu
        cases ys with
        | nil => exact Option.some.inj hu ▸ hPs
        | cons y ys =>
            obtain ⟨rfl, rfl⟩ := List.cons.inj hys
            obtain ⟨w, hw, hu⟩ := run_cons_eq_some.mp hu
            obtain rfl := Option.some.inj (hv.symm.trans hw)
            have hPv : P v := (hP s x v hs hPs hv).mpr hC
            exact (ih (hI s x v hs hv) hPv hrest).mpr (hnext v hv) ys zs u rfl hu

/-- The events happen one after the other, none before the given time. -/
def Timed (t : ℤ) : List (ℤ × a) → Prop
  | [] => True
  | (u, _) :: xs => t ≤ u ∧ Timed u xs

theorem Timed.mono {s t : ℤ} {xs : List (ℤ × a)} (h : Timed t xs) (hst : s ≤ t) : Timed s xs := by
  cases xs with
  | nil => trivial
  | cons x xs => exact ⟨hst.trans h.1, h.2⟩

theorem Timed.filterMap {b : Type*} {t : ℤ} {xs : List (ℤ × a)} (h : Timed t xs)
    (f : a → Option b) : Timed t (xs.filterMap fun x => (f x.2).map (Prod.mk x.1)) := by
  induction xs generalizing t with
  | nil => trivial
  | cons x xs ih =>
      obtain ⟨u, y⟩ := x
      cases hy : f y with
      | none => simpa [List.filterMap_cons, hy] using (ih h.2).mono h.1
      | some z => simpa [List.filterMap_cons, hy] using ⟨h.1, ih h.2⟩

theorem Timed.filter {t : ℤ} {xs : List (ℤ × a)} (h : Timed t xs) (p : ℤ × a → Bool) :
    Timed t (xs.filter p) := by
  induction xs generalizing t with
  | nil => trivial
  | cons x xs ih =>
      by_cases hp : p x = true
      · simpa [List.filter_cons, hp] using ⟨h.1, ih h.2⟩
      · simpa [List.filter_cons, hp] using (ih h.2).mono h.1

/-- A list whose elements lead from state to state. -/
inductive Chained (Q : σ → a → σ → Prop) : σ → List a → σ → Prop where
  | nil (s : σ) : Chained Q s [] s
  | cons {s t u : σ} {x : a} {xs : List a} (h : Q s x t) (hs : Chained Q t xs u) :
      Chained Q s (x :: xs) u

variable {Q : σ → a → σ → Prop}

/-- A property of the states that every link preserves, given a fact `H` about
the element, holds at the end. -/
theorem Chained.invariant {P : σ → Prop} {H : a → Prop}
    (hstep : ∀ {s x t}, P s → H x → Q s x t → P t) {s t : σ} {xs : List a}
    (h : Chained Q s xs t) (hs : P s) (hH : ∀ x ∈ xs, H x) : P t := by
  induction h with
  | nil s => exact hs
  | @cons s t u x xs hx _ ih =>
      exact ih (hstep hs (hH x List.mem_cons_self) hx) fun y hy => hH y (List.mem_cons_of_mem x hy)

theorem Chained.append {s t u : σ} {xs ys : List a} (hxs : Chained Q s xs t)
    (hys : Chained Q t ys u) : Chained Q s (xs ++ ys) u := by
  induction hxs with
  | nil s => exact hys
  | cons hx _ ih => exact .cons hx (ih hys)

/-- Each element links two states, between what comes before it and after it. -/
theorem Chained.link_of_mem {s u : σ} {xs : List a} (h : Chained Q s xs u) {x : a}
    (hx : x ∈ xs) : ∃ ys zs t₁ t₂, xs = ys ++ x :: zs ∧ Chained Q s ys t₁ ∧ Q t₁ x t₂ ∧
      Chained Q t₂ zs u := by
  induction h with
  | nil s => simp at hx
  | @cons s t u y xs hy hs ih =>
      rcases List.mem_cons.mp hx with rfl | hx
      · exact ⟨[], xs, s, t, rfl, .nil s, hy, hs⟩
      · obtain ⟨ys, zs, t₁, t₂, rfl, hys, hQ, hzs⟩ := ih hx
        exact ⟨y :: ys, zs, t₁, t₂, rfl, .cons hy hys, hQ, hzs⟩

end Gkit.Lib
