import Gkit.Lib.Errors

/-!
# Package `saga`

The steps act on a state they share.  A run notes each call of an `Execute` or a
`Compensate` with its error, which is also what the hook `onStep` is told.
Functions that panic are left out: a panic would end the run where it happens.
-/

namespace Gkit.Sagas

open Gkit.Lib

variable {σ : Type}

structure Step (σ : Type) where
  name : String
  execute : σ → σ × Option GoError
  compensate : Option (σ → σ × Option GoError)

structure Saga (σ : Type) where
  name : String
  steps : List (Step σ)

structure CompensationError where
  step : String
  err : GoError
  deriving DecidableEq, Repr

/-- The type `Error`. -/
structure SagaError where
  sagaName : String
  failedStep : String
  cause : GoError
  compensationErrors : List CompensationError
  deriving DecidableEq, Repr

def SagaError.error (e : SagaError) : String :=
  "saga " ++ quote e.sagaName ++ " failed at step " ++ quote e.failedStep ++ ": " ++
    e.cause.error ++
    if e.compensationErrors = [] then ""
    else "; compensation errors: " ++ ", ".intercalate
      (e.compensationErrors.map fun ce => ce.step ++ ": " ++ ce.err.error)

inductive Phase where
  | execute
  | compensate
  deriving DecidableEq, Repr

structure Event where
  phase : Phase
  index : ℕ
  name : String
  err : Option GoError
  deriving DecidableEq, Repr

/-- The shared state and the calls so far. -/
structure Exec (σ : Type) where
  state : σ
  trace : List Event

namespace Saga

/-- The loop of `compensate` over the completed steps, the latest first. -/
def compensateFrom (sg : Saga σ) :
    List ℕ → Exec σ → List CompensationError → Exec σ × List CompensationError
  | [], x, errs => (x, errs)
  | i :: is, x, errs =>
      match sg.steps[i]? with
      | none => (x, errs)
      | some step =>
          match step.compensate with
          | none => sg.compensateFrom is x errs
          | some f =>
              let (s, err) := f x.state
              let x := ⟨s, x.trace ++ [⟨.compensate, i, step.name, err⟩]⟩
              match err with
              | some err => sg.compensateFrom is x (errs ++ [⟨step.name, err⟩])
              | none => sg.compensateFrom is x errs

def compensate (sg : Saga σ) (completed : List ℕ) (x : Exec σ) :
    Exec σ × List CompensationError :=
  sg.compensateFrom completed.reverse x []

/-- The loop of `Run` over the steps from the given index on. -/
def runFrom (sg : Saga σ) : List (Step σ) → ℕ → List ℕ → Exec σ → Exec σ × Option SagaError
  | [], _, _, x => (x, none)
  | step :: steps, i, completed, x =>
      let (s, err) := step.execute x.state
      let x := ⟨s, x.trace ++ [⟨.execute, i, step.name, err⟩]⟩
      match err with
      | some err =>
          let (x, compErrs) := sg.compensate completed x
          (x, some ⟨sg.name, step.name, err, compErrs⟩)
      | none => sg.runFrom steps (i + 1) (completed ++ [i]) x

def run (sg : Saga σ) (s : σ) : Exec σ × Option SagaError := sg.runFrom sg.steps 0 [] ⟨s, []⟩

/-- The step at the index has a `Compensate`. -/
def compensates (sg : Saga σ) (i : ℕ) : Bool :=
  match sg.steps[i]? with
  | none => false
  | some step => step.compensate.isSome

end Saga

/-! ## What the calls do -/

/-- The effect of compensating a step on the state; without a `Compensate` there
is none. -/
def Step.undo (step : Step σ) (s : σ) : σ :=
  match step.compensate with
  | none => s
  | some f => (f s).1

/-- The state after all of the steps have succeeded. -/
def executeAll : List (Step σ) → σ → Option σ
  | [], s => some s
  | step :: steps, s =>
      match step.execute s with
      | (s, none) => executeAll steps s
      | (_, some _) => none

/-- What the `Compensate`s of the steps return, called in this order from the
state: the name of the step and the error. -/
def compensations : List (Step σ) → σ → List (String × Option GoError)
  | [], _ => []
  | step :: steps, s =>
      match step.compensate with
      | none => compensations steps s
      | some f => (step.name, (f s).2) :: compensations steps (f s).1

def failures (results : List (String × Option GoError)) : List CompensationError :=
  results.filterMap fun r => r.2.map (CompensationError.mk r.1)

def Event.call (ev : Event) : Phase × ℕ := (ev.phase, ev.index)

def Event.result (ev : Event) : String × Option GoError := (ev.name, ev.err)

theorem failures_cons (r : String × Option GoError) (rs : List (String × Option GoError)) :
    failures (r :: rs) = failures [r] ++ failures rs :=
  List.filterMap_append (l := [r])

theorem executeAll_cons {step : Step σ} {steps : List (Step σ)} {s t : σ}
    (h : executeAll (step :: steps) s = some t) :
    ∃ u, step.execute s = (u, none) ∧ executeAll steps u = some t := by
  simp only [executeAll] at h
  split at h
  · next u hu => exact ⟨u, hu, h⟩
  · nomatch h

namespace Saga

/-- Compensation goes through all indices it is given, whatever fails, and its
errors are those that the `Compensate`s of these steps return. -/
theorem compensateFrom_spec (sg : Saga σ) {is : List ℕ} (his : ∀ i ∈ is, i < sg.steps.length)
    (x : Exec σ) (errs : List CompensationError) :
    ∃ trace, sg.compensateFrom is x errs =
        (⟨(is.filterMap fun i => sg.steps[i]?).foldl (fun s step => step.undo s) x.state,
          x.trace ++ trace⟩,
        errs ++ failures (compensations (is.filterMap fun i => sg.steps[i]?) x.state)) ∧
      trace.map Event.call = (is.filter sg.compensates).map (Prod.mk .compensate) ∧
      trace.map Event.result = compensations (is.filterMap fun i => sg.steps[i]?) x.state := by
  induction is generalizing x errs with
  | nil => exact ⟨[], by simp [compensateFrom, compensations, failures], rfl, rfl⟩
  | cons i is ih =>
      have hi : i < sg.steps.length := his i List.mem_cons_self
      have hrest : ∀ j ∈ is, j < sg.steps.length := fun j hj => his j (List.mem_cons_of_mem i hj)
      have hstep : sg.steps[i]? = some sg.steps[i] := List.getElem?_eq_getElem hi
      rw [List.filterMap_cons_some hstep, List.foldl_cons]
      cases hcomp : sg.steps[i].compensate with
      | none =>
          obtain ⟨trace, hres, hcalls, hresults⟩ := ih hrest x errs
          refine ⟨trace, ?_, ?_, ?_⟩
          · simp only [compensateFrom, hstep, hcomp, hres, Step.undo, compensations]
          · simp [hcalls, compensates, hstep, hcomp]
          · simpa only [compensations, hcomp] using hresults
      | some f =>
          have hundo : sg.steps[i].undo x.state = (f x.state).1 := by simp [Step.undo, hcomp]
          obtain ⟨trace, hres, hcalls, hresults⟩ := ih hrest
            ⟨(f x.state).1, x.trace ++ [⟨.compensate, i, sg.steps[i].name, (f x.state).2⟩]⟩
            (errs ++ failures [(sg.steps[i].name, (f x.state).2)])
          refine ⟨⟨.compensate, i, sg.steps[i].name, (f x.state).2⟩ :: trace, ?_, ?_, ?_⟩
          · simp only [compensations, hcomp]
            rw [hundo, List.append_cons, failures_cons, ← List.append_assoc, ← hres]
            cases herr : (f x.state).2 with
            | none => simp [compensateFrom, hstep, hcomp, herr, failures]
            | some err => simp [compensateFrom, hstep, hcomp, herr, failures]
          · simp [Event.call, hcalls, compensates, hstep, hcomp]
          · simp only [compensations, hcomp, List.map_cons, hresults]
            rfl

/-- A run whose first failing step comes after these executes them all and then
compensates what is complete. -/
theorem runFrom_spec (sg : Saga σ) {done rest : List (Step σ)} {step : Step σ} {s' s'' : σ}
    {err : GoError} (hfail : step.execute s' = (s'', some err)) {x : Exec σ}
    (hdone : executeAll done x.state = some s') (i : ℕ) (completed : List ℕ) :
    ∃ trace, sg.runFrom (done ++ step :: rest) i completed x =
        ((sg.compensate (completed ++ List.range' i done.length) ⟨s'', x.trace ++ trace⟩).1,
          some ⟨sg.name, step.name, err, (sg.compensate (completed ++ List.range' i done.length)
            ⟨s'', x.trace ++ trace⟩).2⟩) ∧
      trace.map Event.call = (List.range' i (done.length + 1)).map (Prod.mk .execute) ∧
      trace.map Event.result = done.map (fun st => (st.name, none)) ++ [(step.name, some err)] := by
  induction done generalizing x i completed with
  | nil =>
      obtain rfl := Option.some.inj hdone
      refine ⟨[⟨.execute, i, step.name, some err⟩], ?_, rfl, rfl⟩
      simp [runFrom, hfail]
  | cons first done ih =>
      obtain ⟨u, hu, hrest⟩ := executeAll_cons hdone
      have hnext : executeAll done
          (⟨u, x.trace ++ [⟨.execute, i, first.name, none⟩]⟩ : Exec σ).state = some s' := hrest
      obtain ⟨trace, hres, hcalls, hresults⟩ := ih hnext (i + 1) (completed ++ [i])
      refine ⟨⟨.execute, i, first.name, none⟩ :: trace, ?_, ?_, ?_⟩
      · simp only [List.cons_append, runFrom, hu, hres, List.length_cons, List.range'_succ,
          List.append_assoc, List.nil_append]
      · rw [List.map_cons, hcalls, List.length_cons]
        rfl
      · rw [List.map_cons, hresults, List.map_cons, List.cons_append]
        rfl

end Saga

theorem filterMap_range_take {α : Type} (l : List α) {n : ℕ} (hn : n ≤ l.length) :
    (List.range n).filterMap (fun i => l[i]?) = l.take n := by
  induction n with
  | zero => rfl
  | succ n ih =>
      have hlt : n < l.length := hn
      rw [List.range_succ, List.filterMap_append, ih hlt.le, List.take_add_one]
      simp [List.getElem?_eq_getElem hlt]

/-- Undoing the steps in reverse order leads back to where they began. -/
theorem undo_executeAll {done : List (Step σ)} {s s' : σ} (h : executeAll done s = some s')
    (hundo : ∀ step ∈ done, ∀ t u, step.execute t = (u, none) → step.undo u = t) :
    done.reverse.foldl (fun s step => step.undo s) s' = s := by
  induction done generalizing s with
  | nil => exact (Option.some.inj h).symm
  | cons step done ih =>
      obtain ⟨u, hu, hrest⟩ := executeAll_cons h
      rw [List.reverse_cons, List.foldl_append,
        ih hrest fun st hst => hundo st (List.mem_cons_of_mem _ hst)]
      exact hundo step List.mem_cons_self s u hu

/-- If the steps before it succeed and this one fails, the run executes these in
order and no other, and compensates the completed ones in reverse order however
many of the compensations fail.  It reports the cause and exactly the errors that
the `Compensate`s of the completed steps return, each called in the state the one
before it left.  If compensations undo what they are for, the state is the one from
the start. -/
theorem saga_compensates {sg : Saga σ} {done rest : List (Step σ)} {step : Step σ} {s s' s'' : σ}
    {err : GoError} (hsteps : sg.steps = done ++ step :: rest)
    (hdone : executeAll done s = some s') (hfail : step.execute s' = (s'', some err)) :
    ∃ x e, sg.run s = (x, some e) ∧
      x.trace.map Event.call = (List.range (done.length + 1)).map (Prod.mk .execute) ++
        ((List.range done.length).reverse.filter sg.compensates).map (Prod.mk .compensate) ∧
      x.trace.map Event.result = done.map (fun st => (st.name, none)) ++ [(step.name, some err)] ++
        compensations done.reverse s'' ∧
      e.sagaName = sg.name ∧ e.failedStep = step.name ∧ e.cause = err ∧
      e.compensationErrors = failures (compensations done.reverse s'') ∧
      x.state = done.reverse.foldl (fun s step => step.undo s) s'' ∧
      ((∀ st ∈ done, ∀ t u, st.execute t = (u, none) → st.undo u = t) → s'' = s' →
        x.state = s) := by
  obtain ⟨trace, hres, hcalls, hresults⟩ :=
    @Saga.runFrom_spec σ sg done rest step s' s'' err hfail ⟨s, []⟩ hdone 0 []
  rw [← hsteps, List.nil_append, ← List.range_eq_range'] at hres
  have hrange : ∀ i ∈ (List.range done.length).reverse, i < sg.steps.length := by
    intro i hi
    have hlt : i < done.length := by simpa using hi
    rw [hsteps, List.length_append]
    omega
  obtain ⟨trace', hcomp, hcalls', hresults'⟩ :=
    sg.compensateFrom_spec hrange ⟨s'', [] ++ trace⟩ []
  have hundone : (List.range done.length).reverse.filterMap (fun i => sg.steps[i]?) =
      done.reverse := by
    rw [List.filterMap_reverse, filterMap_range_take sg.steps (by simp [hsteps]), hsteps,
      List.take_left]
  rw [hundone] at hcomp hresults'
  rw [Saga.compensate, hcomp] at hres
  refine ⟨_, _, hres, ?_, ?_, rfl, rfl, rfl, rfl, rfl, ?_⟩
  · rw [List.nil_append, List.map_append, hcalls, hcalls', ← List.range_eq_range']
  · rw [List.nil_append, List.map_append, hresults, hresults']
  · rintro hundo rfl
    exact undo_executeAll hdone hundo

/-- The completed steps of an order for ten: a reservation, a notice that nobody
takes back, and a charge whose refund works but loses its receipt. -/
def placed : List (Step ℤ) :=
  [⟨"reserve", fun n => (n - 1, none), some fun n => (n + 1, none)⟩,
    ⟨"notify", fun n => (n, none), none⟩,
    ⟨"charge", fun n => (n - 10, none), some fun n => (n + 10, some (.new "receipt lost"))⟩]

def shipment : Step ℤ := ⟨"ship", fun n => (n, some (.new "no carrier")), none⟩

theorem placed_undone :
    ∀ st ∈ placed, ∀ t u, st.execute t = (u, none) → st.undo u = t := by
  intro st hst t u hu
  simp only [placed, List.mem_cons, List.not_mem_nil, or_false] at hst
  rcases hst with rfl | rfl | rfl <;> obtain rfl := (Prod.mk.inj hu).1 <;> simp [Step.undo]

theorem order_restored : ∃ x e, Saga.run ⟨"order", placed ++ [shipment]⟩ 25 = (x, some e) ∧
    x.state = 25 ∧ e.cause = .new "no carrier" ∧
    e.compensationErrors = [⟨"charge", .new "receipt lost"⟩] := by
  obtain ⟨x, e, hrun, -, -, -, -, hcause, herrs, -, hrestored⟩ :=
    @saga_compensates ℤ ⟨"order", placed ++ [shipment]⟩ placed [] shipment 25 14 14
      (.new "no carrier") rfl rfl rfl
  exact ⟨x, e, hrun, hrestored placed_undone rfl, hcause, herrs.trans rfl⟩

end Gkit.Sagas
