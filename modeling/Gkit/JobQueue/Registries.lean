import Gkit.JobQueue.Workers
import Gkit.Lib.Writes

/-!
# Workers with registries of their own

Every process has its own handlers.  What is known about a job is read off the
history, which only grows: how often its handler has failed, and which type and
how many attempts the statement that inserted it has asked for.  A process writes
a job's row only on the strength of such facts, so no assumption on locks is
needed, and statements may fail and processes crash at any point.
-/

namespace Gkit.JobQueue

open Gkit.Lib Gkit.Store

variable {U : Schema} {V ι : Type} (types : String → Prop)

/-! ## What the history says about a job -/

/-- The jobs whose handlers have returned an error. -/
def failures (es : List (Entry (schema U) Unit ι)) : List ℕ :=
  (returns es).filterMap fun p => if p.2.isSome then some p.1 else none

def Stmt.order : Stmt U → Option (String × ℤ)
  | .insertJob type _ maxAttempts _ => some (type, maxAttempts)
  | _ => none

/-- The type and the attempts that were asked for when the job was inserted. -/
def ordered (es : List (Entry (schema U) Unit ι)) (id : ℕ) : Option (String × ℤ) :=
  es[id]?.bind fun en => en.op.statement.bind Stmt.order

/-- The handler has failed at least `n` times, and the job was inserted with this
type and `m` attempts. -/
structure Spent (es : List (Entry (schema U) Unit ι)) (id : ℕ) (type : String) (n m : ℤ) :
    Prop where
  nonneg : 0 ≤ n
  failed : n ≤ (failures es).count id
  ordered : ordered es id = some (type, m)

/-- The row gives a job of one of the types up only after its attempts. -/
structure Fair (es : List (Entry (schema U) Unit ι)) (row : JobRow) : Prop where
  nonneg : 0 ≤ row.attempts
  ordered : ordered es row.id = some (row.type, row.maxAttempts)
  status : row.status = .done ∨ row.status = .pending ∧ row.attempts ≤ (failures es).count row.id ∨
    row.status = .dead ∧ row.maxAttempts ≤ (failures es).count row.id ∨
    row.status = .failed ∧ ¬types row.type

def FairWrite (es : List (Entry (schema U) Unit ι)) : Write U → Prop
  | .job row => Fair types es row
  | .user _ => True

section History

variable {types} {es : List (Entry (schema U) Unit ι)} {en : Entry (schema U) Unit ι}

@[simp] theorem failures_append (es es' : List (Entry (schema U) Unit ι)) :
    failures (es ++ es') = failures es ++ failures es' := by
  simp [failures]

theorem count_failures_le (es es' : List (Entry (schema U) Unit ι)) (id : ℕ) :
    (failures es).count id ≤ (failures (es ++ es')).count id := by
  simp [List.count_append]

theorem ordered_append {id : ℕ} {m : String × ℤ} (h : ordered es id = some m)
    (es' : List (Entry (schema U) Unit ι)) : ordered (es ++ es') id = some m := by
  obtain ⟨en, hen, hm⟩ := Option.bind_eq_some_iff.mp h
  have hlt : id < es.length := (List.getElem?_eq_some_iff.mp hen).1
  rw [ordered, List.getElem?_append_left hlt]
  exact h

theorem Spent.append {id : ℕ} {type : String} {n m : ℤ} (h : Spent es id type n m)
    (es' : List (Entry (schema U) Unit ι)) : Spent (es ++ es') id type n m := by
  have hle := count_failures_le es es' id
  exact ⟨h.nonneg, h.failed.trans (by exact_mod_cast hle), ordered_append h.ordered es'⟩

theorem Fair.append {row : JobRow} (h : Fair types es row)
    (es' : List (Entry (schema U) Unit ι)) : Fair types (es ++ es') row := by
  have hle := count_failures_le es es' row.id
  refine ⟨h.nonneg, ordered_append h.ordered es', ?_⟩
  rcases h.status with hdone | ⟨hpending, hn⟩ | ⟨hdead, hn⟩ | hfailed
  · exact .inl hdone
  · exact .inr (.inl ⟨hpending, by omega⟩)
  · exact .inr (.inr (.inl ⟨hdead, by omega⟩))
  · exact .inr (.inr (.inr hfailed))

theorem FairWrite.append {u : Write U} (h : FairWrite types es u)
    (es' : List (Entry (schema U) Unit ι)) : FairWrite types (es ++ es') u := by
  cases u with
  | job row => exact Fair.append h es'
  | user u => trivial

/-- The rows of tables that are built from fair rows. -/
theorem fair_of_mem {us : List (Write U)} (hus : ∀ u ∈ us, FairWrite types es u) {d : Tables U}
    (hd : ∀ row ∈ d.jobs.rows, Fair types es row) {row : JobRow}
    (h : row ∈ (us.foldl Tables.apply d).jobs.rows) : Fair types es row := by
  induction us generalizing d with
  | nil => exact hd row h
  | cons u us ih =>
      refine ih (fun v hv => hus v (List.mem_cons_of_mem _ hv)) (d := d.apply u) ?_ h
      have hu := hus u List.mem_cons_self
      cases u with
      | user u => exact hd
      | job r =>
          intro row hrow
          rcases Table.mem_put.mp hrow with rfl | ⟨hrow, -⟩
          · exact hu
          · exact hd row hrow

end History

/-! ## What a process knows -/

/-- Facts of the form `Spent`, about any jobs. -/
abbrev Ledger := ℕ → String → ℤ → ℤ → Prop

namespace Ledger

/-- The jobs of a batch, as they were read. -/
def read (K : Ledger) (jobs : List Job) : Ledger := fun id type n m =>
  K id type n m ∨
    ∃ job ∈ jobs, job.id = id ∧ job.type = type ∧ job.attempts = n ∧ job.maxAttempts = m

/-- One more failure of a job. -/
def fail (K : Ledger) (i : ℕ) : Ledger := fun id type n m =>
  K id type n m ∨ id = i ∧ K id type (n - 1) m

/-- Everything that the process knows is so. -/
def Correct (K : Ledger) (es : List (Entry (schema U) Unit ι)) : Prop :=
  ∀ id type n m, K id type n m → Spent es id type n m

theorem Correct.append {K : Ledger} {es : List (Entry (schema U) Unit ι)} (h : K.Correct es)
    (es' : List (Entry (schema U) Unit ι)) : K.Correct (es ++ es') :=
  fun id type n m hK => (h id type n m hK).append es'

theorem Correct.fail {K : Ledger} {es : List (Entry (schema U) Unit ι)} (h : K.Correct es) (c : ι)
    (i : ℕ) (err : GoError) :
    (K.fail i).Correct (es ++ [⟨c, .ext (.returned i (some err)), ()⟩]) := by
  rintro id type n m (hK | ⟨rfl, hK⟩)
  · exact (h id type n m hK).append _
  · have hs := h id type (n - 1) m hK
    have hone : (failures [(⟨c, .ext (.returned id (some err)), ()⟩ :
        Entry (schema U) Unit ι)]) = [id] := rfl
    refine ⟨by have := hs.nonneg; omega, ?_, ordered_append hs.ordered _⟩
    rw [failures_append, List.count_append, hone, List.count_singleton_self]
    have := hs.failed
    omega

/-- What a process may write into the row of a job. -/
def Covers (K : Ledger) (id : ℕ) : Update → Prop
  | .failed _ => ∃ type n m, K id type n m ∧ ¬types type
  | .done attempts => ∃ type n m, K id type n m ∧ n ≤ attempts
  | .dead attempts _ => ∃ type n m, K id type n m ∧ n = attempts ∧ m ≤ n
  | .pending attempts _ _ => ∃ type n m, K id type n m ∧ n = attempts

variable {types}

theorem Correct.set {K : Ledger} {es : List (Entry (schema U) Unit ι)} (h : K.Correct es)
    {row : JobRow} (hrow : Fair types es row) {u : Update} (hu : K.Covers types row.id u)
    (now : ℤ) : Fair types es (u.set now row) := by
  cases u with
  | failed err =>
      obtain ⟨type, n, m, hK, hout⟩ := hu
      have hsame := Option.some.inj ((h _ type n m hK).ordered.symm.trans hrow.ordered)
      obtain ⟨rfl, -⟩ := Prod.mk.inj hsame
      exact ⟨hrow.nonneg, hrow.ordered, .inr (.inr (.inr ⟨rfl, hout⟩))⟩
  | done attempts =>
      obtain ⟨type, n, m, hK, hle⟩ := hu
      exact ⟨(h _ type n m hK).nonneg.trans hle, hrow.ordered, .inl rfl⟩
  | dead attempts err =>
      obtain ⟨type, n, m, hK, rfl, hle⟩ := hu
      have hs := h _ type n m hK
      obtain ⟨-, rfl⟩ := Prod.mk.inj (Option.some.inj (hs.ordered.symm.trans hrow.ordered))
      exact ⟨hs.nonneg, hrow.ordered, .inr (.inr (.inl ⟨rfl, hle.trans hs.failed⟩))⟩
  | pending attempts err runAt =>
      obtain ⟨type, n, m, hK, rfl⟩ := hu
      have hs := h _ type n m hK
      exact ⟨hs.nonneg, hrow.ordered, .inr (.inl ⟨rfl, hs.failed⟩)⟩

end Ledger

/-! ## Programs that write on the strength of what they know -/

/-- Neither a selection nor an update of jobs. -/
def Quiet (o : Op (schema U) Unit) : Prop :=
  match o.statement with
  | some (.updateJob ..) => False
  | some .selectPending => False
  | _ => True

/-- What a handler may do: anything but select and update jobs itself. -/
def Modest (o : Op (schema U) Unit) : Prop := Quiet o ∧ jobOf o = none

/-- What is left of a worker that is about to select its batch. -/
def taking (q : Queue U Unit) (tx : Tx Unit) (n : ℕ) : GoProg (schema U) Unit Unit :=
  ((q.batchTx (contextWithTx .background tx) tx).attempt >>= endTx tx) >>=
    fun _ => q.workerLoop .background n

/-- A program that writes rows only as far as it knows that they are fair. -/
inductive Tame (types : String → Prop) (q : Queue U Unit) : Ledger → GoProg (schema U) Unit Unit → Prop
  | ret (K : Ledger) : Tame types q K (.ret ())
  | panic (K : Ledger) (v : String) : Tame types q K (.panic v)
  | polling (K : Ledger) (n : ℕ) : Tame types q K (q.workerLoop .background n)
  | taking (K : Ledger) (tx : Tx Unit) (n : ℕ) : Tame types q K (taking q tx n)
  | update {K : Ledger} {tx : Tx Unit} {u : Update} {id : ℕ}
      {k : Except GoError Unit → GoProg (schema U) Unit Unit} (hu : K.Covers types id u)
      (hk : ∀ r, Tame types q K (k r)) : Tame types q K (.op (.exec tx (.updateJob u id)) k)
  | failed {K : Ledger} {id : ℕ} {err : GoError} {k : Unit → GoProg (schema U) Unit Unit}
      (hk : Tame types q (K.fail id) (k ())) : Tame types q K (.op (.ext (.returned id (some err))) k)
  | quiet {K : Ledger} {o : Op (schema U) Unit} {k : o.Res → GoProg (schema U) Unit Unit}
      (ho : Quiet o) (hk : ∀ r, Tame types q K (k r)) : Tame types q K (.op o k)

section Programs

variable {types} {q : Queue U Unit} {K : Ledger}

theorem tame_of_only {p : GoProg (schema U) Unit Unit} (h : p.Only Quiet) : Tame types q K p := by
  induction p with
  | ret x => exact .ret K
  | panic v => exact .panic K v
  | op o k ih => exact .quiet h.1 fun r => ih r (h.2 r)

theorem finish_ret (tx : Tx Unit) (n : ℕ) :
    Phase.finish q tx n (.ret ()) = .op (.commit tx) fun _ => q.workerLoop .background n := by
  refine congrArg (Prog.op _) (funext fun r => ?_)
  cases r <;> rfl

/-- A handler inside its batch. -/
theorem tame_finish_bind {α : Type} {p : GoProg (schema U) Unit α} (hp : p.Only Modest)
    {tx : Tx Unit} {n : ℕ} {f : α → GoProg (schema U) Unit Unit}
    (hf : ∀ x, Tame types q K (Phase.finish q tx n (f x))) :
    Tame types q K (Phase.finish q tx n (p >>= f)) := by
  induction p with
  | ret x => exact hf x
  | panic v => exact .quiet (o := .rollback tx) trivial fun _ => .panic K v
  | op o k ih => exact .quiet hp.1.1 fun r => ih r (hp.2 r)

theorem tame_settleJob {job : Job} {err : Option GoError}
    (hjob : K job.id job.type job.attempts job.maxAttempts)
    (herr : err ≠ none → K job.id job.type (job.attempts + 1) job.maxAttempts) {tx : Tx Unit} {n : ℕ}
    {p : GoProg (schema U) Unit Unit} (hp : Tame types q K (Phase.finish q tx n p)) :
    Tame types q K (Phase.finish q tx n (settleJob tx job err >>= fun _ => p)) := by
  cases err with
  | none => exact .update ⟨_, _, _, hjob, by omega⟩ fun _ => hp
  | some err =>
      have hK := herr (by simp)
      by_cases hmax : job.attempts + 1 ≥ job.maxAttempts
      · rw [settleJob_final (.inr hmax) tx 0]
        refine .update (u := settling job 0 (some err)) ?_ fun _ => hp
        rw [settling, if_pos hmax]
        exact ⟨_, _, _, hK, rfl, hmax⟩
      · simp only [settleJob, if_neg hmax]
        split_ifs with hneg
        · exact .quiet (o := .rollback tx) trivial fun _ => .panic K _
        · exact .quiet (o := .ext .now) trivial fun now => .update ⟨_, _, _, hK, rfl⟩ fun _ => hp

/-- The handlers of a process keep to their own business. -/
def Queue.Modest (q : Queue U Unit) : Prop :=
  ∀ type h, q.handlers type = some h → ∀ ctx payload, (h ctx payload).Only JobQueue.Modest

/-- A job whose type is none of the types may be marked as failed. -/
theorem tame_executing (hq : q.Modest) {jobs : List Job}
    (hjobs : ∀ job ∈ jobs, K job.id job.type job.attempts job.maxAttempts ∧
      (types job.type → q.handlers job.type ≠ none)) (tx : Tx Unit) (n : ℕ) :
    Tame types q K
      (Phase.finish q tx n (q.executeJobs (contextWithTx .background tx) tx jobs)) := by
  induction jobs generalizing K with
  | nil =>
      change Tame types q K (Phase.finish q tx n (.ret ()))
      rw [finish_ret]
      exact .quiet (o := .commit tx) trivial fun _ => .polling K n
  | cons job jobs ih =>
      obtain ⟨hK, hhandler⟩ := hjobs job List.mem_cons_self
      have hrest : ∀ K' : Ledger, (∀ id type n m, K id type n m → K' id type n m) →
          ∀ job ∈ jobs, K' job.id job.type job.attempts job.maxAttempts ∧
            (types job.type → q.handlers job.type ≠ none) :=
        fun K' hle job hjob => by
          obtain ⟨hjob, hsome⟩ := hjobs job (List.mem_cons_of_mem _ hjob)
          exact ⟨hle _ _ _ _ hjob, hsome⟩
      cases hh : q.handlers job.type with
      | none =>
          have hout : ¬types job.type := fun htype => hhandler htype hh
          simp only [Queue.executeJobs, executeJob_none hh]
          exact .update ⟨_, _, _, hK, hout⟩ fun _ => ih (hrest K fun _ _ _ _ h => h)
      | some h =>
          simp only [Queue.executeJobs, executeJob_eq hh]
          refine .quiet (o := .ext (.invoked job.id)) trivial fun _ => ?_
          change Tame types q K (Phase.finish q tx n ((h _ job.payload >>= fun err =>
            .op (.ext (.returned job.id err)) fun _ => settleJob tx job err) >>= fun _ => _))
          rw [Prog.bind_bind]
          refine tame_finish_bind (hq _ h hh _ _) fun err => ?_
          cases err with
          | none =>
              refine .quiet (o := .ext (.returned job.id none)) trivial fun _ => ?_
              exact tame_settleJob hK (fun h => absurd rfl h) (ih (hrest K fun _ _ _ _ h => h))
          | some err =>
              refine .failed ?_
              have hmono : ∀ id type n m, K id type n m → K.fail job.id id type n m :=
                fun _ _ _ _ h => .inl h
              refine tame_settleJob (hmono _ _ _ _ hK) (fun _ => .inr ⟨rfl, ?_⟩)
                (ih (hrest _ hmono))
              simpa using hK

theorem only_produce {marshal : V → Except GoError String} (work : List (Business V)) :
    (produce marshal q work).Only Quiet := by
  have henqueue : ∀ (ctx : Context Unit) (tx : Option (Tx Unit)) (a : EnqueueCall V),
      (q.enqueue marshal ctx tx a).Only Quiet := by
    intro ctx tx a
    cases hraw : marshal a.payload with
    | error err =>
        rw [enqueue_error hraw]
        trivial
    | ok raw =>
        cases tx with
        | none =>
            rw [enqueue_pool hraw]
            exact ⟨trivial, fun _ => ⟨trivial, fun _ => trivial⟩⟩
        | some tx =>
            rw [enqueue_tx hraw]
            exact ⟨trivial, fun _ => ⟨trivial, fun _ => trivial⟩⟩
  have hend : ∀ (tx : Tx Unit) out, (endTx tx out : GoProg (schema U) Unit _).Only Quiet := by
    intro tx out
    rcases out with (- | err) | v
    · rw [endTx_nil]
      refine ⟨trivial, fun r => ?_⟩
      cases r <;> trivial
    · exact ⟨trivial, fun _ => trivial⟩
    · exact ⟨trivial, fun _ => trivial⟩
  induction work with
  | nil => trivial
  | cons b work ih =>
      cases b with
      | direct a => exact (henqueue _ _ a).bind fun _ => ih
      | inTx script =>
          simp only [produce, withTx_outermost () background_tx]
          refine Prog.Only.bind ?_ fun _ => ih
          refine ⟨trivial, fun r => ?_⟩
          cases r with
          | error err => trivial
          | ok tx => exact ((Prog.Only.handle (henqueue _ _) script).attempt).bind (hend tx)

end Programs

end Gkit.JobQueue
