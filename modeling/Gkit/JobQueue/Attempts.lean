import Gkit.JobQueue.Accounting
import Gkit.JobQueue.Registries

/-!
# Giving a job up

As long as every process takes only jobs it has a handler for, no job is given
up before its handler has failed as often as it may.  A process that takes a job
of another type marks it as failed at once.  Both are about the jobs of some
types: those that at least one process has a handler for, or all there are.
-/

namespace Gkit.JobQueue

open Gkit.Lib Gkit.Store

variable {U : Schema} {V ι : Type}

/-- Some process has a handler for the type. -/
def Registered (q : ι → Queue U Unit) (type : String) : Prop := ∃ c, (q c).handlers type ≠ none

/-- A server with no jobs, and its clients, each with its own registry. -/
def deploy (marshal : V → Except GoError String) (q : ι → Queue U Unit) (u : U.Data)
    (roles : ι → Role V) : Sys (schema U) Unit ι Unit :=
  ⟨World.initial fun _ => ⟨Table.empty, u⟩, fun c => (roles c).code marshal (q c)⟩

/-- A committed job of one of the types that is neither waiting nor done is dead,
and its handler has failed as often as it may. -/
def GivenUpLate (types : String → Prop) (w : World (schema U) Unit ι) : Prop :=
  ∀ row ∈ (w.committed ()).jobs.rows, types row.type →
    row.status = .pending ∨ row.status = .done ∨
      row.status = .dead ∧ row.maxAttempts ≤ (failures w.hist).count row.id

/-- A process that selects its batch in this step has a handler for every job of
one of the types that it gets. -/
def Equipped [DecidableEq ι] (types : String → Prop) (q : ι → Queue U Unit)
    (s : Sys (schema U) Unit ι Unit) : Action (schema U) ι → Prop
  | .step c e => ∀ tx n jobs w, s.prog c = taking (q c) tx n →
      s.world.exec c e (.exec tx .selectPending) = some (.ok jobs, w) →
      ∀ job ∈ jobs, types job.type → (q c).handlers job.type ≠ none
  | .crash _ => True

/-! ## The books -/

structure Booked (types : String → Prop) (q : ι → Queue U Unit)
    (s : Sys (schema U) Unit ι Unit) : Prop where
  wf : s.world.WF
  base : (s.world.base ()).jobs = Table.empty
  rows : s.world.Every (FairWrite types s.world.hist)
  tame : ∀ c, ∃ K : Ledger, K.Correct s.world.hist ∧ Tame types (q c) K (s.prog c)

section Steps

variable {types : String → Prop} {q : ι → Queue U Unit} {s s' : Sys (schema U) Unit ι Unit}

theorem booked_deploy (marshal : V → Except GoError String) (q : ι → Queue U Unit) (u : U.Data)
    (roles : ι → Role V) : Booked types q (deploy marshal q u roles) where
  wf := World.WF.initial _
  base := rfl
  rows := World.every_initial _ _
  tame := fun c => by
    refine ⟨fun _ _ _ _ => False, fun _ _ _ _ h => h.elim, ?_⟩
    change Tame types (q c) _ ((roles c).code marshal (q c))
    cases roles c with
    | worker ticks => exact .polling _ ticks
    | producer work => exact tame_of_only (only_produce work)

theorem Booked.givenUpLate (h : Booked types q s) : GivenUpLate types s.world := by
  intro row hrow htype
  have hfair : Fair types s.world.hist row := by
    refine fair_of_mem (h.rows.wal ()) ?_ hrow
    rw [h.base]
    exact fun _ hmem => nomatch hmem
  rcases hfair.status with hdone | ⟨hpending, -⟩ | hdead | ⟨-, hout⟩
  · exact .inr (.inl hdone)
  · exact .inl hpending
  · exact .inr (.inr hdead)
  · exact absurd htype hout

/-- What the statements of the package write. -/
theorem writes_fair {w : World (schema U) Unit ι} (hbase : (w.base ()).jobs = Table.empty)
    {K : Ledger} (hK : K.Correct w.hist) {c : ι} {o : Op (schema U) Unit} (r : o.Res)
    {st : Stmt U} (hst : o.statement = some st)
    (hcovers : ∀ u id, st = .updateJob u id → K.Covers types id u) :
    World.Writes (FairWrite types (w.hist ++ [⟨c, o, r⟩])) w st := by
  intro m locked us d ret ws ks hserial hus hrun u hu
  have hrun' : st.run m (us.foldl Tables.apply (w.base d)) locked = .done ret ws ks := hrun
  cases st with
  | insertJob type payload maxAttempts runAt =>
      simp only [Stmt.run] at hrun'
      split_ifs at hrun'
      cases hrun'
      obtain rfl := List.mem_singleton.mp hu
      refine ⟨le_rfl, ?_, .inr (.inl ⟨rfl, Int.natCast_nonneg _⟩)⟩
      simp [ordered, hserial, hst, Stmt.order]
  | selectPending =>
      cases hrun'
      cases hu
  | updateJob v id =>
      simp only [Stmt.run] at hrun'
      split at hrun'
      · cases hrun'
        cases hu
      · rename_i row hrow
        split_ifs at hrun'
        cases hrun'
        obtain rfl := List.mem_singleton.mp hu
        obtain ⟨hmem, rfl⟩ := Table.get_eq_some.mp hrow
        have hfair : Fair types (w.hist ++ [⟨c, o, r⟩]) row := by
          refine fair_of_mem hus ?_ hmem
          rw [hbase]
          simp [Table.empty]
        exact (hK.append _).set hfair (hcovers v row.id rfl) _
  | user st =>
      obtain ⟨us', rfl⟩ := run_user_writes hrun'
      obtain ⟨v, -, rfl⟩ := List.mem_map.mp hu
      trivial

/-- A step of a process, from what becomes of its own program. -/
theorem Booked.exec [DecidableEq ι] (h : Booked types q s) {c : ι} {e : Tick (schema U)}
    {o : Op (schema U) Unit} {r : o.Res} {w : World (schema U) Unit ι}
    (hexec : s.world.exec c e o = some (r, w)) {K : Ledger} (hK : K.Correct s.world.hist)
    (hcovers : ∀ u id, o.statement = some (.updateJob u id) → K.Covers types id u)
    {p : GoProg (schema U) Unit Unit}
    (hp : ∃ K' : Ledger, K'.Correct (s.world.hist ++ [⟨c, o, r⟩]) ∧ Tame types (q c) K' p) :
    Booked types q ⟨w, Function.update s.prog c p⟩ := by
  have hhist := World.exec_hist hexec
  refine ⟨h.wf.exec hexec, ?_, ?_, fun b => ?_⟩
  · rw [World.exec_base hexec]
    exact h.base
  · rw [hhist]
    refine (h.rows.imp fun u hu => hu.append _).exec hexec fun st hst => ?_
    exact writes_fair h.base hK r hst fun u id heq => hcovers u id (heq ▸ hst)
  · rw [hhist]
    by_cases hb : b = c
    · subst hb
      simpa using hp
    · obtain ⟨K', hK', ht⟩ := h.tame b
      exact ⟨K', hK'.append _, by simpa [Function.update_of_ne hb] using ht⟩

theorem taking_eq (q : Queue U Unit) (tx : Tx Unit) (n : ℕ) :
    ∃ k, taking q tx n = .op (.exec tx .selectPending) k ∧
      (∀ err, k (.error err) = .op (.rollback tx) fun _ => q.workerLoop .background n) ∧
      ∀ jobs : List Job, k (.ok jobs) =
        Phase.finish q tx n (q.executeJobs (contextWithTx .background tx) tx jobs) := by
  simp only [taking, batchTx_eq]
  exact ⟨_, rfl, fun _ => rfl, fun _ => rfl⟩

theorem polling_eq (q : Queue U Unit) (n : ℕ) :
    ∃ k, q.workerLoop .background (n + 1) = .op (.begin ()) k ∧
      (∀ err, k (.error err) = q.workerLoop .background n) ∧ ∀ tx, k (.ok tx) = taking q tx n := by
  simp only [Queue.workerLoop, Queue.processBatch, withTx_outermost q.db background_tx]
  exact ⟨_, rfl, fun _ => rfl, fun _ => rfl⟩

/-- What a selection reads, and what it does to the transaction. -/
theorem exec_select {w w' : World (schema U) Unit ι} {c : ι} {e : Tick (schema U)} {tx : Tx Unit}
    {jobs : List Job} (h : w.exec c e (.exec tx .selectPending) = some (.ok jobs, w')) :
    ∃ x y rows locked, w.txs tx.id = some x ∧ jobs = rows.map JobRow.job ∧
      rows = pick x.started.clock e.env.rank (w.view x).jobs locked ∧
      w'.txs tx.id = some y ∧ y.aborted = false ∧ w'.view y = w.view x ∧
      y.locks = x.locks ++ rows.map fun r => .job r.id := by
  cases hx : w.txs tx.id with
  | none =>
      obtain ⟨w₁, hp, -⟩ := World.exec_eq_some.mp h
      simp [World.perform, World.execTx, hx] at hp
  | some x =>
      rcases World.exec_exec_inv h hx with ⟨err, b, -, hr, -⟩ | ⟨ret, ws, ks, ha, -, hrun, hr, hw⟩
      · cases hr
      · cases hr
        cases hrun
        have htxs := congrArg (fun v => v.txs tx.id) hw
        exact ⟨x, _, _, _, rfl, rfl, rfl, htxs.trans (Function.update_self ..), ha,
          by simp [World.view, hw], rfl⟩

theorem Booked.selected (h : Booked types q s) {c : ι} {e : Tick (schema U)} {tx : Tx Unit}
    {jobs : List Job} {w : World (schema U) Unit ι}
    (hexec : s.world.exec c e (.exec tx .selectPending) = some (.ok jobs, w)) {job : Job}
    (hjob : job ∈ jobs) :
    Spent s.world.hist job.id job.type job.attempts job.maxAttempts := by
  obtain ⟨x, -, rows, locked, hx, rfl, rfl, -⟩ := exec_select hexec
  obtain ⟨row, hrow, rfl⟩ := List.mem_map.mp hjob
  obtain ⟨hmem, hpending, -⟩ := mem_pick hrow
  have hfair : Fair types s.world.hist row := by
    obtain ⟨us, hus, hview⟩ := h.rows.view hx
    rw [hview] at hmem
    refine fair_of_mem hus ?_ hmem
    rw [h.base]
    exact fun _ hmem => nomatch hmem
  refine ⟨hfair.nonneg, ?_, hfair.ordered⟩
  rcases hfair.status with hdone | ⟨-, hle⟩ | ⟨hdead, -⟩ | ⟨hfailed, -⟩
  · simp [hpending] at hdone
  · exact hle
  · simp [hpending] at hdead
  · simp [hpending] at hfailed

theorem Booked.step [DecidableEq ι] (hq : ∀ c, (q c).Modest) (h : Booked types q s)
    {x : Action (schema U) ι} (hx : Equipped types q s x) (hstep : s.step x = some s') :
    Booked types q s' := by
  cases x with
  | crash c =>
      obtain ⟨o, k, -, rfl⟩ := Sys.step_crash_eq_some hstep
      refine ⟨h.wf.drop c, h.base, h.rows.drop c, fun b => ?_⟩
      by_cases hb : b = c
      · subst hb
        exact ⟨fun _ _ _ _ => False, fun _ _ _ _ hf => hf.elim, by simpa using .panic _ _⟩
      · obtain ⟨K, hK, ht⟩ := h.tame b
        exact ⟨K, hK, by simpa [Function.update_of_ne hb] using ht⟩
  | step c e =>
      obtain ⟨o, k, r, w, hp, hexec, rfl⟩ := Sys.step_step_eq_some hstep
      obtain ⟨K, hK, ht⟩ := h.tame c
      rw [hp] at ht
      generalize hprog : (Prog.op o k : GoProg (schema U) Unit Unit) = p at ht
      cases ht with
      | ret => cases hprog
      | panic => cases hprog
      | polling _ n =>
          cases n with
          | zero => cases hprog
          | succ n =>
              obtain ⟨k', hk', herr, hok⟩ := polling_eq (q c) n
              cases hprog.trans hk'
              refine h.exec hexec hK (fun _ _ hu => nomatch hu) ⟨K, hK.append _, ?_⟩
              cases r with
              | error err => exact herr err ▸ .polling K n
              | ok tx => exact hok tx ▸ .taking K tx n
      | taking _ tx n =>
          obtain ⟨k', hk', herr, hok⟩ := taking_eq (q c) tx n
          have htaking := hp.trans hprog
          cases hprog.trans hk'
          refine h.exec hexec hK (fun _ _ hu => by cases hu) ?_
          cases r with
          | error err =>
              refine ⟨K, hK.append _, ?_⟩
              rw [herr err]
              exact .quiet (o := .rollback tx) trivial fun _ => .polling K n
          | ok jobs =>
              refine ⟨K.read jobs, ?_, ?_⟩
              · rintro id type n m (hid | ⟨job, hjob, rfl, rfl, rfl, rfl⟩)
                · exact (hK id type n m hid).append _
                · exact (h.selected hexec hjob).append _
              · rw [hok jobs]
                refine tame_executing (hq c)
                  (fun job hjob => ⟨.inr ⟨job, hjob, rfl, rfl, rfl, rfl⟩, ?_⟩) tx n
                exact hx tx n jobs w htaking hexec job hjob
      | update hu hk =>
          cases hprog
          refine h.exec hexec hK (fun u' id' heq => ?_) ⟨K, hK.append _, hk r⟩
          cases heq
          exact hu
      | failed hk =>
          cases hprog
          exact h.exec hexec hK (fun _ _ heq => nomatch heq) ⟨_, hK.fail c _ _, hk⟩
      | quiet ho hk =>
          cases hprog
          refine h.exec hexec hK (fun u id heq => ?_) ⟨K, hK.append _, hk r⟩
          simp [Quiet, heq] at ho

end Steps

/-! ## A process that goes on alone -/

/-- The transaction is open and can commit. -/
structure Holding (tx : Tx Unit) (x : TxState (schema U) Unit ι) (w : World (schema U) Unit ι) :
    Prop where
  wf : w.WF
  tx : w.txs tx.id = some x
  alive : x.aborted = false

/-- The row of the job is there, and nobody else can write it. -/
def Grips (x : TxState (schema U) Unit ι) (w : World (schema U) Unit ι) (job : Job) : Prop :=
  Key.job job.id ∈ x.locks ∧ ∃ row, (w.view x).jobs.get job.id = some row ∧ row.type = job.type

/-- The transaction has gone on, and at most the row of this job has changed. -/
structure Touched (tx : Tx Unit) (x : TxState (schema U) Unit ι) (w : World (schema U) Unit ι)
    (id : ℕ) (x' : TxState (schema U) Unit ι) (w' : World (schema U) Unit ι) : Prop where
  holding : Holding tx x' w'
  locks : x.locks ⊆ x'.locks
  others : ∀ i, i ≠ id → (w'.view x').jobs.get i = (w.view x).jobs.get i

section Alone

variable {q : Queue U Unit} {c : ι} {env : ℕ → Tick (schema U)} {tx : Tx Unit}
  {x x' : TxState (schema U) Unit ι} {w w' : World (schema U) Unit ι}

theorem Holding.record (h : Holding tx x w) (o : Op (schema U) Unit) (r : o.Res) :
    Holding tx x (w.record c o r) :=
  ⟨h.wf.of_txs rfl fun _ _ hx => hx, h.tx, h.alive⟩

theorem Grips.touched {job : Job} {id : ℕ} (h : Grips x w job) (ht : Touched tx x w id x' w')
    (hi : job.id ≠ id) : Grips x' w' job := by
  obtain ⟨hlock, row, hrow, htype⟩ := h
  exact ⟨ht.locks hlock, row, (ht.others job.id hi).trans hrow, htype⟩

theorem Holding.free (h : Holding tx x w) {id : ℕ} (hid : Key.job id ∈ x.locks) :
    w.locked x.db (some tx.id) (Key.job id : (schema U).Key) = false := by
  cases hlocked : w.locked x.db (some tx.id) (Key.job id : (schema U).Key) with
  | false => rfl
  | true =>
      obtain ⟨i, y, hy, hne, hdb, hmem⟩ := World.locked_eq_true hlocked
      exact absurd (congrArg some (h.wf.exclusive hy h.tx hdb hmem hid)) hne

theorem Holding.update (h : Holding tx x w) (c : ι) {e : Tick (schema U)} (he : e.fault = none)
    {job : Job} (hjob : Grips x w job) (u : Update) :
    ∃ w' x' row, w.exec c e (.exec tx (.updateJob u job.id)) = some (.ok (), w') ∧
      Touched tx x w job.id x' w' ∧
      (w'.view x').jobs.get job.id = some (u.set x.started.clock row) ∧ row.type = job.type := by
  obtain ⟨hlock, row, hrow, htype⟩ := hjob
  have hfree := h.free hlock
  have hrun : (Stmt.updateJob u job.id).run ⟨x.started, e.env, w.hist.length⟩ (w.view x)
      (w.locked x.db (some tx.id)) =
        .done () [.job (u.set x.started.clock row)] [.job job.id] := by
    simp [Stmt.run, hrow, hfree]
  set x' : TxState (schema U) Unit ι := { x with
    log := x.log ++ [.job (u.set x.started.clock row)], locks := x.locks ++ [.job job.id] }
  set w' := (w.setTx tx.id (some x')).record c (.exec tx (.updateJob u job.id)) (.ok ()) with hw'
  have hexec : w.exec c e (.exec tx (.updateJob u job.id)) = some (.ok (), w') := by
    simp [World.exec, World.perform, World.execTx, h.tx, h.alive, he, hrun, hw', x']
  have hjobs : (w'.view x').jobs = (w.view x).jobs.put (u.set x.started.clock row) := by
    change ((x.log ++ [Write.job _]).foldl Tables.apply (w.committed ())).jobs = _
    rw [List.foldl_append]
    rfl
  obtain ⟨-, hid⟩ := Table.get_eq_some.mp hrow
  refine ⟨w', x', row, hexec, ⟨⟨h.wf.exec hexec, by simp [hw'], h.alive⟩, ?_, ?_⟩, ?_, htype⟩
  · exact List.subset_append_left _ _
  · intro i hi
    rw [hjobs]
    exact Table.get_put_of_ne (by simpa [hid] using hi)
  · rw [hjobs, ← hid, ← Update.set_id x.started.clock row u]
    exact Table.get_put_self

theorem Touched.of_view (h : Holding tx x w') (hview : w'.view x = w.view x) (id : ℕ) :
    Touched tx x w id x w' :=
  ⟨h, List.Subset.refl _, fun i _ => by rw [hview]⟩

theorem Touched.trans {id : ℕ} {x'' : TxState (schema U) Unit ι} {w'' : World (schema U) Unit ι}
    (h : Touched tx x w id x' w') (h' : Touched tx x' w' id x'' w'') :
    Touched tx x w id x'' w'' :=
  ⟨h'.holding, List.Subset.trans h.locks h'.locks,
    fun i hi => by rw [h'.others i hi, h.others i hi]⟩

/-- One statement that updates a job, with nothing after it. -/
theorem solo_update_held (henv : ∀ n, (env n).fault = none) (c : ι) (h : Holding tx x w)
    {job : Job} (hjob : Grips x w job) (u : Update) :
    ∃ w' x' row, (.op (.exec tx (.updateJob u job.id)) fun _ => .ret () :
        GoProg (schema U) Unit Unit).solo c env w = some (.ret (), w') ∧
      Touched tx x w job.id x' w' ∧
      (w'.view x').jobs.get job.id = some (u.set x.started.clock row) ∧ row.type = job.type := by
  obtain ⟨w', x', row, hexec, ht, hrow⟩ := h.update c (henv w.hist.length) hjob u
  exact ⟨w', x', row, by rw [Prog.solo_op, hexec]; rfl, ht, hrow⟩

theorem solo_settleJob_held (henv : ∀ n, (env n).fault = none) (c : ι) (h : Holding tx x w)
    {job : Job} (hjob : Grips x w job) (hpos : 0 ≤ job.attempts) (err : Option GoError) :
    ∃ w' x', (settleJob tx job err).solo c env w = some (.ret (), w') ∧
      Touched tx x w job.id x' w' := by
  by_cases hfinal : err = none ∨ job.attempts + 1 ≥ job.maxAttempts
  · rw [settleJob_final hfinal tx 0]
    obtain ⟨w', x', -, hsolo, ht, -⟩ := solo_update_held henv c h hjob (settling job 0 err)
    exact ⟨w', x', hsolo, ht⟩
  · obtain ⟨hne, hlt⟩ := not_or.mp hfinal
    obtain ⟨err, rfl⟩ := Option.ne_none_iff_exists'.mp hne
    rw [settleJob_retry (not_le.mp hlt) hpos]
    set now := (env w.hist.length).env.clock
    have hjob' : Grips x (w.record c (.ext .now) now) job := hjob
    obtain ⟨w', x', -, hsolo, ht, -⟩ := solo_update_held henv c (h.record (.ext .now) now) hjob'
      (settling job now (some err))
    exact ⟨w', x', hsolo, ht.holding, ht.locks, ht.others⟩

/-- The handlers of the process keep away from the database. -/
def Queue.Aloof (q : Queue U Unit) : Prop :=
  ∀ type h, q.handlers type = some h → ∀ ctx payload, (h ctx payload).Plain OutsideOp

theorem solo_handler_held (hq : q.Aloof) (c : ι) (env : ℕ → Tick (schema U)) {type : String}
    {h : Handler U Unit} (hh : q.handlers type = some h) (ctx : Context Unit) (payload : String)
    (hx : Holding tx x w) :
    ∃ err w', (h ctx payload).solo c env w = some (.ret err, w') ∧ Holding tx x w' ∧
      w'.view x = w.view x := by
  refine (hq type h hh ctx payload).solo c env (I := fun w' => Holding tx x w' ∧
    w'.view x = w.view x) (fun o w' ho hw' => ?_) ⟨hx, rfl⟩
  obtain ⟨a, rfl, -⟩ := ho.eq_ext
  exact ⟨_, _, rfl, hw'.1.record _ _, hw'.2⟩

/-- One job of a batch: its row is written or it is marked as failed. -/
theorem solo_executeJob_held (hq : q.Aloof) (henv : ∀ n, (env n).fault = none) (c : ι)
    (ctx : Context Unit) (hx : Holding tx x w) {job : Job} (hjob : Grips x w job)
    (hpos : 0 ≤ job.attempts) :
    ∃ w' x', (q.executeJob ctx tx job).solo c env w = some (.ret (), w') ∧
      Touched tx x w job.id x' w' ∧ (q.handlers job.type = none →
        ∃ row, (w'.view x').jobs.get job.id = some row ∧ row.status = .failed ∧
          row.type = job.type) := by
  cases hh : q.handlers job.type with
  | none =>
      obtain ⟨w', x', row, hsolo, ht, hrow, htype⟩ := solo_update_held henv c hx hjob
        (.failed ("no handler for type " ++ quote job.type))
      exact ⟨w', x', executeJob_none hh ctx tx ▸ hsolo, ht, fun _ => ⟨_, hrow, rfl, htype⟩⟩
  | some h =>
      obtain ⟨err, w₁, hhandler, hx₁, hview⟩ := solo_handler_held hq c env hh ctx job.payload
        (hx.record (c := c) (.ext (.invoked job.id)) ())
      set w₂ := w₁.record c (.ext (.returned job.id err)) ()
      have hview₂ : w₂.view x = w.view x := hview
      have hjob₂ : Grips x w₂ job := by
        rw [Grips, hview₂]
        exact hjob
      obtain ⟨w', x', hsettle, ht⟩ := solo_settleJob_held henv c
        (hx₁.record (.ext (.returned job.id err)) ()) hjob₂ hpos err
      refine ⟨w', x', ?_, (Touched.of_view (hx₁.record _ _) hview₂ job.id).trans ht, by simp⟩
      rw [executeJob_eq hh, Prog.solo_op]
      change (h ctx job.payload >>= _).solo c env (w.record c (.ext (.invoked job.id)) ()) = _
      rw [Prog.solo_bind, hhandler]
      exact hsettle

/-- The jobs of a batch: those without a handler end up as failed. -/
theorem solo_executeJobs_held (hq : q.Aloof) (henv : ∀ n, (env n).fault = none) (c : ι)
    (ctx : Context Unit) {jobs : List Job} (hx : Holding tx x w)
    (hjobs : ∀ job ∈ jobs, Grips x w job ∧ 0 ≤ job.attempts)
    (hnodup : (jobs.map Job.id).Nodup) :
    ∃ w' x', (q.executeJobs ctx tx jobs).solo c env w = some (.ret (), w') ∧ Holding tx x' w' ∧
      (∀ i, i ∉ jobs.map Job.id → (w'.view x').jobs.get i = (w.view x).jobs.get i) ∧
      ∀ job ∈ jobs, q.handlers job.type = none →
        ∃ row, (w'.view x').jobs.get job.id = some row ∧ row.status = .failed ∧
          row.type = job.type := by
  induction jobs generalizing x w with
  | nil => exact ⟨w, x, rfl, hx, fun _ _ => rfl, fun _ hjob => nomatch hjob⟩
  | cons job jobs ih =>
      obtain ⟨hid, hpos⟩ := hjobs job List.mem_cons_self
      obtain ⟨hnot, hnodup⟩ := List.nodup_cons.mp hnodup
      obtain ⟨w₁, x₁, hsolo, ht, hfailed⟩ := solo_executeJob_held hq henv c ctx hx hid hpos
      have hjobs₁ : ∀ job ∈ jobs, Grips x₁ w₁ job ∧ 0 ≤ job.attempts := by
        intro job' hjob'
        obtain ⟨hid', hpos'⟩ := hjobs job' (List.mem_cons_of_mem _ hjob')
        exact ⟨hid'.touched ht fun heq => hnot (heq ▸ List.mem_map_of_mem hjob'), hpos'⟩
      obtain ⟨w', x', hrest, hx', hothers, hall⟩ := ih ht.holding hjobs₁ hnodup
      refine ⟨w', x', ?_, hx', fun i hi => ?_, fun job' hjob' hnone => ?_⟩
      · change (q.executeJob ctx tx job >>= fun _ => q.executeJobs ctx tx jobs).solo c env w = _
        rw [Prog.solo_bind, hsolo]
        exact hrest
      · rw [List.map_cons, List.mem_cons, not_or] at hi
        rw [hothers i hi.2, ht.others i hi.1]
      · rcases List.mem_cons.mp hjob' with rfl | hjob'
        · obtain ⟨row, hrow, hstatus⟩ := hfailed hnone
          exact ⟨row, (hothers _ hnot).trans hrow, hstatus⟩
        · exact hall job' hjob' hnone

/-- The rest of a batch, up to its commit. -/
theorem solo_batch_held (hq : q.Aloof) (henv : ∀ n, (env n).fault = none) (c : ι)
    {jobs : List Job} (hx : Holding tx x w)
    (hjobs : ∀ job ∈ jobs, Grips x w job ∧ 0 ≤ job.attempts)
    (hnodup : (jobs.map Job.id).Nodup) :
    ∃ w', ((q.executeJobs (contextWithTx .background tx) tx jobs >>= fun _ =>
          .ret none).attempt >>= endTx tx).solo c env w = some (.ret none, w') ∧
      ∀ job ∈ jobs, q.handlers job.type = none →
        ∃ row, (w'.committed ()).jobs.get job.id = some row ∧ row.status = .failed ∧
          row.type = job.type := by
  obtain ⟨w₁, x₁, hsolo, hx₁, -, hall⟩ :=
    solo_executeJobs_held hq henv c (contextWithTx .background tx) hx hjobs hnodup
  have hcommit : w₁.exec c (env w₁.hist.length) (.commit tx) =
      some (.ok (), (w₁.settle tx.id x₁).record c (.commit tx) (.ok ())) := by
    simp [World.exec, World.perform, World.commitTx, hx₁.tx, hx₁.alive, henv]
  refine ⟨(w₁.settle tx.id x₁).record c (.commit tx) (.ok ()), ?_, fun job hjob hnone => ?_⟩
  · rw [Prog.solo_bind, Prog.solo_attempt, Prog.solo_bind, hsolo]
    change (endTx tx (.ret none)).solo c env w₁ = _
    rw [endTx_nil, Prog.solo_op, hcommit]
    rfl
  · have hcom : ((w₁.settle tx.id x₁).record c (.commit tx) (.ok ())).committed () =
        w₁.view x₁ := World.committed_settle w₁ tx.id x₁
    rw [hcom]
    exact hall job hjob hnone

end Alone

/-- What a process that is not equipped for its batch does next. -/
theorem Booked.marks_failed [DecidableEq ι] {types : String → Prop} {q : ι → Queue U Unit}
    {s : Sys (schema U) Unit ι Unit} (h : Booked types q s) {c : ι} (hq : (q c).Aloof)
    {e : Tick (schema U)} (hx : ¬Equipped types q s (.step c e)) :
    ∃ ys s', run Sys.step s (.step c e :: ys) = some s' ∧ ¬GivenUpLate types s'.world := by
  simp only [Equipped, not_forall] at hx
  obtain ⟨tx, n, jobs, w, hprog, hexec, job, hjob, htype, hnone⟩ := hx
  obtain ⟨k, hk, -, hok⟩ := taking_eq (q c) tx n
  obtain ⟨x, y, rows, locked, htx, rfl, hrows, hy, halive, hview, hlocks⟩ := exec_select hexec
  have hholding : Holding tx y w := ⟨h.wf.exec hexec, hy, halive⟩
  have hgrips : ∀ job ∈ rows.map JobRow.job, Grips y w job ∧ 0 ≤ job.attempts := by
    intro job hjob
    refine ⟨?_, (h.selected hexec hjob).nonneg⟩
    obtain ⟨row, hrow, rfl⟩ := List.mem_map.mp hjob
    refine ⟨hlocks ▸ List.mem_append_right _ (List.mem_map_of_mem hrow), row, ?_, rfl⟩
    rw [hview]
    exact Table.get_eq_some.mpr ⟨(mem_pick (hrows ▸ hrow)).1, rfl⟩
  have hnodup : ((rows.map JobRow.job).map Job.id).Nodup := by
    rw [List.map_map]
    exact hrows ▸ nodup_pick _ _ _ _
  have henv : ∀ n : ℕ, ((fun _ => ⟨e.env, none⟩ : ℕ → Tick (schema U)) n).fault = none :=
    fun _ => rfl
  obtain ⟨w', hsolo, hfailed⟩ := solo_batch_held hq henv c hholding hgrips hnodup
  obtain ⟨ys, hys⟩ := Sys.run_of_solo (f := fun _ => (q c).workerLoop .background n) hsolo s.prog
  have hrun : run Sys.step s (.step c e :: ys) =
      some ⟨w', Function.update s.prog c ((q c).workerLoop .background n)⟩ := by
    refine run_cons_eq_some.mpr ⟨_, Sys.step_eq (hprog.trans hk) hexec, ?_⟩
    rw [hok]
    exact hys
  refine ⟨ys, _, hrun, ?_⟩
  intro hlate
  obtain ⟨row, hrow, hstatus, hsame⟩ := hfailed job hjob (not_not.mp hnone)
  rcases hlate row (Table.get_eq_some.mp hrow).1 (hsame ▸ htype) with hs | hs | ⟨hs, -⟩ <;>
    simp [hstatus] at hs

/-- In every run in which the processes take, of the jobs of these types, only those
that they have handlers for, none of them is given up early.  A process that takes
another one, and whose handlers keep away from the database, marks it as failed
when its batch goes on.  With `Registered q` for the types this is about the jobs
that at least one process has a handler for. -/
theorem given_up_after_attempts [DecidableEq ι] (marshal : V → Except GoError String)
    (types : String → Prop) {q : ι → Queue U Unit} (hq : ∀ c, (q c).Modest) (u : U.Data)
    (roles : ι → Role V) {xs : List (Action (schema U) ι)} {s : Sys (schema U) Unit ι Unit}
    (hxs : Along Sys.step (Equipped types q) (deploy marshal q u roles) xs)
    (h : run Sys.step (deploy marshal q u roles) xs = some s) :
    GivenUpLate types s.world ∧
      ∀ c e, (q c).Aloof → ¬Equipped types q s (.step c e) →
        ∃ ys s', run Sys.step s (.step c e :: ys) = some s' ∧ ¬GivenUpLate types s'.world := by
  have hbooked : Booked types q s := run_invariant (P := Booked types q)
    (fun _ _ _ hs hx hstep => hs.step hq hx hstep) (booked_deploy marshal q u roles) hxs h
  exact ⟨hbooked.givenUpLate, fun c e haloof hx => hbooked.marks_failed haloof hx⟩

/-! ## A rolling deployment -/

/-- The last process has no handlers yet, and nobody has one for "audit". -/
def rollout : Fin 3 → Queue notes Unit
  | 2 => new ()
  | _ => ⟨(), fun type =>
      if type = "mail" then some fun _ _ => .op (.ext (.ask type)) .ret else none⟩

def rolloutRoles : Fin 3 → Role String
  | 0 => .producer [.direct ⟨"mail", "null", [withMaxAttempts 2]⟩, .direct ⟨"audit", "null", []⟩]
  | _ => .worker 2

/-- The producer enqueues a job, and the process without a handler is the first
to poll. -/
def unequippedSteps : List (Action (schema notes) (Fin 3)) :=
  ([0, 0, 2, 2, 2, 2] : List (Fin 3)).map fun c => .step c ⟨⟨10, id, none, ()⟩, none⟩

theorem unequipped_gives_up :
    ∃ s, run Sys.step (deploy (.ok ·) rollout [] rolloutRoles) unequippedSteps = some s ∧
      ((rollout 1).handlers "mail").isSome ∧ invocations s.world.hist = [] ∧
      ¬GivenUpLate (Registered rollout) s.world := by
  have hrun : (run Sys.step (deploy (.ok ·) rollout [] rolloutRoles) unequippedSteps).map
      (fun s => (invocations s.world.hist,
        (s.world.committed ()).jobs.rows.map fun row => (row.type, row.status))) =
        some ([], [("mail", .failed)]) := by
    decide
  obtain ⟨s, hs, hends⟩ := Option.map_eq_some_iff.mp hrun
  obtain ⟨hcalls, hstatus⟩ := Prod.mk.inj hends
  refine ⟨s, hs, rfl, hcalls, fun hlate => ?_⟩
  have hmem : ("mail", Status.failed) ∈
      (s.world.committed ()).jobs.rows.map fun row => (row.type, row.status) := by
    rw [hstatus]
    exact List.mem_singleton_self _
  obtain ⟨row, hrow, hpair⟩ := List.mem_map.mp hmem
  obtain ⟨htype, hfailed⟩ := Prod.mk.inj hpair
  have hregistered : Registered rollout row.type := htype ▸ ⟨1, by simp [rollout]⟩
  rcases hlate row hrow hregistered with h | h | ⟨h, -⟩ <;> simp [hfailed] at h

/-- The process with a handler runs the job twice, an hour apart, and marks the
other job as failed.  The process without handlers has crashed. -/
def equippedSteps : List (Action (schema notes) (Fin 3)) :=
  .crash 2 :: ([0, 0, 0, 0, 1, 1, 1, 1, 1, 1, 1, 1, 1] : List (Fin 3)).map (fun c =>
      .step c ⟨⟨10, id, some errDivision, ()⟩, none⟩) ++
    List.replicate 7 (.step 1 ⟨⟨hour, id, some errDivision, ()⟩, none⟩)

theorem equipped_gives_up_late :
    ∃ s, run Sys.step (deploy (.ok ·) rollout [] rolloutRoles) equippedSteps = some s ∧
      (s.world.committed ()).jobs.rows.map (fun row => (row.type, row.status)) =
        [("audit", .failed), ("mail", .dead)] ∧
      GivenUpLate (Registered rollout) s.world := by
  have hmail : ∀ c type, (rollout c).handlers type ≠ none → type = "mail" := by
    intro c type h
    fin_cases c
    · exact (Option.ite_none_right_eq_some.mp (Option.ne_none_iff_exists'.mp h).choose_spec).1
    · exact (Option.ite_none_right_eq_some.mp (Option.ne_none_iff_exists'.mp h).choose_spec).1
    · exact absurd rfl h
  have hmodest : ∀ c, (rollout c).Modest := by
    intro c type h hh ctx payload
    obtain rfl := hmail c type (by simp [hh])
    fin_cases c
    · cases hh
      exact ⟨⟨trivial, rfl⟩, fun _ => trivial⟩
    · cases hh
      exact ⟨⟨trivial, rfl⟩, fun _ => trivial⟩
    · cases hh
  have hequipped : ∀ x ∈ equippedSteps, ∀ s, Equipped (Registered rollout) rollout s x := by
    intro x hx s
    have hfirst : x = .crash 2 ∨ ∃ c e, c ≠ 2 ∧ x = .step c e := by
      simp [equippedSteps] at hx
      aesop
    rcases hfirst with rfl | ⟨c, e, hc, rfl⟩
    · trivial
    · rintro tx n jobs w - - job - ⟨b, hb⟩
      rw [hmail b job.type hb]
      fin_cases c
      · exact Option.some_ne_none _
      · exact Option.some_ne_none _
      · exact absurd rfl hc
  have hrun : (run Sys.step (deploy (.ok ·) rollout [] rolloutRoles) equippedSteps).map
      (fun s => (s.world.committed ()).jobs.rows.map fun row => (row.type, row.status)) =
        some [("audit", .failed), ("mail", .dead)] := by
    decide
  obtain ⟨s, hs, hstatus⟩ := Option.map_eq_some_iff.mp hrun
  exact ⟨s, hs, hstatus, (given_up_after_attempts (.ok ·) (Registered rollout) hmodest []
    rolloutRoles (along_of_forall hequipped) hs).1⟩

end Gkit.JobQueue
