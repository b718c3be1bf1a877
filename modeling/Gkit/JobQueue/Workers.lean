import Gkit.JobQueue.Clients
import Gkit.Lib.Rows

/-!
# Workers and producers side by side

Any number of clients take their steps in any order, and a client may crash
between two steps.  What holds throughout concerns the committed rows; what a
client knows while its transaction is open concerns the rows it has locked, in
the version it is going to commit.  Nobody else can change either.

With `strict` the outline describes the runs without crashes, in which the
history says how often each handler was called.
-/

namespace Gkit.JobQueue

open Gkit.Lib Gkit.Store

variable {U : Schema} {V δ ι : Type}

/-! ## Tallies -/

/-- The jobs whose handlers returned nil. -/
def successes (es : List (Entry (schema U) δ ι)) : List ℕ :=
  (returns es).filterMap fun p => if p.2.isNone then some p.1 else none

/-- How often the handler of a job was called and how often it returned nil. -/
def Tally (hist : List (Entry (schema U) δ ι)) (id : ℕ) (calls : ℤ) (good : ℕ) : Prop :=
  ((invocations hist).count id : ℤ) = calls ∧ (successes hist).count id = good

/-- The job that an operation is a note about. -/
def jobOf : Op (schema U) δ → Option ℕ
  | .ext (.invoked id) => some id
  | .ext (.returned id _) => some id
  | _ => none

@[simp] theorem successes_append (es es' : List (Entry (schema U) δ ι)) :
    successes (es ++ es') = successes es ++ successes es' := by
  simp [successes]

theorem tally_other {hist : List (Entry (schema U) δ ι)} {c : ι} {o : Op (schema U) δ} {r : o.Res}
    {id : ℕ} (h : jobOf o ≠ some id) {calls : ℤ} {good : ℕ} :
    Tally (hist ++ [⟨c, o, r⟩]) id calls good ↔ Tally hist id calls good := by
  have hcount : (invocations [(⟨c, o, r⟩ : Entry (schema U) δ ι)]).count id = 0 ∧
      (successes [(⟨c, o, r⟩ : Entry (schema U) δ ι)]).count id = 0 := by
    cases o with
    | begin | exec | pool | commit | rollback | observe => exact ⟨rfl, rfl⟩
    | ext a =>
        cases a with
        | now | ask => exact ⟨rfl, rfl⟩
        | invoked id' =>
            have hne : id' ≠ id := by simpa [jobOf] using h
            exact ⟨by simp [invocations, hne], rfl⟩
        | returned id' err =>
            have hne : id' ≠ id := by simpa [jobOf] using h
            refine ⟨rfl, ?_⟩
            cases err <;> simp [successes, returns, hne]
  simp [Tally, hcount]

theorem Tally.invoked {hist : List (Entry (schema U) δ ι)} {id : ℕ} {calls : ℤ} {good : ℕ}
    (h : Tally hist id calls good) (c : ι) :
    Tally (hist ++ [⟨c, .ext (.invoked id), ()⟩]) id (calls + 1) good := by
  have hinv : invocations [(⟨c, .ext (.invoked id), ()⟩ : Entry (schema U) δ ι)] = [id] := rfl
  have hsuc : successes [(⟨c, .ext (.invoked id), ()⟩ : Entry (schema U) δ ι)] = [] := rfl
  refine ⟨?_, ?_⟩
  · simp [hinv, ← h.1]
  · simp [hsuc, h.2]

theorem Tally.returned {hist : List (Entry (schema U) δ ι)} {id : ℕ} {calls : ℤ}
    (h : Tally hist id calls 0) (c : ι) (err : Option GoError) :
    Tally (hist ++ [⟨c, .ext (.returned id err), ()⟩]) id calls (if err = none then 1 else 0) := by
  have hinv : invocations [(⟨c, .ext (.returned id err), ()⟩ : Entry (schema U) δ ι)] = [] := rfl
  refine ⟨?_, ?_⟩
  · simp [hinv, h.1]
  · rw [successes_append, List.count_append, h.2]
    cases err <;> simp [successes, returns]

/-- The job whose handler a client is running. -/
def inHandler [DecidableEq ι] (c : ι) (hist : List (Entry (schema U) δ ι)) : Option ℕ :=
  (hist.filter fun en => en.client = c).foldl (fun cur en =>
    match en.op with
    | .ext (.invoked id) => some id
    | .ext (.returned ..) => none
    | _ => cur) none

theorem inHandler_other [DecidableEq ι] {hist : List (Entry (schema U) δ ι)} {c : ι}
    {o : Op (schema U) δ} {r : o.Res} (h : jobOf o = none) :
    inHandler c (hist ++ [⟨c, o, r⟩]) = inHandler c hist := by
  cases o with
  | begin | exec | pool | commit | rollback | observe => simp [inHandler]
  | ext a =>
      cases a with
      | now | ask => simp [inHandler]
      | invoked | returned => simp [jobOf] at h

@[simp] theorem inHandler_invoked [DecidableEq ι] (hist : List (Entry (schema U) δ ι)) (c : ι)
    (id : ℕ) : inHandler c (hist ++ [⟨c, .ext (.invoked id), ()⟩]) = some id := by
  simp [inHandler]

@[simp] theorem inHandler_returned [DecidableEq ι] (hist : List (Entry (schema U) δ ι)) (c : ι)
    (id : ℕ) (err : Option GoError) :
    inHandler c (hist ++ [⟨c, .ext (.returned id err), ()⟩]) = none := by
  simp [inHandler]

/-! ## Rows -/

/-- The states a committed job can be in. -/
def Lawful (row : JobRow) : Prop :=
  row.status = .pending ∧ 0 ≤ row.attempts ∧ row.attempts < row.maxAttempts ∨
    row.status = .done ∧ 1 ≤ row.attempts ∧ row.attempts ≤ row.maxAttempts ∨
    row.status = .dead ∧ row.attempts = row.maxAttempts

instance : DecidablePred Lawful := fun _ => inferInstanceAs (Decidable (_ ∨ _ ∨ _))

theorem Lawful.of_pending {row : JobRow} (h : Lawful row) (hpend : row.status = .pending) :
    0 ≤ row.attempts ∧ row.attempts < row.maxAttempts := by
  rcases h with ⟨-, hrange⟩ | ⟨hdone, -⟩ | ⟨hdead, -⟩
  · exact hrange
  · simp [hpend] at hdone
  · simp [hpend] at hdead

/-- The row says how often its handler was called, and whether it succeeded. -/
def Counted (hist : List (Entry (schema U) δ ι)) (row : JobRow) : Prop :=
  Tally hist row.id row.attempts (if row.status = .done then 1 else 0)

/-- The history is at most one call ahead of the row. -/
def Near (hist : List (Entry (schema U) δ ι)) (row : JobRow) : Prop :=
  ∃ calls good, Tally hist row.id calls good ∧ row.attempts ≤ calls ∧ calls ≤ row.attempts + 1 ∧
    good ≤ 1

theorem Counted.near {hist : List (Entry (schema U) δ ι)} {row : JobRow} (h : Counted hist row) :
    Near hist row :=
  ⟨_, _, h, le_rfl, by omega, by split_ifs <;> omega⟩

theorem Near.other {hist : List (Entry (schema U) δ ι)} {row : JobRow} (h : Near hist row) {c : ι}
    {o : Op (schema U) δ} {r : o.Res} (ho : jobOf o ≠ some row.id) :
    Near (hist ++ [⟨c, o, r⟩]) row := by
  obtain ⟨calls, good, ht, hrest⟩ := h
  exact ⟨calls, good, (tally_other ho).mpr ht, hrest⟩

def jobRows (U : Schema) : Rows (schema U) ℕ JobRow where
  key := .job
  get := fun d id => d.jobs.get id
  get_apply := by
    intro d u id h
    cases u with
    | job row =>
        refine Table.get_put_of_ne fun heq => h ?_
        rw [heq]
        rfl
    | user u => rfl
  get_congr := by
    intro d d' id u h
    cases u with
    | job row => simp only [Tables.apply, Table.get_put, h]
    | user u => exact h

theorem lawful_settling {row : JobRow} (hrow : Lawful row) (hpend : row.status = .pending)
    (now stamp : ℤ) (err : Option GoError) :
    Lawful ((settling row.job now err).set stamp row) := by
  obtain ⟨hpos, hlt⟩ := hrow.of_pending hpend
  cases err with
  | none => exact .inr (.inl ⟨rfl, by simp [settling, JobRow.job, Update.set]; omega,
      by simp [settling, JobRow.job, Update.set]; omega⟩)
  | some err =>
      by_cases hmax : row.job.attempts + 1 ≥ row.job.maxAttempts
      · rw [settling, if_pos hmax]
        exact .inr (.inr ⟨rfl, le_antisymm (Int.add_one_le_iff.mpr hlt) hmax⟩)
      · rw [settling, if_neg hmax]
        exact .inl ⟨rfl, by simp [JobRow.job, Update.set]; omega, not_le.mp hmax⟩

theorem counted_settling {hist : List (Entry (schema U) δ ι)} {row : JobRow} {err : Option GoError}
    (h : Tally hist row.id (row.attempts + 1) (if err = none then 1 else 0)) (now stamp : ℤ) :
    Counted hist ((settling row.job now err).set stamp row) := by
  have hstand := standing_set_settling row now stamp err
  have hattempts : ((settling row.job now err).set stamp row).attempts = row.attempts + 1 := by
    have := congrArg (fun p => p.2.1) hstand
    cases err <;> simpa [JobRow.standing, attempted] using this
  have hdone : ((settling row.job now err).set stamp row).status = .done ↔ err = none := by
    have hstatus := congrArg Prod.fst hstand
    cases err with
    | none => simpa [JobRow.standing, attempted] using hstatus
    | some err =>
        simp only [JobRow.standing, attempted] at hstatus
        rw [hstatus]
        split_ifs <;> simp
  rw [Counted, Update.set_id, hattempts]
  simpa only [hdone] using h

/-! ## Assertions -/

/-- The transaction of the client is open and can commit. -/
structure Opened (c : ι) (tx : Tx Unit) (x : TxState (schema U) Unit ι)
    (w : World (schema U) Unit ι) : Prop where
  tx : w.txs tx.id = some x
  owner : x.owner = c
  alive : x.aborted = false

/-- The job is locked and still as the worker has read it. -/
def Picked (x : TxState (schema U) Unit ι) (w : World (schema U) Unit ι) (job : Job) : Prop :=
  Key.job job.id ∈ x.locks ∧ ∃ row, (w.committed ()).jobs.get job.id = some row ∧
    (w.view x).jobs.get job.id = some row ∧ row.status = .pending ∧ row.job = job

/-- The rows a client has locked: the committed versions are pending, and the
versions it is going to commit are lawful.  The jobs are still to be worked on;
`skip` is the one in progress. -/
structure Working (strict : Prop) (c : ι) (tx : Tx Unit) (jobs : List Job) (skip : Option ℕ)
    (x : TxState (schema U) Unit ι) (w : World (schema U) Unit ι) : Prop
    extends Opened c tx x w where
  pending : ∀ {id row}, Key.job id ∈ x.locks → (w.committed ()).jobs.get id = some row →
    row.status = .pending
  lawful : ∀ {id row}, Key.job id ∈ x.locks → (w.view x).jobs.get id = some row → Lawful row
  counted : strict → ∀ {id row}, Key.job id ∈ x.locks → some id ≠ skip →
    (w.view x).jobs.get id = some row → Counted w.hist row
  picked : ∀ job ∈ jobs, Picked x w job
  nodup : (jobs.map Job.id).Nodup

/-- All rows the transaction has locked are ones it has inserted. -/
def Fresh (x : TxState (schema U) Unit ι) (w : World (schema U) Unit ι) : Prop :=
  ∀ id, Key.job id ∈ x.locks → (w.committed ()).jobs.get id = none

/-- The call asks for at least one attempt. -/
def EnqueueCall.Sane (a : EnqueueCall V) : Prop := 1 ≤ a.options.maxAttempts

def Business.Sane : Business V → Prop
  | .direct a => a.Sane
  | .inTx script => script.Plain EnqueueCall.Sane

/-- Operations that do not concern the database. -/
def OutsideOp : Op (schema U) δ → Prop
  | .ext .now => True
  | .ext (.ask _) => True
  | _ => False

theorem OutsideOp.eq_ext {o : Op (schema U) δ} (h : OutsideOp o) :
    ∃ a, o = .ext a ∧ jobOf (.ext a : Op (schema U) δ) = none := by
  cases o with
  | begin | exec | pool | commit | rollback | observe => exact h.elim
  | ext a =>
      cases a with
      | now | ask => exact ⟨_, rfl, rfl⟩
      | invoked | returned => exact h.elim

/-- The queue has a handler for every type, and none of them touches the
transaction of its batch. -/
def Outside (q : Queue U Unit) : Prop :=
  ∀ type, ∃ h, q.handlers type = some h ∧ ∀ ctx payload, (h ctx payload).Plain OutsideOp

/-- What a client knows in each phase. -/
def Phase.Local [DecidableEq ι] (strict : Prop) (c : ι) :
    Phase U V → World (schema U) Unit ι → Prop
  | .polling _, w => inHandler c w.hist = none
  | .selecting tx _, w => inHandler c w.hist = none ∧
      ∃ x, Opened c tx x w ∧ x.log = [] ∧ x.locks = []
  | .executing tx jobs _, w => inHandler c w.hist = none ∧
      ∃ x, Working strict c tx jobs none x w
  | .handling tx job p jobs _, w => inHandler c w.hist = some job.id ∧ p.Plain OutsideOp ∧
      (strict → Tally w.hist job.id (job.attempts + 1) 0) ∧
      ∃ x, Working strict c tx (job :: jobs) (some job.id) x w
  | .retrying tx job _ jobs _, w => inHandler c w.hist = none ∧
      (strict → Tally w.hist job.id (job.attempts + 1) 0) ∧
      ∃ x, Working strict c tx (job :: jobs) (some job.id) x w
  | .updating tx job err _ jobs _, w => inHandler c w.hist = none ∧
      (strict → Tally w.hist job.id (job.attempts + 1) (if err = none then 1 else 0)) ∧
      ∃ x, Working strict c tx (job :: jobs) (some job.id) x w
  | .producing work, w => inHandler c w.hist = none ∧ ∀ b ∈ work, b.Sane
  | .enqueuing tx script work, w => inHandler c w.hist = none ∧ (∀ b ∈ work, b.Sane) ∧
      script.Plain EnqueueCall.Sane ∧ ∃ x, Working strict c tx [] none x w ∧ Fresh x w
  | .inserting tx a _ _ k work, w => inHandler c w.hist = none ∧ (∀ b ∈ work, b.Sane) ∧ a.Sane ∧
      (∀ r, (k r).Plain EnqueueCall.Sane) ∧ ∃ x, Working strict c tx [] none x w ∧ Fresh x w
  | .storing a _ _ work, w => inHandler c w.hist = none ∧ (∀ b ∈ work, b.Sane) ∧ a.Sane
  | .crashed, _ => True

/-- What holds of the server throughout.  The rows in `settled` are committed and
not pending. -/
structure Global (strict : Prop) (settled : JobRow → Prop) (w : World (schema U) Unit ι) :
    Prop where
  wf : w.WF
  bound : ∀ {i x id}, w.txs i = some x → Key.job id ∈ x.locks → id < w.hist.length
  lawful : ∀ {id row}, (w.committed ()).jobs.get id = some row → Lawful row ∧ id < w.hist.length
  settled : ∀ {row}, settled row →
    (w.committed ()).jobs.get row.id = some row ∧ row.status ≠ .pending
  balanced : strict → (jobRows U).Balanced Counted () w
  near : strict → ∀ {id row}, (w.committed ()).jobs.get id = some row → Near w.hist row
  future : strict → ∀ {id}, w.hist.length ≤ id → Tally w.hist id 0 0

def outline [DecidableEq ι] (marshal : V → Except GoError String) (q : Queue U Unit)
    (strict : Prop) (settled : JobRow → Prop) : Outline (schema U) Unit ι Unit where
  Phase := Phase U V
  code := fun _ => Phase.code marshal q
  Global := Global strict settled
  Local := Phase.Local strict

/-! ## Interference -/

/-- What the steps of the others leave to the client `b`: its transactions, and
the rows it has locked with what the history says about them. -/
structure Kept [DecidableEq ι] (b : ι) (w w' : World (schema U) Unit ι) : Prop where
  untouched : World.Untouched b w w'
  row : ∀ {i x id}, w.txs i = some x → x.owner = b → Key.job id ∈ x.locks →
    (w'.committed ()).jobs.get id = (w.committed ()).jobs.get id
  tally : ∀ {i x id calls good}, w.txs i = some x → x.owner = b → Key.job id ∈ x.locks →
    (Tally w'.hist id calls good ↔ Tally w.hist id calls good)

section Interference

variable [DecidableEq ι] {strict : Prop} {b c : ι} {w w' : World (schema U) Unit ι} {tx : Tx Unit}
  {x : TxState (schema U) Unit ι} {jobs : List Job} {skip : Option ℕ}

theorem Opened.kept (h : Opened b tx x w) (hk : Kept b w w') : Opened b tx x w' :=
  ⟨(hk.untouched.txs h.owner).mpr h.tx, h.owner, h.alive⟩

theorem Kept.view (hk : Kept b w w') (h : Opened b tx x w) {id : ℕ} (hid : Key.job id ∈ x.locks) :
    (w'.view x).jobs.get id = (w.view x).jobs.get id :=
  Rows.get_view_congr (T := jobRows U) (hk.row h.tx h.owner hid)

theorem Working.kept (h : Working strict b tx jobs skip x w) (hk : Kept b w w') :
    Working strict b tx jobs skip x w' where
  toOpened := h.toOpened.kept hk
  pending := fun hid hrow => h.pending hid (hk.row h.tx h.owner hid ▸ hrow)
  lawful := fun hid hrow => h.lawful hid (hk.view h.toOpened hid ▸ hrow)
  counted := fun hs id row hid hskip hrow => by
    rw [hk.view h.toOpened hid] at hrow
    have hrid : row.id = id := (Table.get_eq_some.mp hrow).2
    exact (hk.tally h.tx h.owner (hrid ▸ hid)).mpr (h.counted hs hid hskip hrow)
  picked := fun job hjob => by
    obtain ⟨hid, row, hrow, hview, hrest⟩ := h.picked job hjob
    exact ⟨hid, row, by rw [hk.row h.tx h.owner hid, hrow],
      by rw [hk.view h.toOpened hid, hview], hrest⟩
  nodup := h.nodup

theorem Fresh.kept (h : Fresh x w) (hx : Opened b tx x w) (hk : Kept b w w') : Fresh x w' :=
  fun id hid => by rw [hk.row hx.tx hx.owner hid, h id hid]

theorem Kept.inHandler (hk : Kept b w w') : inHandler b w'.hist = inHandler b w.hist := by
  rw [JobQueue.inHandler, hk.untouched.hist, JobQueue.inHandler]

theorem Phase.Local.kept {p : Phase U V} (h : Phase.Local strict b p w) (hk : Kept b w w') :
    Phase.Local strict b p w' := by
  have hin := hk.inHandler
  have htally : ∀ {tx skip} {job : Job} {jobs calls good x},
      Working strict b tx (job :: jobs) skip x w → (strict → Tally w.hist job.id calls good) →
      strict → Tally w'.hist job.id calls good :=
    fun hx ht hs => (hk.tally hx.tx hx.owner (hx.picked _ List.mem_cons_self).1).mpr (ht hs)
  cases p with
  | polling => exact hin.trans h
  | selecting =>
      obtain ⟨hnone, x, hx, hrest⟩ := h
      exact ⟨hin.trans hnone, x, hx.kept hk, hrest⟩
  | executing =>
      obtain ⟨hnone, x, hx⟩ := h
      exact ⟨hin.trans hnone, x, hx.kept hk⟩
  | handling =>
      obtain ⟨hsome, hp, ht, x, hx⟩ := h
      exact ⟨hin.trans hsome, hp, htally hx ht, x, hx.kept hk⟩
  | retrying =>
      obtain ⟨hnone, ht, x, hx⟩ := h
      exact ⟨hin.trans hnone, htally hx ht, x, hx.kept hk⟩
  | updating =>
      obtain ⟨hnone, ht, x, hx⟩ := h
      exact ⟨hin.trans hnone, htally hx ht, x, hx.kept hk⟩
  | producing => exact ⟨hin.trans h.1, h.2⟩
  | enqueuing =>
      obtain ⟨hnone, hwork, hs, x, hx, hfresh⟩ := h
      exact ⟨hin.trans hnone, hwork, hs, x, hx.kept hk, hfresh.kept hx.toOpened hk⟩
  | inserting =>
      obtain ⟨hnone, hwork, ha, hs, x, hx, hfresh⟩ := h
      exact ⟨hin.trans hnone, hwork, ha, hs, x, hx.kept hk, hfresh.kept hx.toOpened hk⟩
  | storing => exact ⟨hin.trans h.1, h.2⟩
  | crashed => trivial

/-- A step that only uses the client's own transactions, and only notes what
concerns jobs it has locked, does not interfere with anybody. -/
theorem kept_of_exec (hw : w.WF) {e : Tick (schema U)} {o : Op (schema U) Unit} {r : o.Res}
    (h : w.exec c e o = some (r, w'))
    (hown : ∀ i x, o.target = some i → w.txs i = some x → x.owner = c)
    (hjob : ∀ id, jobOf o = some id → ∃ i x, w.txs i = some x ∧ x.owner = c ∧ Key.job id ∈ x.locks)
    (hb : b ≠ c) : Kept b w w' where
  untouched := hw.untouched h hown hb
  row := (Rows.kept_of_exec (T := jobRows U) hw h hown hjob hb).row
  tally := fun hx hxb hid => by
    rw [World.exec_hist h]
    exact tally_other (Rows.about_ne (T := jobRows U) hw hjob hb hx hxb hid)

theorem kept_drop (hb : b ≠ c) : Kept b w (w.drop c) :=
  ⟨World.untouched_drop hb, fun _ _ _ => rfl, fun _ _ _ => Iff.rfl⟩

end Interference

end Gkit.JobQueue
