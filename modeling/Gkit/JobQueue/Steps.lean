import Gkit.JobQueue.Workers

/-!
# The steps of workers and producers

Each operation of a client, taken in the phase that its assertion describes,
leads to the next phase, keeps what holds throughout, and leaves the others
alone.
-/

namespace Gkit.JobQueue

open Gkit.Lib Gkit.Store

variable {U : Schema} {V ι : Type}

theorem run_update {m : Moment (Env U)} {d : Tables U} {id : ℕ} {row : JobRow}
    (h : d.jobs.get id = some row) (u : Update) (locked : Key U → Bool) :
    (Stmt.updateJob u id).run m d locked = if locked (.job id) then .wait
      else .done () [.job (u.set m.started.clock row)] [.job id] := by
  simp [Stmt.run, h]

theorem run_insert {m : Moment (Env U)} {d : Tables U} (h : d.jobs.get m.serial = none)
    (a : EnqueueCall V) (raw : String) (now : ℤ) (locked : Key U → Bool) :
    ∃ row : JobRow, row.id = m.serial ∧ row.status = .pending ∧ row.attempts = 0 ∧
      row.maxAttempts = a.options.maxAttempts ∧
      (a.insertion raw now : Stmt U).run m d locked =
        if locked (.job m.serial) then .wait else .done () [.job row] [.job m.serial] :=
  ⟨⟨m.serial, a.jobType, raw, .pending, 0, a.options.maxAttempts, _, none, m.started.clock,
    m.started.clock⟩, rfl, rfl, rfl, rfl, by simp only [EnqueueCall.insertion, Stmt.run, h]; rfl⟩

section Steps

variable {strict : Prop} {settled : JobRow → Prop} {c : ι} {w w' : World (schema U) Unit ι}
  {e : Tick (schema U)}
  {tx : Tx Unit} {x y : TxState (schema U) Unit ι}

/-- A row that the transaction sees has a number that was given out. -/
theorem Global.lt_of_view (hG : Global strict settled w) (hx : w.txs tx.id = some x)
    {id : ℕ} {row : JobRow}
    (h : (w.view x).jobs.get id = some row) : id < w.hist.length := by
  by_cases hid : Key.job id ∈ x.locks
  · exact hG.bound hx hid
  · have hview := Rows.get_view_of_notMem (T := jobRows U) hG.wf hx hid
    exact (hG.lawful (hview.symm.trans h)).2

theorem Global.get_next (hG : Global strict settled w) :
    (w.committed ()).jobs.get w.hist.length = none :=
  Option.eq_none_iff_forall_ne_some.mpr fun _ hrow => (hG.lawful hrow).2.ne rfl

/-- A job with a new number. -/
theorem Global.new_row (hG : Global strict settled w) {row : JobRow} (hid : row.id = w.hist.length)
    (hpend : row.status = .pending) (hatt : row.attempts = 0) (hmax : 1 ≤ row.maxAttempts) :
    Lawful row ∧ (strict → Counted w.hist row) := by
  refine ⟨.inl ⟨hpend, hatt.ge, by omega⟩, fun hs => ?_⟩
  have hzero := hG.future hs (le_refl w.hist.length)
  simpa [Counted, hid, hpend, hatt] using hzero

/-- A step after which everything that was held still is, and which commits
nothing. -/
theorem Global.keep (hG : Global strict settled w) {o : Op (schema U) Unit} {r : o.Res}
    (h : w.exec c e o = some (r, w')) (hcom : w'.committed () = w.committed ())
    (hsub : ∀ i z, w.txs i = some z → ∃ z', w'.txs i = some z' ∧ z'.db = z.db ∧ z.locks ⊆ z'.locks)
    (hbound : ∀ {i z id}, w'.txs i = some z → Key.job id ∈ z.locks → id < w'.hist.length)
    (hjob : ∀ id, jobOf o = some id → (jobRows U).Held w () id)
    (hnear : strict → ∀ {row : JobRow}, jobOf o = some row.id →
      (w.committed ()).jobs.get row.id = some row → Near w'.hist row) :
    Global strict settled w' := by
  have hhist := World.exec_hist h
  refine ⟨hG.wf.exec h, hbound, fun hrow => ?_, fun hrow => hcom ▸ hG.settled hrow, fun hs => ?_,
    fun hs id row hrow => ?_, fun hs id hid => ?_⟩
  · rw [hcom] at hrow
    obtain ⟨hlaw, hlt⟩ := hG.lawful hrow
    exact ⟨hlaw, by simp [hhist]; omega⟩
  · refine (hG.balanced hs).step (fun _ => False)
      (fun id _ => ⟨by rw [hcom], fun hh => hh.mono hsub⟩)
      (fun id row _ hfree hrow hR => ?_) fun _ _ hf => hf.elim
    have hrid : row.id = id := (Table.get_eq_some.mp hrow).2
    rw [Counted, hhist]
    refine (tally_other fun hnote => ?_).mpr hR
    exact hfree ((hjob id (hrid ▸ hnote)).mono hsub)
  · rw [hcom] at hrow
    obtain rfl : row.id = id := (Table.get_eq_some.mp hrow).2
    by_cases hnote : jobOf o = some row.id
    · exact hnear hs hnote hrow
    · exact hhist ▸ (hG.near hs hrow).other hnote
  · rw [hhist] at hid ⊢
    rw [List.length_append, List.length_singleton] at hid
    refine (tally_other fun hnote => ?_).mpr (hG.future hs (by omega))
    obtain ⟨i, z, hz, -, hlock⟩ := hjob id hnote
    have := hG.bound hz hlock
    omega

theorem Global.set (hG : Global strict settled w) {o : Op (schema U) Unit} {r : o.Res}
    (h : w.exec c e o = some (r, (w.setTx tx.id (some y)).record c o r))
    (hx : w.txs tx.id = some x) (hlocks : x.locks ⊆ y.locks)
    (hy : ∀ id, Key.job id ∈ y.locks → id ≤ w.hist.length) (hjob : jobOf o = none) :
    Global strict settled ((w.setTx tx.id (some y)).record c o r) := by
  refine hG.keep h rfl (Rows.locks_setTx hx rfl hlocks) (fun {i z id} hz hid => ?_)
    (fun id hid => absurd (hjob.symm.trans hid) (by simp))
    fun _ _ hid => absurd (hjob.symm.trans hid) (by simp)
  simp only [World.record_txs, World.setTx_txs, World.record_hist, World.setTx_hist,
    List.length_append, List.length_singleton] at hz ⊢
  by_cases hi : i = tx.id
  · subst hi
    simp only [Function.update_self, Option.some.injEq] at hz
    have := hy id (hz ▸ hid)
    omega
  · rw [Function.update_of_ne hi] at hz
    have := hG.bound hz hid
    omega

/-- A transaction is closed: the rows it had locked have to agree with the
history from now on. -/
theorem Global.close (hG : Global strict settled w) {o : Op (schema U) Unit} {r : o.Res}
    (h : w.exec c e o = some (r, w')) (hx : w.txs tx.id = some x)
    (htxs : w'.txs = Function.update w.txs tx.id none) (hjob : jobOf o = none)
    (hpend : ∀ {id row}, Key.job id ∈ x.locks → (w.committed ()).jobs.get id = some row →
      row.status = .pending)
    (hother : ∀ id, Key.job id ∉ x.locks →
      (w'.committed ()).jobs.get id = (w.committed ()).jobs.get id)
    (hlaw : ∀ {id row}, Key.job id ∈ x.locks →
      (w'.committed ()).jobs.get id = some row → Lawful row)
    (hcount : strict → ∀ {id row}, Key.job id ∈ x.locks →
      (w'.committed ()).jobs.get id = some row → Counted w.hist row) :
    Global strict settled w' := by
  have hhist := World.exec_hist h
  have hlen : w'.hist.length = w.hist.length + 1 := by simp [hhist]
  have hnone : ∀ {id}, jobOf o ≠ some id := by simp [hjob]
  refine ⟨hG.wf.exec h, fun {i z id} hz hid => ?_, fun {id row} hrow => ?_, fun {row} hrow => ?_,
    fun hs => ?_, fun hs id row hrow => ?_, fun hs id hid => ?_⟩
  · rw [htxs] at hz
    by_cases hi : i = tx.id
    · simp [hi] at hz
    · rw [Function.update_of_ne hi] at hz
      have := hG.bound hz hid
      omega
  · by_cases hid : Key.job id ∈ x.locks
    · have := hG.bound hx hid
      exact ⟨hlaw hid hrow, by omega⟩
    · rw [hother id hid] at hrow
      obtain ⟨hrow, hlt⟩ := hG.lawful hrow
      exact ⟨hrow, by omega⟩
  · obtain ⟨hget, hne⟩ := hG.settled hrow
    exact ⟨by rw [hother _ fun hid => hne (hpend hid hget), hget], hne⟩
  · refine (hG.balanced hs).step (fun id => Key.job id ∈ x.locks)
      (fun id hid => ⟨hother id hid, fun hh => ?_⟩) (fun id row _ _ _ hR => ?_)
      fun id row hid hrow => ?_
    · rcases hh.close hx with hmem | ⟨i, z, hz, hrest⟩
      · exact absurd hmem hid
      · exact ⟨i, z, by rw [htxs]; exact hz, hrest⟩
    · rw [Counted, hhist]
      exact (tally_other hnone).mpr hR
    · rw [Counted, hhist]
      exact (tally_other hnone).mpr (hcount hs hid hrow)
  · rw [hhist]
    by_cases hid : Key.job id ∈ x.locks
    · exact (hcount hs hid hrow).near.other hnone
    · exact (hG.near hs (hother id hid ▸ hrow)).other hnone
  · rw [hhist]
    exact (tally_other hnone).mpr (hG.future hs (by omega))

theorem begin_step [DecidableEq ι] (hG : Global strict settled w) (he : e.fault = none)
    {r : Except GoError (Tx Unit)} (h : w.exec c e (.begin ()) = some (r, w')) :
    ∃ tx x, r = .ok tx ∧ Opened c tx x w' ∧ x.log = [] ∧ x.locks = [] ∧ Global strict settled w' ∧
      ∀ b, b ≠ c → Kept b w w' := by
  have hkept : ∀ b, b ≠ c → Kept b w w' := fun b hb =>
    kept_of_exec hG.wf h (fun _ _ ht => nomatch ht) (fun _ hid => nomatch hid) hb
  rcases World.exec_begin_cases h with ⟨err, hf, -⟩ | ⟨-, rfl, rfl⟩
  · simp [he] at hf
  refine ⟨⟨(), w.next⟩, ⟨(), c, e.env, [], [], false⟩, rfl, ⟨by simp, rfl, rfl⟩, rfl, rfl,
    hG.keep h rfl (fun i z hz => ⟨z, ?_, rfl, List.Subset.refl _⟩) (fun {i z id} hz hid => ?_)
      (fun _ hid => nomatch hid) (fun _ _ hid => nomatch hid), hkept⟩
  · have hi : i ≠ w.next := (hG.wf.lt_next hz).ne
    simpa [Function.update_of_ne hi] using hz
  · simp only [World.record_txs, World.setTx_txs] at hz
    by_cases hi : i = w.next
    · subst hi
      simp only [Function.update_self, Option.some.injEq] at hz
      simp [← hz] at hid
    · rw [Function.update_of_ne hi] at hz
      have := hG.bound hz hid
      simp
      omega

/-- An operation outside the database. -/
theorem ext_step [DecidableEq ι] (hG : Global strict settled w) {a : Ext} {r : a.Ret}
    (h : w.exec c e (.ext a) = some (r, w'))
    (hjob : ∀ id, jobOf (.ext a : Op (schema U) Unit) = some id →
      ∃ i x, w.txs i = some x ∧ x.owner = c ∧ Key.job id ∈ x.locks)
    (hnear : strict → ∀ {row : JobRow}, jobOf (.ext a : Op (schema U) Unit) = some row.id →
      (w.committed ()).jobs.get row.id = some row → Near (w.record c (.ext a) r).hist row) :
    w' = w.record c (.ext a) r ∧ Global strict settled w' ∧ ∀ b, b ≠ c → Kept b w w' := by
  have hkept : ∀ b, b ≠ c → Kept b w w' := fun b hb =>
    kept_of_exec hG.wf h (fun _ _ ht => nomatch ht) hjob hb
  obtain ⟨w₁, hp, rfl⟩ := World.exec_eq_some.mp h
  cases hp
  refine ⟨rfl, hG.keep h rfl (fun i z hz => ⟨z, hz, rfl, List.Subset.refl _⟩)
    (fun hz hid => ?_) (fun id hid => ?_) hnear, hkept⟩
  · have := hG.bound hz hid
    simp
    omega
  · obtain ⟨i, x, hx, -, hlock⟩ := hjob id hid
    exact ⟨i, x, hx, rfl, hlock⟩

theorem Working.record {jobs : List Job} {skip skip' : Option ℕ}
    (h : Working strict c tx jobs skip x w) {o : Op (schema U) Unit} (r : o.Res)
    (hskip : ∀ id, some id ≠ skip' → some id ≠ skip ∧ jobOf o ≠ some id) :
    Working strict c tx jobs skip' x (w.record c o r) where
  toOpened := ⟨h.tx, h.owner, h.alive⟩
  pending := h.pending
  lawful := h.lawful
  counted := fun hs id row hid hne hrow => by
    obtain ⟨hne', hnote⟩ := hskip id hne
    have hrid : row.id = id := (Table.get_eq_some.mp hrow).2
    exact (tally_other (hrid ▸ hnote)).mpr (h.counted hs hid hne' hrow)
  picked := h.picked
  nodup := h.nodup

theorem select_step [DecidableEq ι] (hG : Global strict settled w) (hx : Opened c tx x w)
    (hlog : x.log = [])
    (hlocks : x.locks = []) (he : e.fault = none) {r : Except GoError (List Job)}
    (h : w.exec c e (.exec tx .selectPending) = some (r, w')) :
    ∃ jobs y, r = .ok jobs ∧ Working strict c tx jobs none y w' ∧ Global strict settled w' ∧
      ∀ b, b ≠ c → Kept b w w' := by
  have hkept : ∀ b, b ≠ c → Kept b w w' := fun b hb =>
    kept_of_exec hG.wf h (World.owner_of_target hx.tx hx.owner rfl) (fun _ hid => nomatch hid) hb
  rcases World.exec_exec_cases h hx.tx hx.alive with
    ⟨err, hf | ⟨-, hrun⟩, -⟩ | ⟨jobs, ws, ks, -, hrun, rfl, rfl⟩
  · simp [he] at hf
  · cases hrun
  cases hrun
  set rows := pick x.started.clock e.env.rank (w.view x).jobs
    fun id => w.locked () (some tx.id) (.job id) with hrows
  have hview : w.view x = w.committed () := by simp [World.view, hlog]
  -- A row that the worker takes is ready, and held by nobody.
  have hpicked : ∀ row ∈ rows, (w.committed ()).jobs.get row.id = some row ∧
      row.status = .pending ∧ ¬(jobRows U).Held w () row.id := by
    intro row hrow
    obtain ⟨hmem, hpend, -, hfree⟩ := mem_pick hrow
    exact ⟨Table.get_eq_some.mpr ⟨hview ▸ hmem, rfl⟩, hpend,
      Rows.not_held_of_free (T := jobRows U) hG.wf hx.tx hlocks hfree⟩
  have hmemlock : ∀ id, Key.job id ∈ x.locks ++ rows.map (fun row => (Key.job row.id : Key U)) →
      ∃ row ∈ rows, row.id = id := by
    intro id hid
    simpa [hlocks] using hid
  have hget : ∀ {id row}, Key.job id ∈ x.locks ++ rows.map (fun row => (Key.job row.id : Key U)) →
      (w.committed ()).jobs.get id = some row → row ∈ rows := by
    intro id row hid hrow
    obtain ⟨row', hrow', rfl⟩ := hmemlock id hid
    rw [(hpicked row' hrow').1] at hrow
    exact Option.some.inj hrow ▸ hrow'
  set y : TxState (schema U) Unit ι :=
    { x with log := x.log ++ [], locks := x.locks ++ rows.map fun row => .job row.id } with hy
  set w' := (w.setTx tx.id (some y)).record c (.exec tx .selectPending) (.ok (rows.map JobRow.job))
    with hw'
  have hview' : w'.view y = w.committed () := by simp [World.view, hy, hlog, hw']
  refine ⟨rows.map JobRow.job, y, rfl, ⟨⟨by simp [hw'], hx.owner, hx.alive⟩, fun hid hrow => ?_,
    fun hid hrow => ?_, fun hs id row hid _ hrow => ?_, fun job hjob => ?_, ?_⟩,
    hG.set h hx.tx (List.subset_append_left _ _) (fun id hid => ?_) rfl, hkept⟩
  · exact (hpicked _ (hget hid hrow)).2.1
  · rw [hview'] at hrow
    exact (hG.lawful hrow).1
  · rw [hview'] at hrow
    have hrow' := hpicked _ (hget hid hrow)
    exact (tally_other (by simp [jobOf])).mpr (hG.balanced hs row.id row hrow'.1 hrow'.2.2)
  · obtain ⟨row, hrow, rfl⟩ := List.mem_map.mp hjob
    refine ⟨List.mem_append_right _ (List.mem_map_of_mem hrow), row, (hpicked row hrow).1, ?_,
      (hpicked row hrow).2.1, rfl⟩
    rw [hview']
    exact (hpicked row hrow).1
  · rw [List.map_map]
    exact nodup_pick _ _ _ _
  · obtain ⟨row, hrow, rfl⟩ := hmemlock id hid
    exact (hG.lawful (hpicked row hrow).1).2.le

/-- The transaction with one more row written. -/
def written (x : TxState (schema U) Unit ι) (row : JobRow) : TxState (schema U) Unit ι :=
  { x with log := x.log ++ [.job row], locks := x.locks ++ [.job row.id] }

theorem Working.write {jobs : List Job} {skip : Option ℕ} {row : JobRow}
    (h : Working strict c tx jobs skip x w) (hlaw : Lawful row)
    (hcount : strict → Counted w.hist row)
    (hpend : ∀ {old}, (w.committed ()).jobs.get row.id = some old → old.status = .pending)
    (hskip : ∀ id, id ≠ row.id → some id ≠ skip) (hjobs : ∀ job ∈ jobs, job.id ≠ row.id)
    {o : Op (schema U) Unit} (ho : jobOf o = none) (r : o.Res) :
    Working strict c tx jobs none (written x row)
      ((w.setTx tx.id (some (written x row))).record c o r) := by
  set w' := (w.setTx tx.id (some (written x row))).record c o r
  have hview : ∀ id, (w'.view (written x row)).jobs.get id =
      if id = row.id then some row else (w.view x).jobs.get id := by
    intro id
    have heq : w'.view (written x row) = (w.view x).apply (.job row) := by
      simp [World.view, written, w']
    rw [heq]
    exact Table.get_put
  have hlock : ∀ {id}, Key.job id ∈ (written x row).locks → id ≠ row.id → Key.job id ∈ x.locks := by
    intro id hid hne
    simpa [written, hne] using hid
  refine ⟨⟨by simp [w'], h.owner, h.alive⟩, fun {id old} hid hold => ?_,
    fun {id old} hid hold => ?_,
    fun hs id old hid _ hold => ?_, fun job hjob => ?_, h.nodup⟩
  · by_cases hne : id = row.id
    · exact hpend (hne ▸ hold)
    · exact h.pending (hlock hid hne) hold
  · rw [hview] at hold
    split_ifs at hold with hne
    · exact Option.some.inj hold ▸ hlaw
    · exact h.lawful (hlock hid hne) hold
  · have hnone : ∀ {id'}, jobOf o ≠ some id' := by simp [ho]
    refine (tally_other hnone).mpr ?_
    rw [hview] at hold
    split_ifs at hold with hne
    · exact Option.some.inj hold ▸ hcount hs
    · exact h.counted hs (hlock hid hne) (hskip id hne) hold
  · obtain ⟨hid, old, hold, hsee, hrest⟩ := h.picked job hjob
    refine ⟨List.mem_append_left _ hid, old, hold, ?_, hrest⟩
    rw [hview, if_neg (hjobs job hjob), hsee]

theorem Opened.working (h : Opened c tx x w) (hlocks : x.locks = []) :
    Working strict c tx [] none x w where
  toOpened := h
  pending := fun hid => by simp [hlocks] at hid
  lawful := fun hid => by simp [hlocks] at hid
  counted := fun _ _ _ hid => by simp [hlocks] at hid
  picked := fun job hjob => by simp at hjob
  nodup := List.nodup_nil

theorem Working.attempts_nonneg {job : Job} {jobs : List Job} {skip : Option ℕ}
    (h : Working strict c tx (job :: jobs) skip x w) : 0 ≤ job.attempts := by
  obtain ⟨hlock, row, -, hrow, hpend, rfl⟩ := h.picked job List.mem_cons_self
  exact ((h.lawful hlock hrow).of_pending hpend).1

theorem Working.tail {job : Job} {jobs : List Job} {skip : Option ℕ}
    (h : Working strict c tx (job :: jobs) skip x w) : Working strict c tx jobs skip x w :=
  { h with
    picked := fun j hj => h.picked j (List.mem_cons_of_mem _ hj)
    nodup := (List.nodup_cons.mp h.nodup).2 }

/-- The job in progress is settled. -/
theorem update_step [DecidableEq ι] (hG : Global strict settled w) {job : Job} {jobs : List Job}
    {err : Option GoError} {now : ℤ} (hx : Working strict c tx (job :: jobs) (some job.id) x w)
    (ht : strict → Tally w.hist job.id (job.attempts + 1) (if err = none then 1 else 0))
    (he : e.fault = none) {r : Except GoError Unit}
    (h : w.exec c e (.exec tx (.updateJob (settling job now err) job.id)) = some (r, w')) :
    (∃ y, Working strict c tx jobs none y w') ∧ Global strict settled w' ∧
      ∀ b, b ≠ c → Kept b w w' := by
  have hkept : ∀ b, b ≠ c → Kept b w w' := fun b hb =>
    kept_of_exec hG.wf h (World.owner_of_target hx.tx hx.owner rfl) (fun _ hid => nomatch hid) hb
  obtain ⟨hlock, row, -, hrow, hpend, rfl⟩ := hx.picked job List.mem_cons_self
  have hrun := run_update (m := ⟨x.started, e.env, w.hist.length⟩) hrow (settling row.job now err)
    (w.locked () (some tx.id))
  obtain ⟨rfl, rfl⟩ := World.exec_exec_free h hx.tx hx.alive he hrun
  set new := (settling row.job now err).set x.started.clock row with hnew
  have hid : new.id = row.job.id := Update.set_id ..
  have hother : ∀ job ∈ jobs, job.id ≠ new.id := fun job hjob heq =>
    (List.nodup_cons.mp hx.nodup).1 (hid ▸ heq ▸ List.mem_map_of_mem hjob)
  have hy := hx.tail.write (lawful_settling (hx.lawful hlock hrow) hpend now x.started.clock err)
    (fun hs => counted_settling (ht hs) now x.started.clock)
    (fun hold => hx.pending hlock (hid ▸ hold))
    (fun id hne heq => hne ((Option.some.inj heq).trans hid.symm))
    hother (o := .exec tx (.updateJob (settling row.job now err) row.job.id)) rfl (.ok ())
  have hwritten : ({ x with log := x.log ++ [.job new], locks := x.locks ++ [.job row.job.id] } :
      TxState (schema U) Unit ι) = written x new := by simp [written, hid]
  rw [hwritten] at h hkept ⊢
  refine ⟨⟨_, hy⟩, hG.set h hx.tx (List.subset_append_left _ _) (fun id hid' => ?_) rfl, hkept⟩
  rcases List.mem_append.mp hid' with hmem | hmem
  · exact (hG.bound hx.tx hmem).le
  · obtain rfl : id = row.job.id := by simpa [hid] using hmem
    exact (hG.bound hx.tx hlock).le

theorem commit_step [DecidableEq ι] (hG : Global strict settled w)
    (hx : Working strict c tx [] none x w)
    (he : e.fault = none) {r : Except GoError Unit} (h : w.exec c e (.commit tx) = some (r, w')) :
    Global strict settled w' ∧ ∀ b, b ≠ c → Kept b w w' := by
  have hkept : ∀ b, b ≠ c → Kept b w w' := fun b hb =>
    kept_of_exec hG.wf h (World.owner_of_target hx.tx hx.owner rfl) (fun _ hid => nomatch hid) hb
  rcases World.exec_commit_cases h hx.tx hx.alive with ⟨err, hf, -⟩ | ⟨-, rfl, rfl⟩
  · simp [he] at hf
  have hcom : ((w.settle tx.id x).record c (.commit tx) (.ok ())).committed () = w.view x :=
    World.committed_settle w tx.id x
  refine ⟨hG.close h hx.tx rfl rfl hx.pending (fun id hid => ?_) (fun hid hrow => ?_)
    (fun hs id row hid hrow => ?_), hkept⟩
  · rw [hcom]
    exact Rows.get_view_of_notMem (T := jobRows U) hG.wf hx.tx hid
  · exact hx.lawful hid (hcom ▸ hrow)
  · exact hx.counted hs hid (by simp) (hcom ▸ hrow)

theorem rollback_step [DecidableEq ι] (hG : Global strict settled w) (hx : Opened c tx x w)
    (hfresh : Fresh x w) {r : Except GoError Unit}
    (h : w.exec c e (.rollback tx) = some (r, w')) :
    Global strict settled w' ∧ ∀ b, b ≠ c → Kept b w w' := by
  have hkept : ∀ b, b ≠ c → Kept b w w' := fun b hb =>
    kept_of_exec hG.wf h (World.owner_of_target hx.tx hx.owner rfl) (fun _ hid => nomatch hid) hb
  obtain rfl := World.exec_rollback_eq h hx.tx
  refine ⟨hG.close h hx.tx rfl rfl (fun hid hrow => ?_) (fun id hid => rfl) (fun hid hrow => ?_)
    (fun hs id row hid hrow => ?_), hkept⟩
  · exact absurd ((hfresh _ hid).symm.trans hrow) (by simp)
  · exact absurd ((hfresh _ hid).symm.trans hrow) (by simp)
  · exact absurd ((hfresh _ hid).symm.trans hrow) (by simp)

theorem insert_step [DecidableEq ι] (hG : Global strict settled w)
    (hx : Working strict c tx [] none x w)
    (hfresh : Fresh x w) {a : EnqueueCall V} (ha : a.Sane) {raw : String} {now : ℤ}
    (he : e.fault = none) {r : Except GoError (a.insertion raw now : Stmt U).Ret}
    (h : w.exec c e (.exec tx (a.insertion raw now)) = some (r, w')) :
    (∃ y, Working strict c tx [] none y w' ∧ Fresh y w') ∧ Global strict settled w' ∧
      ∀ b, b ≠ c → Kept b w w' := by
  have hkept : ∀ b, b ≠ c → Kept b w w' := fun b hb =>
    kept_of_exec hG.wf h (World.owner_of_target hx.tx hx.owner rfl) (fun _ hid => nomatch hid) hb
  have hnone : (w.view x).jobs.get w.hist.length = none :=
    Option.eq_none_iff_forall_ne_some.mpr fun row hrow => (hG.lt_of_view hx.tx hrow).ne rfl
  obtain ⟨row, (hid : row.id = w.hist.length), hpend, hatt, hmax, hrun⟩ := run_insert
    (m := ⟨x.started, e.env, w.hist.length⟩) hnone a raw now (w.locked () (some tx.id))
  obtain ⟨rfl, rfl⟩ := World.exec_exec_free h hx.tx hx.alive he hrun
  obtain ⟨hlaw, hcount⟩ := hG.new_row hid hpend hatt (hmax ▸ ha)
  have hy := hx.write hlaw hcount (fun hold => absurd (hG.get_next.symm.trans (hid ▸ hold))
    (by simp))
    (fun _ _ => by simp) (by simp) (o := .exec tx (a.insertion raw now)) rfl (.ok ())
  have hwritten : ({ x with log := x.log ++ [.job row], locks := x.locks ++ [.job w.hist.length] } :
      TxState (schema U) Unit ι) = written x row := by simp [written, hid]
  rw [hwritten] at h hkept ⊢
  have hlocks : ∀ id, Key.job id ∈ (written x row).locks →
      Key.job id ∈ x.locks ∨ id = w.hist.length := by
    intro id hmem
    simpa [written, hid] using hmem
  refine ⟨⟨_, hy, fun id hmem => ?_⟩,
    hG.set h hx.tx (List.subset_append_left _ _) (fun id hmem => ?_) rfl, hkept⟩
  · rcases hlocks id hmem with hold | rfl
    · exact hfresh id hold
    · exact hG.get_next
  · rcases hlocks id hmem with hold | rfl
    · exact (hG.bound hx.tx hold).le
    · exact le_refl _

theorem store_step [DecidableEq ι] (hG : Global strict settled w) {a : EnqueueCall V} (ha : a.Sane)
    {raw : String} {now : ℤ} (he : e.fault = none)
    {r : Except GoError (a.insertion raw now : Stmt U).Ret}
    (h : w.exec c e (.pool () (a.insertion raw now)) = some (r, w')) :
    Global strict settled w' ∧ ∀ b, b ≠ c → Kept b w w' := by
  have hkept : ∀ b, b ≠ c → Kept b w w' := fun b hb =>
    kept_of_exec hG.wf h (fun _ _ ht => nomatch ht) (fun _ hid => nomatch hid) hb
  obtain ⟨row, (hid : row.id = w.hist.length), hpend, hatt, hmax, hrun⟩ := run_insert
    (m := ⟨e.env, e.env, w.hist.length⟩) hG.get_next a raw now (w.locked () none)
  obtain ⟨rfl, rfl⟩ := World.exec_pool_free h he hrun
  obtain ⟨hlaw, hcount⟩ := hG.new_row hid hpend hatt (hmax ▸ ha)
  set w' := (w.persist () [.job row]).record c (.pool () (a.insertion raw now)) (.ok ()) with hw'
  have hget : ∀ id, (w'.committed ()).jobs.get id =
      if id = row.id then some row else (w.committed ()).jobs.get id := by
    intro id
    rw [hw', World.committed_record, World.committed_persist]
    exact Table.get_put
  have hlen : w'.hist.length = w.hist.length + 1 := by simp [World.exec_hist h]
  have htally : ∀ {id calls good}, Tally w.hist id calls good → Tally w'.hist id calls good := by
    intro id calls good ht
    rw [World.exec_hist h]
    exact (tally_other (by simp [jobOf])).mpr ht
  refine ⟨⟨hG.wf.exec h, fun hz hmem => ?_, fun {id old} hold => ?_, fun {old} hold => ?_,
    fun hs => ?_, fun hs id old hold => ?_, fun hs id hle => htally (hG.future hs (by omega))⟩,
    hkept⟩
  · have := hG.bound hz hmem
    omega
  · rw [hget] at hold
    split_ifs at hold with hne
    · cases hold
      exact ⟨hlaw, by omega⟩
    · obtain ⟨hold, hlt⟩ := hG.lawful hold
      exact ⟨hold, by omega⟩
  · obtain ⟨hget', hne⟩ := hG.settled hold
    have hlt := (hG.lawful hget').2
    exact ⟨by rw [hget, if_neg (by omega), hget'], hne⟩
  · refine (hG.balanced hs).step (fun id => id = row.id) (fun id hne => ⟨?_, fun hh => hh⟩)
      (fun id old _ _ _ hR => htally hR) fun id old heq hold => ?_
    · exact (hget id).trans (if_neg hne)
    · have hget' : (jobRows U).get (w'.committed ()) id = some row := (hget id).trans (if_pos heq)
      rw [hget'] at hold
      exact htally (Option.some.inj hold ▸ hcount hs)
  · rw [World.exec_hist h]
    rw [hget] at hold
    split_ifs at hold with hne
    · exact Option.some.inj hold ▸ (hcount hs).near.other (by simp [jobOf])
    · exact (hG.near hs hold).other (by simp [jobOf])

end Steps

/-! ## Soundness -/

/-- Nothing fails from outside and, in a strict run, nobody crashes. -/
def Steady (strict : Prop) : Action (schema U) ι → Prop
  | .step _ e => e.fault = none
  | .crash _ => ¬strict

instance (strict : Prop) [Decidable strict] :
    DecidablePred (Steady strict : Action (schema U) ι → Prop)
  | .step _ e => inferInstanceAs (Decidable (e.fault = none))
  | .crash _ => inferInstanceAs (Decidable ¬strict)

section Soundness

variable [DecidableEq ι] {strict : Prop} {settled : JobRow → Prop} {c : ι}
  {w w' : World (schema U) Unit ι}
  {e : Tick (schema U)}

theorem inHandler_exec {o : Op (schema U) Unit} {r : o.Res} (h : w.exec c e o = some (r, w'))
    (ho : jobOf o = none) {cur : Option ℕ} (hcur : inHandler c w.hist = cur) :
    inHandler c w'.hist = cur := by
  rw [World.exec_hist h, inHandler_other ho, hcur]

/-- A note about the job that the worker has picked. -/
theorem note_step (hG : Global strict settled w) {tx : Tx Unit} {job : Job} {jobs : List Job}
    {skip : Option ℕ} {x : TxState (schema U) Unit ι}
    (hx : Working strict c tx (job :: jobs) skip x w)
    {a : Ext} {r : a.Ret} (ha : jobOf (.ext a : Op (schema U) Unit) = some job.id) {good : ℕ}
    (hgood : good ≤ 1)
    (ht : strict → Tally (w.record c (.ext a) r).hist job.id (job.attempts + 1) good)
    (h : w.exec c e (.ext a) = some (r, w')) :
    w' = w.record c (.ext a) r ∧ Global strict settled w' ∧ ∀ b, b ≠ c → Kept b w w' := by
  obtain ⟨hlock, old, hold, -, -, rfl⟩ := hx.picked job List.mem_cons_self
  refine ext_step hG h (fun id hid => ?_) fun hs row hid hrow => ?_
  · obtain rfl : old.job.id = id := Option.some.inj (ha.symm.trans hid)
    exact ⟨tx.id, x, hx.tx, hx.owner, hlock⟩
  · have hid' : old.job.id = row.id := Option.some.inj (ha.symm.trans hid)
    obtain rfl : old = row := Option.some.inj (hold.symm.trans (hid' ▸ hrow))
    exact ⟨_, good, ht hs, by simp [JobRow.job], le_rfl, hgood⟩

/-- A handler has been called. -/
theorem handling_entry (hG : Global strict settled w) {tx : Tx Unit} {job : Job} {jobs : List Job}
    {x : TxState (schema U) Unit ι} (hx : Working strict c tx (job :: jobs) none x w)
    (h : w.exec c e (.ext (.invoked job.id)) = some ((), w')) :
    (Working strict c tx (job :: jobs) (some job.id) x w' ∧
      (strict → Tally w'.hist job.id (job.attempts + 1) 0)) ∧
      Global strict settled w' ∧ ∀ b, b ≠ c → Kept b w w' := by
  have ht : strict → Tally (w.record c (.ext (.invoked job.id)) ()).hist job.id
      (job.attempts + 1) 0 := by
    intro hs
    obtain ⟨hlock, row, -, hrow, hpend, rfl⟩ := hx.picked job List.mem_cons_self
    have hcount := hx.counted hs hlock (by simp) hrow
    rw [Counted, if_neg (by simp [hpend])] at hcount
    exact hcount.invoked c
  obtain ⟨rfl, hG', hkept⟩ := note_step hG hx rfl (by omega) ht h
  refine ⟨⟨hx.record (o := .ext (.invoked job.id)) () fun id hne => ⟨by simp, fun heq => hne ?_⟩,
    ht⟩, hG', hkept⟩
  exact heq.symm

/-- A handler has returned. -/
theorem handling_exit (hG : Global strict settled w) {tx : Tx Unit} {job : Job} {jobs : List Job}
    {n : ℕ} {x : TxState (schema U) Unit ι}
    (hx : Working strict c tx (job :: jobs) (some job.id) x w)
    (ht : strict → Tally w.hist job.id (job.attempts + 1) 0) {err : Option GoError}
    (h : w.exec c e (.ext (.returned job.id err)) = some ((), w')) :
    Phase.Local strict c (Phase.afterReturn tx job jobs n err : Phase U V) w' ∧
      Global strict settled w' ∧ ∀ b, b ≠ c → Kept b w w' := by
  have ht' : strict → Tally (w.record c (.ext (.returned job.id err)) ()).hist job.id
      (job.attempts + 1) (if err = none then 1 else 0) := fun hs => (ht hs).returned c err
  obtain ⟨rfl, hG', hkept⟩ := note_step hG hx rfl (by split_ifs <;> omega) ht' h
  have hx' : Working strict c tx (job :: jobs) (some job.id) x
      (w.record c (.ext (.returned job.id err)) ()) :=
    hx.record (o := .ext (.returned job.id err)) () fun id hne => ⟨hne, fun heq => hne heq.symm⟩
  have hin : inHandler c (w.record c (.ext (.returned job.id err)) ()).hist = none := by simp
  refine ⟨?_, hG', hkept⟩
  cases err with
  | none => exact ⟨hin, ht', x, hx'⟩
  | some err =>
      simp only [Phase.afterReturn]
      split_ifs
      · exact ⟨hin, ht', x, hx'⟩
      · exact ⟨hin, ht', x, hx'⟩

/-- An operation that no job is concerned with. -/
theorem outside_step (hG : Global strict settled w) {a : Ext} {r : a.Ret}
    (ha : jobOf (.ext a : Op (schema U) Unit) = none) (h : w.exec c e (.ext a) = some (r, w')) :
    (∀ {tx jobs skip x}, Working strict c tx jobs skip x w → Working strict c tx jobs skip x w') ∧
      (∀ {x}, Fresh x w → Fresh x w') ∧
      (∀ {id calls good}, Tally w.hist id calls good → Tally w'.hist id calls good) ∧
      Global strict settled w' ∧ ∀ b, b ≠ c → Kept b w w' := by
  have hnone : ∀ {id}, jobOf (.ext a : Op (schema U) Unit) ≠ some id := by simp [ha]
  obtain ⟨rfl, hG', hkept⟩ := ext_step hG h (fun _ hid => absurd hid hnone)
    fun _ _ hid => absurd hid hnone
  exact ⟨fun hx => hx.record (o := .ext a) r fun _ hne => ⟨hne, hnone⟩, fun hfresh => hfresh,
    fun ht => (tally_other hnone).mpr ht, hG', hkept⟩

theorem Global.drop (hG : Global strict settled w) (hs : ¬strict) (c : ι) :
    Global strict settled (w.drop c) where
  wf := hG.wf.drop c
  bound := fun {i x id} hx hid => by
    obtain ⟨hx, -⟩ := Option.filter_eq_some_iff.mp hx
    exact hG.bound hx hid
  lawful := hG.lawful
  settled := hG.settled
  balanced := fun h => absurd h hs
  near := fun h => absurd h hs
  future := fun h => absurd h hs

end Soundness

section Phases

variable [DecidableEq ι] {strict : Prop} {settled : JobRow → Prop}
  {marshal : V → Except GoError String} {q : Queue U Unit} {s : Sys (schema U) Unit ι Unit}
  {w : World (schema U) Unit ι} {c : ι} {e : Tick (schema U)} {o : Op (schema U) Unit}
  {k : o.Res → GoProg (schema U) Unit Unit} {r : o.Res} {tx : Tx Unit} {job : Job}
  {jobs : List Job} {n : ℕ} {work : List (Business V)}

/-- The client goes on to the phase `p`, and nothing of the others is changed. -/
theorem advance {t : GoProg (schema U) Unit Unit} (hG : Global strict settled w) {p : Phase U V}
    (ht : t = Phase.code marshal q p) (hL : Phase.Local strict c p w)
    (hkept : ∀ b, b ≠ c → Kept b s.world w) :
    (outline marshal q strict settled).Advances s c w t :=
  ⟨hG, ⟨p, ht, hL⟩, fun b _ hb _ hLb => hLb.kept (hkept b hb)⟩

theorem advance_polling (hG : Global strict settled s.world)
    (hL : Phase.Local strict c (.polling n : Phase U V) s.world) (he : e.fault = none)
    (hcode : Phase.code marshal q (.polling n) = .op o k)
    (hexec : s.world.exec c e o = some (r, w)) :
    (outline marshal q strict settled).Advances s c w (k r) := by
  cases n with
  | zero => cases hcode
  | succ n =>
      obtain ⟨k', hk', hnext⟩ := @Phase.code_polling_succ U V marshal q n
      cases hk'.symm.trans hcode
      obtain ⟨tx, x, rfl, hx, hlog, hlocks, hG', hkept⟩ := begin_step hG he hexec
      exact advance (p := .selecting tx n) hG' (hnext tx)
        ⟨inHandler_exec hexec rfl hL, x, hx, hlog, hlocks⟩ hkept

theorem advance_selecting (hG : Global strict settled s.world)
    (hL : Phase.Local strict c (.selecting tx n : Phase U V) s.world) (he : e.fault = none)
    (hcode : Phase.code marshal q (.selecting tx n) = .op o k)
    (hexec : s.world.exec c e o = some (r, w)) :
    (outline marshal q strict settled).Advances s c w (k r) := by
  obtain ⟨hin, x, hx, hlog, hlocks⟩ := hL
  obtain ⟨k', hk', hnext⟩ := @Phase.code_selecting U V marshal q tx n
  cases hk'.symm.trans hcode
  obtain ⟨jobs, y, rfl, hy, hG', hkept⟩ := select_step hG hx hlog hlocks he hexec
  exact advance (p := .executing tx jobs n) hG' (hnext jobs)
    ⟨inHandler_exec hexec rfl hin, y, hy⟩ hkept

theorem advance_executing (hq : Outside q) (hG : Global strict settled s.world)
    (hL : Phase.Local strict c (.executing tx jobs n : Phase U V) s.world) (he : e.fault = none)
    (hcode : Phase.code marshal q (.executing tx jobs n) = .op o k)
    (hexec : s.world.exec c e o = some (r, w)) :
    (outline marshal q strict settled).Advances s c w (k r) := by
  obtain ⟨hin, x, hx⟩ := hL
  cases jobs with
  | nil =>
      cases (Phase.code_executing_nil tx n).symm.trans hcode
      obtain ⟨hG', hkept⟩ := commit_step hG hx he hexec
      exact advance (p := .polling n) hG' rfl (inHandler_exec hexec rfl hin) hkept
  | cons job jobs =>
      obtain ⟨h, hh, hplain⟩ := hq job.type
      cases (Phase.code_executing_cons hh tx jobs n).symm.trans hcode
      obtain ⟨⟨hx', ht⟩, hG', hkept⟩ := handling_entry hG hx hexec
      have hin' : inHandler c w.hist = some job.id := by
        rw [World.exec_hist hexec, inHandler_invoked]
      exact advance (p := .handling tx job _ jobs n) hG' rfl ⟨hin', hplain _ _, ht, x, hx'⟩ hkept

theorem advance_handling {p : GoProg (schema U) Unit (Option GoError)}
    (hG : Global strict settled s.world)
    (hL : Phase.Local strict c (.handling tx job p jobs n : Phase U V) s.world)
    (hcode : Phase.code marshal q (.handling tx job p jobs n) = .op o k)
    (hexec : s.world.exec c e o = some (r, w)) :
    (outline marshal q strict settled).Advances s c w (k r) := by
  obtain ⟨hin, hp, ht, x, hx⟩ := hL
  cases p with
  | panic v => exact hp.elim
  | ret err =>
      cases (Phase.code_handling_ret hx.attempts_nonneg tx err jobs n).symm.trans hcode
      obtain ⟨hL', hG', hkept⟩ := handling_exit (V := V) (n := n) hG hx ht hexec
      exact advance hG' rfl hL' hkept
  | op o' k' =>
      cases (Phase.code_handling_op tx job o' k' jobs n).symm.trans hcode
      obtain ⟨a, rfl, ha⟩ : ∃ a, o = .ext a ∧ jobOf (.ext a : Op (schema U) Unit) = none :=
        hp.1.eq_ext
      obtain ⟨hwork, -, htally, hG', hkept⟩ := outside_step hG ha hexec
      exact advance (p := .handling tx job (k' r) jobs n) hG' rfl
        ⟨inHandler_exec hexec ha hin, hp.2 r, fun hs => htally (ht hs), x, hwork hx⟩ hkept

theorem advance_retrying {err : GoError} (hG : Global strict settled s.world)
    (hL : Phase.Local strict c (.retrying tx job err jobs n : Phase U V) s.world)
    (hcode : Phase.code marshal q (.retrying tx job err jobs n) = .op o k)
    (hexec : s.world.exec c e o = some (r, w)) :
    (outline marshal q strict settled).Advances s c w (k r) := by
  obtain ⟨hin, ht, x, hx⟩ := hL
  cases (Phase.code_retrying tx job err jobs n).symm.trans hcode
  obtain ⟨hwork, -, htally, hG', hkept⟩ := outside_step hG rfl hexec
  exact advance (p := .updating tx job (some err) r jobs n) hG' rfl
    ⟨inHandler_exec hexec rfl hin, fun hs => htally (ht hs), x, hwork hx⟩ hkept

theorem advance_updating {err : Option GoError} {now : ℤ} (hG : Global strict settled s.world)
    (hL : Phase.Local strict c (.updating tx job err now jobs n : Phase U V) s.world)
    (he : e.fault = none) (hcode : Phase.code marshal q (.updating tx job err now jobs n) = .op o k)
    (hexec : s.world.exec c e o = some (r, w)) :
    (outline marshal q strict settled).Advances s c w (k r) := by
  obtain ⟨hin, ht, x, hx⟩ := hL
  cases (Phase.code_updating tx job err now jobs n).symm.trans hcode
  obtain ⟨⟨y, hy⟩, hG', hkept⟩ := update_step hG hx ht he hexec
  exact advance (p := .executing tx jobs n) hG' rfl ⟨inHandler_exec hexec rfl hin, y, hy⟩ hkept

theorem advance_producing (hG : Global strict settled s.world)
    (hL : Phase.Local strict c (.producing work : Phase U V) s.world) (he : e.fault = none)
    (hcode : Phase.code marshal q (.producing work) = .op o k)
    (hexec : s.world.exec c e o = some (r, w)) :
    (outline marshal q strict settled).Advances s c w (k r) := by
  obtain ⟨hin, hwork⟩ := hL
  rcases @Phase.code_producing U V marshal q work with
    h | ⟨a, raw, rest, hsuf, h⟩ | ⟨script, rest, k', hsuf, h, hnext⟩
  · cases h.symm.trans hcode
  · cases h.symm.trans hcode
    obtain ⟨-, -, -, hG', hkept⟩ := outside_step hG rfl hexec
    exact advance (p := .storing a raw r rest) hG' rfl ⟨inHandler_exec hexec rfl hin,
      fun b hb => hwork b (hsuf.subset (List.mem_cons_of_mem _ hb)),
      hwork _ (hsuf.subset List.mem_cons_self)⟩ hkept
  · cases h.symm.trans hcode
    obtain ⟨tx, x, rfl, hx, hlog, hlocks, hG', hkept⟩ := begin_step hG he hexec
    exact advance (p := .enqueuing tx script rest) hG' (hnext tx) ⟨inHandler_exec hexec rfl hin,
      fun b hb => hwork b (hsuf.subset (List.mem_cons_of_mem _ hb)),
      hwork _ (hsuf.subset List.mem_cons_self), x, hx.working hlocks,
      fun id hid => by simp [hlocks] at hid⟩ hkept

theorem advance_enqueuing {script : EnqueueScript V} (hG : Global strict settled s.world)
    (hL : Phase.Local strict c (.enqueuing tx script work : Phase U V) s.world)
    (he : e.fault = none) (hcode : Phase.code marshal q (.enqueuing tx script work) = .op o k)
    (hexec : s.world.exec c e o = some (r, w)) :
    (outline marshal q strict settled).Advances s c w (k r) := by
  obtain ⟨hin, hwork, hscript, x, hx, hfresh⟩ := hL
  rcases @Phase.code_enqueuing U V marshal q _ script hscript tx work with
    h | h | ⟨a, raw, k', ha, hk', h⟩
  · cases h.symm.trans hcode
    obtain ⟨hG', hkept⟩ := commit_step hG hx he hexec
    exact advance (p := .producing work) hG' rfl ⟨inHandler_exec hexec rfl hin, hwork⟩ hkept
  · cases h.symm.trans hcode
    obtain ⟨hG', hkept⟩ := rollback_step hG hx.toOpened hfresh hexec
    exact advance (p := .producing work) hG' rfl ⟨inHandler_exec hexec rfl hin, hwork⟩ hkept
  · cases h.symm.trans hcode
    obtain ⟨hkeep, hfresh', -, hG', hkept⟩ := outside_step hG rfl hexec
    exact advance (p := .inserting tx a raw r k' work) hG' rfl
      ⟨inHandler_exec hexec rfl hin, hwork, ha, hk', x, hkeep hx, hfresh' hfresh⟩ hkept

theorem advance_inserting {a : EnqueueCall V} {raw : String} {now : ℤ}
    {k' : Option GoError → EnqueueScript V} (hG : Global strict settled s.world)
    (hL : Phase.Local strict c (.inserting tx a raw now k' work : Phase U V) s.world)
    (he : e.fault = none)
    (hcode : Phase.code marshal q (.inserting tx a raw now k' work) = .op o k)
    (hexec : s.world.exec c e o = some (r, w)) :
    (outline marshal q strict settled).Advances s c w (k r) := by
  obtain ⟨hin, hwork, ha, hscript, x, hx, hfresh⟩ := hL
  cases (Phase.code_inserting tx a raw now k' work).symm.trans hcode
  obtain ⟨⟨y, hy, hfresh'⟩, hG', hkept⟩ := insert_step hG hx hfresh ha he hexec
  exact advance (p := .enqueuing tx _ work) hG' rfl
    ⟨inHandler_exec hexec rfl hin, hwork, hscript _, y, hy, hfresh'⟩ hkept

theorem advance_storing {a : EnqueueCall V} {raw : String} {now : ℤ}
    (hG : Global strict settled s.world)
    (hL : Phase.Local strict c (.storing a raw now work : Phase U V) s.world) (he : e.fault = none)
    (hcode : Phase.code marshal q (.storing a raw now work) = .op o k)
    (hexec : s.world.exec c e o = some (r, w)) :
    (outline marshal q strict settled).Advances s c w (k r) := by
  obtain ⟨hin, hwork, ha⟩ := hL
  cases hcode
  obtain ⟨hG', hkept⟩ := store_step hG ha he hexec
  exact advance (p := .producing work) hG' rfl ⟨inHandler_exec hexec rfl hin, hwork⟩ hkept

theorem outline_sound (marshal : V → Except GoError String) {q : Queue U Unit} (hq : Outside q) :
    (outline marshal q strict settled).Sound
      (fun (_ : Sys (schema U) Unit ι Unit) x => Steady strict x) where
  step := by
    intro s w c e p o k r hs he hprog hL hcode hexec
    have hG : Global strict settled s.world := hs.1
    change Phase.code marshal q p = .op o k at hcode
    cases p with
    | polling => exact advance_polling hG hL he hcode hexec
    | selecting => exact advance_selecting hG hL he hcode hexec
    | executing => exact advance_executing hq hG hL he hcode hexec
    | handling => exact advance_handling hG hL hcode hexec
    | retrying => exact advance_retrying hG hL hcode hexec
    | updating => exact advance_updating hG hL he hcode hexec
    | producing => exact advance_producing hG hL he hcode hexec
    | enqueuing => exact advance_enqueuing hG hL he hcode hexec
    | inserting => exact advance_inserting hG hL he hcode hexec
    | storing => exact advance_storing hG hL he hcode hexec
    | crashed => cases hcode
  crash := by
    intro s c p o k hs hA hL hcode
    have hG : Global strict settled s.world := hs.1
    exact ⟨hG.drop hA c, ⟨.crashed, rfl, trivial⟩, fun b q hb hLb => hLb.kept (kept_drop hb)⟩

end Phases

end Gkit.JobQueue
