import Gkit.JobQueue.Model
import Gkit.Store.Solo

/-!
# One batch with nobody else on the server

The handlers of a batch run one after the other in the transaction that
`processBatch` has begun.  What each job leaves behind is stated once, as a
relation that composes, and holds of the whole batch by induction over its jobs.
-/

namespace Gkit.JobQueue

open Gkit.Lib Gkit.Store

variable {U : Schema} {δ ι : Type}

/-! ## What the history says about handlers -/

/-- The jobs whose handlers were called, in order. -/
def invocations (es : List (Entry (schema U) δ ι)) : List ℕ :=
  es.filterMap fun en =>
    match en with
    | ⟨_, .ext (.invoked id), _⟩ => some id
    | _ => none

/-- The jobs whose handlers have returned, with what they returned. -/
def returns (es : List (Entry (schema U) δ ι)) : List (ℕ × Option GoError) :=
  es.filterMap fun en =>
    match en with
    | ⟨_, .ext (.returned id err), _⟩ => some (id, err)
    | _ => none

/-- Some statement of a handler has failed. -/
def statementFails (es : List (Entry (schema U) δ ι)) : Bool :=
  es.any fun en =>
    match en with
    | ⟨_, .exec _ (.user _), .error _⟩ => true
    | _ => false

@[simp] theorem invocations_append (es es' : List (Entry (schema U) δ ι)) :
    invocations (es ++ es') = invocations es ++ invocations es' := List.filterMap_append

@[simp] theorem returns_append (es es' : List (Entry (schema U) δ ι)) :
    returns (es ++ es') = returns es ++ returns es' := List.filterMap_append

@[simp] theorem statementFails_append (es es' : List (Entry (schema U) δ ι)) :
    statementFails (es ++ es') = (statementFails es || statementFails es') := List.any_append

/-- Nothing about handlers is recorded here. -/
def Silent (es : List (Entry (schema U) δ ι)) : Prop :=
  invocations es = [] ∧ returns es = [] ∧ statementFails es = false

/-- What has been added to the history. -/
def newEntries (w w' : World (schema U) δ ι) : List (Entry (schema U) δ ι) :=
  w'.hist.drop w.hist.length

theorem newEntries_eq {w w' : World (schema U) δ ι} {es : List (Entry (schema U) δ ι)}
    (h : w'.hist = w.hist ++ es) : newEntries w w' = es := by
  simp [newEntries, h]

/-! ## What an attempt should make of a job -/

/-- The columns in which an attempt is accounted for. -/
def JobRow.standing (row : JobRow) : Status × ℤ × Option String :=
  (row.status, row.attempts, row.lastError)

/-- One more attempt with this result. -/
def attempted (row : JobRow) : Option GoError → Status × ℤ × Option String
  | none => (.done, row.attempts + 1, row.lastError)
  | some err => (if row.attempts + 1 < row.maxAttempts then .pending else .dead,
      row.attempts + 1, some err.error)

def Accounted (before after : Table JobRow.id) (id : ℕ) (err : Option GoError) : Prop :=
  ∃ row row', before.get id = some row ∧ after.get id = some row' ∧
    row'.standing = attempted row err

/-- The update that `executeJob` makes. -/
def settling (job : Job) (now : ℤ) : Option GoError → Update
  | none => .done (job.attempts + 1)
  | some err =>
      if job.attempts + 1 ≥ job.maxAttempts then .dead (job.attempts + 1) err.error
      else .pending (job.attempts + 1) err.error (now + backoff (job.attempts + 1).toNat)

theorem standing_set_settling (row : JobRow) (now stamp : ℤ) (err : Option GoError) :
    ((settling row.job now err).set stamp row).standing = attempted row err := by
  cases err with
  | none => rfl
  | some err =>
      by_cases h : row.maxAttempts ≤ row.attempts + 1
      · simp [settling, attempted, JobRow.job, JobRow.standing, Update.set, h]
      · simp [settling, attempted, JobRow.job, JobRow.standing, Update.set, h, not_le.mp h]

/-! ## Handlers -/

/-- What a handler may do with the transaction of its batch: run statements on
its own tables.  Beside that it may look at the clock and ask other services. -/
def HandlerOp (t : Tx δ) : Op (schema U) δ → Prop
  | .exec t' (.user _) => t' = t
  | .ext .now => True
  | .ext (.ask _) => True
  | _ => False

/-- The handler uses the database through the transaction in its context only,
and returns. -/
def UsesTx (h : Handler U δ) : Prop :=
  ∀ ctx t payload, ctx.tx = some t → (h ctx payload).Plain (HandlerOp t)

/-- A callback that keeps to its transaction does so inside `WithTx`. -/
theorem plain_withTx {ctx : Context δ} {t : Tx δ} (hctx : ctx.tx = some t) (db : δ)
    {fn : Context δ → Tx δ → GoProg (schema U) δ (Option GoError)}
    (hfn : (fn ctx t).Plain (HandlerOp t)) : (withTx db ctx fn).Plain (HandlerOp t) := by
  rwa [withTx_nested db hctx]

theorem run_user_writes {m : Moment (Env U)} {d : Tables U} {locked : Key U → Bool} {s : U.Stmt}
    {r : U.Ret s} {ws : List (Write U)} {ks : List (Key U)}
    (h : (Stmt.user s).run m d locked = .done r ws ks) :
    ∃ us : List U.Write, ws = us.map .user := by
  obtain ⟨us, ks', -, hws, -⟩ := Verdict.map_eq_done.mp h
  exact ⟨us, hws.symm⟩

/-- The state after some operations of a handler that was called in the state
`x` of its transaction. -/
structure Handling (t : Tx Unit) (x : TxState (schema U) Unit ι) (w : World (schema U) Unit ι)
    (y : TxState (schema U) Unit ι) (w' : World (schema U) Unit ι) : Prop where
  sole : World.Sole t y w'
  within : World.Within w w'
  started : y.started = x.started
  log : ∃ us : List U.Write, y.log = x.log ++ us.map .user
  entries : ∃ es, w'.hist = w.hist ++ es ∧ invocations es = [] ∧ returns es = [] ∧
    y.aborted = (x.aborted || statementFails es)

section Alone

variable {t : Tx Unit} {x y : TxState (schema U) Unit ι} {w w' : World (schema U) Unit ι}
  {c : ι} {env : ℕ → Tick (schema U)}

theorem Handling.refl (h : World.Sole t x w) : Handling t x w x w :=
  ⟨h, .refl w, rfl, ⟨[], by simp⟩, [], by simp, rfl, rfl, by simp [statementFails]⟩

theorem Handling.step (h : Handling t x w y w') {o : Op (schema U) Unit} (ho : HandlerOp t o)
    (e : Tick (schema U)) :
    ∃ r w₂ z, w'.exec c e o = some (r, w₂) ∧ Handling t x w z w₂ := by
  obtain ⟨us, hus⟩ := h.log
  obtain ⟨es, hes, hinv, hret, hab⟩ := h.entries
  cases o with
  | exec t' s =>
      cases s with
      | user s =>
          obtain rfl : t' = t := ho
          obtain ⟨r, w₂, hexec, hwithin, hcases⟩ := h.sole.exec c e (Stmt.user s)
          have hhist : w₂.hist = w.hist ++ (es ++ [⟨c, .exec t' (.user s), r⟩]) := by
            rw [World.exec_hist hexec, hes, List.append_assoc]
          rcases hcases with ⟨err, rfl, hsole, -⟩ | ⟨ret, ws, ks, rfl, ha, -, hrun, hsole⟩
          · refine ⟨_, w₂, _, hexec, hsole, h.within.trans hwithin, h.started, ⟨us, hus⟩, _, hhist,
              by rw [invocations_append, hinv]; rfl, by rw [returns_append, hret]; rfl, ?_⟩
            have hfail : statementFails
                [(⟨c, .exec t' (.user s), .error err⟩ : Entry (schema U) Unit ι)] = true := rfl
            simp [hfail]
          · have hrun' : (Stmt.user s).run ⟨y.started, e.env, w'.hist.length⟩ (w'.view y)
                (fun _ => false) = .done ret ws ks := hrun
            obtain ⟨us', rfl⟩ := run_user_writes hrun'
            refine ⟨_, w₂, _, hexec, hsole, h.within.trans hwithin, h.started,
              ⟨us ++ us', by simp [hus]⟩, _, hhist, by rw [invocations_append, hinv]; rfl,
              by rw [returns_append, hret]; rfl, ?_⟩
            have hgood : statementFails
                [(⟨c, .exec t' (.user s), .ok ret⟩ : Entry (schema U) Unit ι)] = false := rfl
            simpa [hgood] using hab
      | insertJob | selectPending | updateJob => exact ho.elim
  | ext a =>
      have hexec : w'.exec c e (.ext a) =
          some (e.env.reply a, w'.record c (.ext a) (e.env.reply a)) := rfl
      refine ⟨_, _, y, hexec, h.sole.record c _ _, h.within.trans (World.within_record ..),
        h.started, ⟨us, hus⟩, es ++ [⟨c, .ext a, e.env.reply a⟩], by simp [hes], ?_⟩
      rw [invocations_append, returns_append, statementFails_append, hinv, hret, hab]
      cases a with
      | now | ask => exact ⟨rfl, rfl, congrArg _ (Bool.or_false _).symm⟩
      | invoked | returned => exact ho.elim
  | begin | pool | commit | rollback | observe => exact ho.elim

theorem solo_handler (c : ι) (env : ℕ → Tick (schema U)) {h : Handler U Unit} (hh : UsesTx h)
    {ctx : Context Unit} (hctx : ctx.tx = some t) (payload : String) (hx : World.Sole t x w) :
    ∃ err w' y, (h ctx payload).solo c env w = some (.ret err, w') ∧ Handling t x w y w' := by
  obtain ⟨err, w', hsolo, y, hy⟩ := (hh ctx t payload hctx).solo c env
    (I := fun w' => ∃ y, Handling t x w y w')
    (fun o w' ho ⟨y, hy⟩ => by
      obtain ⟨r, w₂, z, hexec, hz⟩ := hy.step ho (env w'.hist.length)
      exact ⟨r, w₂, hexec, z, hz⟩)
    ⟨x, .refl hx⟩
  exact ⟨err, w', y, hsolo, hy⟩

/-! ## One job -/

theorem settleJob_final {job : Job} {err : Option GoError}
    (h : err = none ∨ job.attempts + 1 ≥ job.maxAttempts) (t : Tx δ) (now : ℤ) :
    (settleJob t job err : GoProg (schema U) δ Unit) =
      .op (.exec t (.updateJob (settling job now err) job.id)) fun _ => .ret () := by
  cases err with
  | none => rfl
  | some err =>
      have hmax : job.attempts + 1 ≥ job.maxAttempts := by simpa using h
      have hset : settling job now (some err) = .dead (job.attempts + 1) err.error := if_pos hmax
      rw [hset, settleJob, if_pos hmax]
      rfl

theorem settleJob_retry {job : Job} (h : job.attempts + 1 < job.maxAttempts)
    (hpos : 0 ≤ job.attempts) (t : Tx δ) (err : GoError) :
    (settleJob t job (some err) : GoProg (schema U) δ Unit) =
      .op (.ext .now) fun now =>
        .op (.exec t (.updateJob (settling job now (some err)) job.id)) fun _ => .ret () := by
  have hset : ∀ now, settling job now (some err) = .pending (job.attempts + 1) err.error
      (now + backoff (job.attempts + 1).toNat) := fun _ => if_neg (not_le.mpr h)
  have hshift : ¬job.attempts + 1 < 0 := by omega
  simp only [settleJob, if_neg (not_le.mpr h), if_neg hshift]
  refine congrArg (Prog.op _) (funext fun now => ?_)
  rw [hset now]
  rfl

theorem executeJob_eq {q : Queue U δ} {job : Job} {h : Handler U δ}
    (hh : q.handlers job.type = some h) (ctx : Context δ) (t : Tx δ) :
    q.executeJob ctx t job = .op (.ext (.invoked job.id)) fun _ => h ctx job.payload >>= fun err =>
      .op (.ext (.returned job.id err)) fun _ => settleJob t job err := by
  simp only [Queue.executeJob, hh]
  rfl

theorem executeJob_none {q : Queue U δ} {job : Job} (hh : q.handlers job.type = none)
    (ctx : Context δ) (t : Tx δ) :
    q.executeJob ctx t job = .op (.exec t (.updateJob
      (.failed ("no handler for type " ++ quote job.type)) job.id)) fun _ => .ret () := by
  simp only [Queue.executeJob, hh]
  rfl

theorem foldl_user_jobs (us : List U.Write) (d : Tables U) :
    ((us.map Write.user).foldl Tables.apply d).jobs = d.jobs := by
  induction us generalizing d with
  | nil => rfl
  | cons u us ih => exact ih _

theorem view_of_log {more : List (Write U)} (hlog : y.log = x.log ++ more)
    (hwithin : World.Within w w') : w'.view y = more.foldl Tables.apply (w.view x) := by
  simp only [World.view, hlog, List.foldl_append, hwithin.committed]

/-- The bookkeeping after a handler has returned: a row is written, or the
transaction is aborted already and nothing happens. -/
structure Settled (t : Tx Unit) (x : TxState (schema U) Unit ι) (w : World (schema U) Unit ι)
    (row : JobRow) (y : TxState (schema U) Unit ι) (w' : World (schema U) Unit ι) : Prop where
  sole : World.Sole t y w'
  within : World.Within w w'
  started : y.started = x.started
  aborted : y.aborted = x.aborted
  log : y.log = x.log ++ if x.aborted then [] else [.job row]
  entries : ∃ es, w'.hist = w.hist ++ es ∧ Silent es

theorem solo_update (c : ι) (henv : ∀ n, (env n).fault = none) (hx : World.Sole t x w) (u : Update)
    {id : ℕ} {row : JobRow} (hrow : (w.view x).jobs.get id = some row) :
    ∃ w' y, (.op (.exec t (.updateJob u id)) fun _ => .ret () :
        GoProg (schema U) Unit Unit).solo c env w = some (.ret (), w') ∧
      Settled t x w (u.set x.started.clock row) y w' := by
  obtain ⟨r, w', hexec, hwithin, hcases⟩ := hx.exec c (env w.hist.length) (Stmt.updateJob u id)
  have hrun : (Stmt.updateJob u id).run ⟨x.started, (env w.hist.length).env, w.hist.length⟩
      (w.view x) (fun _ => false) = .done () [.job (u.set x.started.clock row)] [.job id] := by
    simp [Stmt.run, hrow]
  have hsolo : (.op (.exec t (.updateJob u id)) fun _ => .ret () :
      GoProg (schema U) Unit Unit).solo c env w = some (.ret (), w') := by
    rw [Prog.solo_op, hexec]
    rfl
  have hhist := World.exec_hist hexec
  rcases hcases with ⟨err, rfl, hsole, hwhy⟩ | ⟨ret, ws, ks, rfl, ha, -, hdone, hsole⟩
  · rcases hwhy with ⟨ha, -⟩ | ⟨-, he | ⟨-, hfail⟩⟩
    · exact ⟨w', _, hsolo, hsole, hwithin, rfl, ha.symm, by simp [ha], _, hhist, rfl, rfl, rfl⟩
    · simp [henv] at he
    · exact absurd (hrun.symm.trans hfail) (by simp)
  · cases hrun.symm.trans hdone
    exact ⟨w', _, hsolo, hsole, hwithin, rfl, rfl, by simp [ha], _, hhist, rfl, rfl, rfl⟩

theorem solo_settleJob (c : ι) (henv : ∀ n, (env n).fault = none) (hx : World.Sole t x w)
    {row : JobRow} (hrow : (w.view x).jobs.get row.id = some row) (hpos : 0 ≤ row.attempts)
    (err : Option GoError) :
    ∃ w' y now, (settleJob t row.job err).solo c env w = some (.ret (), w') ∧
      Settled t x w ((settling row.job now err).set x.started.clock row) y w' := by
  by_cases hfinal : err = none ∨ row.job.attempts + 1 ≥ row.job.maxAttempts
  · rw [settleJob_final hfinal t 0]
    obtain ⟨w', y, hsolo, hy⟩ := solo_update c henv hx (settling row.job 0 err) hrow
    exact ⟨w', y, 0, hsolo, hy⟩
  · obtain ⟨hne, hlt⟩ := not_or.mp hfinal
    obtain ⟨err, rfl⟩ := Option.ne_none_iff_exists'.mp hne
    rw [settleJob_retry (not_le.mp hlt) hpos]
    set now := (env w.hist.length).env.clock with hnow
    set w₁ := w.record c (.ext .now) now with hw₁
    obtain ⟨w', y, hsolo, hy⟩ := solo_update c henv (hx.record c (.ext .now) now)
      (settling row.job now (some err)) hrow
    obtain ⟨es, hes, hinv, hret, hfail⟩ := hy.entries
    refine ⟨w', y, now, hsolo, hy.sole, (World.within_record ..).trans hy.within, hy.started,
      hy.aborted, hy.log, ⟨c, .ext .now, now⟩ :: es, by simp [hes], ?_, ?_, ?_⟩
    · exact hinv
    · exact hret
    · exact hfail

/-- What working through the jobs `ids` leaves behind.  Unless a statement of
a handler has failed, every one of them whose handler was called is accounted for
in what the transaction will commit, and no other job than these has changed. -/
structure Worked (t : Tx Unit) (x : TxState (schema U) Unit ι) (w : World (schema U) Unit ι)
    (ids : List ℕ) (y : TxState (schema U) Unit ι) (w' : World (schema U) Unit ι) : Prop where
  sole : World.Sole t y w'
  within : World.Within w w'
  started : y.started = x.started
  log : ∃ more, y.log = x.log ++ more
  entries : ∃ es, w'.hist = w.hist ++ es ∧ (returns es).map Prod.fst = invocations es ∧
    invocations es ⊆ ids ∧ (invocations es = [] → statementFails es = false) ∧
    y.aborted = (x.aborted || statementFails es) ∧
    (y.aborted = false → ∀ p ∈ returns es, Accounted (w.view x).jobs (w'.view y).jobs p.1 p.2)
  others : ∀ id ∉ ids, (w'.view y).jobs.get id = (w.view x).jobs.get id

theorem Worked.nil (h : World.Sole t x w) : Worked t x w [] x w :=
  ⟨h, .refl w, rfl, ⟨[], by simp⟩, ⟨[], by simp, rfl, List.Subset.refl _, fun _ => rfl,
    by simp [statementFails], by simp [returns]⟩, fun _ _ => rfl⟩

theorem Worked.append {ids ids' : List ℕ} {z : TxState (schema U) Unit ι}
    {w'' : World (schema U) Unit ι} (h : Worked t x w ids y w') (h' : Worked t y w' ids' z w'')
    (hdisj : ids.Disjoint ids') : Worked t x w (ids ++ ids') z w'' := by
  obtain ⟨more, hmore⟩ := h.log
  obtain ⟨more', hmore'⟩ := h'.log
  obtain ⟨es, hes, hret, hsub, hnil, hab, hacc⟩ := h.entries
  obtain ⟨es', hes', hret', hsub', hnil', hab', hacc'⟩ := h'.entries
  have halive : z.aborted = false → y.aborted = false := by
    intro hz
    rw [hz] at hab'
    simpa using (Bool.or_eq_false_iff.mp hab'.symm).1
  have hmem : ∀ p ∈ returns es, p.1 ∈ ids := fun p hp => hsub (hret ▸ List.mem_map_of_mem hp)
  have hmem' : ∀ p ∈ returns es', p.1 ∈ ids' := fun p hp => hsub' (hret' ▸ List.mem_map_of_mem hp)
  refine ⟨h'.sole, h.within.trans h'.within, h'.started.trans h.started,
    ⟨more ++ more', by rw [hmore', hmore, List.append_assoc]⟩,
    ⟨es ++ es', by rw [hes', hes, List.append_assoc], ?_, ?_, ?_, ?_, ?_⟩, ?_⟩
  · rw [returns_append, List.map_append, hret, hret', invocations_append]
  · rw [invocations_append]
    exact List.append_subset.mpr ⟨List.subset_append_of_subset_left _ hsub,
      List.subset_append_of_subset_right _ hsub'⟩
  · intro hids
    obtain ⟨h₁, h₂⟩ := List.append_eq_nil_iff.mp (invocations_append es es' ▸ hids)
    rw [statementFails_append, hnil h₁, hnil' h₂]
    rfl
  · rw [hab', hab, statementFails_append, Bool.or_assoc]
  · intro hz p hp
    rw [returns_append] at hp
    rcases List.mem_append.mp hp with hp | hp
    · obtain ⟨row, row', hrow, hrow', hst⟩ := hacc (halive hz) p hp
      refine ⟨row, row', hrow, ?_, hst⟩
      rw [h'.others p.1 (hdisj (hmem p hp)), hrow']
    · obtain ⟨row, row', hrow, hrow', hst⟩ := hacc' hz p hp
      refine ⟨row, row', ?_, hrow', hst⟩
      rw [← h.others p.1 (fun hin => hdisj hin (hmem' p hp)), hrow]
  · intro id hid
    rw [List.mem_append, not_or] at hid
    rw [h'.others id hid.2, h.others id hid.1]

/-- A job without a handler. -/
theorem solo_executeJob_none (c : ι) (henv : ∀ n, (env n).fault = none) {q : Queue U Unit}
    (ctx : Context Unit) (hx : World.Sole t x w) {row : JobRow}
    (hrow : (w.view x).jobs.get row.id = some row) (hq : q.handlers row.type = none) :
    ∃ w' y, (q.executeJob ctx t row.job).solo c env w = some (.ret (), w') ∧
      Worked t x w [row.id] y w' := by
  have hq' : q.handlers row.job.type = none := hq
  rw [executeJob_none hq']
  obtain ⟨w', y, hsolo, hy⟩ := solo_update c henv hx
    (.failed ("no handler for type " ++ quote row.job.type)) hrow
  obtain ⟨es, hes, hinv, hret, hfail⟩ := hy.entries
  refine ⟨w', y, hsolo, hy.sole, hy.within, hy.started, ⟨_, hy.log⟩,
    ⟨es, hes, by simp [hinv, hret], by simp [hinv], fun _ => hfail, by simp [hy.aborted, hfail],
      by simp [hret]⟩, fun id hid => ?_⟩
  rw [view_of_log hy.log hy.within]
  split_ifs
  · rfl
  · exact Table.get_put_of_ne (by simpa using hid)

theorem solo_executeJob (c : ι) (henv : ∀ n, (env n).fault = none) {q : Queue U Unit}
    {ctx : Context Unit} (hctx : ctx.tx = some t) (hx : World.Sole t x w) {row : JobRow}
    (hrow : (w.view x).jobs.get row.id = some row) (hpos : 0 ≤ row.attempts)
    {h : Handler U Unit} (hq : q.handlers row.type = some h) (hh : UsesTx h) :
    ∃ w' y, (q.executeJob ctx t row.job).solo c env w = some (.ret (), w') ∧
      Worked t x w [row.id] y w' := by
  obtain ⟨err, w₂, y, hhandler, hy⟩ := solo_handler c env hh hctx row.payload
    (hx.record c (.ext (.invoked row.id)) ())
  obtain ⟨us, hus⟩ := hy.log
  obtain ⟨es, hes, hinv, hret, hab⟩ := hy.entries
  have hwithin₃ : World.Within w (w₂.record c (.ext (.returned row.id err)) ()) :=
    ((World.within_record w c (.ext (.invoked row.id)) ()).trans hy.within).trans
      (World.within_record w₂ c (.ext (.returned row.id err)) ())
  have hjobs : ((w₂.record c (.ext (.returned row.id err)) ()).view y).jobs = (w.view x).jobs := by
    rw [view_of_log hus hwithin₃, foldl_user_jobs]
  obtain ⟨w', z, now, hsettle, hz⟩ := solo_settleJob c henv
    (hy.sole.record c (.ext (.returned row.id err)) ()) (hjobs ▸ hrow) hpos err
  obtain ⟨es', hes', hinv', hret', hfail'⟩ := hz.entries
  have hwithin := hwithin₃.trans hz.within
  have hview : (w'.view z).jobs = if z.aborted then (w.view x).jobs else
      (w.view x).jobs.put ((settling row.job now err).set y.started.clock row) := by
    rw [view_of_log hz.log hz.within, hz.aborted, ← hjobs]
    split_ifs <;> rfl
  set first : Entry (schema U) Unit ι := ⟨c, .ext (.invoked row.id), ()⟩
  set last : Entry (schema U) Unit ι := ⟨c, .ext (.returned row.id err), ()⟩
  have hreturns : returns ([first] ++ es ++ [last] ++ es') = [(row.id, err)] := by
    simp only [returns_append, hret, hret']
    rfl
  have hcalled : invocations ([first] ++ es ++ [last] ++ es') = [row.id] := by
    simp only [invocations_append, hinv, hinv']
    rfl
  have hlog : ∃ more, z.log = x.log ++ more := ⟨_, by rw [hz.log, hus, List.append_assoc]⟩
  refine ⟨w', z, ?_, hz.sole, hwithin, hz.started.trans hy.started, hlog,
    ⟨[first] ++ es ++ [last] ++ es', ?_, by rw [hreturns, hcalled]; rfl,
      by rw [hcalled]; exact List.Subset.refl _, by rw [hcalled]; simp, ?_, ?_⟩, ?_⟩
  · rw [executeJob_eq hq, Prog.solo_op]
    change (h ctx row.payload >>= _).solo c env (w.record c (.ext (.invoked row.id)) ()) = _
    rw [Prog.solo_bind, hhandler]
    exact hsettle
  · rw [hes', World.record_hist, hes, World.record_hist]
    simp [first, last]
  · have hfirst : statementFails [first] = false := rfl
    have hlast : statementFails [last] = false := rfl
    simp only [hz.aborted, hab, statementFails_append, hfirst, hlast, hfail', Bool.or_false,
      Bool.false_or]
  · rintro halive p hp
    obtain rfl : p = (row.id, err) := List.mem_singleton.mp (hreturns ▸ hp)
    refine ⟨row, _, hrow, ?_, standing_set_settling row now y.started.clock err⟩
    rw [hview, halive, ← Update.set_id y.started.clock row (settling row.job now err)]
    exact Table.get_put_self
  · intro id hid
    rw [hview]
    split_ifs
    · rfl
    · exact Table.get_put_of_ne (by simpa using hid)

/-! ## The whole batch -/

/-- The loop of `processBatch`, as calls of `executeJob`. -/
def jobScript : List Job → Prog Job (fun _ => Unit) Unit
  | [] => .ret ()
  | job :: jobs => .op job fun _ => jobScript jobs

theorem executeJobs_eq (q : Queue U δ) (ctx : Context δ) (t : Tx δ) (jobs : List Job) :
    q.executeJobs ctx t jobs = (jobScript jobs).handle (q.executeJob ctx t) := by
  induction jobs with
  | nil => rfl
  | cons job jobs ih =>
      simp only [Queue.executeJobs, ih]
      rfl

abbrev JobCall (U : Schema) (ι : Type) := Call (schema U) Unit ι Job fun _ => Unit

/-- A call of `executeJob` that leads from one state of the transaction and of
the server to the next. -/
def JobLink (t : Tx Unit) (s : TxState (schema U) Unit ι × World (schema U) Unit ι)
    (call : JobCall U ι) (s' : TxState (schema U) Unit ι × World (schema U) Unit ι) : Prop :=
  Worked t s.1 s.2 [call.request.id] s'.1 s'.2 ∧ call.before = s.2 ∧ call.after = s'.2

/-- The handler of the job, if there is one, uses the transaction in its context. -/
structure Served (q : Queue U Unit) (row : JobRow) : Prop where
  attempts : 0 ≤ row.attempts
  handler : ∀ h, q.handlers row.type = some h → UsesTx h

theorem calls_executeJobs (c : ι) (henv : ∀ n, (env n).fault = none) (q : Queue U Unit)
    {ctx : Context Unit} (hctx : ctx.tx = some t) {rows : List JobRow}
    (hnodup : (rows.map JobRow.id).Nodup) (hx : World.Sole t x w)
    (hrows : ∀ row ∈ rows, (w.view x).jobs.get row.id = some row)
    (hserved : ∀ row ∈ rows, Served q row) :
    ∃ calls w' y, (jobScript (rows.map JobRow.job)).calls c env (q.executeJob ctx t) w =
        some (calls, .ret (), w') ∧
      Chained (JobLink t) (x, w) calls (y, w') ∧ Worked t x w (rows.map JobRow.id) y w' := by
  induction rows generalizing x w with
  | nil => exact ⟨[], w, x, rfl, .nil _, .nil hx⟩
  | cons row rows ih =>
      obtain ⟨hpos, hh⟩ := hserved row List.mem_cons_self
      obtain ⟨hnot, hnodup⟩ := List.nodup_cons.mp hnodup
      have hrow := hrows row List.mem_cons_self
      obtain ⟨w₁, y, hsolo, hy⟩ : ∃ w₁ y, (q.executeJob ctx t row.job).solo c env w =
          some (.ret (), w₁) ∧ Worked t x w [row.id] y w₁ := by
        cases hq : q.handlers row.type with
        | none => exact solo_executeJob_none c henv ctx hx hrow hq
        | some h => exact solo_executeJob c henv hctx hx hrow hpos hq (hh h hq)
      have hrows' : ∀ r ∈ rows, (w₁.view y).jobs.get r.id = some r := fun r hr => by
        have hne : r.id ∉ [row.id] := by
          rw [List.mem_singleton]
          exact fun heq => hnot (heq ▸ List.mem_map_of_mem hr)
        rw [hy.others r.id hne, hrows r (List.mem_cons_of_mem _ hr)]
      obtain ⟨calls, w', z, hcalls, hchain, hz⟩ :=
        ih hnodup hy.sole hrows' fun r hr => hserved r (List.mem_cons_of_mem _ hr)
      have hlink : JobLink t (x, w) ⟨row.job, (), w, w₁⟩ (y, w₁) := ⟨hy, rfl, rfl⟩
      refine ⟨⟨row.job, (), w, w₁⟩ :: calls, w', z, ?_, .cons hlink hchain,
        hy.append hz (by simpa using hnot)⟩
      simp [jobScript, Prog.calls, hsolo, hcalls]

/-- The state in which the loop of `processBatch` starts. -/
structure Started (t : Tx Unit) (w : World (schema U) Unit ι) (x : TxState (schema U) Unit ι)
    (w' : World (schema U) Unit ι) : Prop where
  sole : World.Sole t x w'
  log : x.log = []
  alive : x.aborted = false
  base : w'.base = w.base
  wal : w'.wal = w.wal
  entries : ∃ es, w'.hist = w.hist ++ es ∧ Silent es

theorem Started.view (h : Started t w x w') : w'.view x = w.committed () := by
  simp [World.view, World.committed, h.log, h.base, h.wal]

/-- Run a batch up to the end of its loop and note the calls of `executeJob`. -/
def batchCalls (q : Queue U Unit) (c : ι) (env : ℕ → Tick (schema U))
    (w : World (schema U) Unit ι) :
    Option (List (JobCall U ι) × Outcome Unit × World (schema U) Unit ι) :=
  match w.exec c (env w.hist.length) (.begin ()) with
  | none => none
  | some (.error _, w₁) => some ([], .ret (), w₁)
  | some (.ok tx, w₁) =>
      match w₁.exec c (env w₁.hist.length) (.exec tx .selectPending) with
      | none => none
      | some (.error _, w₂) => some ([], .ret (), w₂)
      | some (.ok jobs, w₂) =>
          (jobScript jobs).calls c env (q.executeJob (contextWithTx .background tx) tx) w₂

theorem batchTx_eq (q : Queue U δ) (ctx : Context δ) (t : Tx δ) :
    q.batchTx ctx t = .op (.exec t .selectPending) fun r =>
      match r with
      | .error err => .ret (some err)
      | .ok jobs => q.executeJobs ctx t jobs >>= fun _ => .ret none := by
  refine congrArg (Prog.op _) (funext fun r => ?_)
  cases r <;> rfl

/-- The rows that a batch picks: those ready when it begins, in the order in which
its query meets them. -/
def batchRows (env : ℕ → Tick (schema U)) (w : World (schema U) Unit ι) : List JobRow :=
  pick (env w.hist.length).env.clock (env (w.hist.length + 1)).env.rank (w.committed ()).jobs
    fun _ => false

theorem select_pending (c : ι) (henv : ∀ n, (env n).fault = none) (hidle : w.Idle) :
    ∃ x w', Started ⟨(), w.next⟩ w x w' ∧
      (begun w c (env w.hist.length) ()).exec c (env (begun w c (env w.hist.length) ()).hist.length)
        (.exec ⟨(), w.next⟩ .selectPending) =
          some (.ok ((batchRows env w).map JobRow.job), w') := by
  set w₁ := begun w c (env w.hist.length) ()
  obtain ⟨r, w', hexec, hwithin, hcases⟩ :=
    (sole_begun hidle c (env w.hist.length) ()).exec c (env w₁.hist.length) Stmt.selectPending
  have hhist := World.exec_hist hexec
  have hlen : w₁.hist.length = w.hist.length + 1 := by simp [w₁, begun]
  rcases hcases with ⟨err, rfl, hsole, hwhy⟩ | ⟨jobs, ws, ks, rfl, -, -, hrun, hsole⟩
  · rcases hwhy with ⟨ha, -⟩ | ⟨-, he | ⟨-, hfail⟩⟩
    · simp at ha
    · simp [henv] at he
    · cases hfail
  · rw [hlen] at hrun
    cases hrun
    refine ⟨_, w', ⟨hsole, rfl, rfl, hwithin.base, hwithin.wal, ?_⟩, hexec⟩
    exact ⟨_, by rw [hhist]; exact List.append_assoc .., rfl, rfl, rfl⟩

/-- How a batch runs: the jobs it has read are worked through one after the
other, and then the transaction is ended. -/
theorem solo_processBatch (c : ι) (henv : ∀ n, (env n).fault = none) (q : Queue U Unit)
    (hidle : w.Idle) (hserved : ∀ row ∈ batchRows env w, Served q row) :
    ∃ calls x w₀ ids y w₁ out w', batchCalls q c env w = some (calls, .ret (), w₁) ∧
      (q.processBatch .background).solo c env w = some (out, w') ∧
      Started ⟨(), w.next⟩ w x w₀ ∧ Chained (JobLink ⟨(), w.next⟩) (x, w₀) calls (y, w₁) ∧
      Worked ⟨(), w.next⟩ x w₀ ids y w₁ ∧
      Ends c (env w₁.hist.length) ⟨(), w.next⟩ y w₁ (.ret none) out w' := by
  obtain ⟨x, w₀, hstart, hselect⟩ := select_pending c henv hidle
  have hnodup : ((batchRows env w).map JobRow.id).Nodup := nodup_pick _ _ _ _
  obtain ⟨calls, w₁, y, hcalls, hchain, hworked⟩ := calls_executeJobs c henv q
    (contextWithTx_tx .background ⟨(), w.next⟩) hnodup hstart.sole
    (fun row hrow => hstart.view ▸ Table.get_eq_some.mpr ⟨(mem_pick hrow).1, rfl⟩) hserved
  obtain ⟨out, w', hend, hends⟩ := solo_endTx c env hworked.sole (.ret none)
  have hfn : (q.batchTx (contextWithTx .background ⟨(), w.next⟩) ⟨(), w.next⟩).solo c env
      (begun w c (env w.hist.length) ()) = some (.ret none, w₁) := by
    rw [batchTx_eq, Prog.solo_op, hselect]
    change (q.executeJobs _ _ ((batchRows env w).map JobRow.job) >>= fun _ => Prog.ret none).solo c env w₀ = _
    rw [Prog.solo_bind, executeJobs_eq, Prog.solo_handle, hcalls]
    rfl
  refine ⟨calls, x, w₀, _, y, w₁, out, w', ?_, ?_, hstart, hchain, hworked, hends⟩
  · simp only [batchCalls, exec_begin w c () (henv _), hselect, hcalls]
  · rw [Queue.processBatch, solo_withTx_begun () (henv _) hfn, hend]

end Alone

end Gkit.JobQueue
