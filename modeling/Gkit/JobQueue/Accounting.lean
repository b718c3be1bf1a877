import Gkit.JobQueue.Batch

/-!
# What a batch leaves behind

All jobs of a batch share one transaction, with each other and with their
handlers.  A statement that fails in one handler therefore undoes the
bookkeeping of all of them, and a handler that writes and then fails has its
writes committed with the rest.  Both are exact: without a failing statement
every attempt is accounted for, and if no failing handler has written anything
only the writes of the successful ones are committed.
-/

namespace Gkit.JobQueue

open Gkit.Lib Gkit.Store

variable {U : Schema} {ι : Type}

/-- Every job whose handler was called has one attempt more, with the result of
its own handler. -/
def BatchAccounted (w w' : World (schema U) Unit ι) : Prop :=
  ∀ id ∈ invocations (newEntries w w'), ∃ err, (id, err) ∈ returns (newEntries w w') ∧
    Accounted (w.committed ()).jobs (w'.committed ()).jobs id err

theorem standing_ne_attempted (row : JobRow) (err : Option GoError) :
    row.standing ≠ attempted row err := by
  intro h
  have hattempts := congrArg (fun p => p.2.1) h
  cases err <;> simp [JobRow.standing, attempted] at hattempts

theorem not_accounted_self (jobs : Table JobRow.id) (id : ℕ) (err : Option GoError) :
    ¬Accounted jobs jobs id err := by
  rintro ⟨row, row', hrow, hrow', hst⟩
  rw [hrow] at hrow'
  cases hrow'
  exact standing_ne_attempted row err hst

section Batch

variable {w : World (schema U) Unit ι} {env : ℕ → Tick (schema U)} {c : ι} {t : Tx Unit}
  {x y : TxState (schema U) Unit ι} {w₀ w₁ w' : World (schema U) Unit ι} {ids : List ℕ}
  {out : Outcome (Option GoError)} {e : Tick (schema U)}

theorem ends_silent {out' : Outcome (Option GoError)} (h : Ends c e t y w₁ out out' w') :
    ∃ es, w'.hist = w₁.hist ++ es ∧ Silent es := by
  cases h with
  | committed | failed | rolledBack => exact ⟨_, rfl, rfl, rfl, rfl⟩

/-- What the history of a whole batch says is what its jobs have recorded. -/
theorem batch_entries (hstart : Started t w x w₀) (hworked : Worked t x w₀ ids y w₁)
    (hends : Ends c e t y w₁ (.ret none) out w') :
    (returns (newEntries w w')).map Prod.fst = invocations (newEntries w w') ∧
      (invocations (newEntries w w') = [] → statementFails (newEntries w w') = false) ∧
      y.aborted = statementFails (newEntries w w') ∧
      (y.aborted = false → ∀ p ∈ returns (newEntries w w'),
        Accounted (w.committed ()).jobs (w₁.view y).jobs p.1 p.2) := by
  obtain ⟨es₀, hes₀, hinv₀, hret₀, hfail₀⟩ := hstart.entries
  obtain ⟨es, hes, hret, -, hnil, hab, hacc⟩ := hworked.entries
  obtain ⟨es₁, hes₁, hinv₁, hret₁, hfail₁⟩ := ends_silent hends
  rw [hstart.view] at hacc
  have hnew : newEntries w w' = es₀ ++ es ++ es₁ := newEntries_eq (by simp [hes₁, hes, hes₀])
  simp only [hnew, invocations_append, returns_append, statementFails_append, hinv₀, hret₀, hfail₀,
    hinv₁, hret₁, hfail₁, List.nil_append, List.append_nil, Bool.false_or, Bool.or_false]
  exact ⟨hret, hnil, by simpa [hstart.alive] using hab, hacc⟩

theorem committed_of_aborted (hstart : Started t w x w₀) (hworked : Worked t x w₀ ids y w₁)
    (hends : Ends c e t y w₁ (.ret none) out w') (hdead : y.aborted = true) :
    w'.committed () = w.committed () := by
  have hsame : w₁.committed () = w.committed () := by
    rw [hworked.within.committed]
    simp [World.committed, hstart.base, hstart.wal]
  cases hends with
  | committed ha he => simp [hdead] at ha
  | failed err hwhy => exact hsame
  | rolledBack _ hne r => exact absurd rfl hne

/-- Without outside failures a transaction that is not aborted is committed. -/
theorem committed_of_alive (hends : Ends c e t y w₁ (.ret none) out w') (he : e.fault = none)
    (halive : y.aborted = false) :
    w' = (w₁.settle t.id y).record c (.commit t) (.ok ()) := by
  cases hends with
  | committed => rfl
  | failed err hwhy => simp [halive, he] at hwhy
  | rolledBack _ hne r => exact absurd rfl hne

/-- The attempts of a batch are accounted for exactly if no statement of any of
its handlers fails.  Jobs without a handler may be among those that the batch
picks; they have no attempt. -/
theorem processBatch_accounts_iff (q : Queue U Unit) (c : ι) (henv : ∀ n, (env n).fault = none)
    (hidle : w.Idle) (hserved : ∀ row ∈ batchRows env w, Served q row) :
    ∃ out w', (q.processBatch .background).solo c env w = some (out, w') ∧ w'.Idle ∧
      (BatchAccounted w w' ↔ statementFails (newEntries w w') = false) := by
  obtain ⟨calls, x, w₀, ids, y, w₁, out, w', -, hsolo, hstart, -, hworked, hends⟩ :=
    solo_processBatch c henv q hidle hserved
  obtain ⟨hret, hnil, hab, hacc⟩ := batch_entries hstart hworked hends
  refine ⟨out, w', hsolo, hends.idle hworked.sole, fun hall => ?_, fun hgood => ?_⟩
  · by_contra hfail
    have hdead : y.aborted = true := by simpa [hab] using hfail
    obtain ⟨id, hid⟩ := List.exists_mem_of_ne_nil _ fun h => hfail (hnil h)
    obtain ⟨err, -, hrow⟩ := hall id hid
    rw [committed_of_aborted hstart hworked hends hdead] at hrow
    exact not_accounted_self _ _ _ hrow
  · have halive : y.aborted = false := hab.trans hgood
    intro id hid
    obtain ⟨⟨id, err⟩, hp, rfl⟩ := List.mem_map.mp (hret ▸ hid)
    refine ⟨err, hp, ?_⟩
    rw [committed_of_alive hends (henv _) halive, World.committed_record,
      World.committed_settle w₁ w.next y]
    exact hacc halive _ hp

end Batch

/-! ## The writes of the handlers -/

def Write.user? : Write U → Option U.Write
  | .job _ => none
  | .user u => some u

def userWrites (ws : List (Write U)) : List U.Write := ws.filterMap Write.user?

/-- What the handler of this job has returned. -/
def result (call : JobCall U ι) : Option (Option GoError) :=
  (returns (newEntries call.before call.after)).head?.map Prod.snd

/-- What the handler of this job has written in the transaction. -/
def writes (t : Tx Unit) (call : JobCall U ι) : List U.Write :=
  userWrites ((call.after.logOf t).drop (call.before.logOf t).length)

/-- What the batch has committed to the handlers' tables. -/
def committedWrites (w w' : World (schema U) Unit ι) : List U.Write :=
  userWrites ((w'.wal ()).drop (w.wal ()).length)

/-- Only the writes of handlers that returned nil are committed, together with
the done status of their jobs. -/
def OnlySuccessesKept (t : Tx Unit) (w w' : World (schema U) Unit ι)
    (calls : List (JobCall U ι)) : Prop :=
  committedWrites w w' =
      calls.flatMap (fun call => if result call = some none then writes t call else []) ∧
    ∀ call ∈ calls, result call = some none →
      ∃ row, (w'.committed ()).jobs.get call.request.id = some row ∧ row.status = .done

section Writes

variable {t : Tx Unit} {s s' : TxState (schema U) Unit ι × World (schema U) Unit ι}
  {calls : List (JobCall U ι)}

theorem userWrites_append (ws ws' : List (Write U)) :
    userWrites (ws ++ ws') = userWrites ws ++ userWrites ws' := List.filterMap_append

theorem JobLink.writes_eq {call : JobCall U ι} (h : JobLink t s call s')
    (hs : World.Sole t s.1 s.2) : userWrites s'.1.log = userWrites s.1.log ++ writes t call := by
  obtain ⟨hworked, hbefore, hafter⟩ := h
  obtain ⟨more, hmore⟩ := hworked.log
  rw [writes, hbefore, hafter, hs.logOf, hworked.sole.logOf, hmore, List.drop_left,
    userWrites_append]

theorem JobLink.chain_writes (h : Chained (JobLink t) s calls s') (hs : World.Sole t s.1 s.2) :
    userWrites s'.1.log = userWrites s.1.log ++ calls.flatMap (writes t) := by
  induction h with
  | nil s => simp
  | @cons s u s' call calls hlink hchain ih =>
      rw [ih hlink.1.sole, hlink.writes_eq hs, List.flatMap_cons, List.append_assoc]

theorem JobLink.returns_of_result {call : JobCall U ι} (h : JobLink t s call s') :
    ∃ es, s'.2.hist = s.2.hist ++ es ∧
      ∀ err, result call = some err → (call.request.id, err) ∈ returns es := by
  obtain ⟨hworked, hbefore, hafter⟩ := h
  obtain ⟨es, hes, hret, hsub, -⟩ := hworked.entries
  refine ⟨es, hes, fun err herr => ?_⟩
  rw [result, hbefore, hafter, newEntries_eq hes] at herr
  obtain ⟨⟨id, err⟩, hp, rfl⟩ := Option.map_eq_some_iff.mp herr
  have hmem : (id, err) ∈ returns es := List.mem_of_mem_head? hp
  obtain rfl : id = call.request.id :=
    List.mem_singleton.mp (hsub (hret ▸ List.mem_map_of_mem hmem))
  exact hmem

theorem JobLink.chain_returns (h : Chained (JobLink t) s calls s') :
    ∃ es, s'.2.hist = s.2.hist ++ es ∧
      ∀ call ∈ calls, ∀ err, result call = some err → (call.request.id, err) ∈ returns es := by
  induction h with
  | nil s => exact ⟨[], by simp⟩
  | @cons s u s' call calls hlink hchain ih =>
      obtain ⟨es, hes, hfirst⟩ := hlink.returns_of_result
      obtain ⟨es', hes', hall⟩ := ih
      refine ⟨es ++ es', by rw [hes', hes, List.append_assoc], fun call' hcall' err herr => ?_⟩
      rw [returns_append]
      rcases List.mem_cons.mp hcall' with rfl | hcall'
      · exact List.mem_append_left _ (hfirst err herr)
      · exact List.mem_append_right _ (hall call' hcall' err herr)

end Writes

/-- Leaving out some of the blocks changes nothing exactly if they are empty. -/
theorem flatMap_ite_eq_iff {α β : Type} {p : α → Prop} [DecidablePred p] {f : α → List β}
    {xs : List α} : xs.flatMap f = xs.flatMap (fun x => if p x then f x else []) ↔
      ∀ x ∈ xs, ¬p x → f x = [] := by
  have hle : ∀ ys : List α,
      (ys.flatMap fun x => if p x then f x else []).length ≤ (ys.flatMap f).length := by
    intro ys
    induction ys with
    | nil => simp
    | cons y ys ih =>
        simp only [List.flatMap_cons, List.length_append]
        split_ifs
        · omega
        · simp only [List.length_nil]
          omega
  induction xs with
  | nil => simp
  | cons x xs ih =>
      rw [List.forall_mem_cons, List.flatMap_cons, List.flatMap_cons]
      refine Iff.trans ?_ (and_congr_right fun _ => ih)
      by_cases hx : p x
      · simp [hx]
      · simp only [hx, if_false, List.nil_append, not_false_eq_true, forall_const]
        constructor
        · intro h
          have hlen := congrArg List.length h
          rw [List.length_append] at hlen
          have hnil : f x = [] := List.eq_nil_of_length_eq_zero (by have := hle xs; omega)
          exact ⟨hnil, by simpa [hnil] using h⟩
        · rintro ⟨hnil, h⟩
          rw [hnil, List.nil_append, h]

/-- If no statement fails, a batch keeps only what successful handlers have
written exactly if the handlers that return an error write nothing. -/
theorem processBatch_keeps_iff {w : World (schema U) Unit ι} {env : ℕ → Tick (schema U)}
    (q : Queue U Unit) (c : ι) (henv : ∀ n, (env n).fault = none) (hidle : w.Idle)
    (hserved : ∀ row ∈ batchRows env w, Served q row) :
    ∃ calls w₁ out w', batchCalls q c env w = some (calls, .ret (), w₁) ∧
      (q.processBatch .background).solo c env w = some (out, w') ∧ w'.Idle ∧
      (statementFails (newEntries w w') = false →
        (OnlySuccessesKept ⟨(), w.next⟩ w w' calls ↔
          ∀ call ∈ calls, result call ≠ some none → writes ⟨(), w.next⟩ call = [])) := by
  obtain ⟨calls, x, w₀, ids, y, w₁, out, w', hcalls, hsolo, hstart, hchain, hworked, hends⟩ :=
    solo_processBatch c henv q hidle hserved
  obtain ⟨-, -, hab, hacc⟩ := batch_entries hstart hworked hends
  refine ⟨calls, w₁, out, w', hcalls, hsolo, hends.idle hworked.sole, fun hgood => ?_⟩
  have halive : y.aborted = false := hab.trans hgood
  have hw' := committed_of_alive hends (henv _) halive
  have hdone : ∀ call ∈ calls, result call = some none →
      ∃ row, (w'.committed ()).jobs.get call.request.id = some row ∧ row.status = .done := by
    intro call hcall hnil
    obtain ⟨es, (hes : w₁.hist = w₀.hist ++ es), hall⟩ := JobLink.chain_returns hchain
    obtain ⟨es₀, hes₀, -⟩ := hstart.entries
    obtain ⟨es₁, hes₁, -⟩ := ends_silent hends
    have hmem := hall call hcall none hnil
    have hnew : newEntries w w' = es₀ ++ es ++ es₁ := newEntries_eq (by simp [hes₁, hes, hes₀])
    obtain ⟨row, row', -, hrow', hst⟩ :=
      hacc halive (call.request.id, none) (by simp [hnew, hmem])
    refine ⟨row', ?_, congrArg Prod.fst hst⟩
    rw [hw', World.committed_record, World.committed_settle w₁ w.next y]
    exact hrow'
  have hkept : committedWrites w w' = calls.flatMap (writes ⟨(), w.next⟩) := by
    have hwal : w'.wal () = w.wal () ++ y.log := by
      simp [hw', hworked.within.wal, hstart.wal]
    rw [committedWrites, hwal, List.drop_left, JobLink.chain_writes hchain hstart.sole, hstart.log]
    rfl
  rw [OnlySuccessesKept, and_iff_left hdone, hkept]
  exact flatMap_ite_eq_iff

/-! ## Two jobs in one batch -/

inductive NoteStmt where
  | insert (text : String)
  /-- `SELECT 1 / 0` -/
  | divide

def errDivision : GoError := .new "ERROR: division by zero (SQLSTATE 22012)"

/-- A table of texts, for handlers that write. -/
@[reducible] def notes : Schema where
  Data := List String
  Key := String
  Write := String
  Stmt := NoteStmt
  Ret := fun _ => Unit
  Env := Unit
  Ext := Empty
  ExtRet := fun _ => Unit
  decKey := inferInstance
  keyOf := id
  apply := fun d text => d ++ [text]
  answer := fun _ _ => ()
  run := fun _ s _ locked =>
    match s with
    | .insert text => if locked text then .wait else .done () [text] [text]
    | .divide => .fail errDivision
  run_locks := by
    intro m s d locked r ws ks h k hk
    cases s with
    | divide => cases h
    | insert text =>
        simp only at h
        split_ifs at h with hl
        cases h
        simpa [List.mem_singleton.mp hk] using hl
  run_writes := by
    intro m s d locked r ws ks h u hu
    cases s with
    | divide => cases h
    | insert text =>
        simp only at h
        split_ifs at h with hl
        cases h
        exact hu
  run_wait := by
    intro m s d locked h
    cases s with
    | divide => cases h
    | insert text =>
        simp only at h
        split_ifs at h with hl
        exact ⟨text, hl⟩

/-- A handler that runs these statements in `WithTx` and stops at an error. -/
def runAll (stmts : List NoteStmt) (result : Option GoError) : Handler notes Unit := fun ctx _ =>
  withTx () ctx fun _ tx => go tx stmts
where
  go (tx : Tx Unit) : List NoteStmt → GoProg (schema notes) Unit (Option GoError)
    | [] => .ret result
    | s :: stmts => .op (.exec tx (.user s)) fun r =>
        match r with
        | .error err => .ret (some err)
        | .ok _ => go tx stmts

theorem runAll_usesTx (stmts : List NoteStmt) (result : Option GoError) :
    UsesTx (runAll stmts result) := by
  intro ctx t payload hctx
  refine plain_withTx hctx () ?_
  induction stmts with
  | nil => trivial
  | cons s stmts ih =>
      refine ⟨rfl, fun r => ?_⟩
      cases r with
      | error err => trivial
      | ok u => exact ih

def calm : ℕ → Tick (schema notes) := fun _ => ⟨⟨10, id, none, ()⟩, none⟩

def pendingJob (id : ℕ) (type : String) : JobRow :=
  ⟨id, type, "null", .pending, 0, 3, id, none, 0, 0⟩

/-- A job "mail" and a job "report", both due. -/
def twoJobs : World (schema notes) Unit Unit :=
  World.initial fun _ => ⟨⟨[pendingJob 0 "mail", pendingJob 1 "report"], by decide⟩, []⟩

def mailAndReport (mail report : Handler notes Unit) : Queue notes Unit :=
  ((new ()).register "mail" mail).register "report" report

theorem mailAndReport_served {mail report : Handler notes Unit} (hmail : UsesTx mail)
    (hreport : UsesTx report) :
    ∀ row ∈ batchRows calm twoJobs, Served (mailAndReport mail report) row := by
  intro row hrow
  rcases List.mem_pair.mp (mem_pick hrow).1 with rfl | rfl
  · refine ⟨by decide, fun h hh => ?_⟩
    cases hh
    exact hmail
  · refine ⟨by decide, fun h hh => ?_⟩
    cases hh
    exact hreport

/-- The handler of the mail job succeeds; a statement of the other one fails. -/
theorem failing_statement_not_accounted :
    ∃ out w', ((mailAndReport (runAll [] none) (runAll [.divide] none)).processBatch
        .background).solo () calm twoJobs = some (out, w') ∧
      returns (newEntries twoJobs w') = [(0, none), (1, some errDivision)] ∧
      (w'.committed ()).jobs.rows = (twoJobs.committed ()).jobs.rows ∧
      ¬BatchAccounted twoJobs w' := by
  refine ⟨_, _, rfl, rfl, rfl, fun h => ?_⟩
  obtain ⟨err, -, hrow⟩ := h 0 (by decide)
  exact not_accounted_self _ _ _ hrow

theorem orderly_accounted :
    ∃ out w', ((mailAndReport (runAll [] none)
        (runAll [.insert "a"] (some errDivision))).processBatch
        .background).solo () calm twoJobs = some (out, w') ∧ w'.Idle ∧
      (BatchAccounted twoJobs w' ↔ statementFails (newEntries twoJobs w') = false) := by
  apply processBatch_accounts_iff _ () (fun _ => rfl) (fun _ => rfl)
  exact mailAndReport_served (runAll_usesTx _ _) (runAll_usesTx _ _)

/-- The handler of the report job writes a draft and returns an error. -/
theorem failed_attempt_keeps_writes :
    ∃ calls w₁ out w', batchCalls (mailAndReport (runAll [.insert "sent"] none)
        (runAll [.insert "draft"] (some errDivision))) () calm twoJobs = some (calls, .ret (), w₁) ∧
      ((mailAndReport (runAll [.insert "sent"] none)
        (runAll [.insert "draft"] (some errDivision))).processBatch .background).solo () calm
          twoJobs = some (out, w') ∧
      statementFails (newEntries twoJobs w') = false ∧
      (w'.committed ()).user = ["sent", "draft"] ∧
      ¬OnlySuccessesKept ⟨(), 0⟩ twoJobs w' calls := by
  refine ⟨_, _, _, _, rfl, rfl, rfl, rfl, fun h => ?_⟩
  exact absurd h.1 (by decide)

theorem idle_failure_kept_iff :
    ∃ calls w₁ out w', batchCalls (mailAndReport (runAll [.insert "sent"] none)
        (runAll [] (some errDivision))) () calm twoJobs = some (calls, .ret (), w₁) ∧
      ((mailAndReport (runAll [.insert "sent"] none)
        (runAll [] (some errDivision))).processBatch .background).solo () calm
          twoJobs = some (out, w') ∧ w'.Idle ∧
      (statementFails (newEntries twoJobs w') = false →
        (OnlySuccessesKept ⟨(), 0⟩ twoJobs w' calls ↔
          ∀ call ∈ calls, result call ≠ some none → writes ⟨(), 0⟩ call = [])) := by
  apply processBatch_keeps_iff _ () (fun _ => rfl) (fun _ => rfl)
  exact mailAndReport_served (runAll_usesTx _ _) (runAll_usesTx _ _)

end Gkit.JobQueue
