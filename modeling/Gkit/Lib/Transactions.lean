import Gkit.Lib.Errors
import Gkit.Lib.Programs

/-!
# Transactions at READ COMMITTED

A database holds the committed row writes in commit order.  An open
transaction keeps the rows it has written and the keys it has locked; its
statements see the committed tables with its own writes on top, and nothing of
the other open transactions.  A statement that needs a key locked by another
open transaction waits; a statement that fails aborts its transaction, whose
later statements fail and whose commit rolls back.

The tables, the statements and their meaning are a `Schema`.  What the outside
supplies to an operation (clock readings, scan orders, answers of external
services, a lost connection) comes with a `Tick`.
-/

namespace Gkit.Lib

/-- What a statement does at the moment it is executed. -/
inductive Verdict (Key Write ρ : Type) where
  | wait
  | fail (err : GoError)
  | done (res : ρ) (writes : List Write) (locks : List Key)

/-- The same verdict among more keys and rows. -/
def Verdict.map {Key Key' Write Write' ρ : Type} (f : Key → Key') (g : Write → Write') :
    Verdict Key Write ρ → Verdict Key' Write' ρ
  | .wait => .wait
  | .fail err => .fail err
  | .done res writes locks => .done res (writes.map g) (locks.map f)

section

variable {Key Key' Write Write' ρ : Type} {f : Key → Key'} {g : Write → Write'}
  {v : Verdict Key Write ρ}

theorem Verdict.map_eq_wait : v.map f g = .wait ↔ v = .wait := by
  cases v <;> simp [Verdict.map]

theorem Verdict.map_eq_done {res : ρ} {writes : List Write'} {locks : List Key'} :
    v.map f g = .done res writes locks ↔
      ∃ ws ks, v = .done res ws ks ∧ ws.map g = writes ∧ ks.map f = locks := by
  cases v with
  | wait | fail => simp [Verdict.map]
  | done res' ws ks =>
      simp only [Verdict.map, Verdict.done.injEq]
      constructor
      · rintro ⟨rfl, hws, hks⟩
        exact ⟨ws, ks, ⟨rfl, rfl, rfl⟩, hws, hks⟩
      · rintro ⟨ws', ks', ⟨rfl, rfl, rfl⟩, hws, hks⟩
        exact ⟨rfl, hws, hks⟩

end

/-- The outside world as a statement sees it: the environment when its
transaction started, the present one, and a number no other operation gets. -/
structure Moment (Env : Type) where
  started : Env
  now : Env
  serial : ℕ

structure Schema where
  Data : Type
  Key : Type
  Write : Type
  Stmt : Type
  Ret : Stmt → Type
  Env : Type
  Ext : Type
  ExtRet : Ext → Type
  decKey : DecidableEq Key
  keyOf : Write → Key
  apply : Data → Write → Data
  answer : Env → (x : Ext) → ExtRet x
  run : Moment Env → (s : Stmt) → Data → (Key → Bool) → Verdict Key Write (Ret s)
  /-- No statement takes a key that another open transaction holds. -/
  run_locks : ∀ {m s d locked r ws ks}, run m s d locked = .done r ws ks →
    ∀ k ∈ ks, locked k = false
  /-- Every row a statement writes is locked by it. -/
  run_writes : ∀ {m s d locked r ws ks}, run m s d locked = .done r ws ks →
    ∀ u ∈ ws, keyOf u ∈ ks
  /-- Statements only wait for locks. -/
  run_wait : ∀ {m s d locked}, run m s d locked = .wait → ∃ k, locked k = true

instance (S : Schema) : DecidableEq S.Key := S.decKey

/-- A transaction handle, bound to the database it was begun on. -/
structure Tx (δ : Type) where
  db : δ
  id : ℕ
  deriving DecidableEq, Repr

inductive Op (S : Schema) (δ : Type) where
  | begin (d : δ)
  | exec (t : Tx δ) (s : S.Stmt)
  | pool (d : δ) (s : S.Stmt)
  | commit (t : Tx δ)
  | rollback (t : Tx δ)
  | ext (x : S.Ext)
  /-- Only recorded: code run on behalf of the handle `d` holds `t`. -/
  | observe (d : δ) (t : Tx δ)

@[reducible] def Op.Res {S : Schema} {δ : Type} : Op S δ → Type
  | .begin _ => Except GoError (Tx δ)
  | .exec _ s => Except GoError (S.Ret s)
  | .pool _ s => Except GoError (S.Ret s)
  | .commit _ => Except GoError Unit
  | .rollback _ => Except GoError Unit
  | .ext x => S.ExtRet x
  | .observe _ _ => Unit

/-- The open transaction an operation is about. -/
def Op.target {S : Schema} {δ : Type} : Op S δ → Option ℕ
  | .exec t _ => some t.id
  | .commit t => some t.id
  | .rollback t => some t.id
  | _ => none

abbrev GoProg (S : Schema) (δ α : Type) := Prog (Op S δ) Op.Res α

structure Tick (S : Schema) where
  env : S.Env
  fault : Option GoError

structure TxState (S : Schema) (δ ι : Type) where
  db : δ
  owner : ι
  started : S.Env
  log : List S.Write
  locks : List S.Key
  aborted : Bool

/-- One performed operation, as the history records it. -/
structure Entry (S : Schema) (δ ι : Type) where
  client : ι
  op : Op S δ
  res : op.Res

structure World (S : Schema) (δ ι : Type) where
  base : δ → S.Data
  wal : δ → List S.Write
  txs : ℕ → Option (TxState S δ ι)
  next : ℕ
  hist : List (Entry S δ ι)

/-- `pgx.ErrTxClosed`. -/
def errTxClosed : GoError := .new "tx is closed"

/-- SQLSTATE 25P02. -/
def errInFailedTx : GoError :=
  .new "ERROR: current transaction is aborted, commands ignored until end of transaction block"

/-- `pgx.ErrTxCommitRollback`. -/
def errTxCommitRollback : GoError := .new "commit unexpectedly resulted in rollback"

namespace World

variable {S : Schema} {δ ι : Type}

/-- A database server with no open transaction and an empty history. -/
def initial (base : δ → S.Data) : World S δ ι where
  base := base
  wal := fun _ => []
  txs := fun _ => none
  next := 0
  hist := []

def committed (w : World S δ ι) (d : δ) : S.Data :=
  (w.wal d).foldl S.apply (w.base d)

def view (w : World S δ ι) (x : TxState S δ ι) : S.Data :=
  x.log.foldl S.apply (w.committed x.db)

/-- Is the key held on this database by an open transaction other than `self`? -/
def locked [DecidableEq δ] (w : World S δ ι) (d : δ) (self : Option ℕ) (k : S.Key) : Bool :=
  (List.range w.next).any fun i => decide (some i ≠ self) &&
    (w.txs i).any fun x => decide (x.db = d) && decide (k ∈ x.locks)

def setTx (w : World S δ ι) (i : ℕ) (x : Option (TxState S δ ι)) : World S δ ι :=
  { w with txs := Function.update w.txs i x }

/-- These rows are committed, whatever the transactions are. -/
def persist [DecidableEq δ] (w : World S δ ι) (d : δ) (ws : List S.Write) : World S δ ι :=
  { w with wal := Function.update w.wal d (w.wal d ++ ws) }

/-- The rows of a transaction become committed ones. -/
def settle [DecidableEq δ] (w : World S δ ι) (i : ℕ) (x : TxState S δ ι) : World S δ ι :=
  (w.setTx i none).persist x.db x.log

def record (w : World S δ ι) (c : ι) (o : Op S δ) (r : o.Res) : World S δ ι :=
  { w with hist := w.hist ++ [⟨c, o, r⟩] }

@[simp] theorem record_hist (w : World S δ ι) (c : ι) (o : Op S δ) (r : o.Res) :
    (w.record c o r).hist = w.hist ++ [⟨c, o, r⟩] := rfl

@[simp] theorem record_txs (w : World S δ ι) (c : ι) (o : Op S δ) (r : o.Res) :
    (w.record c o r).txs = w.txs := rfl

@[simp] theorem record_next (w : World S δ ι) (c : ι) (o : Op S δ) (r : o.Res) :
    (w.record c o r).next = w.next := rfl

@[simp] theorem record_wal (w : World S δ ι) (c : ι) (o : Op S δ) (r : o.Res) :
    (w.record c o r).wal = w.wal := rfl

@[simp] theorem record_base (w : World S δ ι) (c : ι) (o : Op S δ) (r : o.Res) :
    (w.record c o r).base = w.base := rfl

@[simp] theorem committed_record (w : World S δ ι) (c : ι) (o : Op S δ) (r : o.Res) (d : δ) :
    (w.record c o r).committed d = w.committed d := rfl

@[simp] theorem setTx_txs (w : World S δ ι) (i : ℕ) (x : Option (TxState S δ ι)) :
    (w.setTx i x).txs = Function.update w.txs i x := rfl

@[simp] theorem setTx_next (w : World S δ ι) (i : ℕ) (x : Option (TxState S δ ι)) :
    (w.setTx i x).next = w.next := rfl

@[simp] theorem setTx_wal (w : World S δ ι) (i : ℕ) (x : Option (TxState S δ ι)) :
    (w.setTx i x).wal = w.wal := rfl

@[simp] theorem setTx_base (w : World S δ ι) (i : ℕ) (x : Option (TxState S δ ι)) :
    (w.setTx i x).base = w.base := rfl

@[simp] theorem setTx_hist (w : World S δ ι) (i : ℕ) (x : Option (TxState S δ ι)) :
    (w.setTx i x).hist = w.hist := rfl

@[simp] theorem committed_setTx (w : World S δ ι) (i : ℕ) (x : Option (TxState S δ ι)) (d : δ) :
    (w.setTx i x).committed d = w.committed d := rfl

variable [DecidableEq δ]

theorem committed_persist (w : World S δ ι) (d : δ) (ws : List S.Write) :
    (w.persist d ws).committed d = ws.foldl S.apply (w.committed d) := by
  simp [committed, persist]

@[simp] theorem settle_txs (w : World S δ ι) (i : ℕ) (x : TxState S δ ι) :
    (w.settle i x).txs = Function.update w.txs i none := rfl

@[simp] theorem settle_next (w : World S δ ι) (i : ℕ) (x : TxState S δ ι) :
    (w.settle i x).next = w.next := rfl

@[simp] theorem settle_hist (w : World S δ ι) (i : ℕ) (x : TxState S δ ι) :
    (w.settle i x).hist = w.hist := rfl

@[simp] theorem settle_base (w : World S δ ι) (i : ℕ) (x : TxState S δ ι) :
    (w.settle i x).base = w.base := rfl

@[simp] theorem settle_wal (w : World S δ ι) (i : ℕ) (x : TxState S δ ι) :
    (w.settle i x).wal = Function.update w.wal x.db (w.wal x.db ++ x.log) := rfl

/-- What a transaction commits is what it saw. -/
theorem committed_settle (w : World S δ ι) (i : ℕ) (x : TxState S δ ι) :
    (w.settle i x).committed x.db = w.view x :=
  committed_persist (w.setTx i none) x.db x.log

def beginTx (w : World S δ ι) (c : ι) (e : Tick S) (d : δ) :
    Except GoError (Tx δ) × World S δ ι :=
  match e.fault with
  | some err => (.error err, w)
  | none => (.ok ⟨d, w.next⟩,
      { w.setTx w.next (some ⟨d, c, e.env, [], [], false⟩) with next := w.next + 1 })

def execTx (w : World S δ ι) (e : Tick S) (t : Tx δ) (s : S.Stmt) :
    Option (Except GoError (S.Ret s) × World S δ ι) :=
  match w.txs t.id with
  | none => some (.error errTxClosed, w)
  | some x =>
      if x.aborted then some (.error errInFailedTx, w)
      else match e.fault with
      | some err => some (.error err, w.setTx t.id (some { x with aborted := true }))
      | none =>
          match S.run ⟨x.started, e.env, w.hist.length⟩ s (w.view x)
              (w.locked x.db (some t.id)) with
          | .wait => none
          | .fail err => some (.error err, w.setTx t.id (some { x with aborted := true }))
          | .done r ws ks => some (.ok r,
              w.setTx t.id (some { x with log := x.log ++ ws, locks := x.locks ++ ks }))

/-- A statement outside any transaction commits by itself. -/
def execPool (w : World S δ ι) (e : Tick S) (d : δ) (s : S.Stmt) :
    Option (Except GoError (S.Ret s) × World S δ ι) :=
  match e.fault with
  | some err => some (.error err, w)
  | none =>
      match S.run ⟨e.env, e.env, w.hist.length⟩ s (w.committed d) (w.locked d none) with
      | .wait => none
      | .fail err => some (.error err, w)
      | .done r ws _ => some (.ok r, w.persist d ws)

def commitTx (w : World S δ ι) (e : Tick S) (t : Tx δ) :
    Except GoError Unit × World S δ ι :=
  match w.txs t.id with
  | none => (.error errTxClosed, w)
  | some x =>
      if x.aborted then (.error errTxCommitRollback, w.setTx t.id none)
      else match e.fault with
      | some err => (.error err, w.setTx t.id none)
      | none => (.ok (), w.settle t.id x)

/-- The server drops the transaction also when the connection is lost. -/
def rollbackTx (w : World S δ ι) (e : Tick S) (t : Tx δ) :
    Except GoError Unit × World S δ ι :=
  match w.txs t.id with
  | none => (.error errTxClosed, w)
  | some _ =>
      match e.fault with
      | some err => (.error err, w.setTx t.id none)
      | none => (.ok (), w.setTx t.id none)

def perform (w : World S δ ι) (c : ι) (e : Tick S) :
    (o : Op S δ) → Option (o.Res × World S δ ι)
  | .begin d => some (w.beginTx c e d)
  | .exec t s => w.execTx e t s
  | .pool d s => w.execPool e d s
  | .commit t => some (w.commitTx e t)
  | .rollback t => some (w.rollbackTx e t)
  | .ext x => some (S.answer e.env x, w)
  | .observe _ _ => some ((), w)

/-- Perform an operation and record it; `none` means that it has to wait. -/
def exec (w : World S δ ι) (c : ι) (e : Tick S) (o : Op S δ) :
    Option (o.Res × World S δ ι) :=
  (w.perform c e o).map fun p => (p.1, p.2.record c o p.1)

/-- The connections of a crashed client are gone, so its transactions end. -/
def drop [DecidableEq ι] (w : World S δ ι) (c : ι) : World S δ ι :=
  { w with txs := fun i => (w.txs i).filter fun x => decide (x.owner ≠ c) }

/-! ## What an operation can do -/

theorem exec_eq_some {w w' : World S δ ι} {c : ι} {e : Tick S} {o : Op S δ} {r : o.Res} :
    w.exec c e o = some (r, w') ↔
      ∃ w₁, w.perform c e o = some (r, w₁) ∧ w' = w₁.record c o r := by
  constructor
  · intro h
    obtain ⟨⟨r₁, w₁⟩, hp, heq⟩ := Option.map_eq_some_iff.mp h
    cases heq
    exact ⟨w₁, hp, rfl⟩
  · rintro ⟨w₁, hp, rfl⟩
    simp [exec, hp]

/-- The ways in which an operation can change the server, its record in the
history aside. -/
inductive Change (w : World S δ ι) (c : ι) : Option ℕ → World S δ ι → Prop where
  | none (t : Option ℕ) : Change w c t w
  | opened (d : δ) (env : S.Env) : Change w c none
      { w.setTx w.next (some ⟨d, c, env, [], [], false⟩) with next := w.next + 1 }
  | aborted (i : ℕ) (x : TxState S δ ι) (h : w.txs i = some x) :
      Change w c (some i) (w.setTx i (some { x with aborted := true }))
  | wrote (i : ℕ) (x : TxState S δ ι) (ws : List S.Write) (ks : List S.Key)
      (h : w.txs i = some x) (hlocks : ∀ k ∈ ks, w.locked x.db (some i) k = false)
      (hwrites : ∀ u ∈ ws, S.keyOf u ∈ ks) :
      Change w c (some i)
        (w.setTx i (some { x with log := x.log ++ ws, locks := x.locks ++ ks }))
  | pooled (d : δ) (ws : List S.Write)
      (hfree : ∀ u ∈ ws, w.locked d Option.none (S.keyOf u) = false) :
      Change w c Option.none (w.persist d ws)
  | closed (i : ℕ) (x : TxState S δ ι) (h : w.txs i = some x) :
      Change w c (some i) (w.setTx i Option.none)
  | committed (i : ℕ) (x : TxState S δ ι) (h : w.txs i = some x) (hx : x.aborted = false) :
      Change w c (some i) (w.settle i x)

theorem perform_change {w w' : World S δ ι} {c : ι} {e : Tick S} {o : Op S δ} {r : o.Res}
    (h : w.perform c e o = some (r, w')) : Change w c o.target w' := by
  cases o with
  | begin d =>
      simp only [perform, beginTx] at h
      split at h
      · cases h
        exact .none _
      · cases h
        exact .opened d e.env
  | exec t s =>
      simp only [perform, execTx] at h
      split at h
      · cases h
        exact .none _
      · rename_i x hx
        split at h
        · cases h
          exact .none _
        · split at h
          · cases h
            exact .aborted t.id x hx
          · split at h
            · cases h
            · cases h
              exact .aborted t.id x hx
            · rename_i ws ks hrun
              cases h
              exact .wrote t.id x ws ks hx (S.run_locks hrun) (S.run_writes hrun)
  | pool d s =>
      simp only [perform, execPool] at h
      split at h
      · cases h
        exact .none _
      · split at h
        · cases h
        · cases h
          exact .none _
        · rename_i ws ks hrun
          cases h
          exact .pooled d ws fun u hu => S.run_locks hrun _ (S.run_writes hrun u hu)
  | commit t =>
      simp only [perform, commitTx] at h
      split at h
      · cases h
        exact .none _
      · rename_i x hx
        split at h
        · cases h
          exact .closed t.id x hx
        · rename_i ha
          split at h
          · cases h
            exact .closed t.id x hx
          · cases h
            exact .committed t.id x hx (by simpa using ha)
  | rollback t =>
      simp only [perform, rollbackTx] at h
      split at h
      · cases h
        exact .none _
      · rename_i x hx
        split at h <;> cases h <;> exact .closed t.id x hx
  | ext x =>
      cases h
      exact .none _
  | observe d t =>
      cases h
      exact .none _

theorem exec_hist {w w' : World S δ ι} {c : ι} {e : Tick S} {o : Op S δ} {r : o.Res}
    (h : w.exec c e o = some (r, w')) : w'.hist = w.hist ++ [⟨c, o, r⟩] := by
  obtain ⟨w₁, hp, rfl⟩ := exec_eq_some.mp h
  have hch := perform_change hp
  generalize o.target = t at hch
  have hhist : w₁.hist = w.hist := by cases hch <;> rfl
  simp [hhist]

theorem exec_base {w w' : World S δ ι} {c : ι} {e : Tick S} {o : Op S δ} {r : o.Res}
    (h : w.exec c e o = some (r, w')) : w'.base = w.base := by
  obtain ⟨w₁, hp, rfl⟩ := exec_eq_some.mp h
  have hch := perform_change hp
  generalize o.target = t at hch
  cases hch <;> rfl

/-- An operation on one transaction leaves the others as they are. -/
theorem exec_txs_of_ne {w w' : World S δ ι} {c : ι} {e : Tick S} {o : Op S δ} {r : o.Res}
    {i j : ℕ} (h : w.exec c e o = some (r, w')) (ho : o.target = some i) (hj : j ≠ i) :
    w'.txs j = w.txs j := by
  obtain ⟨w₁, hp, rfl⟩ := exec_eq_some.mp h
  have hch := perform_change hp
  rw [ho] at hch
  cases hch with
  | none => rfl
  | aborted | wrote | closed | committed => exact Function.update_of_ne hj ..

/-- An operation on a transaction that is not open changes nothing. -/
theorem exec_closed {w w' : World S δ ι} {c : ι} {e : Tick S} {o : Op S δ} {r : o.Res} {i : ℕ}
    (h : w.exec c e o = some (r, w')) (ho : o.target = some i) (hi : w.txs i = none) :
    w' = w.record c o r := by
  obtain ⟨w₁, hp, rfl⟩ := exec_eq_some.mp h
  have hch := perform_change hp
  rw [ho] at hch
  cases hch with
  | none => rfl
  | aborted _ x hx => cases hi.symm.trans hx
  | wrote _ x ws ks hx => cases hi.symm.trans hx
  | closed _ x hx => cases hi.symm.trans hx
  | committed _ x hx => cases hi.symm.trans hx

/-! ## The operations of a transaction, one by one -/

theorem exec_begin_cases {w w' : World S δ ι} {c : ι} {e : Tick S} {d : δ}
    {r : Except GoError (Tx δ)} (h : w.exec c e (.begin d) = some (r, w')) :
    (∃ err, e.fault = some err ∧ r = .error err ∧ w' = w.record c (.begin d) r) ∨
      (e.fault = none ∧ r = .ok ⟨d, w.next⟩ ∧ w' = World.record
        { w.setTx w.next (some ⟨d, c, e.env, [], [], false⟩) with next := w.next + 1 }
        c (.begin d) r) := by
  obtain ⟨w₁, hp, rfl⟩ := exec_eq_some.mp h
  simp only [perform, beginTx] at hp
  split at hp
  · rename_i err he
    cases hp
    exact .inl ⟨err, he, rfl, rfl⟩
  · rename_i he
    cases hp
    exact .inr ⟨he, rfl, rfl⟩

theorem exec_pool_fault (w : World S δ ι) (c : ι) (d : δ) (s : S.Stmt) {e : Tick S}
    {err : GoError} (he : e.fault = some err) :
    w.exec c e (.pool d s) = some (.error err, w.record c (.pool d s) (.error err)) := by
  simp [exec, perform, execPool, he]

theorem exec_pool_done {w : World S δ ι} {d : δ} {s : S.Stmt} {e : Tick S} {r : S.Ret s}
    {ws : List S.Write} {ks : List S.Key} (c : ι) (he : e.fault = none)
    (hrun : S.run ⟨e.env, e.env, w.hist.length⟩ s (w.committed d) (w.locked d none) =
      .done r ws ks) :
    w.exec c e (.pool d s) = some (.ok r, (w.persist d ws).record c (.pool d s) (.ok r)) := by
  simp [exec, perform, execPool, he, hrun]

theorem exec_pool_cases {w w' : World S δ ι} {c : ι} {e : Tick S} {d : δ} {s : S.Stmt}
    {r : Except GoError (S.Ret s)} (h : w.exec c e (.pool d s) = some (r, w')) :
    (∃ err, (e.fault = some err ∨ e.fault = none ∧
          S.run ⟨e.env, e.env, w.hist.length⟩ s (w.committed d) (w.locked d none) = .fail err) ∧
        r = .error err ∧ w' = w.record c (.pool d s) r) ∨
      ∃ ret ws ks, e.fault = none ∧
        S.run ⟨e.env, e.env, w.hist.length⟩ s (w.committed d) (w.locked d none) =
          .done ret ws ks ∧
        r = .ok ret ∧ w' = (w.persist d ws).record c (.pool d s) r := by
  obtain ⟨w₁, hp, rfl⟩ := exec_eq_some.mp h
  simp only [perform, execPool] at hp
  split at hp
  · rename_i err he
    cases hp
    exact .inl ⟨err, .inl he, rfl, rfl⟩
  · rename_i he
    split at hp
    · cases hp
    · rename_i err hrun
      cases hp
      exact .inl ⟨err, .inr ⟨he, hrun⟩, rfl, rfl⟩
    · rename_i ret ws ks hrun
      cases hp
      exact .inr ⟨ret, ws, ks, he, hrun, rfl, rfl⟩

theorem exec_exec_cases {w w' : World S δ ι} {c : ι} {e : Tick S} {t : Tx δ} {s : S.Stmt}
    {r : Except GoError (S.Ret s)} {x : TxState S δ ι}
    (h : w.exec c e (.exec t s) = some (r, w')) (hx : w.txs t.id = some x)
    (ha : x.aborted = false) :
    (∃ err, (e.fault = some err ∨ e.fault = none ∧
          S.run ⟨x.started, e.env, w.hist.length⟩ s (w.view x) (w.locked x.db (some t.id)) =
            .fail err) ∧
        r = .error err ∧
        w' = (w.setTx t.id (some { x with aborted := true })).record c (.exec t s) r) ∨
      (∃ ret ws ks, e.fault = none ∧
        S.run ⟨x.started, e.env, w.hist.length⟩ s (w.view x) (w.locked x.db (some t.id)) =
          .done ret ws ks ∧
        r = .ok ret ∧
        w' = (w.setTx t.id (some { x with log := x.log ++ ws, locks := x.locks ++ ks })).record
          c (.exec t s) r) := by
  obtain ⟨w₁, hp, rfl⟩ := exec_eq_some.mp h
  simp only [perform, execTx, hx, ha, Bool.false_eq_true, if_false] at hp
  split at hp
  · rename_i err he
    cases hp
    exact .inl ⟨err, .inl he, rfl, rfl⟩
  · rename_i he
    split at hp
    · cases hp
    · rename_i err hrun
      cases hp
      exact .inl ⟨err, .inr ⟨he, hrun⟩, rfl, rfl⟩
    · rename_i ret ws ks hrun
      cases hp
      exact .inr ⟨ret, ws, ks, he, hrun, rfl, by simp only [ha]⟩

/-- A statement that fails in no case, and waits at most for a lock. -/
theorem exec_exec_free {w w' : World S δ ι} {c : ι} {e : Tick S} {t : Tx δ} {s : S.Stmt}
    {r : Except GoError (S.Ret s)} {x : TxState S δ ι} {wait : Bool} {ret : S.Ret s}
    {ws : List S.Write} {ks : List S.Key} (h : w.exec c e (.exec t s) = some (r, w'))
    (hx : w.txs t.id = some x) (ha : x.aborted = false) (he : e.fault = none)
    (hrun : S.run ⟨x.started, e.env, w.hist.length⟩ s (w.view x) (w.locked x.db (some t.id)) =
      if wait then .wait else .done ret ws ks) :
    r = .ok ret ∧
      w' = (w.setTx t.id (some { x with log := x.log ++ ws, locks := x.locks ++ ks })).record
        c (.exec t s) r := by
  rcases exec_exec_cases h hx ha with
    ⟨err, hf | ⟨-, hfail⟩, -⟩ | ⟨ret', ws', ks', -, hdone, hr, hw⟩
  · simp [he] at hf
  · cases wait <;> cases hrun.symm.trans hfail
  · cases wait <;> cases hrun.symm.trans hdone
    exact ⟨hr, hw⟩

theorem exec_pool_free {w w' : World S δ ι} {c : ι} {e : Tick S} {d : δ} {s : S.Stmt}
    {r : Except GoError (S.Ret s)} {wait : Bool} {ret : S.Ret s} {ws : List S.Write}
    {ks : List S.Key} (h : w.exec c e (.pool d s) = some (r, w')) (he : e.fault = none)
    (hrun : S.run ⟨e.env, e.env, w.hist.length⟩ s (w.committed d) (w.locked d none) =
      if wait then .wait else .done ret ws ks) :
    r = .ok ret ∧ w' = (w.persist d ws).record c (.pool d s) r := by
  rcases exec_pool_cases h with ⟨err, hf | ⟨-, hfail⟩, -⟩ | ⟨ret', ws', ks', -, hdone, hr, hw⟩
  · simp [he] at hf
  · cases wait <;> cases hrun.symm.trans hfail
  · cases wait <;> cases hrun.symm.trans hdone
    exact ⟨hr, hw⟩

theorem exec_fail {w : World S δ ι} {e : Tick S} {t : Tx δ} {s : S.Stmt} {x : TxState S δ ι}
    {err : GoError} (c : ι) (hx : w.txs t.id = some x) (ha : x.aborted = false)
    (he : e.fault = none)
    (hrun : S.run ⟨x.started, e.env, w.hist.length⟩ s (w.view x) (w.locked x.db (some t.id)) =
      .fail err) :
    w.exec c e (.exec t s) = some (.error err,
      (w.setTx t.id (some { x with aborted := true })).record c (.exec t s) (.error err)) := by
  simp [exec, perform, execTx, hx, ha, he, hrun]

theorem exec_commit_cases {w w' : World S δ ι} {c : ι} {e : Tick S} {t : Tx δ}
    {r : Except GoError Unit} {x : TxState S δ ι}
    (h : w.exec c e (.commit t) = some (r, w')) (hx : w.txs t.id = some x)
    (ha : x.aborted = false) :
    (∃ err, e.fault = some err ∧ r = .error err ∧
        w' = (w.setTx t.id none).record c (.commit t) r) ∨
      (e.fault = none ∧ r = .ok () ∧ w' = (w.settle t.id x).record c (.commit t) r) := by
  obtain ⟨w₁, hp, rfl⟩ := exec_eq_some.mp h
  simp only [perform, commitTx, hx, ha, Bool.false_eq_true, if_false] at hp
  split at hp
  · rename_i err he
    cases hp
    exact .inl ⟨err, he, rfl, rfl⟩
  · rename_i he
    cases hp
    exact .inr ⟨he, rfl, rfl⟩

theorem exec_rollback (w : World S δ ι) (c : ι) (e : Tick S) {t : Tx δ} {x : TxState S δ ι}
    (hx : w.txs t.id = some x) : ∃ r, w.exec c e (.rollback t) =
      some (r, (w.setTx t.id none).record c (.rollback t) r) := by
  cases he : e.fault <;> simp [exec, perform, rollbackTx, hx, he]

theorem exec_rollback_eq {w w' : World S δ ι} {c : ι} {e : Tick S} {t : Tx δ}
    {r : Except GoError Unit} {x : TxState S δ ι}
    (h : w.exec c e (.rollback t) = some (r, w')) (hx : w.txs t.id = some x) :
    w' = (w.setTx t.id none).record c (.rollback t) r := by
  obtain ⟨r', hr'⟩ := exec_rollback w c e hx
  rw [h] at hr'
  cases hr'
  rfl

/-- A statement in a transaction that may be aborted already. -/
theorem exec_exec_inv {w w' : World S δ ι} {c : ι} {e : Tick S} {t : Tx δ} {s : S.Stmt}
    {r : Except GoError (S.Ret s)} {x : TxState S δ ι}
    (h : w.exec c e (.exec t s) = some (r, w')) (hx : w.txs t.id = some x) :
    (∃ err b, (x.aborted = true ∨ e.fault = some err ∨ x.aborted = false ∧ e.fault = none ∧
          S.run ⟨x.started, e.env, w.hist.length⟩ s (w.view x) (w.locked x.db (some t.id)) =
            .fail err) ∧
        r = .error err ∧
        w' = (w.setTx t.id (some { x with aborted := b })).record c (.exec t s) r) ∨
      (∃ ret ws ks, x.aborted = false ∧ e.fault = none ∧
        S.run ⟨x.started, e.env, w.hist.length⟩ s (w.view x) (w.locked x.db (some t.id)) =
          .done ret ws ks ∧
        r = .ok ret ∧
        w' = (w.setTx t.id (some { x with log := x.log ++ ws, locks := x.locks ++ ks })).record
          c (.exec t s) r) := by
  by_cases ha : x.aborted = true
  · obtain ⟨w₁, hp, rfl⟩ := exec_eq_some.mp h
    simp only [perform, execTx, hx, ha, if_true, Option.some.injEq, Prod.mk.injEq] at hp
    obtain ⟨rfl, rfl⟩ := hp
    have hsame : w.setTx t.id (some { x with aborted := x.aborted }) = w := by
      simp only [setTx, ← hx, Function.update_eq_self]
    exact .inl ⟨_, x.aborted, .inl ha, rfl, by rw [hsame]⟩
  · have ha : x.aborted = false := by simpa using ha
    rcases exec_exec_cases h hx ha with ⟨err, hwhy, hr, hw⟩ | ⟨ret, ws, ks, he, hrun, hr, hw⟩
    · refine .inl ⟨err, true, ?_, hr, hw⟩
      rcases hwhy with hf | ⟨he, hrun⟩
      · exact .inr (.inl hf)
      · exact .inr (.inr ⟨ha, he, hrun⟩)
    · exact .inr ⟨ret, ws, ks, ha, he, hrun, hr, hw⟩

theorem exec_commit_inv {w w' : World S δ ι} {c : ι} {e : Tick S} {t : Tx δ}
    {r : Except GoError Unit} {x : TxState S δ ι}
    (h : w.exec c e (.commit t) = some (r, w')) (hx : w.txs t.id = some x) :
    (∃ err, (x.aborted = true ∨ e.fault = some err) ∧ r = .error err ∧
        w' = (w.setTx t.id none).record c (.commit t) r) ∨
      (x.aborted = false ∧ e.fault = none ∧ r = .ok () ∧
        w' = (w.settle t.id x).record c (.commit t) r) := by
  by_cases ha : x.aborted = true
  · obtain ⟨w₁, hp, rfl⟩ := exec_eq_some.mp h
    simp only [perform, commitTx, hx, ha, if_true, Option.some.injEq, Prod.mk.injEq] at hp
    obtain ⟨rfl, rfl⟩ := hp
    exact .inl ⟨_, .inl ha, rfl, rfl⟩
  · have ha : x.aborted = false := by simpa using ha
    rcases exec_commit_cases h hx ha with ⟨err, hf, hr, hw⟩ | ⟨he, hr, hw⟩
    · exact .inl ⟨err, .inr hf, hr, hw⟩
    · exact .inr ⟨ha, he, hr, hw⟩

theorem exec_commit_txs {w w' : World S δ ι} {c : ι} {e : Tick S} {t : Tx δ}
    {r : Except GoError Unit} {x : TxState S δ ι}
    (h : w.exec c e (.commit t) = some (r, w')) (hx : w.txs t.id = some x) :
    w'.txs t.id = none := by
  rcases exec_commit_inv h hx with ⟨err, -, -, rfl⟩ | ⟨-, -, -, rfl⟩
  · exact Function.update_self ..
  · exact Function.update_self ..

theorem exec_rollback_txs {w w' : World S δ ι} {c : ι} {e : Tick S} {t : Tx δ}
    {r : Except GoError Unit} {x : TxState S δ ι}
    (h : w.exec c e (.rollback t) = some (r, w')) (hx : w.txs t.id = some x) :
    w'.txs t.id = none := by
  rw [exec_rollback_eq h hx]
  exact Function.update_self ..

end World

end Gkit.Lib
