import Gkit.Lib.Executions

/-!
# The transaction helper of package `store`

`DB.WithTx` runs a callback inside a transaction and hands it a context that
carries the transaction.  A call that finds a transaction in its context runs
the callback in that one; only the call that began the transaction commits it,
rolls it back or recovers from a panic.  `DB.Exec`, `DB.Query` and
`DB.QueryRow` go to the pool whatever the context carries.

Tracing, metrics and logging have no effect on what is modelled and are left
out, as is the cancellation of contexts.
-/

namespace Gkit.Store

open Gkit.Lib

variable {S : Schema} {δ ι : Type}

/-- The value a context holds under `txCtxKey`. -/
structure Context (δ : Type) where
  tx : Option (Tx δ)

def Context.background : Context δ := ⟨none⟩

def contextWithTx (_ctx : Context δ) (tx : Tx δ) : Context δ := ⟨some tx⟩

def txFromContext (ctx : Context δ) : Option (Tx δ) := ctx.tx

@[simp] theorem background_tx : (Context.background : Context δ).tx = none := rfl

@[simp] theorem contextWithTx_tx (ctx : Context δ) (tx : Tx δ) :
    (contextWithTx ctx tx).tx = some tx := rfl

/-- `pgxpool.Pool.BeginTx`. -/
def poolBegin (db : δ) : GoProg S δ (Except GoError (Tx δ)) := .op (.begin db) .ret

/-- `pgx.Tx.Commit`. -/
def txCommit (tx : Tx δ) : GoProg S δ (Except GoError Unit) := .op (.commit tx) .ret

/-- `pgx.Tx.Rollback`. -/
def txRollback (tx : Tx δ) : GoProg S δ (Except GoError Unit) := .op (.rollback tx) .ret

/-- `pgx.Tx.Exec`, `Query` and `QueryRow` on the transaction. -/
def txExec (tx : Tx δ) (s : S.Stmt) : GoProg S δ (Except GoError (S.Ret s)) :=
  .op (.exec tx s) .ret

/-- `DB.Exec`, `DB.Query` and `DB.QueryRow`: the context is not consulted. -/
def dbExec (db : δ) (_ctx : Context δ) (s : S.Stmt) : GoProg S δ (Except GoError (S.Ret s)) :=
  .op (.pool db s) .ret

/-- How the call that began the transaction ends it. -/
def endTx (tx : Tx δ) : Outcome (Option GoError) → GoProg S δ (Option GoError)
  | .panic v => do
      -- The rollback error is dropped and the panic thrown again.
      let _ ← txRollback tx
      .panic v
  | .ret (some err) => do
      let _ ← txRollback tx
      return some err
  | .ret none => do
      match ← txCommit tx with
      | .error err => return some (.wrapping "store: commit" err)
      | .ok _ => return none

/-- `DB.WithTx`. -/
def withTx (db : δ) (ctx : Context δ)
    (fn : Context δ → Tx δ → GoProg S δ (Option GoError)) : GoProg S δ (Option GoError) :=
  match txFromContext ctx with
  | some tx => fn ctx tx
  | none => do
      match ← poolBegin db with
      | .error err => return some (.wrapping "store: begin tx" err)
      | .ok tx =>
          let out ← (fn (contextWithTx ctx tx) tx).attempt
          endTx tx out

@[simp] theorem txExec_bind {α : Type} (tx : Tx δ) (s : S.Stmt)
    (f : Except GoError (S.Ret s) → GoProg S δ α) : (txExec tx s >>= f) = .op (.exec tx s) f := rfl

/-- A call under a context that carries a transaction is a plain call. -/
theorem withTx_nested (db : δ) {ctx : Context δ} {tx : Tx δ} (h : ctx.tx = some tx)
    (fn : Context δ → Tx δ → GoProg S δ (Option GoError)) :
    withTx db ctx fn = fn ctx tx := by
  simp [withTx, txFromContext, h]

theorem withTx_outermost (db : δ) {ctx : Context δ} (h : ctx.tx = none)
    (fn : Context δ → Tx δ → GoProg S δ (Option GoError)) :
    withTx db ctx fn = .op (.begin db) fun r =>
      match r with
      | .error err => .ret (some (.wrapping "store: begin tx" err))
      | .ok tx => (fn (contextWithTx ctx tx) tx).attempt >>= endTx tx := by
  simp only [withTx, txFromContext, h]
  refine congrArg (Prog.op _) (funext fun r => ?_)
  cases r <;> rfl

@[simp] theorem endTx_panic (tx : Tx δ) (v : String) :
    (endTx tx (.panic v) : GoProg S δ _) = .op (.rollback tx) fun _ => .panic v := rfl

@[simp] theorem endTx_error (tx : Tx δ) (err : GoError) :
    (endTx tx (.ret (some err)) : GoProg S δ _) =
      .op (.rollback tx) fun _ => .ret (some err) := rfl

@[simp] theorem endTx_nil (tx : Tx δ) :
    (endTx tx (.ret none) : GoProg S δ _) = .op (.commit tx) fun r =>
      match r with
      | .error err => .ret (some (.wrapping "store: commit" err))
      | .ok _ => .ret none := by
  refine congrArg (Prog.op _) (funext fun r => ?_)
  cases r <;> rfl

end Gkit.Store
