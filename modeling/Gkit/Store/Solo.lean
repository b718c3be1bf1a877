import Gkit.Lib.Alone
import Gkit.Store.WithTx

/-!
# A transaction call with nobody else on the server

The outermost `WithTx` begins a transaction, runs its callback and ends the
transaction once: it commits what the callback wrote, or leaves the database as
it was.
-/

namespace Gkit.Store

open Gkit.Lib

variable {S : Schema} {δ ι : Type}

/-- The world in which a callback starts. -/
def begun (w : World S δ ι) (c : ι) (e : Tick S) (db : δ) : World S δ ι :=
  World.record { w.setTx w.next (some ⟨db, c, e.env, [], [], false⟩) with next := w.next + 1 }
    c (.begin db) (.ok ⟨db, w.next⟩)

variable {w : World S δ ι} {c : ι} {env : ℕ → Tick S}

theorem sole_begun (hidle : w.Idle) (c : ι) (e : Tick S) (db : δ) :
    World.Sole ⟨db, w.next⟩ ⟨db, c, e.env, [], [], false⟩ (begun w c e db) where
  tx := by simp [begun]
  alone := fun i hi => by simpa [begun, Function.update_of_ne hi] using hidle i

variable [DecidableEq δ]

theorem exec_begin (w : World S δ ι) (c : ι) (db : δ) {e : Tick S} (he : e.fault = none) :
    w.exec c e (.begin db) = some (.ok ⟨db, w.next⟩, begun w c e db) := by
  simp [World.exec, World.perform, World.beginTx, he, begun]

/-- An outermost call whose transaction cannot be begun. -/
theorem solo_withTx_fault (db : δ) {err : GoError} (he : (env w.hist.length).fault = some err)
    (fn : Context δ → Tx δ → GoProg S δ (Option GoError)) :
    (withTx db .background fn).solo c env w =
      some (.ret (some (.wrapping "store: begin tx" err)),
        w.record c (.begin db) (.error err)) := by
  rw [withTx_outermost db background_tx, Prog.solo_op]
  simp [World.exec, World.perform, World.beginTx, he]

/-- An outermost call up to the point where its callback has ended. -/
theorem solo_withTx_begun (db : δ) (he : (env w.hist.length).fault = none)
    {fn : Context δ → Tx δ → GoProg S δ (Option GoError)} {out : Outcome (Option GoError)}
    {w₁ : World S δ ι}
    (hfn : (fn (contextWithTx .background ⟨db, w.next⟩) ⟨db, w.next⟩).solo c env
      (begun w c (env w.hist.length) db) = some (out, w₁)) :
    (withTx db .background fn).solo c env w = (endTx ⟨db, w.next⟩ out).solo c env w₁ := by
  rw [withTx_outermost db background_tx, Prog.solo_op, exec_begin w c db he]
  change ((fn (contextWithTx .background ⟨db, w.next⟩) ⟨db, w.next⟩).attempt >>=
    endTx ⟨db, w.next⟩).solo c env (begun w c (env w.hist.length) db) = _
  rw [Prog.solo_bind, Prog.solo_attempt, hfn]
  rfl

/-- How the transaction `t` of the state `x` has been ended: the outcome that
the caller sees, the operation, and the world afterwards. -/
inductive Ends (c : ι) (e : Tick S) (t : Tx δ) (x : TxState S δ ι) (w : World S δ ι) :
    Outcome (Option GoError) → Outcome (Option GoError) → World S δ ι → Prop where
  | committed (ha : x.aborted = false) (he : e.fault = none) :
      Ends c e t x w (.ret none) (.ret none) ((w.settle t.id x).record c (.commit t) (.ok ()))
  | failed (err : GoError) (h : x.aborted = true ∨ e.fault = some err) :
      Ends c e t x w (.ret none) (.ret (some (.wrapping "store: commit" err)))
        ((w.setTx t.id none).record c (.commit t) (.error err))
  | rolledBack (out : Outcome (Option GoError)) (hout : out ≠ .ret none)
      (r : Except GoError Unit) :
      Ends c e t x w out out ((w.setTx t.id none).record c (.rollback t) r)

theorem solo_endTx (c : ι) (env : ℕ → Tick S) {t : Tx δ} {x : TxState S δ ι}
    (h : World.Sole t x w) (out : Outcome (Option GoError)) :
    ∃ out' w', (endTx t out).solo c env w = some (out', w') ∧
      Ends c (env w.hist.length) t x w out out' w' := by
  obtain ⟨r, hr⟩ := w.exec_rollback c (env w.hist.length) h.tx
  cases out with
  | panic v => exact ⟨_, _, by simp [Prog.solo_op, hr], .rolledBack _ (by simp) r⟩
  | ret err =>
      cases err with
      | some err => exact ⟨_, _, by simp [Prog.solo_op, hr], .rolledBack _ (by simp) r⟩
      | none =>
          cases ha : x.aborted with
          | true =>
              refine ⟨_, _, ?_, .failed errTxCommitRollback (.inl ha)⟩
              simp [Prog.solo_op, World.exec, World.perform, World.commitTx, h.tx, ha]
          | false =>
              cases he : (env w.hist.length).fault with
              | some err =>
                  refine ⟨_, _, ?_, .failed err (.inr he)⟩
                  simp [Prog.solo_op, World.exec, World.perform, World.commitTx, h.tx, ha, he]
              | none =>
                  refine ⟨_, _, ?_, .committed ha he⟩
                  simp [Prog.solo_op, World.exec, World.perform, World.commitTx, h.tx, ha, he]

variable {t : Tx δ} {x : TxState S δ ι} {out out' : Outcome (Option GoError)} {w' : World S δ ι}
  {e : Tick S}

theorem Ends.idle (h : Ends c e t x w out out' w') (hw : World.Sole t x w) : w'.Idle := by
  cases h <;> exact hw.idle_of_close

end Gkit.Store
