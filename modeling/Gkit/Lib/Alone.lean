import Gkit.Lib.Executions

/-!
# A transaction alone on the server

While one transaction is the only open one its statements never wait, so what
it does is determined by its own state, the committed tables and the outside.
-/

namespace Gkit.Lib.World

variable {S : Schema} {δ ι : Type}

/-- Nobody has a transaction open. -/
def Idle (w : World S δ ι) : Prop := ∀ i, w.txs i = none

/-- The transaction `t` is open in the state `x`, and no other is open. -/
structure Sole (t : Tx δ) (x : TxState S δ ι) (w : World S δ ι) : Prop where
  tx : w.txs t.id = some x
  alone : ∀ i, i ≠ t.id → w.txs i = none

/-- What the transaction has written so far. -/
def logOf (w : World S δ ι) (t : Tx δ) : List S.Write :=
  ((w.txs t.id).map TxState.log).getD []

theorem Sole.logOf {t : Tx δ} {x : TxState S δ ι} {w : World S δ ι} (h : Sole t x w) :
    w.logOf t = x.log := by
  simp [World.logOf, h.tx]

/-- Between the two states nothing was begun and nothing committed. -/
structure Within (w w' : World S δ ι) : Prop where
  base : w'.base = w.base
  wal : w'.wal = w.wal
  next : w'.next = w.next

theorem Within.refl (w : World S δ ι) : Within w w := ⟨rfl, rfl, rfl⟩

theorem Within.trans {w₁ w₂ w₃ : World S δ ι} (h : Within w₁ w₂) (h' : Within w₂ w₃) :
    Within w₁ w₃ :=
  ⟨h'.base.trans h.base, h'.wal.trans h.wal, h'.next.trans h.next⟩

theorem Within.committed {w w' : World S δ ι} (h : Within w w') (d : δ) :
    w'.committed d = w.committed d := by
  simp [World.committed, h.wal, h.base]

theorem Within.view {w w' : World S δ ι} (h : Within w w') (x : TxState S δ ι) :
    w'.view x = w.view x := by
  simp [World.view, h.committed]

theorem within_record (w : World S δ ι) (c : ι) (o : Op S δ) (r : o.Res) :
    Within w (w.record c o r) := ⟨rfl, rfl, rfl⟩

theorem Sole.record {t : Tx δ} {x : TxState S δ ι} {w : World S δ ι} (h : Sole t x w) (c : ι)
    (o : Op S δ) (r : o.Res) : Sole t x (w.record c o r) := ⟨h.tx, h.alone⟩

theorem Sole.set {t : Tx δ} {x : TxState S δ ι} {w : World S δ ι} (h : Sole t x w)
    (y : TxState S δ ι) (c : ι) (o : Op S δ) (r : o.Res) :
    Sole t y ((w.setTx t.id (some y)).record c o r) where
  tx := by simp
  alone := fun i hi => by simpa [Function.update_of_ne hi] using h.alone i hi

theorem Sole.idle_of_close {t : Tx δ} {x : TxState S δ ι} {w : World S δ ι} (h : Sole t x w) :
    Idle (w.setTx t.id none) := by
  intro i
  by_cases hi : i = t.id
  · simp [hi]
  · simpa [Function.update_of_ne hi] using h.alone i hi

variable [DecidableEq δ]

theorem locked_of_alone {w : World S δ ι} {i : ℕ} (h : ∀ j, j ≠ i → w.txs j = none) (d : δ) :
    w.locked d (some i) = fun _ => false := by
  funext k
  cases hk : w.locked d (some i) k with
  | false => rfl
  | true =>
      obtain ⟨j, x, hx, hne, -, -⟩ := World.locked_eq_true hk
      simp [h j (by simpa using hne)] at hx

/-- A statement of the only open transaction ends at once: it fails, and the
transaction is aborted, or it goes through. -/
theorem Sole.exec {t : Tx δ} {x : TxState S δ ι} {w : World S δ ι} (h : Sole t x w) (c : ι)
    (e : Tick S) (s : S.Stmt) :
    ∃ r w', w.exec c e (.exec t s) = some (r, w') ∧ Within w w' ∧
      ((∃ err, r = .error err ∧ Sole t { x with aborted := true } w' ∧
          (x.aborted = true ∧ err = errInFailedTx ∨
            x.aborted = false ∧ (e.fault = some err ∨ e.fault = none ∧
            S.run ⟨x.started, e.env, w.hist.length⟩ s (w.view x) (fun _ => false) = .fail err))) ∨
        ∃ ret ws ks, r = .ok ret ∧ x.aborted = false ∧ e.fault = none ∧
          S.run ⟨x.started, e.env, w.hist.length⟩ s (w.view x) (fun _ => false) =
            .done ret ws ks ∧
          Sole t { x with log := x.log ++ ws, locks := x.locks ++ ks } w') := by
  have hlocked := locked_of_alone h.alone x.db
  cases ha : x.aborted with
  | true =>
      refine ⟨.error errInFailedTx, w.record c (.exec t s) (.error errInFailedTx), ?_,
        ⟨rfl, rfl, rfl⟩, .inl ⟨_, rfl, ⟨?_, h.alone⟩, .inl ⟨rfl, rfl⟩⟩⟩
      · simp [World.exec, perform, execTx, h.tx, ha]
      · simp only [record_txs, h.tx]
        cases x
        cases ha
        rfl
  | false =>
      obtain ⟨r, w', hexec⟩ : ∃ r w', w.exec c e (.exec t s) = some (r, w') := by
        cases hf : e.fault with
        | some err => simp [World.exec, perform, execTx, h.tx, ha, hf]
        | none =>
            cases hrun : S.run ⟨x.started, e.env, w.hist.length⟩ s (w.view x) (fun _ => false) with
            | wait =>
                obtain ⟨k, hk⟩ := S.run_wait hrun
                exact absurd hk (by simp)
            | fail err => simp [World.exec, perform, execTx, h.tx, ha, hf, hlocked, hrun]
            | done ret ws ks => simp [World.exec, perform, execTx, h.tx, ha, hf, hlocked, hrun]
      refine ⟨r, w', hexec, ?_⟩
      rcases exec_exec_cases hexec h.tx ha with
        ⟨err, hwhy, rfl, rfl⟩ | ⟨ret, ws, ks, hf, hrun, rfl, rfl⟩
      · rw [hlocked] at hwhy
        exact ⟨⟨rfl, rfl, rfl⟩, .inl ⟨err, rfl, h.set _ c _ _, .inr ⟨rfl, hwhy⟩⟩⟩
      · rw [hlocked] at hrun
        refine ⟨⟨rfl, rfl, rfl⟩, .inr ⟨ret, ws, ks, rfl, rfl, hf, hrun, ?_⟩⟩
        have hset := h.set { x with log := x.log ++ ws, locks := x.locks ++ ks } c
          (.exec t s) (.ok ret)
        simpa [ha] using hset

/-- A statement of the only open transaction that goes through. -/
theorem Sole.exec_done {t : Tx δ} {x : TxState S δ ι} {w : World S δ ι} (h : Sole t x w) (c : ι)
    {e : Tick S} {s : S.Stmt} {ret : S.Ret s} {ws : List S.Write} {ks : List S.Key}
    (ha : x.aborted = false) (he : e.fault = none)
    (hrun : S.run ⟨x.started, e.env, w.hist.length⟩ s (w.view x) (fun _ => false) =
      .done ret ws ks) :
    ∃ w', w.exec c e (.exec t s) = some (.ok ret, w') ∧ Within w w' ∧
      w'.hist.length = w.hist.length + 1 ∧
      Sole t { x with log := x.log ++ ws, locks := x.locks ++ ks } w' := by
  obtain ⟨r, w', hexec, hwithin, ⟨err, -, -, hwhy⟩ | ⟨ret', ws', ks', rfl, -, -, hrun', hsole⟩⟩ :=
    h.exec c e s
  · rcases hwhy with ⟨ha', -⟩ | ⟨-, he' | ⟨-, hfail⟩⟩
    · simp [ha] at ha'
    · simp [he] at he'
    · simp [hrun] at hfail
  · rw [hrun] at hrun'
    cases hrun'
    refine ⟨w', hexec, hwithin, ?_, hsole⟩
    rw [World.exec_hist hexec, List.length_append, List.length_singleton]

end Gkit.Lib.World
