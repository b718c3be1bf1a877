import Gkit.Store.Solo

/-!
# Trees of nested transaction calls

A callback is a finite tree: it executes statements on its transaction, calls
`WithTx` again with the context it was given, looks at how these ended (also at
a panic, if it recovers from it), and returns or panics.

The direct semantics `eval` knows nothing of transactions or contexts: it
applies the statements of the whole tree one after the other.  Inside an open
transaction a callback does exactly that (`solo_denote`).
-/

namespace Gkit.Store

open Gkit.Lib

inductive Callback (S : Schema) (δ : Type) : Type where
  | ret (err : Option GoError)
  | panic (value : String)
  | exec (s : S.Stmt) (k : Except GoError (S.Ret s) → Callback S δ)
  | withTx (db : δ) (body : Callback S δ) (k : Outcome (Option GoError) → Callback S δ)

variable {S : Schema} {δ ι : Type}

/-- A callback notes the handle it runs for and the transaction it is given. -/
def entering (db : δ) (fn : Context δ → Tx δ → GoProg S δ (Option GoError)) :
    Context δ → Tx δ → GoProg S δ (Option GoError) :=
  fun ctx tx => .op (.observe db tx) fun _ => fn ctx tx

def Callback.denote : Callback S δ → Context δ → Tx δ → GoProg S δ (Option GoError)
  | .ret err, _, _ => .ret err
  | .panic v, _, _ => .panic v
  | .exec s k, ctx, tx => do
      let r ← txExec tx s
      (k r).denote ctx tx
  | .withTx db body k, ctx, tx => do
      let out ← (Store.withTx db ctx (entering db body.denote)).attempt
      (k out).denote ctx tx

/-- The call of `WithTx` on the handle `db` with this callback. -/
def Callback.call (cb : Callback S δ) (db : δ) (ctx : Context δ) : GoProg S δ (Option GoError) :=
  Store.withTx db ctx (entering db cb.denote)

/-- Every statement of the tree satisfies `P`. -/
def Callback.Uses (P : S.Stmt → Prop) : Callback S δ → Prop
  | .ret _ => True
  | .panic _ => True
  | .exec s k => P s ∧ ∀ r, (k r).Uses P
  | .withTx _ body k => body.Uses P ∧ ∀ out, (k out).Uses P

/-- A table of numbers: `some n` inserts the row `n`, and `none` is a statement
that the server rejects. -/
@[reducible] def numbers : Schema where
  Data := List ℕ
  Key := ℕ
  Write := ℕ
  Stmt := Option ℕ
  Ret := fun _ => Unit
  Env := Unit
  Ext := Empty
  ExtRet := fun _ => Unit
  decKey := inferInstance
  keyOf := id
  apply := fun d n => d ++ [n]
  answer := fun _ _ => ()
  run := fun _ s _ locked =>
    match s with
    | none => .fail (.new "ERROR: syntax error (SQLSTATE 42601)")
    | some n => if locked n then .wait else .done () [n] [n]
  run_locks := by
    intro m s d locked r ws ks h k hk
    cases s with
    | none => cases h
    | some n =>
        by_cases hn : locked n = true
        · simp [hn] at h
        · simp only [hn] at h
          cases h
          simpa [List.mem_singleton.mp hk] using hn
  run_writes := by
    intro m s d locked r ws ks h u hu
    cases s with
    | none => cases h
    | some n =>
        by_cases hn : locked n = true
        · simp [hn] at h
        · simp only [hn] at h
          cases h
          simpa using hu
  run_wait := by
    intro m s d locked h
    cases s with
    | none => cases h
    | some n =>
        by_cases hn : locked n = true
        · exact ⟨n, hn⟩
        · simp [hn] at h

/-- An environment in which nothing goes wrong. -/
def quiet : ℕ → Tick numbers := fun _ => ⟨(), none⟩

/-! ## Direct semantics -/

/-- What a tree has done so far: its writes in program order, each with the
handle of the callback that made it, the handles it has called, whether a
statement has failed, and the number of the next operation. -/
structure Direct (S : Schema) (δ : Type) where
  writes : List (δ × S.Write)
  calls : List δ
  failed : Bool
  tick : ℕ

def Direct.data (base : S.Data) (st : Direct S δ) : S.Data :=
  (st.writes.map Prod.snd).foldl S.apply base

def Direct.enter (db : δ) (st : Direct S δ) : Direct S δ :=
  { st with calls := st.calls ++ [db], tick := st.tick + 1 }

def Direct.exec (env : ℕ → Tick S) (started : S.Env) (base : S.Data) (h : δ) (s : S.Stmt)
    (st : Direct S δ) : Except GoError (S.Ret s) × Direct S δ :=
  if st.failed then (.error errInFailedTx, { st with tick := st.tick + 1 })
  else match (env st.tick).fault with
  | some err => (.error err, { st with failed := true, tick := st.tick + 1 })
  | none =>
      match S.run ⟨started, (env st.tick).env, st.tick⟩ s (st.data base) fun _ => false with
      -- Without locks no statement waits.
      | .wait => (.error errInFailedTx, { st with tick := st.tick + 1 })
      | .fail err => (.error err, { st with failed := true, tick := st.tick + 1 })
      | .done r ws _ => (.ok r,
          { st with writes := st.writes ++ ws.map (Prod.mk h), tick := st.tick + 1 })

def Callback.eval (env : ℕ → Tick S) (started : S.Env) (base : S.Data) :
    Callback S δ → δ → Direct S δ → Outcome (Option GoError) × Direct S δ
  | .ret err, _, st => (.ret err, st)
  | .panic v, _, st => (.panic v, st)
  | .exec s k, h, st =>
      let p := st.exec env started base h s
      (k p.1).eval env started base h p.2
  | .withTx db body k, h, st =>
      let p := body.eval env started base db (st.enter db)
      (k p.1).eval env started base h p.2

/-! ## A callback inside an open transaction -/

/-- The handles and transactions noted in a history. -/
def observations (hist : List (Entry S δ ι)) : List (δ × Tx δ) :=
  hist.filterMap fun en =>
    match en.op with
    | .observe db tx => some (db, tx)
    | _ => none

/-- The operations of a history that begin or end a transaction. -/
def boundaries (hist : List (Entry S δ ι)) : List (Op S δ) :=
  hist.filterMap fun en =>
    match en.op with
    | .begin db => some (.begin db)
    | .commit tx => some (.commit tx)
    | .rollback tx => some (.rollback tx)
    | _ => none

@[simp] theorem observations_append (xs ys : List (Entry S δ ι)) :
    observations (xs ++ ys) = observations xs ++ observations ys := List.filterMap_append

@[simp] theorem boundaries_append (xs ys : List (Entry S δ ι)) :
    boundaries (xs ++ ys) = boundaries xs ++ boundaries ys := List.filterMap_append

/-- The transaction `t`, alone on the server, has done what the direct
semantics has done, and nothing else has happened since `w₀`. -/
structure Mirrors (c : ι) (t : Tx δ) (started : S.Env) (w₀ w : World S δ ι)
    (st : Direct S δ) : Prop where
  sole : ∃ locks,
    World.Sole t ⟨t.db, c, started, st.writes.map Prod.snd, locks, st.failed⟩ w
  within : World.Within w₀ w
  tick : st.tick = w.hist.length
  noted : observations w.hist = observations w₀.hist ++ st.calls.map fun h => (h, t)
  flat : boundaries w.hist = boundaries w₀.hist

section Mirroring

variable {c : ι} {env : ℕ → Tick S} {t : Tx δ} {started : S.Env} {w₀ w : World S δ ι}
  {st : Direct S δ} [DecidableEq δ]

theorem Mirrors.enter (hm : Mirrors c t started w₀ w st) (e : Tick S) (db : δ) :
    ∃ w', w.exec c e (.observe db t) = some ((), w') ∧
      Mirrors c t started w₀ w' (st.enter db) := by
  obtain ⟨locks, hsole⟩ := hm.sole
  refine ⟨w.record c (.observe db t) (), rfl, ?_⟩
  exact {
    sole := ⟨locks, hsole.tx, hsole.alone⟩
    within := hm.within.trans ⟨rfl, rfl, rfl⟩
    tick := by simp [Direct.enter, hm.tick]
    noted := by
      rw [World.record_hist, observations_append, hm.noted, List.append_assoc]
      simp [Direct.enter, observations]
    flat := by
      rw [World.record_hist, boundaries_append, hm.flat]
      exact List.append_nil _ }

/-- One statement: the server answers as the direct semantics does. -/
theorem Mirrors.exec (hm : Mirrors c t started w₀ w st) (env : ℕ → Tick S) (h : δ) (s : S.Stmt) :
    ∃ w', w.exec c (env w.hist.length) (.exec t s) =
        some ((st.exec env started (w₀.committed t.db) h s).1, w') ∧
      Mirrors c t started w₀ w' (st.exec env started (w₀.committed t.db) h s).2 := by
  obtain ⟨locks, hsole⟩ := hm.sole
  have hview : w.view ⟨t.db, c, started, st.writes.map Prod.snd, locks, st.failed⟩ =
      st.data (w₀.committed t.db) := by
    simp [World.view, Direct.data, hm.within.committed]
  obtain ⟨r, w', hexec, hwithin, hcases⟩ := hsole.exec c (env w.hist.length) s
  rw [hview, ← hm.tick] at hcases
  -- Both outcomes leave a state that mirrors `st'` when the answer is the one of `st'`.
  have hdone : ∀ st' : Direct S δ, st.exec env started (w₀.committed t.db) h s = (r, st') →
      (∃ locks', World.Sole t
        ⟨t.db, c, started, st'.writes.map Prod.snd, locks', st'.failed⟩ w') →
      st'.tick = st.tick + 1 → st'.calls = st.calls →
      ∃ w', w.exec c (env w.hist.length) (.exec t s) =
          some ((st.exec env started (w₀.committed t.db) h s).1, w') ∧
        Mirrors c t started w₀ w' (st.exec env started (w₀.committed t.db) h s).2 := by
    intro st' hst' hsole' htick hcalls
    have hhist := World.exec_hist hexec
    refine ⟨w', by rw [hexec, hst'], ?_⟩
    rw [hst']
    exact {
      sole := hsole'
      within := hm.within.trans hwithin
      tick := by simp [hhist, htick, hm.tick]
      noted := by
        rw [hhist, observations_append, hm.noted, hcalls]
        exact List.append_nil _
      flat := by
        rw [hhist, boundaries_append, hm.flat]
        exact List.append_nil _ }
  rcases hcases with ⟨err, rfl, hsole', hwhy⟩ | ⟨ret, ws, ks, rfl, hf, he, hrun, hsole'⟩
  · refine hdone { st with failed := true, tick := st.tick + 1 } ?_ ⟨locks, hsole'⟩ rfl rfl
    rcases hwhy with ⟨hf, rfl⟩ | ⟨hf, he | ⟨he, hrun⟩⟩
    · simp [Direct.exec, show st.failed = true from hf]
    · simp [Direct.exec, show st.failed = false from hf, he]
    · simp [Direct.exec, show st.failed = false from hf, he, hrun]
  · refine hdone { st with writes := st.writes ++ ws.map (Prod.mk h), tick := st.tick + 1 } ?_
      ⟨locks ++ ks, by simpa [Function.comp_def] using hsole'⟩ rfl rfl
    simp [Direct.exec, show st.failed = false from hf, he, hrun]

/-- Inside an open transaction a callback runs to its end and does what the
direct semantics says, whatever its nested calls return. -/
theorem solo_denote (cb : Callback S δ) (h : δ) {ctx : Context δ} (hctx : ctx.tx = some t)
    (hm : Mirrors c t started w₀ w st) :
    ∃ w', (cb.denote ctx t).solo c env w =
        some ((cb.eval env started (w₀.committed t.db) h st).1, w') ∧
      Mirrors c t started w₀ w' (cb.eval env started (w₀.committed t.db) h st).2 := by
  induction cb generalizing h w st with
  | ret err => exact ⟨w, rfl, hm⟩
  | panic v => exact ⟨w, rfl, hm⟩
  | exec s k ih =>
      obtain ⟨w₁, hexec, hm₁⟩ := hm.exec env h s
      obtain ⟨w₂, hrun, hm₂⟩ := ih _ h hm₁
      refine ⟨w₂, ?_, hm₂⟩
      rw [Callback.denote, txExec_bind, Prog.solo_op, hexec]
      exact hrun
  | withTx db body k ihbody ihk =>
      obtain ⟨w₁, hexec, hm₁⟩ := hm.enter (env w.hist.length) db
      obtain ⟨w₂, hbody, hm₂⟩ := ihbody db hm₁
      obtain ⟨w₃, hrest, hm₃⟩ := ihk _ h hm₂
      refine ⟨w₃, ?_, hm₃⟩
      have hcall : (withTx db ctx (entering db body.denote)).solo c env w =
          (body.denote ctx t).solo c env w₁ := by
        rw [withTx_nested db hctx, entering, Prog.solo_op, hexec]
        rfl
      rw [Callback.denote, Prog.solo_bind, Prog.solo_attempt, hcall, hbody]
      exact hrest

end Mirroring

end Gkit.Store
