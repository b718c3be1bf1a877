import Gkit.Store.Flattening

/-!
# Handles on different databases

The context key of the transaction is shared by all handles.  A nested call on
a handle of another database therefore runs in the transaction of the outermost
call, and its writes go to the database of that one.  The calls keep to their
own databases exactly when every call of the tree is made on the database of
the outermost one.
-/

namespace Gkit.Store

open Gkit.Lib

variable {S : Schema} {δ ι : Type}

/-- Every callback of the outermost call on `db` is given a transaction of the
database of its own handle, and what it writes lands there when the call
commits. -/
def StaysOnDatabase [DecidableEq δ] (cb : Callback S δ) (db : δ) (c : ι) (env : ℕ → Tick S)
    (w : World S δ ι) : Prop :=
  ∃ out w' noted, (cb.call db .background).solo c env w = some (out, w') ∧
    observations w'.hist = observations w.hist ++ noted ∧
    (∀ o ∈ noted, o.2.db = o.1) ∧
    (out = .ret none → ∀ h, w'.wal h = w.wal h ++
      ((cb.outermost db env w).2.writes.filter fun u => u.1 = h).map Prod.snd)

/-! ## The handles of a tree -/

theorem Direct.exec_calls (env : ℕ → Tick S) (started : S.Env) (base : S.Data) (h : δ)
    (s : S.Stmt) (st : Direct S δ) :
    (st.exec env started base h s).2.calls = st.calls := by
  unfold Direct.exec
  split
  · rfl
  · split
    · rfl
    · split <;> rfl

theorem Direct.exec_tags (env : ℕ → Tick S) (started : S.Env) (base : S.Data) (h : δ)
    (s : S.Stmt) (st : Direct S δ) :
    ∀ u ∈ (st.exec env started base h s).2.writes, u ∈ st.writes ∨ u.1 = h := by
  unfold Direct.exec
  intro u hu
  split at hu
  · exact .inl hu
  · split at hu
    · exact .inl hu
    · split at hu
      · exact .inl hu
      · exact .inl hu
      · rcases List.mem_append.mp hu with hu | hu
        · exact .inl hu
        · obtain ⟨v, -, rfl⟩ := List.mem_map.mp hu
          exact .inr rfl

/-- The calls of a tree are only ever added to. -/
theorem Callback.eval_calls (env : ℕ → Tick S) (started : S.Env) (base : S.Data)
    (cb : Callback S δ) (h : δ) (st : Direct S δ) :
    st.calls <+: (cb.eval env started base h st).2.calls := by
  induction cb generalizing h st with
  | ret err => exact List.prefix_refl _
  | panic v => exact List.prefix_refl _
  | exec s k ih =>
      have hk := ih (st.exec env started base h s).1 h (st.exec env started base h s).2
      rwa [Direct.exec_calls] at hk
  | withTx db body k ihbody ihk =>
      have henter : st.calls <+: (st.enter db).calls := List.prefix_append _ _
      exact henter.trans ((ihbody db (st.enter db)).trans (ihk _ h _))

/-- Whoever writes is the callback at hand or one that has been called. -/
theorem Callback.eval_tags (env : ℕ → Tick S) (started : S.Env) (base : S.Data)
    (cb : Callback S δ) (h : δ) (st : Direct S δ) :
    ∀ u ∈ (cb.eval env started base h st).2.writes,
      u ∈ st.writes ∨ u.1 = h ∨ u.1 ∈ (cb.eval env started base h st).2.calls := by
  induction cb generalizing h st with
  | ret err => exact fun u hu => .inl hu
  | panic v => exact fun u hu => .inl hu
  | exec s k ih =>
      intro u hu
      rcases ih _ h _ u hu with hu | hu
      · exact (Direct.exec_tags env started base h s st u hu).imp_right .inl
      · exact .inr hu
  | withTx db body k ihbody ihk =>
      intro u hu
      rcases ihk _ h _ u hu with hu | hu
      · have hcalls := Callback.eval_calls env started base
          (k (body.eval env started base db (st.enter db)).1) h
          (body.eval env started base db (st.enter db)).2
        rcases ihbody db _ u hu with hu | hu | hu
        · exact .inl hu
        · have hdb : db ∈ (st.enter db).calls := List.mem_append_right _ (by simp)
          have hbody := (Callback.eval_calls env started base body db (st.enter db)).subset hdb
          exact .inr (.inr (hcalls.subset (hu ▸ hbody)))
        · exact .inr (.inr (hcalls.subset hu))
      · exact .inr hu

theorem Callback.outermost_tags (cb : Callback S δ) (db : δ) (env : ℕ → Tick S)
    (w : World S δ ι) (hcalls : ∀ h ∈ (cb.outermost db env w).2.calls, h = db) :
    ∀ u ∈ (cb.outermost db env w).2.writes, u.1 = db := by
  intro u hu
  rcases Callback.eval_tags _ _ _ cb db _ u hu with hu | hu | hu
  · simp [Direct.enter] at hu
  · exact hu
  · exact hcalls _ hu

/-! ## Where the writes land -/

theorem filter_tags [DecidableEq δ] {us : List (δ × S.Write)} {db : δ}
    (h : ∀ u ∈ us, u.1 = db) (d : δ) :
    (us.filter fun u => u.1 = d) = if d = db then us else [] := by
  by_cases hd : d = db
  · subst hd
    simpa using h
  · rw [if_neg hd]
    apply List.filter_eq_nil_iff.mpr
    intro u hu
    simpa [h u hu] using Ne.symm hd

variable [DecidableEq δ] {w : World S δ ι} {c : ι} {env : ℕ → Tick S}

/-- Every callback of the tree is handed the transaction of the outermost call,
and a commit puts everything into the database of that one. -/
theorem solo_call_noted (cb : Callback S δ) (db : δ) (hidle : w.Idle)
    (hbegin : (env w.hist.length).fault = none) :
    ∃ out w', (cb.call db .background).solo c env w = some (out, w') ∧
      observations w'.hist = observations w.hist ++
        (cb.outermost db env w).2.calls.map (fun h => (h, ⟨db, w.next⟩)) ∧
      (out = .ret none → w'.wal = Function.update w.wal db
        (w.wal db ++ (cb.outermost db env w).2.writes.map Prod.snd)) := by
  obtain ⟨w₁, hsolo, hm⟩ := solo_call (c := c) cb db hidle hbegin
  obtain ⟨locks, hsole⟩ := hm.sole
  obtain ⟨out, w', hend, hends⟩ := solo_endTx c env hsole (cb.outermost db env w).1
  have hbegun : observations (begun w c (env w.hist.length) db).hist = observations w.hist := by
    rw [begun, World.record_hist, observations_append]
    exact List.append_nil _
  refine ⟨out, w', hsolo.trans hend, ?_, ?_⟩
  · rw [← hbegun, ← hm.noted]
    generalize (cb.outermost db env w).1 = q at hends
    cases hends <;> exact (observations_append _ _).trans (List.append_nil _)
  · intro hout
    generalize (cb.outermost db env w).1 = q at hends
    cases hends with
    | committed ha he => simp [hm.within.wal, begun]
    | failed err => simp at hout
    | rolledBack _ hq r => exact absurd hout hq

/-- The calls keep to their databases if and only if the transaction is never
begun or every call of the tree is on the database of the outermost one. -/
theorem staysOnDatabase_iff (cb : Callback S δ) (db : δ) (c : ι) (env : ℕ → Tick S)
    (w : World S δ ι) (hidle : w.Idle) :
    StaysOnDatabase cb db c env w ↔
      (env w.hist.length).fault ≠ none ∨ ∀ h ∈ (cb.outermost db env w).2.calls, h = db := by
  cases hbegin : (env w.hist.length).fault with
  | some err =>
      simp only [ne_eq, reduceCtorEq, not_false_eq_true, true_or, iff_true]
      refine ⟨_, _, [], solo_withTx_fault db hbegin _, ?_, by simp, by simp⟩
      rw [World.record_hist, observations_append]
      rfl
  | none =>
      simp only [ne_eq, not_true_eq_false, false_or]
      obtain ⟨out, w', hrun, hobs, hwal⟩ := solo_call_noted (c := c) cb db hidle hbegin
      constructor
      · rintro ⟨out₁, w₁, noted, hrun₁, hobs₁, hnoted, -⟩ h hh
        rw [hrun] at hrun₁
        cases hrun₁
        have heq : noted = (cb.outermost db env w).2.calls.map fun h => (h, ⟨db, w.next⟩) :=
          List.append_cancel_left (hobs₁.symm.trans hobs)
        subst heq
        exact (hnoted _ (List.mem_map_of_mem hh)).symm
      · intro hcalls
        refine ⟨out, w', _, hrun, hobs, ?_, ?_⟩
        · intro o ho
          obtain ⟨h, hh, rfl⟩ := List.mem_map.mp ho
          exact (hcalls h hh).symm
        · intro hout d
          rw [hwal hout, filter_tags (cb.outermost_tags db env w hcalls) d]
          by_cases hd : d = db
          · subst hd
            simp
          · simp [hd]

/-- An outermost call on the database `false` whose callback calls `WithTx` on a
handle of the database `true` and inserts a row there. -/
def crossing : Callback numbers Bool :=
  .withTx true (.exec (some 1) fun _ => .ret none) fun _ => .ret none

/-- The callback is given the transaction of the other database. -/
theorem crossing_not_staysOnDatabase :
    ¬StaysOnDatabase crossing false () quiet (World.initial fun _ => []) := by
  rintro ⟨out, w', noted, hrun, hobs, hnoted, -⟩
  cases hrun
  have hlist : noted = [(false, ⟨false, 0⟩), (true, ⟨false, 0⟩)] := hobs.symm
  subst hlist
  exact absurd (hnoted (true, ⟨false, 0⟩) (by simp)) (by simp)

/-- The same tree with both calls on one database. -/
def repeated : Callback numbers Bool :=
  .withTx false (.exec (some 1) fun _ => .ret none) fun _ => .ret none

theorem repeated_staysOnDatabase :
    StaysOnDatabase repeated false () quiet (World.initial fun _ => []) :=
  (staysOnDatabase_iff repeated false () quiet _ fun _ => rfl).mpr (.inr (by decide))

end Gkit.Store
