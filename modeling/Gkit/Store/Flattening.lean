import Gkit.Store.Callbacks

/-!
# Nested transaction calls are flattened

Whatever the tree of nested calls does, the outermost call begins one
transaction and ends it once.  It commits the writes of the whole tree, in
program order, or none of them, and the caller sees the error or the panic of
the outermost callback.
-/

namespace Gkit.Store

open Gkit.Lib

/-- The direct semantics of an outermost call on `db`, from its first operation
on: begin, then the callback is entered, then the tree runs. -/
def Callback.outermost {S : Schema} {δ ι : Type} (cb : Callback S δ) (db : δ)
    (env : ℕ → Tick S) (w : World S δ ι) : Outcome (Option GoError) × Direct S δ :=
  cb.eval env (env w.hist.length).env (w.committed db) db
    (Direct.enter db ⟨[], [], false, w.hist.length + 1⟩)

section Outermost

variable {S : Schema} {δ ι : Type} {w : World S δ ι} {c : ι} {env : ℕ → Tick S}

theorem Mirrors.begun (hidle : w.Idle) (e : Tick S) (db : δ) :
    Mirrors c ⟨db, w.next⟩ e.env (begun w c e db) (begun w c e db)
      ⟨[], [], false, w.hist.length + 1⟩ where
  sole := ⟨[], sole_begun hidle c e db⟩
  within := .refl _
  tick := by simp [Store.begun]
  noted := by simp
  flat := rfl

variable [DecidableEq δ]

/-- The outermost call up to the point where the callback has ended. -/
theorem solo_call (cb : Callback S δ) (db : δ) (hidle : w.Idle)
    (hbegin : (env w.hist.length).fault = none) :
    ∃ w₁, (cb.call db .background).solo c env w =
        (endTx ⟨db, w.next⟩ (cb.outermost db env w).1).solo c env w₁ ∧
      Mirrors c ⟨db, w.next⟩ (env w.hist.length).env (begun w c (env w.hist.length) db) w₁
        (cb.outermost db env w).2 := by
  let w₁ := begun w c (env w.hist.length) db
  let t : Tx δ := ⟨db, w.next⟩
  have hm : Mirrors c t (env w.hist.length).env w₁ w₁ ⟨[], [], false, w.hist.length + 1⟩ :=
    Mirrors.begun hidle (env w.hist.length) db
  obtain ⟨w₂, henter, hm₂⟩ := hm.enter (env w₁.hist.length) db
  obtain ⟨w₃, hrun, hm₃⟩ := solo_denote cb db (contextWithTx_tx .background t) hm₂
  have hbody : (entering db cb.denote (contextWithTx .background t) t).solo c env w₁ =
      some ((cb.outermost db env w).1, w₃) := by
    rw [entering, Prog.solo_op, henter]
    exact hrun
  exact ⟨w₃, solo_withTx_begun db hbegin hbody, hm₃⟩

/-- The commit of the outermost call goes through: no statement of the tree
has failed and the connection holds. -/
def CommitSucceeds (env : ℕ → Tick S) (st : Direct S δ) : Prop :=
  st.failed = false ∧ (env st.tick).fault = none

theorem Mirrors.flat_of_ends {t : Tx δ} {started : S.Env} {w₀ w' : World S δ ι}
    {st : Direct S δ} {x : TxState S δ ι} {e : Tick S} {out out' : Outcome (Option GoError)}
    (hm : Mirrors c t started w₀ w st) (h : Ends c e t x w out out' w') :
    ∃ fin, boundaries w'.hist = boundaries w₀.hist ++ [fin] ∧
      (fin = .commit t ∨ fin = .rollback t) := by
  cases h with
  | committed | failed =>
      refine ⟨.commit t, ?_, .inl rfl⟩
      rw [World.record_hist, boundaries_append, ← hm.flat]
      rfl
  | rolledBack =>
      refine ⟨.rollback t, ?_, .inr rfl⟩
      rw [World.record_hist, boundaries_append, ← hm.flat]
      rfl

end Outermost

/-- An outermost call on the only database.  `p` is the outcome of the callback
and what its tree has done when its statements are applied directly. -/
theorem withTx_flattens {S : Schema} {ι : Type} (cb : Callback S Unit) (c : ι)
    (env : ℕ → Tick S) (w : World S Unit ι) (hidle : w.Idle) :
    let p := cb.outermost () env w
    ∃ out w', (cb.call () .background).solo c env w = some (out, w') ∧ w'.Idle ∧
      ((env w.hist.length).fault = none →
        (∃ t fin, boundaries w'.hist = boundaries w.hist ++ [.begin (), fin] ∧
          (fin = .commit t ∨ fin = .rollback t)) ∧
        (p.1 = .ret none → CommitSucceeds env p.2 → out = .ret none ∧
          w'.committed () = (p.2.writes.map Prod.snd).foldl S.apply (w.committed ())) ∧
        (p.1 = .ret none → ¬CommitSucceeds env p.2 →
          (∃ err, out = .ret (some (.wrapping "store: commit" err))) ∧
          w'.committed () = w.committed ()) ∧
        (p.1 ≠ .ret none → out = p.1 ∧ w'.committed () = w.committed ())) ∧
      (∀ err, (env w.hist.length).fault = some err →
        out = .ret (some (.wrapping "store: begin tx" err)) ∧
        w'.committed () = w.committed () ∧
        boundaries w'.hist = boundaries w.hist ++ [.begin ()]) := by
  intro p
  cases hbegin : (env w.hist.length).fault with
  | some err =>
      refine ⟨_, _, solo_withTx_fault () hbegin _, hidle, by simp, ?_⟩
      rintro _ ⟨⟩
      exact ⟨rfl, rfl, by rw [World.record_hist, boundaries_append]; rfl⟩
  | none =>
      obtain ⟨w₁, hsolo, hm⟩ := solo_call (c := c) cb () hidle hbegin
      obtain ⟨locks, hsole⟩ := hm.sole
      obtain ⟨out, w', hend, hends⟩ := solo_endTx c env hsole p.1
      refine ⟨out, w', hsolo.trans hend, hends.idle hsole, fun _ => ⟨?_, ?_⟩, by simp⟩
      · obtain ⟨fin, hflat, hfin⟩ := hm.flat_of_ends hends
        refine ⟨⟨(), w.next⟩, fin, ?_, hfin⟩
        rw [hflat, begun, World.record_hist, boundaries_append, List.append_assoc]
        rfl
      · have hsame : w₁.committed () = w.committed () := hm.within.committed ()
        rw [← hm.tick] at hends
        generalize hp : p.1 = q at hends
        cases hends with
        | committed ha he =>
            refine ⟨fun _ _ => ⟨rfl, ?_⟩, fun _ hno => absurd ⟨ha, he⟩ hno,
              fun hne => absurd rfl hne⟩
            rw [World.committed_record, World.committed_settle w₁ w.next, World.view, hsame]
        | failed err hwhy =>
            refine ⟨fun _ hok => ?_, fun _ _ => ⟨⟨err, rfl⟩, hsame⟩, fun hne => absurd rfl hne⟩
            obtain ⟨ha, he⟩ := hok
            rcases hwhy with hwhy | hwhy
            · exact absurd (ha.symm.trans hwhy) (by simp)
            · exact absurd (he.symm.trans hwhy) (by simp)
        | rolledBack _ hout r =>
            exact ⟨fun h => absurd h hout, fun h => absurd h hout, fun _ => ⟨rfl, hsame⟩⟩

/-- A callback that swallows the error of a nested call. -/
def swallowing : Callback numbers Unit :=
  .exec (some 1) fun _ =>
    .withTx () (.exec (some 2) fun _ => .ret (some (.new "inner"))) fun _ =>
      .exec (some 3) fun _ => .ret none

theorem swallowing_commits_all :
    ∃ out w', (swallowing.call () .background).solo () quiet (World.initial fun _ => []) =
      some (out, w') ∧ out = .ret none ∧ w'.committed () = [1, 2, 3] := by
  obtain ⟨out, w', hrun, -, hbegun, -⟩ :=
    withTx_flattens swallowing () quiet (World.initial fun _ => []) (fun _ => rfl)
  obtain ⟨hout, hdata⟩ := (hbegun rfl).2.1 rfl ⟨rfl, rfl⟩
  exact ⟨out, w', hrun, hout, hdata⟩

end Gkit.Store
