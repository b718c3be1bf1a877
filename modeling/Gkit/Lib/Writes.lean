import Gkit.Lib.Executions

/-!
# What is written and who writes it

`Every` says that all rows on the server, committed or pending, satisfy a
predicate; an operation keeps it when the statement it executes writes such
rows.  `Only` says that a program keeps to some operations, however it ends.
The last part lets one client of a system go on while the others stand still.
-/

namespace Gkit.Lib

variable {S : Schema} {δ ι α β : Type}

/-- The statement that an operation executes. -/
def Op.statement : Op S δ → Option S.Stmt
  | .exec _ s => some s
  | .pool _ s => some s
  | _ => none

/-! ## Rows -/

namespace World

/-- Every row that is committed or that an open transaction has written
satisfies `P`. -/
structure Every (P : S.Write → Prop) (w : World S δ ι) : Prop where
  wal : ∀ d, ∀ u ∈ w.wal d, P u
  logs : ∀ {i x}, w.txs i = some x → ∀ u ∈ x.log, P u

variable {P Q : S.Write → Prop} {w w' : World S δ ι} {c : ι}

theorem Every.imp (h : w.Every P) (hPQ : ∀ u, P u → Q u) : w.Every Q :=
  ⟨fun d u hu => hPQ u (h.wal d u hu), fun hx u hu => hPQ u (h.logs hx u hu)⟩

theorem every_initial (P : S.Write → Prop) (base : δ → S.Data) :
    (World.initial base : World S δ ι).Every P where
  wal := fun _ _ hu => nomatch hu
  logs := fun hx => nomatch hx

theorem Every.record (h : w.Every P) (o : Op S δ) (r : o.Res) : (w.record c o r).Every P :=
  ⟨h.wal, h.logs⟩

theorem Every.drop [DecidableEq ι] (h : w.Every P) (c : ι) : (w.drop c).Every P :=
  ⟨h.wal, fun hx => h.logs (Option.filter_eq_some_iff.mp hx).1⟩

theorem Every.setTx (h : w.Every P) (i : ℕ) {y : Option (TxState S δ ι)}
    (hy : ∀ x, y = some x → ∀ u ∈ x.log, P u) : (w.setTx i y).Every P := by
  refine ⟨h.wal, fun {j x} hx => ?_⟩
  by_cases hj : j = i
  · subst hj
    exact hy x (by simpa using hx)
  · exact h.logs (by simpa [Function.update_of_ne hj] using hx)

/-- The tables that a transaction sees are built from such rows. -/
theorem Every.view (h : w.Every P) {i : ℕ} {x : TxState S δ ι} (hx : w.txs i = some x) :
    ∃ us : List S.Write, (∀ u ∈ us, P u) ∧ w.view x = us.foldl S.apply (w.base x.db) := by
  refine ⟨w.wal x.db ++ x.log, fun u hu => ?_, by simp [World.view, World.committed]⟩
  rcases List.mem_append.mp hu with hu | hu
  · exact h.wal _ u hu
  · exact h.logs hx u hu

variable [DecidableEq δ]

theorem Every.persist (h : w.Every P) (d : δ) {ws : List S.Write} (hws : ∀ u ∈ ws, P u) :
    (w.persist d ws).Every P := by
  refine ⟨fun d' u hu => ?_, h.logs⟩
  by_cases hd : d' = d
  · subst hd
    have hu' : u ∈ w.wal d' ++ ws := by simpa [World.persist] using hu
    rcases List.mem_append.mp hu' with hu' | hu'
    · exact h.wal _ u hu'
    · exact hws u hu'
  · exact h.wal d' u (by simpa [World.persist, Function.update_of_ne hd] using hu)

/-- The statement writes such rows whenever it reads such rows. -/
def Writes (P : S.Write → Prop) (w : World S δ ι) (s : S.Stmt) : Prop :=
  ∀ (m : Moment S.Env) (locked : S.Key → Bool) (us : List S.Write) (d : δ) (ret : S.Ret s)
    (ws : List S.Write) (ks : List S.Key), m.serial = w.hist.length → (∀ u ∈ us, P u) →
    S.run m s (us.foldl S.apply (w.base d)) locked = .done ret ws ks → ∀ u ∈ ws, P u

theorem Every.exec {e : Tick S} {o : Op S δ} {r : o.Res} (h : w.Every P)
    (hexec : w.exec c e o = some (r, w')) (hnew : ∀ s, o.statement = some s → Writes P w s) :
    w'.Every P := by
  cases o with
  | begin d =>
      rcases exec_begin_cases hexec with ⟨err, -, -, rfl⟩ | ⟨-, -, rfl⟩
      · exact h.record _ _
      · have hopen := h.setTx w.next (y := some ⟨d, c, e.env, [], [], false⟩)
          fun x hx u hu => by cases hx; cases hu
        exact ⟨h.wal, hopen.logs⟩
  | exec t s =>
      cases hx : w.txs t.id with
      | none => exact exec_closed hexec rfl hx ▸ h.record _ _
      | some x =>
          have hlog : ∀ u ∈ x.log, P u := h.logs hx
          rcases exec_exec_inv hexec hx with ⟨err, b, -, -, rfl⟩ | ⟨ret, ws, ks, -, -, hrun, -, rfl⟩
          · exact (h.setTx _ fun y hy => by cases hy; exact hlog).record _ _
          · obtain ⟨us, hus, hview⟩ := h.view hx
            rw [hview] at hrun
            refine (h.setTx _ fun y hy u hu => ?_).record _ _
            cases hy
            rcases List.mem_append.mp hu with hu | hu
            · exact hlog u hu
            · exact hnew s rfl _ _ us _ _ _ _ rfl hus hrun u hu
  | pool d s =>
      rcases exec_pool_cases hexec with ⟨err, -, -, rfl⟩ | ⟨ret, ws, ks, -, hrun, -, rfl⟩
      · exact h.record _ _
      · exact (h.persist d (hnew s rfl _ _ _ d _ _ _ rfl (h.wal d) hrun)).record _ _
  | commit t =>
      have hclose : (w.setTx t.id none).Every P := h.setTx _ fun y hy => by cases hy
      cases hx : w.txs t.id with
      | none => exact exec_closed hexec rfl hx ▸ h.record _ _
      | some x =>
          rcases exec_commit_inv hexec hx with ⟨err, -, -, rfl⟩ | ⟨-, -, -, rfl⟩
          · exact hclose.record _ _
          · exact (hclose.persist x.db (h.logs hx)).record _ _
  | rollback t =>
      have hclose : (w.setTx t.id none).Every P := h.setTx _ fun y hy => by cases hy
      cases hx : w.txs t.id with
      | none => exact exec_closed hexec rfl hx ▸ h.record _ _
      | some x => exact exec_rollback_eq hexec hx ▸ hclose.record _ _
  | ext a =>
      cases hexec
      exact h.record _ _
  | observe d t =>
      cases hexec
      exact h.record _ _

end World

/-! ## Programs -/

namespace Prog

theorem bind_bind {γ : Type} (p : GoProg S δ α) (f : α → GoProg S δ β) (g : β → GoProg S δ γ) :
    (p >>= f) >>= g = p >>= fun x => f x >>= g := by
  induction p with
  | ret x => rfl
  | panic v => rfl
  | op o k ih => exact congrArg (Prog.op o) (funext ih)

/-- Every operation of the program satisfies `P`. -/
def Only (P : Op S δ → Prop) : GoProg S δ α → Prop
  | .ret _ => True
  | .panic _ => True
  | .op o k => P o ∧ ∀ r, (k r).Only P

variable {P : Op S δ → Prop}

theorem Only.bind {p : GoProg S δ α} (h : p.Only P) {f : α → GoProg S δ β}
    (hf : ∀ x, (f x).Only P) : (p >>= f).Only P := by
  induction p with
  | ret x => exact hf x
  | panic v => trivial
  | op o k ih => exact ⟨h.1, fun r => ih r (h.2 r)⟩

theorem Only.attempt {p : GoProg S δ α} (h : p.Only P) : p.attempt.Only P := by
  induction p with
  | ret x => trivial
  | panic v => trivial
  | op o k ih => exact ⟨h.1, fun r => ih r (h.2 r)⟩

theorem Only.handle {Req : Type} {Rep : Req → Type} {h : (q : Req) → GoProg S δ (Rep q)}
    (hh : ∀ q, (h q).Only P) (p : Prog Req Rep α) : (p.handle h).Only P := by
  induction p with
  | ret x => trivial
  | panic v => trivial
  | op q k ih => exact (hh q).bind ih

end Prog

/-! ## One client goes on -/

/-- A client that runs a part of its program alone does so beside the others. -/
theorem Sys.run_of_solo [DecidableEq δ] [DecidableEq ι] {c : ι} {env : ℕ → Tick S}
    {p : GoProg S δ α} {f : α → GoProg S δ β} {x : α} {w w' : World S δ ι}
    (h : p.solo c env w = some (.ret x, w')) (prog : ι → GoProg S δ β) :
    ∃ ys, run Sys.step ⟨w, Function.update prog c (p >>= f)⟩ ys =
      some ⟨w', Function.update prog c (f x)⟩ := by
  induction p generalizing w with
  | ret y =>
      cases h
      exact ⟨[], rfl⟩
  | panic v => cases h
  | op o k ih =>
      rw [Prog.solo_op] at h
      obtain ⟨⟨r, w₁⟩, hexec, hrest⟩ := Option.bind_eq_some_iff.mp h
      obtain ⟨ys, hys⟩ := ih r hrest
      refine ⟨.step c (env w.hist.length) :: ys, run_cons_eq_some.mpr ⟨_, ?_, hys⟩⟩
      have hstep := Sys.step_eq (s := ⟨w, Function.update prog c (.op o k >>= f)⟩)
        (k := fun r => k r >>= f) (by simp) hexec
      simpa using hstep

end Gkit.Lib
