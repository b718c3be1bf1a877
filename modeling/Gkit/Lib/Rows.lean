import Gkit.Lib.Locks

/-!
# Rows under lock

The rows of a table, each found by its own key.  A row that an open transaction
holds is the same in the committed tables until that transaction ends, whatever
the other clients do, and so is what the transaction itself sees of it.
-/

namespace Gkit.Lib

variable {S : Schema} {δ ι κ ρ : Type}

/-- The rows of one table: a write of another key leaves a row alone, and what a
write makes of a row depends on that row only. -/
structure Rows (S : Schema) (κ ρ : Type) where
  key : κ → S.Key
  get : S.Data → κ → Option ρ
  get_apply : ∀ {d u k}, S.keyOf u ≠ key k → get (S.apply d u) k = get d k
  get_congr : ∀ {d d' k} (u : S.Write), get d k = get d' k →
    get (S.apply d u) k = get (S.apply d' u) k

namespace Rows

variable {T : Rows S κ ρ} {k : κ} {w w' : World S δ ι} {d : δ}

/-- Some open transaction has locked the row. -/
def Held (T : Rows S κ ρ) (w : World S δ ι) (d : δ) (k : κ) : Prop :=
  ∃ i x, w.txs i = some x ∧ x.db = d ∧ T.key k ∈ x.locks

theorem Held.mono (h : T.Held w d k) (hsub : ∀ i x, w.txs i = some x →
    ∃ y, w'.txs i = some y ∧ y.db = x.db ∧ x.locks ⊆ y.locks) : T.Held w' d k := by
  obtain ⟨i, x, hx, hd, hk⟩ := h
  obtain ⟨y, hy, hdb, hlocks⟩ := hsub i x hx
  exact ⟨i, y, hy, hdb.trans hd, hlocks hk⟩

/-- A transaction that goes on keeps what it holds, and so do the others. -/
theorem locks_setTx {i : ℕ} {x y : TxState S δ ι} (hx : w.txs i = some x) (hdb : y.db = x.db)
    (hlocks : x.locks ⊆ y.locks) (j : ℕ) (z : TxState S δ ι) (hz : w.txs j = some z) :
    ∃ z', (w.setTx i (some y)).txs j = some z' ∧ z'.db = z.db ∧ z.locks ⊆ z'.locks := by
  by_cases hj : j = i
  · subst hj
    rw [hx] at hz
    cases hz
    exact ⟨y, by simp, hdb, hlocks⟩
  · exact ⟨z, by simpa [Function.update_of_ne hj] using hz, rfl, List.Subset.refl _⟩

/-- When a transaction ends, the rows of the others stay held. -/
theorem Held.close {i : ℕ} {x : TxState S δ ι} (h : T.Held w d k) (hx : w.txs i = some x) :
    T.key k ∈ x.locks ∨ T.Held (w.setTx i none) d k := by
  obtain ⟨j, z, hz, hd, hk⟩ := h
  by_cases hj : j = i
  · subst hj
    rw [hx] at hz
    cases hz
    exact .inl hk
  · exact .inr ⟨j, z, by simpa [Function.update_of_ne hj] using hz, hd, hk⟩

/-- A row that is free for a transaction without locks is held by nobody. -/
theorem not_held_of_free [DecidableEq δ] {i : ℕ} {x : TxState S δ ι} (hw : w.WF)
    (hx : w.txs i = some x)
    (hlocks : x.locks = []) (hfree : w.locked d (some i) (T.key k) = false) : ¬T.Held w d k := by
  rintro ⟨j, y, hy, hd, hk⟩
  by_cases hj : j = i
  · subst hj
    obtain rfl : x = y := Option.some.inj (hx.symm.trans hy)
    simp [hlocks] at hk
  · exact hw.locked_eq_false hfree hy (by simpa using hj) hd hk

theorem get_foldl {ws : List S.Write} (h : ∀ u ∈ ws, S.keyOf u ≠ T.key k) (data : S.Data) :
    T.get (ws.foldl S.apply data) k = T.get data k := by
  induction ws generalizing data with
  | nil => rfl
  | cons u ws ih =>
      rw [List.foldl_cons, ih (fun v hv => h v (List.mem_cons_of_mem _ hv))]
      exact T.get_apply (h u List.mem_cons_self)

theorem get_foldl_congr (ws : List S.Write) {data data' : S.Data}
    (h : T.get data k = T.get data' k) :
    T.get (ws.foldl S.apply data) k = T.get (ws.foldl S.apply data') k := by
  induction ws generalizing data data' with
  | nil => exact h
  | cons u ws ih => exact ih (T.get_congr u h)

/-- A transaction sees the committed version of a row it does not hold. -/
theorem get_view_of_notMem (hw : w.WF) {i : ℕ} {x : TxState S δ ι} (hx : w.txs i = some x)
    (hk : T.key k ∉ x.locks) : T.get (w.view x) k = T.get (w.committed x.db) k :=
  get_foldl (fun u hu hkey => hk (hkey ▸ hw.owned hx u hu)) _

theorem get_view_congr {x : TxState S δ ι}
    (h : T.get (w'.committed x.db) k = T.get (w.committed x.db) k) :
    T.get (w'.view x) k = T.get (w.view x) k :=
  get_foldl_congr x.log h

variable [DecidableEq δ]

/-- A step does not change a row that is held after it. -/
theorem Held.get_committed (hk : T.Held w' d k) (hw : w.WF) {c : ι} {e : Tick S} {o : Op S δ}
    {r : o.Res} (h : w.exec c e o = some (r, w')) :
    T.get (w'.committed d) k = T.get (w.committed d) k := by
  obtain ⟨i, x, hx, hd, hmem⟩ := hk
  obtain ⟨ws, hws, hfree⟩ := hw.exec_wal h d
  simp only [World.committed, hws, World.exec_base h, List.foldl_append]
  exact get_foldl (fun u hu hkey => hfree u hu i x hx hd (hkey ▸ hmem)) _

/-- Every committed row that nobody holds agrees with the history. -/
def Balanced (T : Rows S κ ρ) (R : List (Entry S δ ι) → ρ → Prop) (d : δ) (w : World S δ ι) :
    Prop :=
  ∀ k row, T.get (w.committed d) k = some row → ¬T.Held w d k → R w.hist row

omit [DecidableEq δ] in
/-- The rows `P` that a step releases or commits have to agree with the history
after it; the others stay as they are, or stay held. -/
theorem Balanced.step {R : List (Entry S δ ι) → ρ → Prop} (h : Balanced T R d w) (P : κ → Prop)
    (hsame : ∀ k, ¬P k → T.get (w'.committed d) k = T.get (w.committed d) k ∧
      (T.Held w d k → T.Held w' d k))
    (hrecord : ∀ k row, ¬P k → ¬T.Held w' d k → T.get (w.committed d) k = some row →
      R w.hist row → R w'.hist row)
    (hP : ∀ k row, P k → T.get (w'.committed d) k = some row → R w'.hist row) :
    Balanced T R d w' := by
  intro k row hrow hfree
  by_cases hk : P k
  · exact hP k row hk hrow
  · obtain ⟨hget, hheld⟩ := hsame k hk
    rw [hget] at hrow
    exact hrecord k row hk hfree hrow (h k row hrow fun hh => hfree (hheld hh))

/-! ## What the others leave alone -/

variable [DecidableEq κ]

/-- The entries of a history that are about one row. -/
def entriesAbout (about : Op S δ → Option κ) (k : κ) (hist : List (Entry S δ ι)) :
    List (Entry S δ ι) :=
  hist.filter fun en => about en.op = some k

/-- What a step of another client leaves to the client `b`: its transactions,
and the rows it holds with all that the history says about them. -/
structure Kept [DecidableEq ι] (T : Rows S κ ρ) (about : Op S δ → Option κ) (b : ι)
    (w w' : World S δ ι) : Prop where
  untouched : World.Untouched b w w'
  row : ∀ {i x k}, w.txs i = some x → x.owner = b → T.key k ∈ x.locks →
    T.get (w'.committed x.db) k = T.get (w.committed x.db) k
  entries : ∀ {i x k}, w.txs i = some x → x.owner = b → T.key k ∈ x.locks →
    entriesAbout about k w'.hist = entriesAbout about k w.hist
  grows : w.hist <+: w'.hist

variable [DecidableEq ι] {about : Op S δ → Option κ} {b c : ι}

omit [DecidableEq δ] in
theorem Kept.view (h : T.Kept about b w w') {i : ℕ} {x : TxState S δ ι} (hx : w.txs i = some x)
    (hxb : x.owner = b) (hk : T.key k ∈ x.locks) :
    T.get (w'.view x) k = T.get (w.view x) k :=
  get_view_congr (h.row hx hxb hk)

omit [DecidableEq δ] [DecidableEq ι] [DecidableEq κ] in
/-- An operation about rows that the client holds is about no row that another
one holds. -/
theorem about_ne [Subsingleton δ] (hw : w.WF) {o : Op S δ}
    (habout : ∀ k, about o = some k → ∃ i x, w.txs i = some x ∧ x.owner = c ∧ T.key k ∈ x.locks)
    (hb : b ≠ c) {i : ℕ} {x : TxState S δ ι} {k : κ} (hx : w.txs i = some x) (hxb : x.owner = b)
    (hk : T.key k ∈ x.locks) : about o ≠ some k := by
  intro hnote
  obtain ⟨j, y, hy, hyc, hk'⟩ := habout k hnote
  obtain rfl := hw.exclusive hx hy (Subsingleton.elim _ _) hk hk'
  obtain rfl : x = y := Option.some.inj (hx.symm.trans hy)
  exact hb (hxb.symm.trans hyc)

/-- A step that only uses the client's own transactions, and is only about rows
that these hold, does not interfere with anybody. -/
theorem kept_of_exec [Subsingleton δ] (hw : w.WF) {e : Tick S} {o : Op S δ} {r : o.Res}
    (h : w.exec c e o = some (r, w'))
    (hown : ∀ i x, o.target = some i → w.txs i = some x → x.owner = c)
    (habout : ∀ k, about o = some k →
      ∃ i x, w.txs i = some x ∧ x.owner = c ∧ T.key k ∈ x.locks)
    (hb : b ≠ c) : T.Kept about b w w' where
  untouched := hw.untouched h hown hb
  row := fun {i x k} hx hxb hk =>
    Held.get_committed ⟨i, x, ((hw.untouched h hown hb).txs hxb).mpr hx, rfl, hk⟩ hw h
  entries := fun {i x k} hx hxb hk => by
    simp [entriesAbout, World.exec_hist h, about_ne hw habout hb hx hxb hk]
  grows := World.exec_hist h ▸ List.prefix_append _ _

omit [DecidableEq δ] in
theorem kept_drop (hb : b ≠ c) : T.Kept about b w (w.drop c) :=
  ⟨World.untouched_drop hb, fun _ _ _ => rfl, fun _ _ _ => rfl, List.prefix_rfl⟩

end Rows

end Gkit.Lib
