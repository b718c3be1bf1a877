import Gkit.Lib.Transactions

/-!
# Lock discipline

No two open transactions hold one key, and a transaction holds the key of every
row it has written.  Both survive every operation of every client, whatever the
statements are, so a row that an open transaction has written or selected for
update cannot be committed by anybody else before that transaction ends.
-/

namespace Gkit.Lib.World

variable {S : Schema} {δ ι : Type}

/-- Transaction numbers are not reused, no key is locked twice, and every row
an open transaction has written is locked by it. -/
structure WF (w : World S δ ι) : Prop where
  fresh : ∀ i, w.next ≤ i → w.txs i = none
  exclusive : ∀ {i j x y k}, w.txs i = some x → w.txs j = some y → x.db = y.db →
    k ∈ x.locks → k ∈ y.locks → i = j
  owned : ∀ {i x}, w.txs i = some x → ∀ u ∈ x.log, S.keyOf u ∈ x.locks

theorem WF.lt_next {w : World S δ ι} (hw : w.WF) {i : ℕ} {x : TxState S δ ι}
    (hx : w.txs i = some x) : i < w.next := by
  by_contra hi
  simp [hw.fresh i (Nat.le_of_not_lt hi)] at hx

theorem WF.initial (base : δ → S.Data) : (initial base : World S δ ι).WF := by
  refine ⟨fun _ _ => rfl, ?_, ?_⟩
  · intro i j x y k hx
    simp [World.initial] at hx
  · intro i x hx
    simp [World.initial] at hx

/-- Replacing the state of one transaction keeps the locks in order when the
new state locks nothing that another transaction holds. -/
theorem WF.setTx_some {w : World S δ ι} (hw : w.WF) {i n : ℕ} {y : TxState S δ ι}
    (hn : w.next ≤ n) (hi : i < n)
    (hfree : ∀ {j z k}, w.txs j = some z → j ≠ i → z.db = y.db → k ∈ y.locks → k ∉ z.locks)
    (hown : ∀ u ∈ y.log, S.keyOf u ∈ y.locks) :
    WF { w.setTx i (some y) with next := n } := by
  refine ⟨?_, ?_, ?_⟩
  · intro j hj
    have hne : j ≠ i := by
      rintro rfl
      exact absurd hj (Nat.not_le_of_lt hi)
    simpa [Function.update_of_ne hne] using hw.fresh j (hn.trans hj)
  · intro j l x z k hx hz hd hkx hkz
    simp only [setTx_txs] at hx hz
    by_cases hj : j = i
    · subst hj
      by_cases hl : l = j
      · exact hl.symm
      · simp only [Function.update_self, Option.some.injEq] at hx
        subst hx
        rw [Function.update_of_ne hl] at hz
        exact (hfree hz hl hd.symm hkx hkz).elim
    · rw [Function.update_of_ne hj] at hx
      by_cases hl : l = i
      · subst hl
        simp only [Function.update_self, Option.some.injEq] at hz
        subst hz
        exact (hfree hx hj hd hkz hkx).elim
      · rw [Function.update_of_ne hl] at hz
        exact hw.exclusive hx hz hd hkx hkz
  · intro j x hx u hu
    simp only [setTx_txs] at hx
    by_cases hj : j = i
    · subst hj
      simp only [Function.update_self, Option.some.injEq] at hx
      subst hx
      exact hown u hu
    · rw [Function.update_of_ne hj] at hx
      exact hw.owned hx u hu

theorem WF.of_txs {w w' : World S δ ι} (hw : w.WF) (hnext : w'.next = w.next)
    (hsub : ∀ i x, w'.txs i = some x → w.txs i = some x) : w'.WF := by
  refine ⟨?_, ?_, ?_⟩
  · intro i hi
    cases hx : w'.txs i with
    | none => rfl
    | some x => simpa [hw.fresh i (hnext ▸ hi)] using hsub i x hx
  · intro i j x y k hx hy
    exact hw.exclusive (hsub i x hx) (hsub j y hy)
  · intro i x hx
    exact hw.owned (hsub i x hx)

theorem WF.setTx_none {w : World S δ ι} (hw : w.WF) (i : ℕ) : (w.setTx i none).WF := by
  refine hw.of_txs rfl fun j x hx => ?_
  by_cases hj : j = i
  · subst hj
    simp at hx
  · simpa [Function.update_of_ne hj] using hx

theorem WF.drop [DecidableEq ι] {w : World S δ ι} (hw : w.WF) (c : ι) : (w.drop c).WF := by
  refine hw.of_txs rfl fun i x hx => ?_
  simp only [World.drop, Option.filter_eq_some_iff] at hx
  exact hx.1

variable [DecidableEq δ]

theorem WF.locked_eq_false {w : World S δ ι} (hw : w.WF) {d : δ} {self : Option ℕ} {k : S.Key}
    (hk : w.locked d self k = false) {i : ℕ} {x : TxState S δ ι} (hx : w.txs i = some x)
    (hself : some i ≠ self) (hd : x.db = d) : k ∉ x.locks := by
  intro hmem
  have hany : w.locked d self k = true := by
    refine List.any_eq_true.mpr ⟨i, List.mem_range.mpr (hw.lt_next hx), ?_⟩
    simp [hx, hself, hd, hmem]
  simp [hk] at hany

theorem locked_eq_true {w : World S δ ι} {d : δ} {self : Option ℕ} {k : S.Key}
    (hk : w.locked d self k = true) :
    ∃ i x, w.txs i = some x ∧ some i ≠ self ∧ x.db = d ∧ k ∈ x.locks := by
  obtain ⟨i, -, hi⟩ := List.any_eq_true.mp hk
  simp only [Bool.and_eq_true, decide_eq_true_eq, Option.any_eq_true] at hi
  obtain ⟨hself, x, hx, hd, hmem⟩ := hi
  exact ⟨i, x, hx, hself, hd, hmem⟩

theorem WF.change {w w' : World S δ ι} {c : ι} {t : Option ℕ} (hw : w.WF)
    (h : Change w c t w') : w'.WF := by
  cases h with
  | none => exact hw
  | opened d env => exact hw.setTx_some (Nat.le_succ _) (Nat.lt_succ_self _) (by simp) (by simp)
  | aborted i x hx =>
      refine hw.setTx_some (le_refl _) (hw.lt_next hx) ?_ (fun u hu => hw.owned hx u hu)
      intro j z k hz hj hd hk hkz
      exact hj (hw.exclusive hz hx hd hkz hk)
  | wrote i x ws ks hx hlocks hwrites =>
      refine hw.setTx_some (le_refl _) (hw.lt_next hx) ?_ ?_
      · intro j z k hz hj hd hk hkz
        rcases List.mem_append.mp hk with hk | hk
        · exact hj (hw.exclusive hz hx hd hkz hk)
        · exact hw.locked_eq_false (hlocks k hk) hz (by simpa using hj) hd hkz
      · intro u hu
        rcases List.mem_append.mp hu with hu | hu
        · exact List.mem_append_left _ (hw.owned hx u hu)
        · exact List.mem_append_right _ (hwrites u hu)
  | pooled d ws => exact hw.of_txs rfl fun _ _ hx => hx
  | closed i x hx => exact hw.setTx_none i
  | committed i x hx => exact (hw.setTx_none i).of_txs rfl fun _ _ hx => hx

theorem WF.exec {w w' : World S δ ι} {c : ι} {e : Tick S} {o : Op S δ} {r : o.Res}
    (hw : w.WF) (h : w.exec c e o = some (r, w')) : w'.WF := by
  obtain ⟨w₁, hp, rfl⟩ := exec_eq_some.mp h
  exact (hw.change (perform_change hp)).of_txs rfl fun _ _ hx => hx

/-- No row that a step commits is held by a transaction that stays open. -/
theorem WF.change_wal {w w' : World S δ ι} {c : ι} {t : Option ℕ} (hw : w.WF)
    (h : Change w c t w') (d : δ) : ∃ ws, w'.wal d = w.wal d ++ ws ∧
      ∀ u ∈ ws, ∀ i x, w'.txs i = some x → x.db = d → S.keyOf u ∉ x.locks := by
  cases h with
  | none | opened | aborted | wrote | closed => exact ⟨[], by simp, by simp⟩
  | pooled d' ws hfree =>
      by_cases hd : d = d'
      · subst hd
        refine ⟨ws, by simp [persist], fun u hu i x hx hxd => ?_⟩
        exact hw.locked_eq_false (hfree u hu) hx (by simp) hxd
      · exact ⟨[], by simp [persist, Function.update_of_ne hd], by simp⟩
  | committed i x hx =>
      by_cases hd : d = x.db
      · subst hd
        refine ⟨x.log, by simp, fun u hu j y hy hyd hmem => ?_⟩
        have hj : j ≠ i := by
          rintro rfl
          simp at hy
        rw [settle_txs, Function.update_of_ne hj] at hy
        exact hj (hw.exclusive hy hx hyd hmem (hw.owned hx u hu))
      · exact ⟨[], by simp [Function.update_of_ne hd], by simp⟩

theorem WF.exec_wal {w w' : World S δ ι} {c : ι} {e : Tick S} {o : Op S δ} {r : o.Res}
    (hw : w.WF) (h : w.exec c e o = some (r, w')) (d : δ) : ∃ ws, w'.wal d = w.wal d ++ ws ∧
      ∀ u ∈ ws, ∀ i x, w'.txs i = some x → x.db = d → S.keyOf u ∉ x.locks := by
  obtain ⟨w₁, hp, rfl⟩ := exec_eq_some.mp h
  exact hw.change_wal (perform_change hp) d

/-! ## What a step leaves to the other clients -/

/-- The clients whose transactions have committed, in commit order. -/
def commits (hist : List (Entry S δ ι)) : List ι :=
  hist.filterMap fun en =>
    match en with
    | ⟨c, .commit _, .ok _⟩ => some c
    | _ => none

omit [DecidableEq δ] in
@[simp] theorem commits_append (xs ys : List (Entry S δ ι)) :
    commits (xs ++ ys) = commits xs ++ commits ys := List.filterMap_append

section Commits

omit [DecidableEq δ]

variable {c : ι} {t : Tx δ}

@[simp] theorem commits_begin {d : δ} {r : Except GoError (Tx δ)} :
    commits [(⟨c, .begin d, r⟩ : Entry S δ ι)] = [] := rfl

@[simp] theorem commits_exec {s : S.Stmt} {r : Except GoError (S.Ret s)} :
    commits [(⟨c, .exec t s, r⟩ : Entry S δ ι)] = [] := rfl

@[simp] theorem commits_rollback {r : Except GoError Unit} :
    commits [(⟨c, .rollback t, r⟩ : Entry S δ ι)] = [] := rfl

@[simp] theorem commits_commit_error {err : GoError} :
    commits [(⟨c, .commit t, .error err⟩ : Entry S δ ι)] = [] := rfl

@[simp] theorem commits_commit_ok :
    commits [(⟨c, .commit t, .ok ()⟩ : Entry S δ ι)] = [c] := rfl

end Commits

variable [DecidableEq ι]

/-- The transactions of the client `c` and its part of the history are the same. -/
structure Untouched (c : ι) (w w' : World S δ ι) : Prop where
  txs : ∀ {i y}, y.owner = c → (w'.txs i = some y ↔ w.txs i = some y)
  hist : w'.hist.filter (fun en => decide (en.client = c)) =
    w.hist.filter fun en => decide (en.client = c)

omit [DecidableEq δ] in
theorem mem_commits {hist : List (Entry S δ ι)} {c : ι} :
    c ∈ commits hist ↔ c ∈ commits (hist.filter fun en => decide (en.client = c)) := by
  simp only [commits, List.mem_filterMap, List.mem_filter, decide_eq_true_eq]
  refine exists_congr fun en => ?_
  have hclient : (match en with
      | ⟨b, .commit _, .ok _⟩ => some b
      | _ => none) = some c → en.client = c := by
    split
    · exact fun h => Option.some.inj h
    · exact fun h => by cases h
  constructor
  · rintro ⟨hmem, heq⟩
    exact ⟨⟨hmem, hclient heq⟩, heq⟩
  · rintro ⟨⟨hmem, -⟩, heq⟩
    exact ⟨hmem, heq⟩

omit [DecidableEq δ] in
theorem Untouched.mem_commits {c : ι} {w w' : World S δ ι} (h : Untouched c w w') :
    c ∈ commits w'.hist ↔ c ∈ commits w.hist := by
  rw [World.mem_commits, h.hist, ← World.mem_commits]

omit [DecidableEq δ] [DecidableEq ι] in
theorem setTx_txs_iff {w : World S δ ι} {c : ι} {i : ℕ} {x : Option (TxState S δ ι)}
    (hold : ∀ y, w.txs i = some y → y.owner ≠ c) (hnew : ∀ y, x = some y → y.owner ≠ c)
    {j : ℕ} {y : TxState S δ ι} (hy : y.owner = c) :
    (w.setTx i x).txs j = some y ↔ w.txs j = some y := by
  by_cases hj : j = i
  · subst hj
    simp only [setTx_txs, Function.update_self]
    exact ⟨fun h => absurd hy (hnew y h), fun h => absurd hy (hold y h)⟩
  · simp [Function.update_of_ne hj]

omit [DecidableEq ι] in
theorem WF.change_txs_iff {w w' : World S δ ι} {b c : ι} {t : Option ℕ} (hw : w.WF)
    (h : Change w b t w') (hown : ∀ i x, t = some i → w.txs i = some x → x.owner = b)
    (hc : c ≠ b) {j : ℕ} {y : TxState S δ ι} (hy : y.owner = c) :
    w'.txs j = some y ↔ w.txs j = some y := by
  cases h with
  | none => rfl
  | pooled d ws => rfl
  | opened d env =>
      refine setTx_txs_iff ?_ ?_ hy
      · simp [hw.fresh w.next (le_refl _)]
      · rintro _ ⟨⟩
        exact hc.symm
  | aborted i x hx | wrote i x ws ks hx =>
      have hx' : x.owner ≠ c := by rw [hown i x rfl hx]; exact hc.symm
      refine setTx_txs_iff ?_ ?_ hy
      · rintro z hz
        rwa [Option.some.inj (hz.symm.trans hx)]
      · rintro _ ⟨⟩
        exact hx'
  | closed i x hx | committed i x hx =>
      have hx' : x.owner ≠ c := by rw [hown i x rfl hx]; exact hc.symm
      refine setTx_txs_iff ?_ ?_ hy
      · rintro z hz
        rwa [Option.some.inj (hz.symm.trans hx)]
      · exact fun _ h => nomatch h

omit [DecidableEq δ] [DecidableEq ι] in
/-- The client owns the transaction that its operation uses. -/
theorem owner_of_target {w : World S δ ι} {c : ι} {i : ℕ} {x : TxState S δ ι} {o : Op S δ}
    (hx : w.txs i = some x) (hc : x.owner = c) (ho : o.target = some i) (j : ℕ)
    (y : TxState S δ ι) (hj : o.target = some j) (hy : w.txs j = some y) : y.owner = c := by
  obtain rfl : i = j := Option.some.inj (ho.symm.trans hj)
  obtain rfl : x = y := Option.some.inj (hx.symm.trans hy)
  exact hc

/-- A client that only uses its own transactions does not touch the others. -/
theorem WF.untouched {w w' : World S δ ι} {b c : ι} {e : Tick S} {o : Op S δ} {r : o.Res}
    (hw : w.WF) (h : w.exec b e o = some (r, w'))
    (hown : ∀ i x, o.target = some i → w.txs i = some x → x.owner = b) (hc : c ≠ b) :
    Untouched c w w' where
  txs := fun hy => by
    obtain ⟨w₁, hp, rfl⟩ := exec_eq_some.mp h
    exact hw.change_txs_iff (perform_change hp) hown hc hy
  hist := by simp [exec_hist h, hc.symm]

omit [DecidableEq δ] in
theorem untouched_drop {w : World S δ ι} {b c : ι} (hc : c ≠ b) : Untouched c w (w.drop b) where
  txs := fun {i y} hy => by
    simp only [World.drop, Option.filter_eq_some_iff, decide_eq_true_eq, hy]
    exact ⟨fun h => h.1, fun h => ⟨h, hc⟩⟩
  hist := rfl

end Gkit.Lib.World
