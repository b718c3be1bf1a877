import Gkit.Outbox.Relays

/-!
# The steps of relays and business transactions

Each operation of a client, taken in the phase that its assertion describes,
leads to the next phase, keeps what holds throughout, and leaves the others
alone.
-/

namespace Gkit.Outbox

open Gkit.Lib Gkit.Store

variable {V ι : Type}

section Server

variable {strict : Prop} {c : ι} {w w' : World schema Unit ι} {e : Tick schema}
  {o : Op schema Unit} {res : o.Res} {tx : Tx Unit} {x : TxState schema Unit ι}

theorem Global.times_eq_zero (hG : Global strict w) {id : ℕ}
    (h : (w.committed ()).get id = none) : timesPublished id w.hist = 0 := by
  by_contra hne
  obtain ⟨ev, hsent, rfl⟩ := exists_sent hne
  obtain ⟨row, hrow, -⟩ := hG.sent hsent
  simp [h] at hrow

/-- A step that commits nothing and publishes nothing.  The rows it releases
have not been published. -/
theorem Global.keep (hG : Global strict w) (h : w.exec c e o = some (res, w'))
    (ho : eventOf o = none) (hcom : w'.committed () = w.committed ())
    (hheld : strict → ∀ id, eventRows.Held w () id →
      eventRows.Held w' () id ∨ timesPublished id w.hist = 0) : Global strict w' := by
  have hhist := World.exec_hist h
  have hgrow : w.hist <+: w'.hist := hhist ▸ List.prefix_append _ _
  have htimes : ∀ id, timesPublished id w'.hist = timesPublished id w.hist := by
    intro id
    rw [hhist, timesPublished_other (by simp [ho])]
  refine ⟨hG.wf.exec h, fun hrow => ?_, fun {ev} hsent => ?_, fun hrow hpub => ?_, fun hs id => ?_,
    fun hs id row hrow hpub => ?_, fun hs id row hrow hfree hpub => ?_⟩
  · rw [hcom] at hrow
    exact (hG.stored hrow).mono hgrow
  · rw [hhist, sent_append] at hsent
    rw [hcom]
    rcases hsent with hsent | rfl
    · exact hG.sent hsent
    · simp [eventOf] at ho
  · rw [hcom] at hrow
    exact (hG.delivered hrow hpub).mono hgrow
  · rw [htimes]
    exact hG.once hs id
  · rw [htimes]
    rw [hcom] at hrow
    exact hG.marked hs hrow hpub
  · rw [htimes]
    rw [hcom] at hrow
    obtain rfl : row.id = id := (Table.get_eq_some.mp hrow).2
    by_cases hwas : eventRows.Held w () row.id
    · rcases hheld hs row.id hwas with hstill | hzero
      · exact absurd hstill hfree
      · exact hzero
    · exact hG.balanced hs row.id row hrow hwas hpub

theorem Global.keep_txs (hG : Global strict w) (h : w.exec c e o = some (res, w'))
    (ho : eventOf o = none) (hcom : w'.committed () = w.committed ())
    (hsub : ∀ i z, w.txs i = some z →
      ∃ z', w'.txs i = some z' ∧ z'.db = z.db ∧ z.locks ⊆ z'.locks) : Global strict w' :=
  hG.keep h ho hcom fun _ _ hheld => .inl (hheld.mono hsub)

/-- A transaction ends without a commit. -/
theorem Global.close (hG : Global strict w) (h : w.exec c e o = some (res, w'))
    (hx : w.txs tx.id = some x) (ho : eventOf o = none) (hcom : w'.committed () = w.committed ())
    (htxs : w'.txs = Function.update w.txs tx.id none)
    (hzero : strict → ∀ id ∈ x.locks, timesPublished id w.hist = 0) : Global strict w' := by
  refine hG.keep h ho hcom fun hs id hheld => ?_
  rcases hheld.close hx with hmem | ⟨i, z, hz, hrest⟩
  · exact .inr (hzero hs id hmem)
  · exact .inl ⟨i, z, by rw [htxs]; exact hz, hrest⟩

/-- A row that a transaction commits. -/
structure Committable (strict : Prop) (hist hist' : List (Entry schema Unit ι)) (row : EventRow) :
    Prop where
  stored : Stored hist' row
  delivered : row.publishedAt.isSome → Delivered hist row.event
  marked : strict → row.publishedAt.isSome → timesPublished row.id hist = 1
  unmarked : strict → row.publishedAt = none → timesPublished row.id hist = 0

theorem Global.settle (hG : Global strict w) {res : Except GoError Unit}
    (hx : w.txs tx.id = some x)
    (h : w.exec c e (.commit tx) = some (res, (w.settle tx.id x).record c (.commit tx) res))
    (hrows : ∀ id ∈ x.locks, ∀ row, (w.view x).get id = some row →
      Committable strict w.hist (w.hist ++ [⟨c, .commit tx, res⟩]) row)
    (hkeep : ∀ id ∈ x.locks, ∀ row, (w.committed ()).get id = some row →
      ∃ row', (w.view x).get id = some row' ∧ row'.event = row.event) :
    Global strict ((w.settle tx.id x).record c (.commit tx) res) := by
  set w' := (w.settle tx.id x).record c (.commit tx) res
  have hhist : w'.hist = w.hist ++ [⟨c, .commit tx, res⟩] := rfl
  have hgrow : w.hist <+: w'.hist := List.prefix_append _ _
  have hcom : w'.committed () = w.view x := World.committed_settle w tx.id x
  have hother : ∀ id, id ∉ x.locks → (w.view x).get id = (w.committed ()).get id := fun id hid =>
    Rows.get_view_of_notMem (T := eventRows) hG.wf hx hid
  have htimes : ∀ id, timesPublished id w'.hist = timesPublished id w.hist := fun id =>
    timesPublished_other (by simp [eventOf])
  refine ⟨hG.wf.exec h, fun {id row} hrow => ?_, fun {ev} hsent => ?_,
    fun {id row} hrow hpub => ?_, fun hs id => ?_, fun hs id row hrow hpub => ?_,
    fun hs id row hrow hfree hpub => ?_⟩
  · rw [hcom] at hrow
    by_cases hid : id ∈ x.locks
    · exact (hrows id hid row hrow).stored
    · exact (hG.stored (hother id hid ▸ hrow)).mono hgrow
  · rw [hhist, sent_append] at hsent
    obtain ⟨row, hrow, hev⟩ := hG.sent (hsent.resolve_right (by simp))
    rw [hcom]
    by_cases hid : ev.id ∈ x.locks
    · obtain ⟨row', hrow', heq⟩ := hkeep ev.id hid row hrow
      exact ⟨row', hrow', heq.trans hev⟩
    · exact ⟨row, (hother ev.id hid).trans hrow, hev⟩
  · rw [hcom] at hrow
    by_cases hid : id ∈ x.locks
    · exact ((hrows id hid row hrow).delivered hpub).mono hgrow
    · exact (hG.delivered (hother id hid ▸ hrow) hpub).mono hgrow
  · rw [htimes]
    exact hG.once hs id
  · rw [htimes]
    rw [hcom] at hrow
    by_cases hid : id ∈ x.locks
    · obtain rfl : row.id = id := (Table.get_eq_some.mp hrow).2
      exact (hrows row.id hid row hrow).marked hs hpub
    · exact hG.marked hs (hother id hid ▸ hrow) hpub
  · rw [htimes]
    have hrow : (w.view x).get id = some row := hcom ▸ hrow
    obtain rfl : row.id = id := (Table.get_eq_some.mp hrow).2
    by_cases hid : row.id ∈ x.locks
    · exact (hrows row.id hid row hrow).unmarked hs hpub
    · refine hG.balanced hs row.id row ((hother row.id hid).symm.trans hrow) (fun hwas => hfree ?_)
        hpub
      rcases hwas.close hx with hmem | hstill
      · exact absurd hmem hid
      · exact hstill

/-- The holder of a row publishes it. -/
theorem Global.publish (hG : Global strict w) {ev : Event} {res : Option GoError}
    (h : w.exec c e (.ext (.publish ev)) = some (res, w.record c (.ext (.publish ev)) res))
    (hheld : eventRows.Held w () ev.id)
    (hrow : ∃ row, (w.committed ()).get ev.id = some row ∧ row.publishedAt = none ∧
      row.event = ev)
    (hzero : strict → timesPublished ev.id w.hist = 0) :
    Global strict (w.record c (.ext (.publish ev)) res) := by
  have hgrow : w.hist <+: (w.record c (.ext (.publish ev)) res).hist := List.prefix_append _ _
  have hother : ∀ {id}, id ≠ ev.id →
      timesPublished id (w.record c (.ext (.publish ev)) res).hist = timesPublished id w.hist :=
    fun hne => timesPublished_other (by simpa [eventOf] using Ne.symm hne)
  obtain ⟨row₀, hrow₀, hpub₀, hev₀⟩ := hrow
  refine ⟨hG.wf.exec h, fun hrow => (hG.stored hrow).mono hgrow, fun {ev'} hsent => ?_,
    fun hrow hpub => (hG.delivered hrow hpub).mono hgrow, fun hs id => ?_,
    fun hs id row hrow hpub => ?_, fun hs id row hrow hfree hpub => ?_⟩
  · rw [World.record_hist, sent_append] at hsent
    rcases hsent with hsent | heq
    · exact hG.sent hsent
    · cases heq
      exact ⟨row₀, hrow₀, hev₀⟩
  · by_cases hid : id = ev.id
    · rw [hid, World.record_hist, timesPublished_publish, hzero hs]
    · rw [hother hid]
      exact hG.once hs id
  · have hne : id ≠ ev.id := by
      rintro rfl
      obtain rfl : row₀ = row := Option.some.inj (hrow₀.symm.trans hrow)
      simp [hpub₀] at hpub
    rw [hother hne]
    exact hG.marked hs hrow hpub
  · have hrid : row.id = id := (Table.get_eq_some.mp hrow).2
    have hne : row.id ≠ ev.id := fun heq => hfree (hrid ▸ heq ▸ hheld)
    rw [hother hne]
    exact hG.balanced hs id row hrow hfree hpub

end Server

/-! ## Disturbances -/

/-- Nothing goes wrong with a `Publish`, the update after it, or a commit. -/
def TickSmooth (e : Tick schema) : Op schema Unit → Prop
  | .ext (.publish _) => e.env.publish = none
  | .exec _ (.markPublished _) => e.fault = none
  | .commit _ => e.fault = none
  | _ => True

/-- Nobody crashes, and nothing goes wrong after a `Publish`. -/
def Smooth (s : Sys schema Unit ι Unit) : Action schema ι → Prop
  | .crash _ => False
  | .step c e =>
      match s.prog c with
      | .op o _ => TickSmooth e o
      | _ => True

instance (e : Tick schema) : DecidablePred (TickSmooth e)
  | .ext (.publish _) => inferInstanceAs (Decidable (e.env.publish = none))
  | .exec _ (.markPublished _) => inferInstanceAs (Decidable (e.fault = none))
  | .commit _ => inferInstanceAs (Decidable (e.fault = none))
  | .exec _ (.insertEvent ..) | .exec _ (.selectUnpublished _) | .exec _ (.business _) | .begin _
  | .pool .. | .rollback _ | .observe .. => inferInstanceAs (Decidable True)

instance (s : Sys schema Unit ι Unit) : DecidablePred (Smooth s)
  | .crash _ => inferInstanceAs (Decidable False)
  | .step c e =>
      match h : s.prog c with
      | .op o _ => decidable_of_iff (TickSmooth e o) (by simp [Smooth, h])
      | .ret _ => isTrue (by simp [Smooth, h])
      | .panic _ => isTrue (by simp [Smooth, h])

section Steps

variable [DecidableEq ι] {strict : Prop} {c : ι} {w w' : World schema Unit ι} {e : Tick schema}
  {tx : Tx Unit} {x : TxState schema Unit ι} {r : Relay Unit} {roles : ι → Role V}

theorem begin_step (hG : Global strict w) {res : Except GoError (Tx Unit)}
    (h : w.exec c e (.begin ()) = some (res, w')) :
    ((∃ err, res = .error err) ∨ ∃ tx x, res = .ok tx ∧ Owns c tx x w' ∧ x.aborted = false ∧
      x.log = [] ∧ x.locks = []) ∧ Global strict w' ∧
      ∀ b, b ≠ c → eventRows.Kept eventOf b w w' := by
  have hkept : ∀ b, b ≠ c → eventRows.Kept eventOf b w w' := fun b hb =>
    Rows.kept_of_exec hG.wf h (fun _ _ ht => nomatch ht) (fun _ hid => nomatch hid) hb
  rcases World.exec_begin_cases h with ⟨err, -, rfl, rfl⟩ | ⟨-, rfl, rfl⟩
  · refine ⟨.inl ⟨err, rfl⟩, hG.keep_txs h rfl rfl fun i z hz => ?_, hkept⟩
    exact ⟨z, hz, rfl, List.Subset.refl _⟩
  · refine ⟨.inr ⟨_, ⟨(), c, e.env, [], [], false⟩, rfl, ⟨by simp, rfl⟩, rfl, rfl, rfl⟩,
      hG.keep_txs h rfl rfl fun i z hz => ?_, hkept⟩
    have hi : i ≠ w.next := (hG.wf.lt_next hz).ne
    exact ⟨z, by simpa [Function.update_of_ne hi] using hz, rfl, List.Subset.refl _⟩

/-- A statement of the client's own transaction. -/
theorem exec_step (hG : Global strict w) (hx : Owns c tx x w) {s : Stmt}
    {res : Except GoError s.Ret} (h : w.exec c e (.exec tx s) = some (res, w')) :
    ((∃ err b, (x.aborted = true ∨ e.fault = some err ∨
          s.run ⟨x.started, e.env, w.hist.length⟩ (w.view x) (w.locked () (some tx.id)) =
            .fail err) ∧ res = .error err ∧
        w' = (w.setTx tx.id (some { x with aborted := b })).record c (.exec tx s) res) ∨
      ∃ ret ws ks, x.aborted = false ∧
        s.run ⟨x.started, e.env, w.hist.length⟩ (w.view x) (w.locked () (some tx.id)) =
          .done ret ws ks ∧ res = .ok ret ∧
        w' = (w.setTx tx.id (some { x with log := x.log ++ ws, locks := x.locks ++ ks })).record
          c (.exec tx s) res) ∧ Global strict w' ∧
      ∀ b, b ≠ c → eventRows.Kept eventOf b w w' := by
  have hkept : ∀ b, b ≠ c → eventRows.Kept eventOf b w w' := fun b hb =>
    Rows.kept_of_exec hG.wf h (World.owner_of_target hx.found hx.owner rfl)
      (fun _ hid => nomatch hid) hb
  rcases World.exec_exec_inv h hx.found with
    ⟨err, b, hwhy, hres, hw'⟩ | ⟨ret, ws, ks, ha, he, hrun, hres, hw'⟩
  · refine ⟨.inl ⟨err, b, hwhy.imp_right (Or.imp_right fun hfail => hfail.2.2), hres, hw'⟩, ?_,
      hkept⟩
    subst hw'
    exact hG.keep_txs h rfl rfl (Rows.locks_setTx hx.found rfl (List.Subset.refl _))
  · refine ⟨.inr ⟨ret, ws, ks, ha, hrun, hres, hw'⟩, ?_, hkept⟩
    subst hw'
    exact hG.keep_txs h rfl rfl (Rows.locks_setTx hx.found rfl (List.subset_append_left _ _))

theorem rollback_step (hG : Global strict w) (hx : Owns c tx x w)
    (hzero : strict → ∀ id ∈ x.locks, timesPublished id w.hist = 0) {res : Except GoError Unit}
    (h : w.exec c e (.rollback tx) = some (res, w')) :
    Global strict w' ∧ ∀ b, b ≠ c → eventRows.Kept eventOf b w w' := by
  have hkept : ∀ b, b ≠ c → eventRows.Kept eventOf b w w' := fun b hb =>
    Rows.kept_of_exec hG.wf h (World.owner_of_target hx.found hx.owner rfl)
      (fun _ hid => nomatch hid) hb
  obtain rfl := World.exec_rollback_eq h hx.found
  exact ⟨hG.close h hx.found rfl rfl rfl hzero, hkept⟩

/-! ## The cycle of a relay -/

theorem fetch_step (hG : Global strict w) (hrole : ∃ n, roles c = .relay r n)
    (hx : Owns c tx x w) (hlog : x.log = []) (hlocks : x.locks = [])
    {res : Except GoError (List Event)}
    (h : w.exec c e (.exec tx (.selectUnpublished r.batchSize)) = some (res, w')) (n : ℕ) :
    Phase.Local strict roles c (Phase.afterFetch r tx n res) w' ∧ Global strict w' ∧
      ∀ b, b ≠ c → eventRows.Kept eventOf b w w' := by
  obtain ⟨hcases, hG', hkept⟩ := exec_step hG hx h
  refine ⟨?_, hG', hkept⟩
  rcases hcases with ⟨err, b, -, rfl, rfl⟩ | ⟨events, ws, ks, ha, hrun, rfl, rfl⟩
  · exact ⟨hrole, { x with aborted := b }, ⟨by simp, hx.owner⟩, fun _ => hlocks⟩
  simp only [Stmt.run] at hrun
  split_ifs at hrun
  set rows := fetch r.batchSize.toNat e.env.rank (w.view x) (w.locked () (some tx.id))
  cases hrun
  set y : TxState schema Unit ι :=
    { x with log := x.log ++ [], locks := x.locks ++ rows.map EventRow.id }
  set w' := (w.setTx tx.id (some y)).record c (.exec tx (.selectUnpublished r.batchSize))
    (.ok (rows.map EventRow.event))
  have hview : w.view x = w.committed () := by simp [World.view, hlog]
  have hids : (rows.map EventRow.event).map Event.id = rows.map EventRow.id := by
    simp [Function.comp_def, EventRow.event]
  -- A row that the relay takes is committed, not marked, and held by nobody.
  have hfree : ∀ row ∈ rows, (w.committed ()).get row.id = some row ∧ row.publishedAt = none ∧
      ¬eventRows.Held w () row.id := by
    intro row hrow
    obtain ⟨hmem, hpub, hunlocked⟩ := mem_fetch hrow
    exact ⟨Table.get_eq_some.mpr ⟨hview ▸ hmem, rfl⟩, hpub,
      Rows.not_held_of_free (T := eventRows) hG.wf hx.found hlocks hunlocked⟩
  have hbatch : Batch c r tx (rows.map EventRow.event) y w' := by
    refine ⟨⟨by simp [w'], hx.owner⟩, ha, fun id => ?_, fun ev hev => ?_, ?_, ?_⟩
    · rw [hids]
      simp [y, hlocks]
    · obtain ⟨row, hrow, rfl⟩ := List.mem_map.mp hev
      exact ⟨row, (hfree row hrow).1, (hfree row hrow).2.1, rfl⟩
    · rw [hids]
      exact nodup_fetch _ _ _ _
    · exact List.mem_append_right _ (List.mem_singleton.mpr rfl)
  have hzero : strict → ∀ ev ∈ rows.map EventRow.event, timesPublished ev.id w'.hist = 0 := by
    intro hs ev hev
    obtain ⟨row, hrow, rfl⟩ := List.mem_map.mp hev
    obtain ⟨hget, hpub, hnot⟩ := hfree row hrow
    rw [World.exec_hist h, timesPublished_other (by simp [eventOf])]
    exact hG.balanced hs row.id row hget hnot hpub
  have hnone : Emitted strict [] w' := ⟨by simp, by simp⟩
  cases hrows : rows.map EventRow.event with
  | nil =>
      rw [hrows] at hbatch
      exact ⟨hrole, y, hbatch, hnone, by simp⟩
  | cons ev events =>
      rw [hrows] at hbatch hzero
      exact ⟨hrole, y, hbatch, by simp [y, hlog], hnone, hzero⟩

theorem publish_step (hG : Global strict w) (hrole : ∃ n, roles c = .relay r n) {ev : Event}
    {sent todo : List Event} (hx : Batch c r tx (sent ++ ev :: todo) x w) (hlog : x.log = [])
    (hsent : Emitted strict sent w)
    (htodo : strict → ∀ e ∈ ev :: todo, timesPublished e.id w.hist = 0) {res : Option GoError}
    (hres : strict → res = none) (h : w.exec c e (.ext (.publish ev)) = some (res, w')) (n : ℕ) :
    Phase.Local strict roles c (Phase.afterPublish r tx sent ev todo n res) w' ∧
      Global strict w' ∧ ∀ b, b ≠ c → eventRows.Kept eventOf b w w' := by
  have hmem : ev ∈ sent ++ ev :: todo := List.mem_append_right _ List.mem_cons_self
  have hlock : ev.id ∈ x.locks := (hx.mem_locks _).mpr (List.mem_map_of_mem hmem)
  have hkept : ∀ b, b ≠ c → eventRows.Kept eventOf b w w' := fun b hb =>
    Rows.kept_of_exec hG.wf h (fun _ _ ht => nomatch ht)
      (fun id hid => ⟨tx.id, x, hx.found, hx.owner, Option.some.inj hid ▸ hlock⟩) hb
  obtain ⟨w₁, hp, rfl⟩ := World.exec_eq_some.mp h
  obtain rfl : w = w₁ := by cases hp; rfl
  have hG' := hG.publish h ⟨tx.id, x, hx.found, rfl, hlock⟩ (hx.rows ev hmem) fun hs =>
    htodo hs ev List.mem_cons_self
  refine ⟨?_, hG', hkept⟩
  cases res with
  | some err => exact ⟨hrole, x, ⟨hx.found, hx.owner⟩, fun hs => nomatch hres hs⟩
  | none =>
      have hgrow : w.hist <+: (w.record c (.ext (.publish ev)) none).hist := List.prefix_append _ _
      have happ : sent ++ [ev] ++ todo = sent ++ ev :: todo := by simp
      have hother : ∀ e : Event, e.id ≠ ev.id →
          timesPublished e.id (w.record c (.ext (.publish ev)) none).hist =
            timesPublished e.id w.hist := fun e hne =>
        timesPublished_other (by simpa [eventOf] using Ne.symm hne)
      have hnodup := hx.nodup
      rw [List.map_append, List.map_cons, List.nodup_append] at hnodup
      obtain ⟨-, hnodup, hdisj⟩ := hnodup
      refine ⟨hrole, x, ?_, hlog, ⟨fun e he => ?_, fun hs e he => ?_⟩, fun hs e he => ?_⟩
      · rw [happ]
        exact ⟨⟨hx.found, hx.owner⟩, hx.alive, hx.mem_locks, hx.rows, hx.nodup,
          hgrow.subset hx.selected⟩
      · rcases List.mem_append.mp he with he | he
        · exact (hsent.delivered e he).mono hgrow
        · obtain rfl := List.mem_singleton.mp he
          exact ⟨c, List.mem_append_right _ (List.mem_singleton.mpr rfl)⟩
      · rcases List.mem_append.mp he with he | he
        · rw [hother e (hdisj _ (List.mem_map_of_mem he) _ List.mem_cons_self)]
          exact hsent.times hs e he
        · obtain rfl := List.mem_singleton.mp he
          rw [World.record_hist, timesPublished_publish, htodo hs e List.mem_cons_self]
      · rw [hother e fun heq => (List.nodup_cons.mp hnodup).1 (heq ▸ List.mem_map_of_mem he)]
        exact htodo hs e (List.mem_cons_of_mem _ he)

theorem mark_step (hG : Global strict w) (hrole : ∃ n, roles c = .relay r n)
    {sent : List Event} (hx : Batch c r tx sent x w) (hlog : x.log = [])
    (hsent : Emitted strict sent w) (he : strict → e.fault = none) {res : Except GoError Unit}
    (h : w.exec c e (.exec tx (.markPublished (sent.map Event.id))) = some (res, w')) (n : ℕ) :
    Phase.Local strict roles c (Phase.afterMark r tx sent n res) w' ∧ Global strict w' ∧
      ∀ b, b ≠ c → eventRows.Kept eventOf b w w' := by
  obtain ⟨hcases, hG', hkept⟩ := exec_step hG hx.toOwns h
  refine ⟨?_, hG', hkept⟩
  rcases hcases with ⟨err, b, hwhy, rfl, rfl⟩ | ⟨ret, ws, ks, ha, hrun, rfl, rfl⟩
  · refine ⟨hrole, { x with aborted := b }, ⟨by simp, hx.owner⟩, fun hs => ?_⟩
    rcases hwhy with habort | hfault | hfail
    · simp [hx.alive] at habort
    · simp [he hs] at hfault
    · simp only [Stmt.run] at hfail
      split_ifs at hfail
  simp only [Stmt.run] at hrun
  split_ifs at hrun with hwait
  have hview : w.view x = w.committed () := by simp [World.view, hlog]
  set rows := (w.view x).rows.filter fun row => row.id ∈ sent.map Event.id with hrows
  cases hrun
  set y : TxState schema Unit ι := { x with
    log := x.log ++ rows.map (EventRow.mark x.started.clock)
    locks := x.locks ++ rows.map EventRow.id }
  set w' := (w.setTx tx.id (some y)).record c (.exec tx (.markPublished (sent.map Event.id)))
    (.ok ())
  have hgrow : w.hist <+: w'.hist := List.prefix_append _ _
  have hids :
      (rows.map (EventRow.mark x.started.clock)).map EventRow.id = rows.map EventRow.id := by
    simp [Function.comp_def]
  refine ⟨hrole, y, ⟨⟨by simp [w'], hx.owner⟩, ha, fun id => ?_, hx.rows, hx.nodup,
    hgrow.subset hx.selected⟩, ⟨fun ev hev => (hsent.delivered ev hev).mono hgrow,
    fun hs ev hev => ?_⟩, fun ev hev => ?_⟩
  · rw [List.mem_append, hx.mem_locks]
    refine ⟨fun hid => hid.elim (fun hid => hid) fun hid => ?_, .inl⟩
    obtain ⟨row, hrow, rfl⟩ := List.mem_map.mp hid
    simpa using (List.mem_filter.mp hrow).2
  · rw [World.exec_hist h, timesPublished_other (by simp [eventOf])]
    exact hsent.times hs ev hev
  · obtain ⟨row, hrow, -, hev'⟩ := hx.rows ev hev
    have hmem : row ∈ rows := by
      obtain ⟨hin, hid⟩ := Table.get_eq_some.mp hrow
      exact List.mem_filter.mpr ⟨hview ▸ hin, by simpa [hid] using ⟨ev, hev, rfl⟩⟩
    have hnodup : ((rows.map (EventRow.mark x.started.clock)).map EventRow.id).Nodup :=
      hids ▸ (w.view x).nodup.sublist (List.filter_sublist.map _)
    have hy : w'.view y = (rows.map (EventRow.mark x.started.clock)).foldl Table.put
        (w.committed ()) := by
      simp [World.view, y, w', hlog]
    rw [hy, World.committed_record, World.committed_setTx, hrow, ← (Table.get_eq_some.mp hrow).2]
    exact Table.get_foldl_put_mem hnodup (List.mem_map_of_mem hmem) _

omit [DecidableEq ι] in
/-- What the commit of a cycle makes of the table. -/
theorem Batch.get_view (hx : Batch c r tx events x w) (hw : w.WF)
    (hview : ∀ ev ∈ events, (w.view x).get ev.id =
      ((w.committed ()).get ev.id).map (EventRow.mark x.started.clock)) (id : ℕ) :
    (w.view x).get id = if id ∈ events.map Event.id
      then ((w.committed ()).get id).map (EventRow.mark x.started.clock)
      else (w.committed ()).get id := by
  split_ifs with hid
  · obtain ⟨ev, hev, rfl⟩ := List.mem_map.mp hid
    exact hview ev hev
  · exact Rows.get_view_of_notMem (T := eventRows) hw hx.found fun hlock =>
      hid ((hx.mem_locks id).mp hlock)

theorem commit_cycle_step (hG : Global strict w) {batch : List Event}
    (hx : Batch c r tx batch x w) (hsent : Emitted strict batch w)
    (hview : ∀ ev ∈ batch, (w.view x).get ev.id =
      ((w.committed ()).get ev.id).map (EventRow.mark x.started.clock))
    (he : strict → e.fault = none) {res : Except GoError Unit}
    (h : w.exec c e (.commit tx) = some (res, w')) :
    Global strict w' ∧ ∀ b, b ≠ c → eventRows.Kept eventOf b w w' := by
  have hkept : ∀ b, b ≠ c → eventRows.Kept eventOf b w w' := fun b hb =>
    Rows.kept_of_exec hG.wf h (World.owner_of_target hx.found hx.owner rfl)
      (fun _ hid => nomatch hid) hb
  refine ⟨?_, hkept⟩
  rcases World.exec_commit_inv h hx.found with ⟨err, hwhy, -, rfl⟩ | ⟨-, -, -, rfl⟩
  · refine hG.close h hx.found rfl rfl rfl fun hs => ?_
    rcases hwhy with habort | hfault
    · simp [hx.alive] at habort
    · simp [he hs] at hfault
  have hrow : ∀ id ∈ x.locks, ∃ ev ∈ batch, ev.id = id ∧ ∃ row,
      (w.committed ()).get id = some row ∧ row.event = ev ∧
      (w.view x).get id = some (row.mark x.started.clock) := by
    intro id hid
    obtain ⟨ev, hev, rfl⟩ := List.mem_map.mp ((hx.mem_locks id).mp hid)
    obtain ⟨row, hrow, -, hevent⟩ := hx.rows ev hev
    exact ⟨ev, hev, rfl, row, hrow, hevent, by rw [hview ev hev, hrow]; rfl⟩
  refine hG.settle hx.found h (fun id hid row' hrow' => ?_) fun id hid row hget => ?_
  · obtain ⟨ev, hev, rfl, row, hget, hevent, hmark⟩ := hrow id hid
    obtain rfl : row.mark x.started.clock = row' := Option.some.inj (hmark.symm.trans hrow')
    have hid : row.id = ev.id := congrArg Event.id hevent
    refine ⟨((hG.stored hget).mono (List.prefix_append _ _)).mark _, fun _ => ?_, fun hs _ => ?_,
      fun _ hnone => nomatch hnone⟩
    · have hdel := hsent.delivered ev hev
      rwa [← hevent] at hdel
    · rw [EventRow.mark_id, hid]
      exact hsent.times hs ev hev
  · obtain ⟨ev, hev, -, row', hget', -, hmark⟩ := hrow id hid
    obtain rfl : row' = row := Option.some.inj (hget'.symm.trans hget)
    exact ⟨_, hmark, rfl⟩

/-! ## Business transactions -/

omit [DecidableEq ι] in
theorem Pending.times (h : Pending c tx x w) (hG : Global strict w) :
    ∀ id ∈ x.locks, timesPublished id w.hist = 0 :=
  fun id hid => hG.times_eq_zero (h id hid).1

theorem commit_business_step (hG : Global strict w) (hx : Owns c tx x w) (hpend : Pending c tx x w)
    {res : Except GoError Unit} (h : w.exec c e (.commit tx) = some (res, w')) :
    Global strict w' ∧ ∀ b, b ≠ c → eventRows.Kept eventOf b w w' := by
  have hkept : ∀ b, b ≠ c → eventRows.Kept eventOf b w w' := fun b hb =>
    Rows.kept_of_exec hG.wf h (World.owner_of_target hx.found hx.owner rfl)
      (fun _ hid => nomatch hid) hb
  refine ⟨?_, hkept⟩
  rcases World.exec_commit_inv h hx.found with ⟨err, hwhy, -, rfl⟩ | ⟨-, -, rfl, rfl⟩
  · exact hG.close h hx.found rfl rfl rfl fun _ => hpend.times hG
  refine hG.settle hx.found h (fun id hid row hrow => ?_) fun id hid row hrow => ?_
  · obtain ⟨hnone, row', hrow', hpub, hins⟩ := hpend id hid
    obtain rfl : row' = row := Option.some.inj (hrow'.symm.trans hrow)
    obtain rfl : row'.id = id := (Table.get_eq_some.mp hrow).2
    refine ⟨⟨c, tx, hins.mono (List.prefix_append _ _), ?_⟩, fun hsome => ?_, fun _ hsome => ?_,
      fun _ _ => hG.times_eq_zero hnone⟩
    · exact List.mem_append_right _ (List.mem_singleton.mpr rfl)
    · simp [hpub] at hsome
    · simp [hpub] at hsome
  · simp [(hpend id hid).1] at hrow

omit [DecidableEq ι] in
/-- A statement that writes nothing, or fails. -/
theorem Pending.still (h : Pending c tx x w) {s : Stmt} {res : Except GoError s.Ret}
    {y : TxState schema Unit ι} (hlog : y.log = x.log) (hlocks : y.locks = x.locks) :
    Pending c tx y ((w.setTx tx.id (some y)).record c (.exec tx s) res) := by
  intro id hid
  obtain ⟨hnone, row, hrow, hpub, hins⟩ := h id (hlocks ▸ hid)
  refine ⟨hnone, row, ?_, hpub, hins.mono (List.prefix_append _ _)⟩
  rw [← hrow]
  simp [World.view, hlog]

theorem insert_step (hG : Global strict w) (hx : Owns c tx x w) (hpend : Pending c tx x w)
    {topic raw : String} {res : Except GoError Unit}
    (h : w.exec c e (.exec tx (.insertEvent topic raw)) = some (res, w')) :
    (∃ y, Owns c tx y w' ∧ Pending c tx y w') ∧ Global strict w' ∧
      ∀ b, b ≠ c → eventRows.Kept eventOf b w w' := by
  obtain ⟨hcases, hG', hkept⟩ := exec_step hG hx h
  refine ⟨?_, hG', hkept⟩
  rcases hcases with ⟨err, b, -, rfl, rfl⟩ | ⟨ret, ws, ks, ha, hrun, rfl, rfl⟩
  · exact ⟨{ x with aborted := b }, ⟨by simp, hx.owner⟩, hpend.still rfl rfl⟩
  simp only [Stmt.run] at hrun
  split_ifs at hrun with hnew hwait
  cases hrun
  set row : EventRow := ⟨w.hist.length, topic, raw, x.started.clock, none⟩
  set y : TxState schema Unit ι :=
    { x with log := x.log ++ [row], locks := x.locks ++ [w.hist.length] }
  set w' := (w.setTx tx.id (some y)).record c (.exec tx (.insertEvent topic raw)) (.ok ())
  have hview : ∀ id, (w'.view y).get id =
      if id = w.hist.length then some row else (w.view x).get id := by
    intro id
    have heq : w'.view y = (w.view x).put row := by simp [World.view, y, w']
    rw [heq]
    exact Table.get_put
  refine ⟨y, ⟨by simp [w'], hx.owner⟩, fun id hid => ?_⟩
  by_cases hid' : id = w.hist.length
  · refine ⟨Option.eq_none_iff_forall_ne_some.mpr fun old hold => ?_, row, ?_, rfl, ?_⟩
    · obtain ⟨b, t, hins, -⟩ := hG.stored hold
      have hlt := hins.lt
      rw [(Table.get_eq_some.mp hold).2, hid'] at hlt
      exact lt_irrefl _ hlt
    · rw [hview, if_pos hid']
    · exact List.getElem?_concat_length
  · have hlock : id ∈ x.locks := by simpa [y, hid'] using hid
    obtain ⟨hnone, old, hold, hpub, hins⟩ := hpend id hlock
    exact ⟨hnone, old, by rw [hview, if_neg hid', hold], hpub, hins.mono (List.prefix_append _ _)⟩

theorem business_step (hG : Global strict w) (hx : Owns c tx x w) (hpend : Pending c tx x w)
    {text : String} {res : Except GoError String}
    (h : w.exec c e (.exec tx (.business text)) = some (res, w')) :
    (∃ y, Owns c tx y w' ∧ Pending c tx y w') ∧ Global strict w' ∧
      ∀ b, b ≠ c → eventRows.Kept eventOf b w w' := by
  obtain ⟨hcases, hG', hkept⟩ := exec_step hG hx h
  refine ⟨?_, hG', hkept⟩
  rcases hcases with ⟨err, b, -, rfl, rfl⟩ | ⟨ret, ws, ks, ha, hrun, rfl, rfl⟩
  · exact ⟨{ x with aborted := b }, ⟨by simp, hx.owner⟩, hpend.still rfl rfl⟩
  · simp only [Stmt.run] at hrun
    split at hrun
    · cases hrun
    · cases hrun
      exact ⟨{ x with log := x.log ++ [], locks := x.locks ++ [] }, ⟨by simp, hx.owner⟩,
        hpend.still (by simp) (by simp)⟩

end Steps

section Soundness

variable [DecidableEq ι] {strict : Prop} {w : World schema Unit ι}

theorem Global.drop (hG : Global strict w) (hs : ¬strict) (c : ι) : Global strict (w.drop c) where
  wf := hG.wf.drop c
  stored := hG.stored
  sent := hG.sent
  delivered := hG.delivered
  once := fun h => absurd h hs
  marked := fun h => absurd h hs
  balanced := fun h => absurd h hs

end Soundness

/-! ## The steps of each phase -/

section Only

variable {c : ι} {w w' : World schema Unit ι} {e : Tick schema} {o : Op schema Unit} {res : o.Res}
  {i : ℕ}

theorem Only.target (h : Only c (some i) w) (hexec : w.exec c e o = some (res, w'))
    (ho : o.target = some i) : Only c (some i) w' := by
  intro j y hy hown
  by_cases hj : j = i
  · rw [hj]
  · rw [World.exec_txs_of_ne hexec ho hj] at hy
    exact h j y hy hown

theorem Only.ended (h : Only c (some i) w) (hexec : w.exec c e o = some (res, w'))
    (ho : o.target = some i) (hnone : w'.txs i = none) : Only c none w' := by
  intro j y hy hown
  obtain rfl : i = j := Option.some.inj (h.target hexec ho j y hy hown)
  simp [hnone] at hy

theorem Only.begun {tx : Tx Unit} (h : Only c none w)
    (hexec : w.exec c e (.begin ()) = some (.ok tx, w')) : Only c (some tx.id) w' := by
  rcases World.exec_begin_cases hexec with ⟨err, -, hres, -⟩ | ⟨-, hres, rfl⟩
  · cases hres
  · cases hres
    intro j y hy hown
    by_cases hj : j = w.next
    · rw [hj]
    · have hy : w.txs j = some y := by simpa [Function.update_of_ne hj] using hy
      exact absurd (h j y hy hown) (by simp)

theorem Only.refused {err : GoError} (h : Only c none w)
    (hexec : w.exec c e (.begin ()) = some (.error err, w')) : Only c none w' := by
  rcases World.exec_begin_cases hexec with ⟨err, -, -, rfl⟩ | ⟨-, hres, -⟩
  · exact h
  · cases hres

theorem Only.answered {a : Ext} {res : Option GoError} {t : Option ℕ} (h : Only c t w)
    (hexec : w.exec c e (.ext a) = some (res, w')) : Only c t w' := by
  obtain ⟨w₁, hp, rfl⟩ := World.exec_eq_some.mp hexec
  cases hp
  exact h

end Only

section Phases

variable [DecidableEq ι] {strict : Prop} {marshal : V → Except GoError String}
  {roles : ι → Role V} {s : Sys schema Unit ι Unit} {w : World schema Unit ι} {c : ι}
  {e : Tick schema} {o : Op schema Unit} {k : o.Res → GoProg schema Unit Unit} {res : o.Res}
  {r : Relay Unit} {tx : Tx Unit} {n : ℕ} {work : List (Script V)}

/-- The client goes on to the phase `p`, and nothing of the others is changed. -/
theorem advance {t : GoProg schema Unit Unit} (hG : Global strict w) {p : Phase V}
    (ht : t = Phase.code marshal p) (hL : Phase.Local strict roles c p w) (honly : Only c p.tx w)
    (hkept : ∀ b, b ≠ c → eventRows.Kept eventOf b s.world w) :
    (outline marshal strict roles).Advances s c w t :=
  ⟨hG, ⟨p, ht, hL, honly⟩, fun b _ hb _ hLb => ⟨hLb.1.kept (hkept b hb), hLb.2.kept (hkept b hb)⟩⟩

theorem advance_polling (hG : Global strict s.world)
    (hL : Phase.Local strict roles c (.polling r n : Phase V) s.world) (honly : Only c none s.world)
    (hcode : Phase.code marshal (.polling r n) = .op o k)
    (hexec : s.world.exec c e o = some (res, w)) :
    (outline marshal strict roles).Advances s c w (k res) := by
  cases n with
  | zero => cases hcode
  | succ n =>
      obtain ⟨k', hk', hok, herr⟩ := Phase.code_polling_succ (V := V) r n
      cases hk'.symm.trans hcode
      obtain ⟨hcases, hG', hkept⟩ := begin_step hG hexec
      rcases hcases with ⟨err, rfl⟩ | ⟨tx, x, rfl, hx, ha, hlog, hlocks⟩
      · exact advance (p := .polling r n) hG' (herr err) hL (honly.refused hexec) hkept
      · exact advance (p := .fetching r tx n) hG' (hok tx) ⟨hL, x, hx, ha, hlog, hlocks⟩
          (honly.begun hexec) hkept

theorem Phase.tx_afterFetch (r : Relay Unit) (tx : Tx Unit) (n : ℕ)
    (res : Except GoError (List Event)) :
    (Phase.afterFetch r tx n res : Phase V).tx = some tx.id := by
  rcases res with err | _ | ⟨ev, events⟩ <;> rfl

theorem advance_fetching (hG : Global strict s.world)
    (hL : Phase.Local strict roles c (.fetching r tx n : Phase V) s.world)
    (honly : Only c (some tx.id) s.world)
    (hcode : Phase.code marshal (.fetching r tx n) = .op o k)
    (hexec : s.world.exec c e o = some (res, w)) :
    (outline marshal strict roles).Advances s c w (k res) := by
  obtain ⟨hrole, x, hx, ha, hlog, hlocks⟩ := hL
  obtain ⟨k', hk', hnext⟩ := Phase.code_fetching (V := V) r tx n
  cases hk'.symm.trans hcode
  obtain ⟨hL', hG', hkept⟩ := fetch_step hG hrole hx hlog hlocks hexec n
  refine advance hG' (hnext res) hL' ?_ hkept
  rw [Phase.tx_afterFetch]
  exact honly.target hexec rfl

theorem Phase.tx_afterMark (r : Relay Unit) (tx : Tx Unit) (batch : List Event) (n : ℕ)
    (res : Except GoError Unit) : (Phase.afterMark r tx batch n res : Phase V).tx = some tx.id := by
  cases res <;> rfl

theorem Phase.tx_afterPublish (r : Relay Unit) (tx : Tx Unit) (sent : List Event) (ev : Event)
    (todo : List Event) (n : ℕ) (res : Option GoError) :
    (Phase.afterPublish r tx sent ev todo n res : Phase V).tx = some tx.id := by
  cases res <;> rfl

theorem advance_publishing {sent todo : List Event} (hG : Global strict s.world)
    (hL : Phase.Local strict roles c (.publishing r tx sent todo n : Phase V) s.world)
    (honly : Only c (some tx.id) s.world) (hsmooth : strict → TickSmooth e o)
    (hcode : Phase.code marshal (.publishing r tx sent todo n) = .op o k)
    (hexec : s.world.exec c e o = some (res, w)) :
    (outline marshal strict roles).Advances s c w (k res) := by
  obtain ⟨hrole, x, hx, hlog, hsent, htodo⟩ := hL
  cases todo with
  | nil =>
      obtain ⟨k', hk', hnext⟩ := Phase.code_publishing_nil (V := V) r tx sent n
      cases hk'.symm.trans hcode
      rw [List.append_nil] at hx
      obtain ⟨hL', hG', hkept⟩ := mark_step hG hrole hx hlog hsent hsmooth hexec n
      refine advance hG' (hnext res) hL' ?_ hkept
      rw [Phase.tx_afterMark]
      exact honly.target hexec rfl
  | cons ev todo =>
      obtain ⟨k', hk', hnext⟩ := Phase.code_publishing_cons (V := V) r tx sent ev todo n
      cases hk'.symm.trans hcode
      have hres : strict → res = none := fun h => by
        obtain ⟨w₁, hp, -⟩ := World.exec_eq_some.mp hexec
        cases hp
        exact hsmooth h
      obtain ⟨hL', hG', hkept⟩ := publish_step hG hrole hx hlog hsent htodo hres hexec n
      refine advance hG' (hnext res) hL' ?_ hkept
      rw [Phase.tx_afterPublish]
      exact honly.answered hexec

theorem advance_closing {batch : List Event} {out : Option GoError} (hG : Global strict s.world)
    (hL : Phase.Local strict roles c (.closing r tx batch out n : Phase V) s.world)
    (honly : Only c (some tx.id) s.world) (hsmooth : strict → TickSmooth e o)
    (hcode : Phase.code marshal (.closing r tx batch out n) = .op o k)
    (hexec : s.world.exec c e o = some (res, w)) :
    (outline marshal strict roles).Advances s c w (k res) := by
  cases out with
  | none =>
      obtain ⟨hrole, x, hx, hsent, hview⟩ := hL
      cases (Phase.code_closing_none r tx batch n).symm.trans hcode
      obtain ⟨hG', hkept⟩ := commit_cycle_step hG hx hsent hview hsmooth hexec
      exact advance (p := .polling r n) hG' rfl hrole
        (honly.ended hexec rfl (World.exec_commit_txs hexec hx.found)) hkept
  | some err =>
      obtain ⟨hrole, x, hx, hlocks⟩ := hL
      cases (Phase.code_closing_some r tx batch err n).symm.trans hcode
      obtain ⟨hG', hkept⟩ := rollback_step hG hx (fun h => by simp [hlocks h]) hexec
      exact advance (p := .polling r n) hG' rfl hrole
        (honly.ended hexec rfl (World.exec_rollback_txs hexec hx.found)) hkept

theorem advance_working (hG : Global strict s.world)
    (hL : Phase.Local strict roles c (.working work) s.world) (honly : Only c none s.world)
    (hcode : Phase.code marshal (.working work) = .op o k)
    (hexec : s.world.exec c e o = some (res, w)) :
    (outline marshal strict roles).Advances s c w (k res) := by
  cases work with
  | nil => cases hcode
  | cons script work =>
      obtain ⟨k', hk', hok, herr⟩ := @Phase.code_working_cons V marshal script work
      cases hk'.symm.trans hcode
      obtain ⟨hcases, hG', hkept⟩ := begin_step hG hexec
      rcases hcases with ⟨err, rfl⟩ | ⟨tx, x, rfl, hx, ha, hlog, hlocks⟩
      · exact advance (p := .working work) hG' (herr err) hL (honly.refused hexec) hkept
      · exact advance (p := .inside tx script work) hG' (hok tx)
          ⟨hL, x, hx, fun id hid => by simp [hlocks] at hid⟩ (honly.begun hexec) hkept

theorem advance_inside {script : Script V} (hG : Global strict s.world)
    (hL : Phase.Local strict roles c (.inside tx script work) s.world)
    (honly : Only c (some tx.id) s.world)
    (hcode : Phase.code marshal (.inside tx script work) = .op o k)
    (hexec : s.world.exec c e o = some (res, w)) :
    (outline marshal strict roles).Advances s c w (k res) := by
  obtain ⟨hrole, x, hx, hpend⟩ := hL
  rcases @Phase.code_inside V marshal tx script work with
    h | ⟨p, hp, h⟩ | ⟨topic, raw, k', h, hnext⟩ | ⟨text, k', h, hnext⟩
  · cases h.symm.trans hcode
    obtain ⟨hG', hkept⟩ := commit_business_step hG hx hpend hexec
    exact advance (p := .working work) hG' rfl hrole
      (honly.ended hexec rfl (World.exec_commit_txs hexec hx.found)) hkept
  · cases h.symm.trans hcode
    obtain ⟨hG', hkept⟩ := rollback_step hG hx (fun _ => hpend.times hG) hexec
    have hended := honly.ended hexec rfl (World.exec_rollback_txs hexec hx.found)
    rcases hp with rfl | ⟨v, rfl⟩
    · exact advance (p := .working work) hG' rfl hrole hended hkept
    · exact advance (p := .gone v) hG' rfl trivial hended hkept
  · cases h.symm.trans hcode
    obtain ⟨hy, hG', hkept⟩ := insert_step hG hx hpend hexec
    obtain ⟨script', hk'⟩ := hnext res
    exact advance (p := .inside tx script' work) hG' hk' ⟨hrole, hy⟩ (honly.target hexec rfl) hkept
  · cases h.symm.trans hcode
    obtain ⟨hy, hG', hkept⟩ := business_step hG hx hpend hexec
    obtain ⟨script', hk'⟩ := hnext res
    exact advance (p := .inside tx script' work) hG' hk' ⟨hrole, hy⟩ (honly.target hexec rfl) hkept

end Phases

theorem outline_sound [DecidableEq ι] {strict : Prop} (marshal : V → Except GoError String)
    (roles : ι → Role V) :
    (outline marshal strict roles).Sound (fun s x => strict → Smooth s x) where
  step := by
    intro s w c e p o k res hs hA hprog hL hcode hexec
    have hG : Global strict s.world := hs.1
    obtain ⟨hL, honly⟩ := hL
    change Phase.code marshal p = .op o k at hcode
    have hsmooth : strict → TickSmooth e o := fun h => by
      have hA := hA h
      rw [Smooth, hprog] at hA
      change (match Phase.code marshal p with | .op o _ => TickSmooth e o | _ => True) at hA
      rwa [hcode] at hA
    cases p with
    | polling => exact advance_polling hG hL honly hcode hexec
    | fetching => exact advance_fetching hG hL honly hcode hexec
    | publishing => exact advance_publishing hG hL honly hsmooth hcode hexec
    | closing => exact advance_closing hG hL honly hsmooth hcode hexec
    | working => exact advance_working hG hL honly hcode hexec
    | inside => exact advance_inside hG hL honly hcode hexec
    | gone v => cases hcode
  crash := by
    intro s c p o k hs hA hL hcode
    have hG : Global strict s.world := hs.1
    refine ⟨hG.drop (fun h => hA h) c, ⟨.gone crashed, rfl, trivial, ?_⟩, fun b q hb hLb => ?_⟩
    · intro i x hx hown
      simp [World.drop, Option.filter_eq_some_iff, hown] at hx
    · exact ⟨hLb.1.kept (Rows.kept_drop hb), hLb.2.kept (Rows.kept_drop hb)⟩

end Gkit.Outbox
