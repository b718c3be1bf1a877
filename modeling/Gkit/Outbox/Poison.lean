import Gkit.Outbox.Model
import Gkit.Store.Solo

/-!
# A cycle and the events that are rejected

A cycle publishes its batch one event after the other and marks the whole batch
only behind the last one.  So the first event that the publisher rejects takes the
marks of all others of the batch with it, also of those it has accepted.
-/

namespace Gkit.Outbox

open Gkit.Lib Gkit.Store

variable {ι : Type} {c : ι} {env : ℕ → Tick schema} {w : World schema Unit ι}

/-! ## Marks -/

/-- The table after `markPublished`. -/
def markAll (now : ℤ) (ids : List ℕ) (events : Table EventRow.id) : Table EventRow.id :=
  ((events.rows.filter fun r => r.id ∈ ids).map (EventRow.mark now)).foldl Table.put events

theorem get_markAll_of_mem {events : Table EventRow.id} {ids : List ℕ} {row : EventRow}
    (hrow : row ∈ events.rows) (hid : row.id ∈ ids) (now : ℤ) :
    (markAll now ids events).get row.id = some (row.mark now) := by
  have hmem : row.mark now ∈ (events.rows.filter fun r => r.id ∈ ids).map (EventRow.mark now) :=
    List.mem_map_of_mem (List.mem_filter.mpr ⟨hrow, by simpa using hid⟩)
  refine Table.get_foldl_put_mem ?_ hmem events
  rw [List.map_map]
  exact events.nodup.sublist (List.filter_sublist.map _)

theorem get_markAll_of_not_mem {events : Table EventRow.id} {ids : List ℕ} {id : ℕ}
    (hid : ∀ row ∈ events.rows, row.id = id → id ∉ ids) (now : ℤ) :
    (markAll now ids events).get id = events.get id := by
  refine Table.get_foldl_put (fun r hr => ?_) events
  obtain ⟨row, hrow, rfl⟩ := List.mem_map.mp hr
  obtain ⟨hmem, hin⟩ := List.mem_filter.mp hrow
  rintro rfl
  exact hid row hmem rfl (by simpa using hin)

/-- Marking lowers the number of unpublished events if one of them is marked. -/
theorem length_unpublished_markAll_lt {events : Table EventRow.id} {ids : List ℕ}
    {row : EventRow} (hrow : row ∈ unpublished events) (hid : row.id ∈ ids) (now : ℤ) :
    (unpublished (markAll now ids events)).length < (unpublished events).length := by
  have hnodup : ∀ t : Table EventRow.id, (unpublished t).Nodup :=
    fun t => (List.Nodup.of_map _ t.nodup).filter _
  rw [← List.toFinset_card_of_nodup (hnodup _), ← List.toFinset_card_of_nodup (hnodup events)]
  obtain ⟨hmem, hpub⟩ := List.mem_filter.mp hrow
  apply Finset.card_lt_card
  rw [Finset.ssubset_iff_of_subset]
  · refine ⟨row, List.mem_toFinset.mpr hrow, fun hin => ?_⟩
    obtain ⟨hin, -⟩ := List.mem_filter.mp (List.mem_toFinset.mp hin)
    have hget := Table.get_eq_some.mpr ⟨hin, rfl⟩
    rw [get_markAll_of_mem hmem hid now, Option.some.injEq] at hget
    rw [← hget] at hpub
    simp [EventRow.mark] at hpub
  · intro r hr
    obtain ⟨hin, hr⟩ := List.mem_filter.mp (List.mem_toFinset.mp hr)
    have hget := Table.get_eq_some.mpr ⟨hin, rfl⟩
    -- a row that is not marked was there before
    by_cases hmarked : ∃ r' ∈ events.rows, r'.id = r.id ∧ r'.id ∈ ids
    · obtain ⟨r', hr', heq, hids⟩ := hmarked
      rw [← heq, get_markAll_of_mem hr' hids now, Option.some.injEq] at hget
      rw [← hget] at hr
      simp [EventRow.mark] at hr
    · have hnot : ∀ row ∈ events.rows, row.id = r.id → r.id ∉ ids :=
        fun r' hr' heq hids => hmarked ⟨r', hr', heq, heq ▸ hids⟩
      rw [get_markAll_of_not_mem hnot] at hget
      exact List.mem_toFinset.mpr (List.mem_filter.mpr ⟨(Table.get_eq_some.mp hget).1, hr⟩)

/-! ## Publishing -/

section Accepted

variable {δ : Type}

/-- The events for which `Publish` has returned nil, in this order. -/
def accepted (hist : List (Entry schema δ ι)) : List Event :=
  hist.filterMap fun
    | ⟨_, .ext (.publish e), none⟩ => some e
    | _ => none

theorem accepted_append (hist more : List (Entry schema δ ι)) :
    accepted (hist ++ more) = accepted hist ++ accepted more :=
  List.filterMap_append

end Accepted

theorem accepted_exec {w' : World schema Unit ι} {e : Tick schema} {t : Tx Unit} {s : Stmt}
    {res : Except GoError s.Ret} (h : w.exec c e (.exec t s) = some (res, w')) :
    accepted w'.hist = accepted w.hist := by
  rw [World.exec_hist h, accepted_append]
  exact List.append_nil _

/-- The loop over the events of a batch ends and touches no table.  The publisher accepts the
events before the first one it rejects, and the loop returns nil exactly if it rejects none. -/
theorem solo_publishAll {verdict : Event → Option GoError} (events : List Event)
    (hverdict : ∀ k e, events[k]? = some e → (env (w.hist.length + k)).env.publish = verdict e)
    {tx : Tx Unit} {x : TxState schema Unit ι} (hx : World.Sole tx x w) :
    ∃ res w', (Relay.publishAll events : GoProg schema Unit _).solo c env w =
        some (.ret res, w') ∧ World.Within w w' ∧ World.Sole tx x w' ∧
      (res = none ↔ ∀ e ∈ events, verdict e = none) ∧
      accepted w'.hist = accepted w.hist ++ events.takeWhile fun e => (verdict e).isNone := by
  induction events generalizing w with
  | nil => exact ⟨none, w, rfl, .refl w, hx, by simp, by simp⟩
  | cons e events ih =>
      have hanswer : (env w.hist.length).env.publish = verdict e := hverdict 0 e rfl
      have hexec : w.exec c (env w.hist.length) (.ext (.publish e)) =
          some (verdict e, w.record c (.ext (.publish e)) (verdict e)) := by
        simp [World.exec, World.perform, hanswer]
      rw [Relay.publishAll, Prog.solo_op, hexec]
      cases hv : verdict e with
      | some err =>
          refine ⟨_, _, rfl, World.within_record .., hx.record .., by simp [hv], ?_⟩
          rw [World.record_hist, accepted_append, List.takeWhile_cons_of_neg (by simp [hv])]
          rfl
      | none =>
          have hnext : ∀ k e', events[k]? = some e' → (env ((w.record c (.ext (.publish e))
              none).hist.length + k)).env.publish = verdict e' := by
            intro k e' hk
            have hat := hverdict (k + 1) e' hk
            rwa [World.record_hist, List.length_append, List.length_singleton, Nat.add_assoc,
              Nat.add_comm 1 k]
          obtain ⟨res, w', hsolo, hwithin, hsole, hres, hsent⟩ := ih hnext (hx.record ..)
          refine ⟨res, w', hsolo, (World.within_record ..).trans hwithin, hsole,
            by simp [hres, hv], ?_⟩
          rw [hsent, World.record_hist, accepted_append, List.append_assoc,
            List.takeWhile_cons_of_pos (by simp [hv])]
          rfl

/-! ## A cycle -/

/-- The batch of a cycle that begins now. -/
def Relay.batch (r : Relay Unit) (env : ℕ → Tick schema) (w : World schema Unit ι) :
    List EventRow :=
  fetch r.batchSize.toNat (env (w.hist.length + 1)).env.rank (w.committed ()) fun _ => false

/-- The publisher accepts or rejects each event for good, whenever it is asked in the cycle. -/
def Answers (env : ℕ → Tick schema) (n : ℕ) (events : List Event)
    (verdict : Event → Option GoError) : Prop :=
  ∀ k e, events[k]? = some e → (env (n + 2 + k)).env.publish = verdict e

theorem view_of_log_nil {x : TxState schema Unit ι} (hlog : x.log = []) :
    w.view x = w.committed () := by
  rw [World.view, hlog]
  rfl

/-- What is left of the callback when the batch is there. -/
theorem solo_deliver {verdict : Event → Option GoError} {events : List Event} {tx : Tx Unit}
    {x : TxState schema Unit ι} (hx : World.Sole tx x w) (ha : x.aborted = false)
    (hlog : x.log = []) (hfault : ∀ n, (env n).fault = none)
    (hverdict : ∀ k e, events[k]? = some e → (env (w.hist.length + k)).env.publish = verdict e) :
    ∃ out w' x', (Relay.deliver tx (events.map Event.id) events).solo c env w =
        some (.ret out, w') ∧ World.Within w w' ∧ World.Sole tx x' w' ∧ x'.aborted = false ∧
      (out = none ↔ ∀ e ∈ events, verdict e = none) ∧
      accepted w'.hist = accepted w.hist ++ events.takeWhile (fun e => (verdict e).isNone) ∧
      (out = none → w.view x' =
        markAll x.started.clock (events.map Event.id) (w.committed ())) := by
  obtain ⟨res, w₁, hsolo, hwithin, hsole, hres, hsent⟩ :=
    solo_publishAll (c := c) events hverdict hx
  rw [Relay.deliver, Prog.solo_bind, hsolo]
  cases res with
  | some err =>
      exact ⟨some err, w₁, x, rfl, hwithin, hsole, ha, by simpa using hres, hsent, by simp⟩
  | none =>
      have hview : w₁.view x = w.committed () := by
        rw [view_of_log_nil hlog, hwithin.committed]
      have hrun : Stmt.run ⟨x.started, (env w₁.hist.length).env, w₁.hist.length⟩ (w₁.view x)
          (fun _ => false) (.markPublished (events.map Event.id)) = .done ()
            (((w.committed ()).rows.filter fun r => r.id ∈ events.map Event.id).map
              (EventRow.mark x.started.clock))
            (((w.committed ()).rows.filter fun r => r.id ∈ events.map Event.id).map
              EventRow.id) := by
        simp [Stmt.run, hview]
      obtain ⟨w₂, hexec, hwithin', -, hsole'⟩ := hsole.exec_done c
        (s := Stmt.markPublished (events.map Event.id)) ha (hfault w₁.hist.length) hrun
      refine ⟨none, w₂, _, ?_, hwithin.trans hwithin', hsole', ha, hres,
        (accepted_exec hexec).trans hsent, fun _ => ?_⟩
      · simp only [Option.bind_some]
        rw [txExec_bind, Prog.solo_op, hexec]
        rfl
      · rw [World.view, hlog]
        rfl

/-- The callback of a cycle. -/
theorem solo_relayTx {verdict : Event → Option GoError} {r : Relay Unit} (hr : 0 ≤ r.batchSize)
    {ctx : Context Unit} {tx : Tx Unit} {x : TxState schema Unit ι} (hx : World.Sole tx x w)
    (ha : x.aborted = false) (hlog : x.log = []) (hfault : ∀ n, (env n).fault = none)
    {batch : List EventRow} (hbatch : batch = fetch r.batchSize.toNat
      (env w.hist.length).env.rank (w.committed ()) fun _ => false)
    (hverdict : ∀ k e, (batch.map EventRow.event)[k]? = some e →
      (env (w.hist.length + 1 + k)).env.publish = verdict e) :
    ∃ out w' x', (r.relayTx ctx tx).solo c env w = some (.ret out, w') ∧ World.Within w w' ∧
      World.Sole tx x' w' ∧ x'.aborted = false ∧
      (out = none ↔ ∀ e ∈ batch.map EventRow.event, verdict e = none) ∧
      accepted w'.hist = accepted w.hist ++
        (batch.map EventRow.event).takeWhile (fun e => (verdict e).isNone) ∧
      (out = none → w.view x' =
        markAll x.started.clock (batch.map EventRow.id) (w.committed ())) := by
  have hrun : Stmt.run ⟨x.started, (env w.hist.length).env, w.hist.length⟩ (w.view x)
      (fun _ => false) (.selectUnpublished r.batchSize) =
        .done (batch.map EventRow.event) [] (batch.map EventRow.id) := by
    simp [Stmt.run, view_of_log_nil hlog, hr.not_gt, hbatch]
  obtain ⟨w₁, hexec, hwithin, hlength, hsole⟩ := hx.exec_done c
    (s := Stmt.selectUnpublished r.batchSize) ha (hfault w.hist.length) hrun
  have hids : (batch.map EventRow.event).map Event.id = batch.map EventRow.id := by
    simp [Function.comp_def, EventRow.event]
  rw [Relay.relayTx, txExec_bind, Prog.solo_op, hexec]
  by_cases hnil : batch.map EventRow.event = []
  · refine ⟨none, w₁, _, by simp [hnil], hwithin, hsole, ha, by simp [hnil],
      by simp [hnil, accepted_exec hexec], fun _ => ?_⟩
    have hbatch' : batch = [] := List.map_eq_nil_iff.mp hnil
    rw [World.view, hlog, hbatch']
    simp [markAll]
  · rw [← hlength] at hverdict
    obtain ⟨out, w₂, x', hsolo, hwithin', hsole', ha', hout, hsent, hview⟩ :=
      solo_deliver (c := c) hsole ha (by simp [hlog]) hfault hverdict
    rw [accepted_exec hexec] at hsent
    refine ⟨out, w₂, x', by simpa [hnil] using hsolo, hwithin.trans hwithin', hsole', ha', hout,
      hsent, fun hnone => ?_⟩
    rw [← hids, ← hwithin.committed (), ← hview hnone, hwithin.view]

/-- A cycle without database errors marks its batch if the publisher accepts all of it, and
leaves the table as it was otherwise. -/
theorem solo_relay {r : Relay Unit} (hr : 0 ≤ r.batchSize) (hidle : w.Idle)
    (hfault : ∀ n, (env n).fault = none) {verdict : Event → Option GoError}
    (hverdict : Answers env w.hist.length ((r.batch env w).map EventRow.event) verdict) :
    ∃ out w', (r.relay .background).solo c env w = some (.ret out, w') ∧
      accepted w'.hist = accepted w.hist ++
        ((r.batch env w).map EventRow.event).takeWhile (fun e => (verdict e).isNone) ∧
      ((∀ row ∈ r.batch env w, verdict row.event = none) →
        w'.committed () = markAll (env w.hist.length).env.clock
          ((r.batch env w).map EventRow.id) (w.committed ())) ∧
      ((∃ row ∈ r.batch env w, verdict row.event ≠ none) →
        w'.committed () = w.committed ()) := by
  have hlength : (begun w c (env w.hist.length) r.db).hist.length = w.hist.length + 1 := by
    simp [begun]
  have hbatch : r.batch env w = fetch r.batchSize.toNat
      (env (begun w c (env w.hist.length) r.db).hist.length).env.rank
      ((begun w c (env w.hist.length) r.db).committed ()) fun _ => false := by
    rw [hlength]
    rfl
  obtain ⟨out, w₁, x, hsolo, hwithin, hsole, ha, hout, hsent, hview⟩ := solo_relayTx hr
    (sole_begun hidle c (env w.hist.length) r.db) rfl rfl hfault hbatch
    (by rw [hlength]; exact hverdict)
  have hcommitted : w₁.committed () = w.committed () := hwithin.committed ()
  have hbegun : accepted (begun w c (env w.hist.length) r.db).hist = accepted w.hist := by
    rw [begun, World.record_hist, accepted_append]
    exact List.append_nil _
  rw [hbegun] at hsent
  obtain ⟨out', w', hend, hends⟩ := solo_endTx c env hsole (.ret out)
  have hcycle := (solo_withTx_begun r.db (hfault _) hsolo).trans hend
  cases out with
  | some err =>
      have hrejected : ¬∀ row ∈ r.batch env w, verdict row.event = none := by
        intro hall
        exact absurd (hout.mpr (by simpa using hall)) (by simp)
      cases hends with
      | rolledBack _ _ res =>
          refine ⟨some err, _, hcycle, ?_, fun hall => absurd hall hrejected, fun _ => hcommitted⟩
          rw [World.record_hist, accepted_append, ← hsent]
          exact List.append_nil _
  | none =>
      have haccepted : ∀ row ∈ r.batch env w, verdict row.event = none := by
        simpa using hout.mp rfl
      cases hends with
      | failed err hwhy => simp [ha, hfault] at hwhy
      | rolledBack _ hout' => exact absurd rfl hout'
      | committed _ _ =>
          refine ⟨none, _, hcycle, ?_, fun _ => ?_, ?_⟩
          · rw [World.record_hist, accepted_append, ← hsent]
            exact List.append_nil _
          · exact (World.committed_settle w₁ w.next x).trans
              ((hwithin.view x).trans (hview rfl))
          · rintro ⟨row, hrow, hne⟩
            exact absurd (haccepted row hrow) hne

theorem length_unpublished_markAll_batch (r : Relay Unit) (env : ℕ → Tick schema) (now : ℤ)
    (hne : r.batch env w ≠ []) :
    (unpublished (markAll now ((r.batch env w).map EventRow.id) (w.committed ()))).length <
      (unpublished (w.committed ())).length := by
  obtain ⟨row, hrow⟩ := List.exists_mem_of_ne_nil _ hne
  obtain ⟨hmem, hpub, -⟩ := mem_fetch hrow
  exact length_unpublished_markAll_lt (List.mem_filter.mpr ⟨hmem, by simpa using hpub⟩)
    (List.mem_map_of_mem hrow) now

/-- Let `sent` be the events that the publisher accepts in a cycle without database errors, of
any batch size and from any table.  That the cycle, if there is one, lowers the number of
unpublished events is true exactly if the first event of the batch is rejected, so that there is
none, or if all are accepted.  The number is lowered exactly if the batch has an event and all of
them are accepted; a rejected event leaves the table as it was. -/
theorem cycle_progress_iff {r : Relay Unit} (hr : 1 ≤ r.batchSize) (hidle : w.Idle)
    (hfault : ∀ n, (env n).fault = none) {verdict : Event → Option GoError}
    (hverdict : Answers env w.hist.length ((r.batch env w).map EventRow.event) verdict) :
    ∃ out w' sent, (r.relay .background).solo c env w = some (.ret out, w') ∧
      accepted w'.hist = accepted w.hist ++ sent ∧
      sent <+: (r.batch env w).map EventRow.event ∧
      ((sent ≠ [] →
          (unpublished (w'.committed ())).length < (unpublished (w.committed ())).length) ↔
        (∃ row, (r.batch env w).head? = some row ∧ verdict row.event ≠ none) ∨
          ∀ row ∈ r.batch env w, verdict row.event = none) ∧
      ((unpublished (w'.committed ())).length < (unpublished (w.committed ())).length ↔
        r.batch env w ≠ [] ∧ ∀ row ∈ r.batch env w, verdict row.event = none) ∧
      ((∃ row ∈ r.batch env w, verdict row.event ≠ none) →
        w'.committed () = w.committed ()) := by
  obtain ⟨out, w', hcycle, hsent, hmarked, hkept⟩ :=
    solo_relay (c := c) (zero_le_one.trans hr) hidle hfault hverdict
  have hlower : (unpublished (w'.committed ())).length < (unpublished (w.committed ())).length ↔
      r.batch env w ≠ [] ∧ ∀ row ∈ r.batch env w, verdict row.event = none := by
    by_cases hall : ∀ row ∈ r.batch env w, verdict row.event = none
    · rw [hmarked hall, and_iff_left hall]
      refine ⟨fun hlt hnil => ?_, length_unpublished_markAll_batch r env _⟩
      simp [hnil, markAll] at hlt
    · rw [hkept (by simpa using hall)]
      simp [hall]
  refine ⟨out, w', _, hcycle, hsent, List.takeWhile_prefix _, ?_, hlower, hkept⟩
  rw [hlower]
  cases hbatch : r.batch env w with
  | nil => simp
  | cons row rest =>
      cases hfirst : verdict row.event with
      | some err => simp [hfirst]
      | none => simp [hfirst]

/-- Two orders. -/
def twoOrders : World schema Unit Unit :=
  World.initial fun _ =>
    (Table.empty.put ⟨0, "orders", "1", 0, none⟩).put ⟨1, "orders", "broken", 0, none⟩

/-- A publisher that takes everything. -/
def acceptsAll (_ : ℕ) : Tick schema := ⟨⟨0, id, .ok "", none⟩, none⟩

theorem accepted_batch_progresses :
    ∃ out w', ((⟨(), 10⟩ : Relay Unit).relay .background).solo () acceptsAll twoOrders =
        some (.ret out, w') ∧ (accepted w'.hist).length = 2 ∧
      (unpublished (w'.committed ())).length < 2 := by
  have hanswers : Answers acceptsAll twoOrders.hist.length
      (((⟨(), 10⟩ : Relay Unit).batch acceptsAll twoOrders).map EventRow.event) fun _ => none :=
    fun _ _ _ => rfl
  have hsent : (((⟨(), 10⟩ : Relay Unit).relay .background).solo () acceptsAll twoOrders).map
      (fun p => (accepted p.2.hist).length) = some 2 := by
    decide
  obtain ⟨out, w', sent, hsolo, happend, -, hiff, -⟩ :=
    cycle_progress_iff (c := ()) (by decide) (fun _ => rfl) (fun _ => rfl) hanswers
  have hlength : (accepted w'.hist).length = 2 := by simpa [hsolo] using hsent
  refine ⟨out, w', hsolo, hlength, hiff.mpr (.inr fun _ _ => rfl) ?_⟩
  rintro rfl
  rw [happend] at hlength
  exact absurd hlength (by decide)

/-- A publisher that rejects the second order: a cycle has five operations, and the fourth one
offers it. -/
def rejectsBroken (n : ℕ) : Tick schema :=
  ⟨⟨0, id, .ok "", if n % 5 = 3 then some (.new "rejected") else none⟩, none⟩

/-- How often the publisher has accepted the event. -/
def timesAccepted (id : ℕ) (hist : List (Entry schema Unit Unit)) : ℕ :=
  hist.countP fun
    | ⟨_, .ext (.publish e), none⟩ => e.id = id
    | _ => false

/-- Three cycles publish the first order three times, and both orders stay unpublished. -/
theorem poison_stalls :
    (((⟨(), 10⟩ : Relay Unit).run .background 3).solo () rejectsBroken twoOrders).map
        (fun p => (timesAccepted 0 p.2.hist, (unpublished (p.2.committed ())).length)) =
      some (3, 2) := by
  decide

end Gkit.Outbox
