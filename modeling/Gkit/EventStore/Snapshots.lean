import Gkit.EventStore.Erasure
import Gkit.EventStore.Replay

/-!
# A snapshot and the events after it

A client that saves a snapshot saves the state of its stream at some committed
version, not necessarily the latest one, and may overwrite a newer snapshot.
Since committed events stay as they are, every snapshot remains the state at its
version, and the events from the next version on lead to the state of the whole
stream.
-/

namespace Gkit.EventStore

open Gkit.Lib Gkit.Store

variable {V ι : Type}

/-- A snapshot is taken of a committed version and holds the state there. -/
def TopCall.Folds (f : V → Event → V) (init : V) (rows : List Event) : TopCall V → Prop
  | .append _ => True
  | .save sid v state => v ∈ versions sid rows ∧ state = (upTo sid v rows).foldl f init

instance [DecidableEq V] (f : V → Event → V) (init : V) (rows : List Event) :
    ∀ call : TopCall V, Decidable (call.Folds f init rows)
  | .append _ => inferInstanceAs (Decidable True)
  | .save sid v state => inferInstanceAs
      (Decidable (v ∈ versions sid rows ∧ state = (upTo sid v rows).foldl f init))

/-- The client that takes the step knows what it saves. -/
def SavesFold (f : V → Event → V) (init : V) (calls : ι → TopCall V)
    (s : Sys schema Unit ι (Option GoError)) : Action schema ι → Prop
  | .step c _ => (calls c).Folds f init (s.world.committed ()).events
  | .crash _ => True

instance [DecidableEq V] (f : V → Event → V) (init : V) (calls : ι → TopCall V)
    (s : Sys schema Unit ι (Option GoError)) : ∀ x, Decidable (SavesFold f init calls s x)
  | .step c _ => inferInstanceAs
      (Decidable ((calls c).Folds f init (s.world.committed ()).events))
  | .crash _ => inferInstanceAs (Decidable True)

/-- The snapshot holds the state of its stream at its version. -/
structure Faithful (f : V → Event → V) (init : V) (decode : String → V) (rows : List Event)
    (snap : Snapshot) : Prop where
  version : snap.version ∈ versions snap.streamID rows
  state : decode snap.data = (upTo snap.streamID snap.version rows).foldl f init

section Steps

variable {codec : Codec V} {calls : ι → TopCall V} {f : V → Event → V} {init : V}
  {decode : String → V} {s s' : Sys schema Unit ι (Option GoError)}

/-- A snapshot stays faithful when events are added. -/
theorem Faithful.mono {rows rows' : List Event} {snap : Snapshot}
    (h : Faithful f init decode rows snap) (hrows : rows <+: rows') (hgap : Gapless rows') :
    Faithful f init decode rows' snap := by
  obtain ⟨more, rfl⟩ := hrows
  refine ⟨?_, ?_⟩
  · rw [versions_append]
    exact List.mem_append_left _ h.version
  · rw [hgap.upTo_append h.version]
    exact h.state

/-- The events are those of appends alone, and every snapshot is faithful. -/
structure Kept (codec : Codec V) (calls : ι → TopCall V) (f : V → Event → V) (init : V)
    (decode : String → V) (s : Sys schema Unit ι (Option GoError)) : Prop where
  erases : ∃ t, Erases codec calls s t
  faithful : ∀ snap ∈ (s.world.committed ()).snapshots,
    Faithful f init decode (s.world.committed ()).events snap

theorem kept_clients (codec : Codec V) (calls : ι → TopCall V) (f : V → Event → V) (init : V)
    (decode : String → V) : Kept codec calls f init decode (clients codec calls) :=
  ⟨⟨_, erases_clients codec calls⟩, fun _ hsnap => nomatch hsnap⟩

theorem kept_step [DecidableEq ι]
    (hdecode : ∀ state data, codec.marshal state = .ok data → decode data = state)
    (h : Kept codec calls f init decode s) {x : Action schema ι} (hx : SavesFold f init calls s x)
    (hstep : s.step x = some s') : Kept codec calls f init decode s' := by
  obtain ⟨t, ht⟩ := h.erases
  obtain ⟨t', ht', hmove⟩ := ht.step hstep
  refine ⟨⟨t', ht'⟩, fun snap hsnap => ?_⟩
  rcases hmove with hgrows | ⟨c, e, sid, v, state, data, rfl, hc, hmarshal, htables⟩
  · rw [hgrows.snapshots] at hsnap
    exact (h.faithful snap hsnap).mono hgrows.events ht'.gapless
  · have hfolds : (calls c).Folds f init (s.world.committed ()).events := hx
    rw [hc] at hfolds
    rw [htables] at hsnap ⊢
    rcases List.mem_append.mp hsnap with hsnap | hsnap
    · exact h.faithful snap (List.mem_of_mem_filter hsnap)
    · obtain rfl := List.mem_singleton.mp hsnap
      exact ⟨hfolds.1, (hdecode state data hmarshal).trans hfolds.2⟩

/-! ## Reading -/

variable {c : ι} {env : ℕ → Tick schema} {w : World schema Unit ι}

/-- A query that runs to its end reads the committed tables and leaves them. -/
theorem solo_query (he : (env w.hist.length).fault = none) (q : Stmt) {ret : q.Ret}
    (hrun : ∀ m locked, q.run m (w.committed ()) locked = .done ret [] [])
    {α : Type} (reply : Except GoError q.Ret → α) :
    ∃ w', Prog.solo c env (.op (.pool () q) fun r => .ret (reply r)) w =
        some (.ret (reply (.ok ret)), w') ∧ w'.committed () = w.committed () := by
  have hexec := World.exec_pool_done (S := schema) (s := q) c he (hrun _ _)
  refine ⟨(w.persist () []).record c (.pool () q) (.ok ret), ?_, ?_⟩
  · rw [Prog.solo_op, hexec]
    rfl
  · rw [World.committed_record, World.committed_persist]
    rfl

theorem solo_loadSnapshot (he : (env w.hist.length).fault = none) (sid : String) :
    ∃ w', (loadSnapshot () .background sid).solo c env w =
        some (.ret (.ok ((w.committed ()).snapshots.find? fun r => r.streamID = sid)), w') ∧
      w'.committed () = w.committed () := by
  have hreply : ∀ found : Option Snapshot, loadSnapshotReply sid (.ok found) = .ok found := by
    intro found
    cases found <;> rfl
  rw [loadSnapshot_eq]
  obtain ⟨w', hsolo, hw'⟩ :=
    solo_query (c := c) he (.selectSnapshot sid) (fun _ _ => rfl) (loadSnapshotReply sid)
  exact ⟨w', hsolo.trans (by rw [hreply]), hw'⟩

theorem solo_load (he : (env w.hist.length).fault = none) (sid : String) (v : ℤ) :
    ∃ w', (load () .background sid v).solo c env w =
        some (.ret (loadReply sid v (.ok (eventsFrom sid v (w.committed ()).events))), w') ∧
      w'.committed () = w.committed () := by
  rw [load_eq]
  exact solo_query he (.selectEvents sid v) (fun _ _ => rfl) (loadReply sid v)

theorem Faithful.resumes {rows : List Event} {snap : Snapshot}
    (h : Faithful f init decode rows snap) (hgap : Gapless rows) :
    (eventsFrom snap.streamID (snap.version + 1) rows).foldl f (decode snap.data) =
      (eventsFrom snap.streamID 0 rows).foldl f init := by
  rw [h.state]
  exact hgap.foldl_eventsFrom f init snap.streamID snap.version

/-- The stream of a faithful snapshot is there, so neither call is an error. -/
theorem Faithful.replies {rows : List Event} {snap : Snapshot}
    (h : Faithful f init decode rows snap) (hgap : Gapless rows) (v : ℤ)
    (hv : v = 0 ∨ v = snap.version + 1) :
    loadReply snap.streamID v (.ok (eventsFrom snap.streamID v rows)) =
      .ok (eventsFrom snap.streamID v rows) := by
  refine if_neg ?_
  rintro ⟨hempty, hzero⟩
  have hversion := (hgap.mem_versions.mp h.version).1
  rcases hv with rfl | rfl
  · have hstream : stream snap.streamID rows = [] := by
      rw [← hgap.eventsFrom_zero]
      exact List.isEmpty_iff.mp hempty
    have hversions : versions snap.streamID rows = [] := congrArg (List.map Event.version) hstream
    have hmem := h.version
    rw [hversions] at hmem
    cases hmem
  · omega

end Steps

/-- In every state that appends and saved snapshots can reach, where each
snapshot was the state of its stream at a committed version, `LoadSnapshot` returns
the committed row of the stream, and folding the events after it, from its state
on, gives the state of the whole stream.  The condition on a saved snapshot is read where its
statement runs; it is met there if it was met when the method was called, since
committed events stay. -/
theorem snapshot_and_tail_replay [DecidableEq ι] (codec : Codec V) (calls : ι → TopCall V)
    (f : V → Event → V) (init : V) (decode : String → V)
    (hdecode : ∀ state data, codec.marshal state = .ok data → decode data = state)
    {xs : List (Action schema ι)} {s : Sys schema Unit ι (Option GoError)}
    (hsaves : Along Sys.step (SavesFold f init calls) (clients codec calls) xs)
    (hrun : run Sys.step (clients codec calls) xs = some s)
    (c : ι) (env : ℕ → Tick schema) (hcalm : ∀ n, (env n).fault = none) (sid : String) :
    ∃ found w₁, (loadSnapshot () .background sid).solo c env s.world =
        some (.ret (.ok found), w₁) ∧
      found = (s.world.committed ()).snapshots.find? (fun r => r.streamID = sid) ∧
      ∀ snap, found = some snap → ∃ tail events w₂ w₃,
        (load () .background sid (snap.version + 1)).solo c env w₁ =
          some (.ret (.ok tail), w₂) ∧
        (load () .background sid 0).solo c env w₂ = some (.ret (.ok events), w₃) ∧
        events = eventsFrom sid 0 (s.world.committed ()).events ∧
        tail.foldl f (decode snap.data) = events.foldl f init := by
  have hkept : Kept codec calls f init decode s :=
    run_invariant (P := Kept codec calls f init decode)
      (fun _ _ _ h hx hstep => kept_step hdecode h hx hstep)
      (kept_clients codec calls f init decode) hsaves hrun
  obtain ⟨t, ht⟩ := hkept.erases
  obtain ⟨w₁, hfound, hw₁⟩ := solo_loadSnapshot (c := c) (hcalm s.world.hist.length) sid
  refine ⟨_, w₁, hfound, rfl, fun snap hsnap => ?_⟩
  have hfaithful := hkept.faithful snap (List.mem_of_find?_eq_some hsnap)
  obtain rfl : snap.streamID = sid := by simpa using List.find?_some hsnap
  obtain ⟨w₂, htail, hw₂⟩ :=
    solo_load (c := c) (hcalm w₁.hist.length) snap.streamID (snap.version + 1)
  obtain ⟨w₃, hfull, -⟩ := solo_load (c := c) (hcalm w₂.hist.length) snap.streamID 0
  rw [hw₁, hfaithful.replies ht.gapless _ (.inr rfl)] at htail
  rw [hw₂, hw₁, hfaithful.replies ht.gapless _ (.inl rfl)] at hfull
  exact ⟨_, _, w₂, w₃, htail, hfull, rfl, hfaithful.resumes ht.gapless⟩

/-- Two events, a snapshot of the first taken late, over a newer one, and a third
event. -/
def orderCalls : Fin 4 → TopCall (Option String)
  | 0 => .append ⟨"order", [⟨"placed", some "1", none⟩, ⟨"paid", some "2", none⟩], -1⟩
  | 1 => .save "order" 1 (some "12")
  | 2 => .save "order" 0 (some "1")
  | 3 => .append ⟨"order", [⟨"sent", some "3", none⟩], 1⟩

/-- The texts of a stream, one after the other. -/
def concat (state : Option String) (r : Event) : Option String :=
  state.map (· ++ r.data)

def orderRun : List (Action schema (Fin 4)) :=
  ([0, 0, 0, 0, 0, 1, 2, 3, 3, 3, 3] : List (Fin 4)).map fun c => .step c ⟨0, none⟩

theorem late_snapshot_replays :
    ∃ s, run Sys.step (clients textCodec orderCalls) orderRun = some s ∧
      ((s.world.committed ()).snapshots.map fun r => (r.streamID, r.version, r.data)) =
        [("order", 0, "1")] ∧
      ∃ found w₁, (loadSnapshot () .background "order").solo 0 calm s.world =
          some (.ret (.ok found), w₁) ∧
        found = (s.world.committed ()).snapshots.find? (fun r => r.streamID = "order") ∧
        ∀ snap, found = some snap → ∃ tail events w₂ w₃,
          (load () .background "order" (snap.version + 1)).solo 0 calm w₁ =
            some (.ret (.ok tail), w₂) ∧
          (load () .background "order" 0).solo 0 calm w₂ = some (.ret (.ok events), w₃) ∧
          events = eventsFrom "order" 0 (s.world.committed ()).events ∧
          tail.foldl concat (some snap.data) = events.foldl concat (some "") := by
  have hsome : (run Sys.step (clients textCodec orderCalls) orderRun).isSome := by decide
  obtain ⟨s, hrun⟩ := Option.isSome_iff_exists.mp hsome
  refine ⟨s, hrun, ?_, ?_⟩
  · have hdata : (run Sys.step (clients textCodec orderCalls) orderRun).map
        (fun s => (s.world.committed ()).snapshots.map fun r =>
          (r.streamID, r.version, r.data)) = some [("order", 0, "1")] := by decide
    rw [hrun] at hdata
    exact Option.some.inj hdata
  · refine snapshot_and_tail_replay textCodec orderCalls concat (some "") some ?_ (by decide) hrun
      0 calm (fun _ => rfl) "order"
    intro state data h
    cases state with
    | none => cases h
    | some text => exact congrArg some (Except.ok.inj h).symm

end Gkit.EventStore
