import Gkit.EventStore.Callers

/-!
# Is an append all or nothing?

On its own it is.  Inside the transaction of a caller an event that does not
marshal makes `Append` return an error without spoiling the transaction, so a
caller that goes on and commits also commits the events that came before it.
-/

namespace Gkit.EventStore

open Gkit.Lib Gkit.Store

variable {V ι : Type}

/-! ## On its own -/

/-- What an append that returns nil has inserted: all its events. -/
theorem Appended.complete {codec : Codec V} {a : AppendCall V} {rows : List Event}
    {x y : TxState schema Unit ι} (h : Appended codec a rows x none y) :
    ∃ docs, Marshals codec a.events docs ∧
      Grown x y (rowsAt a.streamID x.started (maxVersion a.streamID rows + 1) docs) := by
  cases h with
  | inserted _ _ hins =>
      cases hins with
      | complete hdone hy => exact ⟨_, hdone, hy⟩

theorem append_alone_atomic (codec : Codec V) (a : AppendCall V) (c : ι)
    (env : ℕ → Tick schema) {w : World schema Unit ι} (hidle : w.Idle) :
    ∃ r w', (append codec () .background a).solo c env w = some (.ret r, w') ∧
      (r ≠ none → w'.committed () = w.committed ()) ∧
      (r = none → ∃ docs now, Marshals codec a.events docs ∧
        (w'.committed ()).events = (w.committed ()).events ++ rowsAt a.streamID now
          (maxVersion a.streamID (w.committed ()).events + 1) docs) := by
  by_cases hne : a.events = []
  · have hnil : Marshals codec a.events [] := by rw [hne]; rfl
    exact ⟨none, w, by simp [append, hne], fun h => absurd rfl h,
      fun _ => ⟨[], 0, hnil, by simp [rowsAt]⟩⟩
  have hcode : append codec () .background a = withTx () .background (appendTx codec a) := by
    simp [append, hne]
  rw [hcode]
  cases hbegin : (env w.hist.length).fault with
  | some err => exact ⟨_, _, solo_withTx_fault () hbegin _, fun _ => rfl, fun h => by cases h⟩
  | none =>
      have hw : Working ⟨(), w.next⟩ (freshTx c (env w.hist.length))
          (begun w c (env w.hist.length) ()) := ⟨sole_begun hidle c _ (), by simp [freshTx]⟩
      obtain ⟨r, y, w₁, hsolo, hwithin, hw₁, -, happ, -⟩ := solo_appendTx codec c env a
        (contextWithTx .background ⟨(), w.next⟩) hw
      obtain ⟨out, w', hend, hends⟩ := solo_endTx c env hw₁.toSole (.ret r)
      have hsame : w₁.committed () = w.committed () := hwithin.committed ()
      rw [solo_withTx_begun () hbegin hsolo, hend]
      generalize hr : (Outcome.ret r : Outcome (Option GoError)) = out₁ at hends
      cases hends with
      | committed ha he =>
          cases hr
          obtain ⟨docs, hdocs, hgrown⟩ := happ.complete
          refine ⟨none, _, rfl, fun h => absurd rfl h,
            fun _ => ⟨docs, (env w.hist.length).env, hdocs, ?_⟩⟩
          rw [World.committed_record, World.committed_settle w₁ w.next y, World.view, hsame,
            hgrown.log]
          exact congrArg Tables.events (foldl_events _ _)
      | failed err h => exact ⟨_, _, rfl, fun _ => hsame, fun h => by cases h⟩
      | rolledBack _ hout r' =>
          subst hr
          exact ⟨r, _, rfl, fun _ => hsame, fun h => absurd (congrArg Outcome.ret h) hout⟩

/-! ## Inside the transaction of a caller -/

/-- The events that a call has inserted into the transaction. -/
def insertedBy (t : Tx Unit) (call : StoreCall V ι) : List Event :=
  ((call.after.logOf t).drop (call.before.logOf t).length).filterMap Write.event?

/-- An append that fails has inserted nothing and one that succeeds everything. -/
def AllOrNothing (codec : Codec V) (t : Tx Unit) : StoreCall V ι → Prop
  | ⟨.append a, some err, w, w'⟩ => insertedBy t ⟨.append a, some err, w, w'⟩ = []
  | ⟨.append a, none, w, w'⟩ => ∃ docs now v, Marshals codec a.events docs ∧
      insertedBy t ⟨.append a, none, w, w'⟩ = rowsAt a.streamID now v docs
  | _ => True

/-- The append finds its version, its first event marshals, but not all do. -/
def LeavesPrefix (codec : Codec V) (t : Tx Unit) : StoreCall V ι → Prop
  | ⟨.append a, _, w, _⟩ => ∃ x, w.txs t.id = some x ∧
      checkVersion a.streamID (maxVersion a.streamID (w.view x).events) a.expectedVersion = none ∧
      (∀ ed ∈ a.events.head?, ∃ doc, marshalEvent codec ed = .ok doc) ∧
      ∃ ed ∈ a.events, ∃ err, marshalEvent codec ed = .error err
  | _ => False

section Calls

variable {codec : Codec V} {env : ℕ → Tick schema} {t : Tx Unit} {x y : TxState schema Unit ι}

theorem CallSpec.insertedBy_eq {call : StoreCall V ι} (h : CallSpec codec env t x call y)
    {rows : List Event} (hrows : y.log = x.log ++ rows.map .event) : insertedBy t call = rows := by
  simp only [insertedBy, h.before.toSole.logOf, h.after.toSole.logOf, hrows,
    List.drop_left, filterMap_event]

/-- In a transaction that can still commit, exactly the appends that stop after
their first event are not all or nothing. -/
theorem CallSpec.allOrNothing_iff {call : StoreCall V ι} (h : CallSpec codec env t x call y)
    (ha : y.aborted = false) : AllOrNothing codec t call ↔ ¬LeavesPrefix codec t call := by
  obtain ⟨request, reply, w, w'⟩ := call
  cases request with
  | load | currentVersion | saveSnapshot | loadSnapshot => simp [AllOrNothing, LeavesPrefix]
  | append a =>
      have hx : w.txs t.id = some x := h.before.tx
      rcases h.effect.2 with ⟨hne, rfl, rfl⟩ | happ
      · have hnil : Marshals codec a.events [] := by rw [hne]; rfl
        have hins : insertedBy t ⟨.append a, none, w, w'⟩ = [] := h.insertedBy_eq (by simp)
        refine iff_of_true ⟨[], 0, 0, hnil, hins⟩ ?_
        rintro ⟨_, _, _, _, ed, hed, _⟩
        simp [hne] at hed
      · cases happ with
        | failed err hdead => exact absurd (ha.symm.trans hdead) (by simp)
        | rejected err hcheck hgrown =>
            refine iff_of_true (h.insertedBy_eq hgrown.log) ?_
            rintro ⟨x', hx', hpass, -⟩
            obtain rfl : x = x' := Option.some.inj (hx.symm.trans hx')
            exact absurd (hcheck.symm.trans hpass) (by simp)
        | inserted r hcheck hins =>
            cases hins with
            | aborted err hdead => exact absurd (ha.symm.trans hdead) (by simp)
            | @stopped _ done rest ed docs err hevents hdone herr hgrown =>
                have hrows := h.insertedBy_eq hgrown.log
                cases done with
                | nil =>
                    obtain rfl : docs = [] := List.eq_nil_of_length_eq_zero hdone.length_eq.symm
                    refine iff_of_true hrows ?_
                    rintro ⟨-, -, -, hhead, -⟩
                    obtain ⟨doc, hdoc⟩ := hhead ed (by simp [hevents])
                    exact absurd (hdoc.symm.trans herr) (by simp)
                | cons d done =>
                    obtain ⟨doc, hdoc⟩ := hdone.ok_of_mem List.mem_cons_self
                    refine iff_of_false ?_ (not_not.mpr ⟨x, hx, hcheck, ?_, ed, ?_, err, herr⟩)
                    · intro hnone
                      obtain ⟨doc', docs', rfl⟩ := List.exists_cons_of_length_eq_add_one
                        (hdone.length_eq.symm.trans List.length_cons)
                      exact absurd (hrows.symm.trans hnone) (by simp [rowsAt])
                    · simpa [hevents] using ⟨doc, hdoc⟩
                    · simp [hevents]
            | complete hdone hgrown =>
                refine iff_of_true ⟨_, _, _, hdone, h.insertedBy_eq hgrown.log⟩ ?_
                rintro ⟨-, -, -, -, ed, hed, err, herr⟩
                obtain ⟨doc, hdoc⟩ := hdone.ok_of_mem hed
                exact absurd (hdoc.symm.trans herr) (by simp)

theorem Linked.chain_log {s s' : TxState schema Unit ι × World schema Unit ι}
    {calls : List (StoreCall V ι)} (h : Chained (Linked codec env t) s calls s') :
    s'.1.log = s.1.log ++ (calls.flatMap (insertedBy t)).map .event := by
  induction h with
  | nil s => simp
  | @cons s s₁ s' call calls hlink _ ih =>
      obtain ⟨rows, hrows⟩ := hlink.1.ext.log
      rw [ih, hrows, List.flatMap_cons, hlink.1.insertedBy_eq hrows]
      simp

theorem Linked.chain_events {s s' : TxState schema Unit ι × World schema Unit ι}
    {calls : List (StoreCall V ι)} (h : Chained (Linked codec env t) s calls s') :
    (s'.2.committed ()).events = (s.2.committed ()).events := by
  refine h.invariant (P := fun u => (u.2.committed ()).events = (s.2.committed ()).events)
    (H := fun _ => True) ?_ rfl (fun _ _ => trivial)
  rintro u call u' hu - ⟨hspec, hbefore, hafter⟩
  rw [← hafter, hspec.events, hbefore, hu]

theorem Linked.chain_aborted {s s' : TxState schema Unit ι × World schema Unit ι}
    {calls : List (StoreCall V ι)} (h : Chained (Linked codec env t) s calls s')
    (hs : s.1.aborted = true) : s'.1.aborted = true :=
  h.invariant (P := fun u => u.1.aborted = true) (H := fun _ => True)
    (fun hu _ hlink => hlink.1.ext.aborted hu) hs fun _ _ => trivial

end Calls

/-- A top-level append is all or nothing.  The appends of a caller inside
`WithTx` are, if and only if the transaction does not commit or none of them
stops at an event after its first one. -/
theorem append_atomic_iff (codec : Codec V) (c : ι) (env : ℕ → Tick schema)
    (w : World schema Unit ι) (hidle : w.Idle) :
    (∀ a, ∃ r w', (append codec () .background a).solo c env w = some (.ret r, w') ∧
      (r ≠ none → w'.committed () = w.committed ()) ∧
      (r = none → ∃ docs now, Marshals codec a.events docs ∧
        (w'.committed ()).events = (w.committed ()).events ++ rowsAt a.streamID now
          (maxVersion a.streamID (w.committed ()).events + 1) docs)) ∧
    ∀ script, ∃ calls out₁ w₁ out w', callsInTx codec script c env w = some (calls, out₁, w₁) ∧
      (inTx codec script).solo c env w = some (out, w') ∧
      -- The caller commits what its calls have inserted, or nothing.
      (w'.committed ()).events = (w.committed ()).events ++
        (if out = .ret none then calls.flatMap (insertedBy ⟨(), w.next⟩) else []) ∧
      ((out = .ret none → ∀ call ∈ calls, AllOrNothing codec ⟨(), w.next⟩ call) ↔
        (out = .ret none → ∀ call ∈ calls, ¬LeavesPrefix codec ⟨(), w.next⟩ call)) := by
  refine ⟨fun a => append_alone_atomic codec a c env hidle, fun script => ?_⟩
  cases hbegin : (env w.hist.length).fault with
  | some err =>
      have hcalls : callsInTx codec script c env w = some ([],
          .ret (some (.wrapping "store: begin tx" err)), w.record c (.begin ()) (.error err)) := by
        simp [callsInTx, hbegin]
      exact ⟨_, _, _, _, _, hcalls, solo_withTx_fault () hbegin _, by simp, by simp⟩
  | none =>
      obtain ⟨calls, out₁, w₁, y, out, w', hcalls, hchain, hy, hsolo, hends⟩ :=
        solo_inTx codec script c env hidle hbegin
      refine ⟨calls, out₁, w₁, out, w', hcalls, hsolo, ?_, ?_⟩
      · have hevents : (w₁.committed ()).events = (w.committed ()).events :=
          Linked.chain_events hchain
        have hlog := Linked.chain_log hchain
        cases hends with
        | committed ha he =>
            rw [World.committed_record, World.committed_settle w₁ w.next y, World.view, hlog,
              ← hevents]
            simpa [freshTx] using congrArg Tables.events (foldl_events _ _)
        | failed err h => simpa using hevents
        | rolledBack _ hout r => simpa [hout] using hevents
      · refine forall_congr' fun hout => forall₂_congr fun call hcall => ?_
        have halive : y.aborted = false := by
          cases hends with
          | committed ha he => exact ha
          | failed err h => cases hout
          | rolledBack _ hne r => exact absurd hout hne
        obtain ⟨_, _, s, s', -, -, hlink, hrest⟩ := hchain.link_of_mem hcall
        refine hlink.1.allOrNothing_iff ?_
        by_contra hdead
        have := Linked.chain_aborted hrest (by simpa using hdead)
        simp [halive] at this

/-- A caller that appends an event that marshals and one that does not, and then
carries on as if nothing had happened. -/
def careless : Script (Option String) :=
  .op (.append ⟨"order", [⟨"Placed", some "1", none⟩, ⟨"Paid", none, none⟩], expectedVersionNew⟩)
    fun _ => .ret none

theorem careless_commits_prefix :
    ∃ calls out w₁ w', callsInTx textCodec careless () calm emptyDB = some (calls, out, w₁) ∧
      (inTx textCodec careless).solo () calm emptyDB = some (.ret none, w') ∧
      ¬(∀ call ∈ calls, AllOrNothing textCodec ⟨(), 0⟩ call) ∧
      versions "order" (w'.committed ()).events = [0] := by
  refine ⟨_, _, _, _, rfl, rfl, ?_, by decide⟩
  intro h
  have hcall : insertedBy ⟨(), 0⟩ _ = [] := h _ List.mem_cons_self
  exact absurd hcall (by decide)

theorem careless_atomic_iff :
    ∃ calls out₁ w₁ out w',
      callsInTx textCodec careless () calm emptyDB = some (calls, out₁, w₁) ∧
      (inTx textCodec careless).solo () calm emptyDB = some (out, w') ∧
      ((out = .ret none → ∀ call ∈ calls, AllOrNothing textCodec ⟨(), 0⟩ call) ↔
        (out = .ret none → ∀ call ∈ calls, ¬LeavesPrefix textCodec ⟨(), 0⟩ call)) := by
  obtain ⟨calls, out₁, w₁, out, w', hcalls, hsolo, -, hiff⟩ :=
    (append_atomic_iff textCodec () calm emptyDB (fun _ => rfl)).2 careless
  exact ⟨calls, out₁, w₁, out, w', hcalls, hsolo, hiff⟩

end Gkit.EventStore
