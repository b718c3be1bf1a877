import Gkit.EventStore.Alone

/-!
# Programs that use the store inside a transaction

A caller is any program over the five methods of the store that is run as the
callback of `DB.WithTx` and passes on the context it is given.  `Append` joins
the transaction; the other four methods go to the pool, so they neither see
what the transaction has written nor are they undone with it.
-/

namespace Gkit.EventStore

open Gkit.Lib Gkit.Store

variable {V ι : Type}

inductive Request (V : Type) where
  | append (a : AppendCall V)
  | load (streamID : String) (fromVersion : ℤ)
  | currentVersion (streamID : String)
  | saveSnapshot (streamID : String) (version : ℤ) (state : V)
  | loadSnapshot (streamID : String)

@[reducible] def Request.Rep : Request V → Type
  | .append _ => Option GoError
  | .load .. => Except GoError (List Event)
  | .currentVersion _ => Except GoError ℤ
  | .saveSnapshot .. => Option GoError
  | .loadSnapshot _ => Except GoError (Option Snapshot)

def Request.code (codec : Codec V) (ctx : Context Unit) :
    (q : Request V) → GoProg schema Unit q.Rep
  | .append a => EventStore.append codec () ctx a
  | .load sid v => EventStore.load () ctx sid v
  | .currentVersion sid => storeCurrentVersion () ctx sid
  | .saveSnapshot sid v state => EventStore.saveSnapshot codec () ctx sid v state
  | .loadSnapshot sid => EventStore.loadSnapshot () ctx sid

abbrev Script (V : Type) := Prog (Request V) Request.Rep (Option GoError)

abbrev StoreCall (V ι : Type) := Call schema Unit ι (Request V) Request.Rep

/-- `db.WithTx` with this program as its callback. -/
def inTx (codec : Codec V) (script : Script V) : GoProg schema Unit (Option GoError) :=
  withTx () .background fun ctx _ => script.handle (Request.code codec ctx)

/-- The calls that the callback makes, and how it ends; none if the transaction
cannot be begun. -/
def callsInTx (codec : Codec V) (script : Script V) (c : ι) (env : ℕ → Tick schema)
    (w : World schema Unit ι) :
    Option (List (StoreCall V ι) × Outcome (Option GoError) × World schema Unit ι) :=
  match (env w.hist.length).fault with
  | some err => some ([], .ret (some (.wrapping "store: begin tx" err)),
      w.record c (.begin ()) (.error err))
  | none => script.calls c env (Request.code codec (contextWithTx .background ⟨(), w.next⟩))
      (begun w c (env w.hist.length) ())

def Write.event? : Write → Option Event
  | .event row => some row
  | .snapshot _ => none

/-- The events that the transaction has inserted and not yet committed. -/
def pending (t : Tx Unit) (w : World schema Unit ι) : List Event :=
  (w.logOf t).filterMap Write.event?

/-! ## What the methods make of the answer of the server -/

def loadReply (sid : String) (fromVersion : ℤ) :
    Except GoError (List Event) → Except GoError (List Event)
  | .error err => .error (.wrapping ("eventstore: load " ++ quote sid) err)
  | .ok events =>
      if events.isEmpty ∧ fromVersion = 0 then
        .error (.wrap (errStreamNotFound.error ++ ": " ++ quote sid) errStreamNotFound)
      else .ok events

def currentVersionReply (sid : String) : Except GoError ℤ → Except GoError ℤ
  | .error err => .error (.wrapping ("eventstore: current version " ++ quote sid) err)
  | .ok v => .ok v

def saveSnapshotReply (sid : String) : Except GoError Unit → Option GoError
  | .error err => some (.wrapping ("eventstore: save snapshot " ++ quote sid) err)
  | .ok _ => none

def loadSnapshotReply (sid : String) (r : Except GoError (Option Snapshot)) :
    Except GoError (Option Snapshot) :=
  match scanRow r with
  | .error err =>
      if err.is errNoRows then .ok none
      else .error (.wrapping ("eventstore: load snapshot " ++ quote sid) err)
  | .ok snap => .ok (some snap)

theorem load_eq (ctx : Context Unit) (sid : String) (v : ℤ) :
    load () ctx sid v =
      .op (.pool () (.selectEvents sid v)) fun r => .ret (loadReply sid v r) := by
  refine congrArg (Prog.op _) (funext fun r => ?_)
  cases r with
  | error err => rfl
  | ok events =>
      change (if List.isEmpty events ∧ v = 0 then _ else _) = Prog.ret (if _ then _ else _)
      split <;> rfl

theorem storeCurrentVersion_eq (ctx : Context Unit) (sid : String) :
    storeCurrentVersion () ctx sid =
      .op (.pool () (.maxVersion sid)) fun r => .ret (currentVersionReply sid r) := by
  refine congrArg (Prog.op _) (funext fun r => ?_)
  cases r <;> rfl

theorem saveSnapshot_eq {codec : Codec V} {state : V} {data : String}
    (h : codec.marshal state = .ok data) (ctx : Context Unit) (sid : String) (v : ℤ) :
    saveSnapshot codec () ctx sid v state =
      .op (.pool () (.upsertSnapshot sid v data)) fun r => .ret (saveSnapshotReply sid r) := by
  simp only [saveSnapshot, h]
  refine congrArg (Prog.op _) (funext fun r => ?_)
  cases r <;> rfl

theorem loadSnapshot_eq (ctx : Context Unit) (sid : String) :
    loadSnapshot () ctx sid =
      .op (.pool () (.selectSnapshot sid)) fun r => .ret (loadSnapshotReply sid r) := by
  refine congrArg (Prog.op _) (funext fun r => ?_)
  change (match scanRow r with | .error err => _ | .ok snap => _) =
    Prog.ret (loadSnapshotReply sid r)
  simp only [loadSnapshotReply]
  cases scanRow r with
  | error err => cases h : err.is errNoRows <;> simp [h]
  | ok snap => rfl

/-! ## One call -/

/-- What the methods do, inside the transaction `x` of a caller. -/
def Effect (codec : Codec V) (env : ℕ → Tick schema) (x : TxState schema Unit ι) :
    StoreCall V ι → TxState schema Unit ι → Prop
  | ⟨.append a, r, w, w'⟩, y => w'.committed () = w.committed () ∧
      (a.events = [] ∧ r = none ∧ y = x ∨ Appended codec a (w.view x).events x r y)
  | ⟨.load sid v, r, w, w'⟩, y => y = x ∧ w'.committed () = w.committed () ∧
      ((env w.hist.length).fault = none →
        r = loadReply sid v (.ok (eventsFrom sid v (w.committed ()).events)))
  | ⟨.currentVersion sid, r, w, w'⟩, y => y = x ∧ w'.committed () = w.committed () ∧
      ((env w.hist.length).fault = none → r = .ok (maxVersion sid (w.committed ()).events))
  | ⟨.saveSnapshot sid v _, r, w, w'⟩, y => y = x ∧
      (r ≠ none ∧ w'.committed () = w.committed () ∨ r = none ∧
        ∃ data now, w'.committed () = (w.committed ()).apply (.snapshot ⟨sid, v, data, now⟩))
  | ⟨.loadSnapshot _, _, w, w'⟩, y => y = x ∧ w'.committed () = w.committed ()

/-- The transaction is alone and has written events only. -/
structure Writing (t : Tx Unit) (x : TxState schema Unit ι) (w : World schema Unit ι) : Prop
    extends Working t x w where
  events : ∃ rows : List Event, x.log = rows.map .event

section Spec

variable {codec : Codec V} {c : ι} {env : ℕ → Tick schema} {t : Tx Unit} {ctx : Context Unit}
  {x : TxState schema Unit ι} {w : World schema Unit ι}

theorem filterMap_event (rows : List Event) :
    (rows.map Write.event).filterMap Write.event? = rows := by
  rw [List.filterMap_map]
  exact List.filterMap_some

/-- The caller's own view: the committed rows and the pending ones. -/
theorem Writing.view_eq (h : Writing t x w) :
    w.view x = { w.committed () with events := (w.committed ()).events ++ pending t w } := by
  obtain ⟨rows, hrows⟩ := h.events
  have hpending : pending t w = rows := by
    simp only [pending, h.toSole.logOf, hrows, filterMap_event]
  rw [World.view, hrows, hpending]
  exact foldl_events _ rows

theorem Working.locked_snapshot (h : Working t x w) (sid : String) :
    w.locked () none (.snapshot sid) = false := by
  cases hk : w.locked () none (Key.snapshot sid : schema.Key) with
  | false => rfl
  | true =>
      obtain ⟨i, y, hy, -, -, hmem⟩ := World.locked_eq_true hk
      by_cases hi : i = t.id
      · rw [hi, h.tx] at hy
        cases hy
        exact absurd hmem (h.snapshots sid)
      · simp [h.alone i hi] at hy

theorem Writing.record (h : Writing t x w) (o : Op schema Unit) (r : o.Res) :
    Writing t x (w.record c o r) :=
  ⟨⟨⟨h.tx, h.alone⟩, h.snapshots⟩, h.events⟩

theorem Writing.persist (h : Writing t x w) (ws : List Write) : Writing t x (w.persist () ws) :=
  ⟨⟨⟨h.tx, h.alone⟩, h.snapshots⟩, h.events⟩

/-- A query on the pool reads the committed tables and changes nothing. -/
theorem Writing.query (h : Writing t x w) (s : Stmt) {ret : s.Ret}
    (hrun : ∀ m locked, s.run m (w.committed ()) locked = .done ret [] []) (e : Tick schema) :
    ∃ r w', w.exec c e (.pool () s) = some (r, w') ∧ Writing t x w' ∧
      w'.committed () = w.committed () ∧
      (e.fault = none ∧ r = .ok ret ∨ ∃ err, e.fault = some err ∧ r = .error err) := by
  cases he : e.fault with
  | some err =>
      exact ⟨_, _, World.exec_pool_fault w c () s he, h.record _ _, rfl, .inr ⟨err, rfl, rfl⟩⟩
  | none =>
      refine ⟨_, _, World.exec_pool_done c he (hrun _ _), (h.persist _).record _ _, ?_,
        .inl ⟨rfl, rfl⟩⟩
      rw [World.committed_record, World.committed_persist]
      rfl

/-- A call inside the transaction: how it moves the transaction and what it does
to the committed tables. -/
structure CallSpec (codec : Codec V) (env : ℕ → Tick schema) (t : Tx Unit)
    (x : TxState schema Unit ι) (call : StoreCall V ι) (y : TxState schema Unit ι) : Prop where
  before : Writing t x call.before
  after : Writing t y call.after
  ext : Extends x y
  events : (call.after.committed ()).events = (call.before.committed ()).events
  effect : Effect codec env x call y

theorem CallSpec.still {w' : World schema Unit ι} {q : Request V} {r : q.Rep}
    (h : Writing t x w) (hw' : Writing t x w') (hcom : w'.committed () = w.committed ())
    (heff : Effect codec env x ⟨q, r, w, w'⟩ x) : CallSpec codec env t x ⟨q, r, w, w'⟩ x :=
  ⟨h, hw', .refl x, congrArg Tables.events hcom, heff⟩

theorem request_spec (codec : Codec V) (c : ι) (env : ℕ → Tick schema) (hctx : ctx.tx = some t)
    (q : Request V) (h : Writing t x w) :
    ∃ r w' y, (q.code codec ctx).solo c env w = some (.ret r, w') ∧ Writing t y w' ∧
      CallSpec codec env t x ⟨q, r, w, w'⟩ y := by
  cases q with
  | append a =>
      obtain ⟨r, y, w', hsolo, hwithin, hw', hext, happ⟩ :=
        solo_append_nested codec c env a hctx h.toWorking
      have hcom := hwithin.committed ()
      obtain ⟨rows, hrows⟩ := h.events
      obtain ⟨rows', hrows'⟩ := hext.log
      have hy : Writing t y w' := ⟨hw', rows ++ rows', by rw [hrows', hrows]; simp⟩
      exact ⟨r, w', y, hsolo, hy, h, hy, hext, by rw [hcom], hcom, happ⟩
  | load sid v =>
      obtain ⟨r, w', hexec, hw', hcom, hr⟩ := h.query (c := c) (.selectEvents sid v)
        (fun _ _ => rfl) (env w.hist.length)
      refine ⟨loadReply sid v r, w', x, ?_, hw', .still h hw' hcom ⟨rfl, hcom, fun he => ?_⟩⟩
      · simp [Request.code, load_eq, Prog.solo_op, hexec]
      · rcases hr with ⟨-, rfl⟩ | ⟨err, herr, -⟩
        · rfl
        · simp [he] at herr
  | currentVersion sid =>
      obtain ⟨r, w', hexec, hw', hcom, hr⟩ := h.query (c := c) (.maxVersion sid)
        (fun _ _ => rfl) (env w.hist.length)
      refine ⟨currentVersionReply sid r, w', x, ?_, hw',
        .still h hw' hcom ⟨rfl, hcom, fun he => ?_⟩⟩
      · simp [Request.code, storeCurrentVersion_eq, Prog.solo_op, hexec]
      · rcases hr with ⟨-, rfl⟩ | ⟨err, herr, -⟩
        · rfl
        · simp [he] at herr
  | saveSnapshot sid v state =>
      cases hdata : codec.marshal state with
      | error err =>
          refine ⟨some (.wrapping "eventstore: marshal snapshot" err), w, x, ?_, h,
            .still h h rfl ⟨rfl, .inl ⟨by simp, rfl⟩⟩⟩
          simp [Request.code, saveSnapshot, hdata]
      | ok data =>
          cases he : (env w.hist.length).fault with
          | some err =>
              have hexec := World.exec_pool_fault w c () (Stmt.upsertSnapshot sid v data) he
              have hw' := h.record (c := c) (.pool () (.upsertSnapshot sid v data)) (.error err)
              refine ⟨saveSnapshotReply sid (.error err), _, x, ?_, hw',
                .still h hw' rfl ⟨rfl, .inl ⟨by simp [saveSnapshotReply], rfl⟩⟩⟩
              simp only [Request.code, saveSnapshot_eq hdata, Prog.solo_op, hexec]
              rfl
          | none =>
              have hrun : schema.run
                  ⟨(env w.hist.length).env, (env w.hist.length).env, w.hist.length⟩
                  (Stmt.upsertSnapshot sid v data) (w.committed ()) (w.locked () none) =
                  .done () [.snapshot ⟨sid, v, data, (env w.hist.length).env⟩] [.snapshot sid] := by
                simp [Stmt.run, h.locked_snapshot sid]
              have hexec := World.exec_pool_done c he hrun
              have hcom := World.committed_persist w ()
                [Write.snapshot ⟨sid, v, data, (env w.hist.length).env⟩]
              have hw' := (h.persist [Write.snapshot ⟨sid, v, data,
                (env w.hist.length).env⟩]).record
                (c := c) (.pool () (.upsertSnapshot sid v data)) (.ok ())
              refine ⟨none, _, x, ?_, hw', h, hw', .refl x, ?_, rfl, .inr ⟨rfl, data, _, hcom⟩⟩
              · simp only [Request.code, saveSnapshot_eq hdata, Prog.solo_op, hexec]
                rfl
              · exact (congrArg Tables.events hcom).trans rfl
  | loadSnapshot sid =>
      obtain ⟨r, w', hexec, hw', hcom, hr⟩ := h.query (c := c) (.selectSnapshot sid)
        (fun _ _ => rfl) (env w.hist.length)
      refine ⟨loadSnapshotReply sid r, w', x, ?_, hw', .still h hw' hcom ⟨rfl, hcom⟩⟩
      simp [Request.code, loadSnapshot_eq, Prog.solo_op, hexec]

/-! ## A whole caller -/

/-- A call that leads from one state of the transaction and of the server to the
next. -/
def Linked (codec : Codec V) (env : ℕ → Tick schema) (t : Tx Unit)
    (s : TxState schema Unit ι × World schema Unit ι) (call : StoreCall V ι)
    (s' : TxState schema Unit ι × World schema Unit ι) : Prop :=
  CallSpec codec env t s.1 call s'.1 ∧ call.before = s.2 ∧ call.after = s'.2

/-- The state of a transaction that has just been begun. -/
def freshTx (c : ι) (e : Tick schema) : TxState schema Unit ι := ⟨(), c, e.env, [], [], false⟩

/-- How a caller runs: it makes its calls one after the other inside one
transaction, which is then ended once. -/
theorem solo_inTx (codec : Codec V) (script : Script V) (c : ι) (env : ℕ → Tick schema)
    (hidle : w.Idle) (hbegin : (env w.hist.length).fault = none) :
    ∃ calls out₁ w₁ y out w', callsInTx codec script c env w = some (calls, out₁, w₁) ∧
      Chained (Linked codec env ⟨(), w.next⟩)
        (freshTx c (env w.hist.length), begun w c (env w.hist.length) ()) calls (y, w₁) ∧
      Writing ⟨(), w.next⟩ y w₁ ∧ (inTx codec script).solo c env w = some (out, w') ∧
      Ends c (env w₁.hist.length) ⟨(), w.next⟩ y w₁ out₁ out w' := by
  have hstart : Writing ⟨(), w.next⟩ (freshTx c (env w.hist.length))
      (begun w c (env w.hist.length) ()) := ⟨⟨sole_begun hidle c _ (), by simp [freshTx]⟩, [], rfl⟩
  obtain ⟨calls, out₁, w₁, ⟨y, w₂⟩, hcalls, ⟨hy, rfl⟩, hchain⟩ :=
    Prog.calls_spec c env (Request.code codec (contextWithTx .background ⟨(), w.next⟩))
      (x := (freshTx c (env w.hist.length), begun w c (env w.hist.length) ()))
      (P := fun s w' => Writing ⟨(), w.next⟩ s.1 w' ∧ s.2 = w')
      (Q := Linked codec env ⟨(), w.next⟩)
      (fun q s w₁ hs => by
        obtain ⟨r, w', y, hsolo, hy, hspec⟩ := request_spec codec c env
          (contextWithTx_tx .background ⟨(), w.next⟩) q hs.1
        exact ⟨r, w', (y, w'), hsolo, ⟨hy, rfl⟩, hspec, hs.2.symm, rfl⟩)
      script ⟨hstart, rfl⟩
  obtain ⟨out, w', hend, hends⟩ := solo_endTx c env hy.toSole out₁
  refine ⟨calls, out₁, w₂, y, out, w', ?_, hchain, hy, ?_, hends⟩
  · simp [callsInTx, hbegin, hcalls]
  · have hfn : (script.handle (Request.code codec (contextWithTx .background ⟨(), w.next⟩))).solo
        c env (begun w c (env w.hist.length) ()) = some (out₁, w₂) := by
      rw [Prog.solo_handle, hcalls]
      rfl
    rw [inTx, solo_withTx_begun () hbegin hfn, hend]

end Spec

end Gkit.EventStore
