import Gkit.EventStore.Alone

/-!
# Concurrent appends

Any number of clients, each with one top-level `Append`, take their steps in
any order; a client may crash between two steps and every operation may fail
from outside.  The outline below says what each client knows at each point of
`Append`: which rows it has inserted, and how the version it has read compares
with the committed one.

With `strict` the outline describes the runs in which nothing fails from outside
and no commit overtakes an append that has passed its check but inserted
nothing yet.
-/

namespace Gkit.EventStore

open Gkit.Lib Gkit.Store

variable {V ι : Type}

/-! ## The phases of an append -/

inductive Phase (V : Type) where
  | start
  | reading (tx : Tx Unit)
  | inserting (tx : Tx Unit) (base : ℤ) (docs : List Document) (rest : List (EventData V))
  | failing (tx : Tx Unit) (err : GoError)
  | returned (r : Option GoError)
  | crashed

/-- What is left of `Append` in each phase. -/
def Phase.code (codec : Codec V) (a : AppendCall V) :
    Phase V → GoProg schema Unit (Option GoError)
  | .start => append codec () .background a
  | .reading tx => (appendTx codec a (contextWithTx .background tx) tx).attempt >>= endTx tx
  | .inserting tx base docs rest =>
      (insertEvents codec tx a.streamID (base + 1 + docs.length) rest).attempt >>= endTx tx
  | .failing tx err => endTx tx (.ret (some err))
  | .returned r => .ret r
  | .crashed => .panic Lib.crashed

namespace Phase

def afterBegin : Except GoError (Tx Unit) → Phase V
  | .error err => .returned (some (.wrapping "store: begin tx" err))
  | .ok tx => .reading tx

def afterRead (a : AppendCall V) (tx : Tx Unit) : Except GoError ℤ → Phase V
  | .error err => .failing tx (.wrapping ("eventstore: read version " ++ quote a.streamID) err)
  | .ok v =>
      match checkVersion a.streamID v a.expectedVersion with
      | some err => .failing tx err
      | none => .inserting tx v [] a.events

def afterInsert (tx : Tx Unit) (base : ℤ) (docs : List Document) (ed : EventData V)
    (doc : Document) (rest : List (EventData V)) : Except GoError Unit → Phase V
  | .error err => .failing tx (.wrapping ("eventstore: insert event " ++ quote ed.type ++
      " v" ++ toString (base + 1 + (docs.length : ℤ))) err)
  | .ok _ => .inserting tx base (docs ++ [doc]) rest

def afterCommit : Except GoError Unit → Phase V
  | .error err => .returned (some (.wrapping "store: commit" err))
  | .ok _ => .returned none

variable {codec : Codec V} {a : AppendCall V}

theorem code_start (h : a.events ≠ []) :
    Phase.code codec a .start = .op (.begin ()) fun r => code codec a (afterBegin r) := by
  simp only [Phase.code, append, List.isEmpty_iff, h, if_false]
  rw [withTx_outermost () background_tx]
  refine congrArg (Prog.op _) (funext fun r => ?_)
  cases r <;> rfl

theorem code_start_nil (h : a.events = []) :
    Phase.code codec a .start = code codec a (.returned none) := by
  simp [Phase.code, append, h]

theorem code_reading (tx : Tx Unit) :
    Phase.code codec a (.reading tx) =
      .op (.exec tx (.maxVersion a.streamID)) fun r => code codec a (afterRead a tx r) := by
  simp only [Phase.code, appendTx_eq, Prog.attempt_op, Prog.op_bind]
  refine congrArg (Prog.op _) (funext fun r => ?_)
  cases r with
  | error err => rfl
  | ok v =>
      change ℤ at v
      cases hcheck : checkVersion a.streamID v a.expectedVersion <;>
        simp [afterRead, hcheck]

theorem code_inserting_nil (tx : Tx Unit) (base : ℤ) (docs : List Document) :
    Phase.code codec a (.inserting tx base docs []) =
      .op (.commit tx) fun r => code codec a (afterCommit r) := by
  simp only [Phase.code, insertEvents, Prog.pure_eq, Prog.attempt_ret, Prog.ret_bind, endTx_nil]
  refine congrArg (Prog.op _) (funext fun r => ?_)
  cases r <;> rfl

theorem code_inserting_error {ed : EventData V} {err : GoError}
    (h : marshalEvent codec ed = .error err) (tx : Tx Unit) (base : ℤ) (docs : List Document)
    (rest : List (EventData V)) :
    Phase.code codec a (.inserting tx base docs (ed :: rest)) = code codec a (.failing tx err) := by
  simp [Phase.code, insertEvents, h]

theorem code_inserting_cons {ed : EventData V} {doc : Document}
    (h : marshalEvent codec ed = .ok doc) (tx : Tx Unit) (base : ℤ) (docs : List Document)
    (rest : List (EventData V)) :
    Phase.code codec a (.inserting tx base docs (ed :: rest)) =
      .op (.exec tx (.insertEvent a.streamID (base + 1 + docs.length) doc.type doc.data
        doc.metadata)) fun r => code codec a (afterInsert tx base docs ed doc rest r) := by
  simp only [Phase.code, insertEvents_cons h, Prog.attempt_op, Prog.op_bind]
  refine congrArg (Prog.op _) (funext fun r => ?_)
  cases r with
  | error err => rfl
  | ok u => simp [afterInsert, add_assoc]

end Phase

/-! ## What a client knows -/

/-- The error that callers reload and retry on. -/
def Retryable (a : AppendCall V) (err : GoError) : Prop :=
  err.is errVersionConflict = true ∧ a.expectedVersion ≠ expectedVersionAny

theorem retryable_of_checkVersion {a : AppendCall V} {cur : ℤ} {err : GoError}
    (h : checkVersion a.streamID cur a.expectedVersion = some err) : Retryable a err := by
  simp only [checkVersion] at h
  split at h
  · rename_i hnew
    split at h
    · cases h
      exact ⟨GoError.wrap_is _ (GoError.is_self _), by rw [hnew]; decide⟩
    · cases h
  · split at h
    · cases h
    · rename_i hany
      split at h
      · cases h
        exact ⟨GoError.wrap_is _ (GoError.is_self _), hany⟩
      · cases h

/-- The state of an append that has read `base` and inserted `docs`. -/
structure Inserting (codec : Codec V) (a : AppendCall V) (strict : Prop) (base : ℤ)
    (docs : List Document) (rest : List (EventData V)) (x : TxState schema Unit ι)
    (rows : List Event) : Prop where
  log : x.log = (rowsAt a.streamID x.started (base + 1) docs).map .event
  events : ∃ done, a.events = done ++ rest ∧ Marshals codec done docs
  next : ∀ ed ∈ rest.head?, ∃ doc, marshalEvent codec ed = .ok doc
  check : checkVersion a.streamID base a.expectedVersion = none
  neg_one_le : -1 ≤ base
  le : base ≤ maxVersion a.streamID rows
  /-- The version cannot move once the first row is in. -/
  eq : docs ≠ [] ∨ strict → base = maxVersion a.streamID rows

/-- The client has this transaction open and has not committed. -/
structure Holds (c : ι) (tx : Tx Unit) (x : TxState schema Unit ι)
    (w : World schema Unit ι) : Prop where
  open_ : w.txs tx.id = some x
  owner : x.owner = c
  uncommitted : c ∉ World.commits w.hist

def Phase.Local (codec : Codec V) (req : ι → AppendCall V) (strict : Prop) (c : ι) :
    Phase V → World schema Unit ι → Prop
  | .start, w => c ∉ World.commits w.hist
  | .reading tx, w => (req c).events ≠ [] ∧
      ∃ x, Holds c tx x w ∧ x.aborted = false ∧ x.log = []
  | .inserting tx base docs rest, w => (req c).events ≠ [] ∧
      ∃ x, Holds c tx x w ∧ x.aborted = false ∧
        Inserting codec (req c) strict base docs rest x (w.committed ()).events
  | .failing tx err, w => (∃ x, Holds c tx x w) ∧ (strict → Retryable (req c) err)
  | .returned r, w => (c ∈ World.commits w.hist ↔ r = none ∧ (req c).events ≠ []) ∧
      (strict → ∀ err, r = some err → Retryable (req c) err)
  | .crashed, w => c ∉ World.commits w.hist ∧ ¬strict

/-- The committed log is that of the committed appends, one after the other. -/
structure Ordered (codec : Codec V) (req : ι → AppendCall V) (w : World schema Unit ι) : Prop where
  wf : w.WF
  snapshots : (w.committed ()).snapshots = []
  nodup : (World.commits w.hist).Nodup
  serial : ∃ cs : List (ι × ℤ), cs.map Prod.fst = World.commits w.hist ∧
    Serial codec req cs (w.committed ()).events

def outline (codec : Codec V) (req : ι → AppendCall V) (strict : Prop) :
    Outline schema Unit ι (Option GoError) where
  Phase := Phase V
  code := fun c => Phase.code codec (req c)
  Global := Ordered codec req
  Local := Phase.Local codec req strict

/-- The clients before their first step, on an empty database. -/
def appends (codec : Codec V) (req : ι → AppendCall V) : Sys schema Unit ι (Option GoError) :=
  ⟨emptyDB, fun c => append codec () .background (req c)⟩

theorem outline_initial (codec : Codec V) (req : ι → AppendCall V) (strict : Prop) :
    (outline codec req strict).Inv (appends codec req) := by
  refine ⟨⟨World.WF.initial _, rfl, List.nodup_nil, [], rfl, .nil⟩, fun c => ⟨.start, rfl, ?_⟩⟩
  exact List.not_mem_nil

/-! ## Conditions on the steps -/

/-- The next operation of the client is its first insert. -/
def aboutToInsert (s : Sys schema Unit ι (Option GoError)) (b : ι) : Bool :=
  match s.prog b with
  | .op (.exec tx (.insertEvent ..)) _ => (s.world.txs tx.id).any fun x => x.log.isEmpty
  | _ => false

/-- The next operation of the client is its commit. -/
def aboutToCommit (s : Sys schema Unit ι (Option GoError)) (c : ι) : Bool :=
  match s.prog c with
  | .op (.commit _) _ => true
  | _ => false

/-- The step does not commit past an append to the same stream that has passed
its version check and is about to insert. -/
def NoOvertaking (req : ι → AppendCall V) (s : Sys schema Unit ι (Option GoError)) (c : ι) : Prop :=
  aboutToCommit s c = true → ∀ b, b ≠ c → (req b).streamID = (req c).streamID →
    aboutToInsert s b = false

/-- No crash, no outside failure, no overtaking. -/
def Undisturbed (req : ι → AppendCall V) (s : Sys schema Unit ι (Option GoError)) :
    Action schema ι → Prop
  | .step c e => e.fault = none ∧ NoOvertaking req s c
  | .crash _ => False

instance [Fintype ι] [DecidableEq ι] (req : ι → AppendCall V)
    (s : Sys schema Unit ι (Option GoError)) :
    ∀ x, Decidable (Undisturbed req s x)
  | .step c e => inferInstanceAs (Decidable (e.fault = none ∧
      (aboutToCommit s c = true → ∀ b, b ≠ c → (req b).streamID = (req c).streamID →
        aboutToInsert s b = false)))
  | .crash _ => inferInstanceAs (Decidable False)

/-! ## Steps that commit nothing -/

section Steps

variable {codec : Codec V} {req : ι → AppendCall V} {strict : Prop}
  {w w' : World schema Unit ι} {c : ι} {e : Tick schema}

theorem Ordered.of_same (hG : Ordered codec req w) (hwf : w'.WF)
    (hcom : w'.committed () = w.committed ())
    (hlist : World.commits w'.hist = World.commits w.hist) : Ordered codec req w' where
  wf := hwf
  snapshots := hcom ▸ hG.snapshots
  nodup := hlist ▸ hG.nodup
  serial := by rw [hcom, hlist]; exact hG.serial

theorem Holds.set {tx : Tx Unit} {x : TxState schema Unit ι} (h : Holds c tx x w)
    {o : Op schema Unit} {r : o.Res}
    (hno : World.commits [(⟨c, o, r⟩ : Entry schema Unit ι)] = []) (l : List Write)
    (ks : List Key) (b : Bool) :
    Holds c tx { x with log := l, locks := ks, aborted := b }
      ((w.setTx tx.id (some { x with log := l, locks := ks, aborted := b })).record c o r) where
  open_ := by simp
  owner := h.owner
  uncommitted := by simpa [hno] using h.uncommitted

/-- After a version has been read and checked, or a row inserted, the client
goes on to insert, or gives up if its next event does not marshal. -/
theorem Inserting.enter {tx : Tx Unit} {base : ℤ} {docs : List Document}
    {done rest : List (EventData V)} {x : TxState schema Unit ι}
    (hmarshal : strict → ∀ ed ∈ (req c).events, ∃ doc, marshalEvent codec ed = .ok doc)
    (hne : (req c).events ≠ []) (hx : Holds c tx x w) (ha : x.aborted = false)
    (hlog : x.log = (rowsAt (req c).streamID x.started (base + 1) docs).map .event)
    (hevents : (req c).events = done ++ rest) (hdone : Marshals codec done docs)
    (hcheck : checkVersion (req c).streamID base (req c).expectedVersion = none)
    (hneg : -1 ≤ base) (hle : base ≤ maxVersion (req c).streamID (w.committed ()).events)
    (heq : docs ≠ [] ∨ strict → base = maxVersion (req c).streamID (w.committed ()).events) :
    ∃ q, Phase.code codec (req c) (.inserting tx base docs rest) = Phase.code codec (req c) q ∧
      Phase.Local codec req strict c q w := by
  by_cases hnext : ∀ ed ∈ rest.head?, ∃ doc, marshalEvent codec ed = .ok doc
  · exact ⟨.inserting tx base docs rest, rfl, hne, x, hx, ha,
      ⟨hlog, ⟨done, hevents, hdone⟩, hnext, hcheck, hneg, hle, heq⟩⟩
  · push Not at hnext
    obtain ⟨ed, hed, hbad⟩ := hnext
    obtain ⟨tail, rfl⟩ : ∃ tail, rest = ed :: tail := by
      cases rest with
      | nil => simp at hed
      | cons ed' tail =>
          obtain rfl : ed' = ed := by simpa using hed
          exact ⟨tail, rfl⟩
    cases herr : marshalEvent codec ed with
    | ok doc => exact absurd herr (hbad doc)
    | error err =>
        refine ⟨.failing tx err, Phase.code_inserting_error herr _ _ _ _, ⟨x, hx⟩, fun hs => ?_⟩
        obtain ⟨doc, hdoc⟩ := hmarshal hs ed (by simp [hevents])
        exact absurd hdoc (hbad doc)

/-- What a step other than a commit leaves as it was. -/
structure Silent (w w' : World schema Unit ι) : Prop where
  committed : w'.committed () = w.committed ()
  commits : World.commits w'.hist = World.commits w.hist

theorem start_step (hL : c ∉ World.commits w.hist) (hne : (req c).events ≠ [])
    (hf : strict → e.fault = none) {r : Except GoError (Tx Unit)}
    (h : w.exec c e (.begin ()) = some (r, w')) :
    Silent w w' ∧ ∃ q, Phase.code codec (req c) (.afterBegin r) = Phase.code codec (req c) q ∧
      Phase.Local codec req strict c q w' := by
  rcases World.exec_begin_cases h with ⟨err, he, rfl, rfl⟩ | ⟨he, rfl, rfl⟩
  · refine ⟨⟨rfl, by simp⟩, .returned _, rfl, ?_, fun hs => ?_⟩
    · simpa using hL
    · simp [hf hs] at he
  · refine ⟨⟨rfl, by simp⟩, .reading ⟨(), w.next⟩, rfl, hne,
      ⟨(), c, e.env, [], [], false⟩, ⟨by simp, rfl, ?_⟩, rfl, rfl⟩
    simpa using hL

theorem reading_step (hG : Ordered codec req w) {tx : Tx Unit}
    (hmarshal : strict → ∀ ed ∈ (req c).events, ∃ doc, marshalEvent codec ed = .ok doc)
    (hL : Phase.Local codec req strict c (.reading tx) w) (hf : strict → e.fault = none)
    {r : Except GoError ℤ}
    (h : w.exec c e (.exec tx (.maxVersion (req c).streamID)) = some (r, w')) :
    Silent w w' ∧ ∃ q,
      Phase.code codec (req c) (.afterRead (req c) tx r) = Phase.code codec (req c) q ∧
      Phase.Local codec req strict c q w' := by
  obtain ⟨hne, x, hx, ha, hlog⟩ := hL
  rcases World.exec_exec_cases h hx.open_ ha with ⟨err, hwhy, rfl, rfl⟩ |
    ⟨v, ws, ks, he, hrun, rfl, rfl⟩
  · refine ⟨⟨rfl, by simp⟩, .failing tx _, rfl, ⟨_, hx.set rfl _ _ _⟩, ?_⟩
    rcases hwhy with he | ⟨-, hrun⟩
    · intro hs
      simp [hf hs] at he
    · cases hrun
  · have hv : v = maxVersion (req c).streamID (w.committed ()).events := by
      cases hrun
      rw [view_events [] (by simpa using hlog), List.append_nil]
    obtain ⟨rfl, rfl⟩ : ws = [] ∧ ks = [] := by
      cases hrun
      exact ⟨rfl, rfl⟩
    refine ⟨⟨rfl, by simp⟩, ?_⟩
    cases hcheck : checkVersion (req c).streamID v (req c).expectedVersion with
    | some err =>
        refine ⟨.failing tx err, by simp [Phase.afterRead, hcheck], ⟨_, hx.set rfl _ _ _⟩,
          fun _ => ?_⟩
        exact retryable_of_checkVersion hcheck
    | none =>
        obtain ⟨cs, -, hserial⟩ := hG.serial
        have hneg := hserial.gapless.neg_one_le (req c).streamID
        have hx' := hx.set (o := .exec tx (.maxVersion (req c).streamID)) (r := .ok v) rfl
          (x.log ++ []) (x.locks ++ []) x.aborted
        have hdone : Marshals codec [] [] := rfl
        obtain ⟨q, hcode, hq⟩ := Inserting.enter hmarshal hne hx' ha (by simpa [rowsAt] using hlog)
          (List.nil_append _).symm hdone hcheck (by rwa [hv]) (le_of_eq hv) (fun _ => hv)
        exact ⟨q, by simpa [Phase.afterRead, hcheck] using hcode, hq⟩

/-- The next version is free in the transaction's own view when the version it
has read is still the committed one. -/
theorem Inserting.next_notMem {a : AppendCall V} {base : ℤ} {docs : List Document}
    {rest : List (EventData V)} {x : TxState schema Unit ι}
    (hins : Inserting codec a strict base docs rest x (w.committed ()).events)
    (hgap : Gapless (w.committed ()).events)
    (heq : base = maxVersion a.streamID (w.committed ()).events) :
    base + 1 + docs.length ∉ versions a.streamID (w.view x).events := by
  rw [view_events _ hins.log, versions_append, versions_rowsAt, List.mem_append, not_or]
  constructor
  · rw [hgap.mem_versions]
    omega
  · intro hmem
    obtain ⟨i, hi, hi'⟩ := List.mem_map.mp hmem
    have := List.mem_range.mp hi
    omega

/-- An insert that goes through found the version that was read unchanged. -/
theorem Inserting.eq_of_notMem {a : AppendCall V} {base : ℤ} {docs : List Document}
    {rest : List (EventData V)} {x : TxState schema Unit ι}
    (hins : Inserting codec a strict base docs rest x (w.committed ()).events)
    (hgap : Gapless (w.committed ()).events)
    (hnot : base + 1 + docs.length ∉ versions a.streamID (w.view x).events) :
    base = maxVersion a.streamID (w.committed ()).events := by
  by_cases hdocs : docs = []
  · rw [view_events _ hins.log, versions_append, List.mem_append, not_or, hgap.mem_versions] at hnot
    have hnot := hnot.1
    have hneg := hins.neg_one_le
    have hle := hins.le
    simp only [hdocs, List.length_nil, Nat.cast_zero, add_zero] at hnot
    omega
  · exact hins.eq (.inl hdocs)

theorem inserting_step (hG : Ordered codec req w) {tx : Tx Unit} {base : ℤ}
    {docs : List Document} {ed : EventData V} {doc : Document} {rest : List (EventData V)}
    (hmarshal : strict → ∀ ed ∈ (req c).events, ∃ doc, marshalEvent codec ed = .ok doc)
    (hdoc : marshalEvent codec ed = .ok doc)
    (hL : Phase.Local codec req strict c (.inserting tx base docs (ed :: rest)) w)
    (hf : strict → e.fault = none) {r : Except GoError Unit}
    (h : w.exec c e (.exec tx (.insertEvent (req c).streamID (base + 1 + docs.length) doc.type
      doc.data doc.metadata)) = some (r, w')) :
    Silent w w' ∧ ∃ q, Phase.code codec (req c) (.afterInsert tx base docs ed doc rest r) =
        Phase.code codec (req c) q ∧
      Phase.Local codec req strict c q w' := by
  obtain ⟨hne, x, hx, ha, hins⟩ := hL
  obtain ⟨cs, -, hserial⟩ := hG.serial
  have hgap := hserial.gapless
  rcases World.exec_exec_cases h hx.open_ ha with
    ⟨err, hwhy, rfl, rfl⟩ | ⟨u, ws, ks, he, hrun, rfl, rfl⟩
  · refine ⟨⟨rfl, by simp⟩, .failing tx _, rfl, ⟨_, hx.set rfl _ _ _⟩, fun hs => ?_⟩
    rcases hwhy with he | ⟨-, hrun⟩
    · simp [hf hs] at he
    · have hfree := hins.next_notMem hgap (hins.eq (.inr hs))
      simp only [Stmt.run, hfree, if_false] at hrun
      split at hrun <;> cases hrun
  · have hfree : base + 1 + docs.length ∉ versions (req c).streamID (w.view x).events := by
      intro hmem
      simp [Stmt.run, hmem] at hrun
    have hws : ws = [.event ⟨(req c).streamID, base + 1 + docs.length, doc.type, doc.data,
        doc.metadata, x.started⟩] := by
      simp only [Stmt.run, hfree, if_false] at hrun
      split at hrun
      · cases hrun
      · cases hrun
        rfl
    have heq := hins.eq_of_notMem hgap hfree
    have hlog : x.log ++ ws =
        (rowsAt (req c).streamID x.started (base + 1) (docs ++ [doc])).map .event := by
      rw [rowsAt_append, List.map_append, ← hins.log, hws]
      rfl
    obtain ⟨done, hevents, hdone⟩ := hins.events
    have hevents' : (req c).events = (done ++ [ed]) ++ rest := by simp [hevents]
    have hdone' : Marshals codec (done ++ [ed]) (docs ++ [doc]) := by
      simp only [Marshals, List.map_append] at hdone ⊢
      rw [hdone]
      simp [hdoc]
    have hx' := hx.set (o := .exec tx (.insertEvent (req c).streamID (base + 1 + docs.length)
      doc.type doc.data doc.metadata)) (r := .ok u) rfl (x.log ++ ws) (x.locks ++ ks) x.aborted
    obtain ⟨q, hcode, hq⟩ := Inserting.enter hmarshal hne hx' ha hlog hevents' hdone'
      hins.check hins.neg_one_le (le_of_eq heq) fun _ => heq
    exact ⟨⟨rfl, by simp⟩, q, hcode, hq⟩

/-! ## The commit -/

/-- Before its commit an append has inserted all its events, and nobody else
has moved its stream. -/
theorem Inserting.complete {a : AppendCall V} {base : ℤ} {docs : List Document}
    {x : TxState schema Unit ι} {rows : List Event}
    (hins : Inserting codec a strict base docs [] x rows) (hne : a.events ≠ []) :
    Marshals codec a.events docs ∧ docs ≠ [] ∧ base = maxVersion a.streamID rows := by
  obtain ⟨done, hevents, hdone⟩ := hins.events
  rw [List.append_nil] at hevents
  have hdocs : docs ≠ [] := by
    intro hnil
    have hlen := hdone.length_eq
    rw [hnil, ← hevents, List.length_nil, List.length_eq_zero_iff] at hlen
    exact hne hlen
  exact ⟨hevents ▸ hdone, hdocs, hins.eq (.inl hdocs)⟩

/-- The transaction holds the key of the first row it has inserted. -/
theorem Inserting.key_mem {tx : Tx Unit} {a : AppendCall V} {base : ℤ} {docs : List Document}
    {rest : List (EventData V)} {x : TxState schema Unit ι} {rows : List Event} (hwf : w.WF)
    (hx : w.txs tx.id = some x) (hins : Inserting codec a strict base docs rest x rows)
    (hdocs : docs ≠ []) : Key.event a.streamID (base + 1) ∈ x.locks := by
  obtain ⟨doc, docs', rfl⟩ := List.exists_cons_of_ne_nil hdocs
  exact hwf.owned hx (.event ⟨a.streamID, base + 1, doc.type, doc.data, doc.metadata, x.started⟩)
    (by simp [hins.log, rowsAt])

/-- Two clients that have both inserted on one stream from the same version
would hold the same key. -/
theorem Inserting.docs_eq_nil {b : ι} (hb : b ≠ c) {tx ty : Tx Unit} {base base' : ℤ}
    {docs docs' : List Document} {rest rest' : List (EventData V)}
    {x y : TxState schema Unit ι} {rows : List Event} (hwf : w.WF)
    (hx : Holds c tx x w) (hy : Holds b ty y w)
    (hins : Inserting codec (req c) strict base docs rest x rows) (hdocs : docs ≠ [])
    (hins' : Inserting codec (req b) strict base' docs' rest' y rows)
    (hsid : (req b).streamID = (req c).streamID) : docs' = [] := by
  by_contra hdocs'
  have hkey := hins.key_mem hwf hx.open_ hdocs
  have hkey' := hins'.key_mem hwf hy.open_ hdocs'
  rw [hins.eq (.inl hdocs)] at hkey
  rw [hins'.eq (.inl hdocs'), hsid] at hkey'
  have hid := hwf.exclusive hx.open_ hy.open_ rfl hkey hkey'
  have hxy : x = y := Option.some.inj (hx.open_.symm.trans (hid ▸ hy.open_))
  exact hb (hy.owner.symm.trans (hxy ▸ hx.owner))

variable {tx : Tx Unit} {base : ℤ} {docs : List Document} {x : TxState schema Unit ι}

theorem committed_settle_events (tx : Tx Unit) {rows : List Event} (h : x.log = rows.map .event) :
    (w.settle tx.id x).committed () =
      { w.committed () with events := (w.committed ()).events ++ rows } := by
  rw [World.committed_settle w tx.id x, World.view, h]
  exact foldl_events _ rows

theorem Ordered.commit (hG : Ordered codec req w) (hne : (req c).events ≠ [])
    (hx : Holds c tx x w) (hwf : ((w.settle tx.id x).record c (.commit tx) (.ok ())).WF)
    (hins : Inserting codec (req c) strict base docs [] x (w.committed ()).events) :
    Ordered codec req ((w.settle tx.id x).record c (.commit tx) (.ok ())) := by
  obtain ⟨hdone, -, heq⟩ := hins.complete hne
  obtain ⟨cs, hcs, hserial⟩ := hG.serial
  have hcom := committed_settle_events (w := w) tx hins.log
  refine ⟨hwf, by rw [World.committed_record, hcom]; exact hG.snapshots, ?_,
    cs ++ [(c, x.started)], ?_, ?_⟩
  · simp only [World.record_hist, World.settle_hist, World.commits_append, World.commits_commit_ok]
    refine hG.nodup.append (List.nodup_singleton c) ?_
    simpa using hx.uncommitted
  · simp [hcs]
  · rw [World.committed_record, hcom, heq]
    exact .snoc c x.started hserial hne (heq ▸ hins.check) hdone

/-- A commit on the stream of a client that has only read leaves that client's
version behind; on any other stream it changes nothing for it. -/
theorem Inserting.after_commit {b : ι} (hb : b ≠ c) {ty : Tx Unit} {base' : ℤ}
    {docs' : List Document} {rest' : List (EventData V)} {y : TxState schema Unit ι}
    (hG : Ordered codec req w) (hx : Holds c tx x w) (hne : (req c).events ≠ [])
    (hins : Inserting codec (req c) strict base docs [] x (w.committed ()).events)
    (hy : Holds b ty y w)
    (hins' : Inserting codec (req b) strict base' docs' rest' y (w.committed ()).events)
    (hover : strict → (req b).streamID = (req c).streamID → docs' ≠ []) :
    Inserting codec (req b) strict base' docs' rest' y
      ((w.settle tx.id x).committed ()).events := by
  obtain ⟨-, hdocs, heq⟩ := hins.complete hne
  obtain ⟨cs, -, hserial⟩ := hG.serial
  rw [committed_settle_events tx hins.log]
  by_cases hsid : (req b).streamID = (req c).streamID
  · have hnil := Inserting.docs_eq_nil hb hG.wf hx hy hins hdocs hins' hsid
    have hmax : maxVersion (req b).streamID (w.committed ()).events ≤
        maxVersion (req b).streamID ((w.committed ()).events ++
          rowsAt (req c).streamID x.started (base + 1) docs) := by
      rw [hsid, heq, hserial.gapless.maxVersion_append]
      omega
    refine { hins' with le := hins'.le.trans hmax, eq := ?_ }
    rintro (hdocs' | hs)
    · exact absurd hnil hdocs'
    · exact absurd hnil (hover hs hsid)
  · have hmax := maxVersion_append_ne hsid (w.committed ()).events x.started (base + 1) docs
    exact { hins' with le := hmax ▸ hins'.le, eq := hmax ▸ hins'.eq }

/-! ## No interference -/

variable [DecidableEq ι]

theorem Holds.untouched {b : ι} {tx : Tx Unit} {x : TxState schema Unit ι} (h : Holds b tx x w)
    (hu : World.Untouched b w w') : Holds b tx x w' where
  open_ := (hu.txs h.owner).mpr h.open_
  owner := h.owner
  uncommitted := fun hmem => h.uncommitted (hu.mem_commits.mp hmem)

/-- A client's assertion depends on its own transactions, its own history and,
while it inserts, on the committed rows. -/
theorem Phase.Local.transfer {b : ι} {q : Phase V} (h : Phase.Local codec req strict b q w)
    (hu : World.Untouched b w w')
    (hrows : ∀ tx base docs rest x, q = .inserting tx base docs rest → Holds b tx x w →
      Inserting codec (req b) strict base docs rest x (w.committed ()).events →
      Inserting codec (req b) strict base docs rest x (w'.committed ()).events) :
    Phase.Local codec req strict b q w' := by
  cases q with
  | start => exact fun hmem => h (hu.mem_commits.mp hmem)
  | reading tx =>
      obtain ⟨hne, x, hx, hrest⟩ := h
      exact ⟨hne, x, hx.untouched hu, hrest⟩
  | inserting tx base docs rest =>
      obtain ⟨hne, x, hx, ha, hins⟩ := h
      exact ⟨hne, x, hx.untouched hu, ha, hrows tx base docs rest x rfl hx hins⟩
  | failing tx err =>
      obtain ⟨⟨x, hx⟩, hretry⟩ := h
      exact ⟨⟨x, hx.untouched hu⟩, hretry⟩
  | returned r => exact ⟨hu.mem_commits.trans h.1, h.2⟩
  | crashed => exact ⟨fun hmem => h.1 (hu.mem_commits.mp hmem), h.2⟩

theorem Silent.sound (hG : Ordered codec req w) {o : Op schema Unit} {r : o.Res}
    (h : w.exec c e o = some (r, w'))
    (hown : ∀ i x, o.target = some i → w.txs i = some x → x.owner = c) (hsil : Silent w w') :
    Ordered codec req w' ∧ ∀ b q, b ≠ c → Phase.Local codec req strict b q w →
      Phase.Local codec req strict b q w' :=
  ⟨hG.of_same (hG.wf.exec h) hsil.committed hsil.commits,
    fun _ _ hb hL => hL.transfer (hG.wf.untouched h hown hb)
      fun _ _ _ _ _ _ _ hins => hsil.committed ▸ hins⟩

theorem commit_step (hG : Ordered codec req w) (hne : (req c).events ≠ [])
    (hx : Holds c tx x w) (ha : x.aborted = false)
    (hins : Inserting codec (req c) strict base docs [] x (w.committed ()).events)
    (hf : strict → e.fault = none) {r : Except GoError Unit}
    (h : w.exec c e (.commit tx) = some (r, w')) :
    Ordered codec req w' ∧
      (∃ q, Phase.code codec (req c) (.afterCommit r) = Phase.code codec (req c) q ∧
        Phase.Local codec req strict c q w') ∧
      ∀ b q, b ≠ c → (∀ ty base' docs' rest', q = .inserting ty base' docs' rest' → strict →
        (req b).streamID = (req c).streamID → docs' ≠ []) →
        Phase.Local codec req strict b q w → Phase.Local codec req strict b q w' := by
  have hown : ∀ i y, (Op.commit tx : Op schema Unit).target = some i → w.txs i = some y →
      y.owner = c := World.owner_of_target hx.open_ hx.owner rfl
  rcases World.exec_commit_cases h hx.open_ ha with ⟨err, he, rfl, rfl⟩ | ⟨-, rfl, rfl⟩
  · obtain ⟨hG', hothers⟩ := Silent.sound hG h hown ⟨rfl, by simp⟩
    refine ⟨hG', ⟨.returned _, rfl, ?_, fun hs => ?_⟩, fun b q hb _ => hothers b q hb⟩
    · simpa using hx.uncommitted
    · simp [hf hs] at he
  · refine ⟨hG.commit hne hx (hG.wf.exec h) hins, ⟨.returned none, rfl, by simpa using hne,
      fun _ err herr => nomatch herr⟩, fun b q hb hover hL => ?_⟩
    refine hL.transfer (hG.wf.untouched h hown hb) ?_
    intro ty base' docs' rest' y hq hy hins'
    rw [World.committed_record]
    exact hins.after_commit hb hG hx hne hy hins' (hover ty base' docs' rest' hq)

end Steps

/-! ## Soundness -/

section Soundness

variable {codec : Codec V} {req : ι → AppendCall V} {strict : Prop}

/-- The phases in which a client has ended. -/
theorem Phase.Local.ended_cases {w : World schema Unit ι} {c : ι} {p : Phase V}
    (h : Phase.Local codec req strict c p w) {out : Outcome (Option GoError)}
    (hout : (Phase.code codec (req c) p).ended = some out) :
    (p = .start ∧ (req c).events = [] ∧ out = .ret none) ∨
      (∃ r, p = .returned r ∧ out = .ret r) ∨ p = .crashed := by
  cases p with
  | start =>
      by_cases hne : (req c).events = []
      · rw [Phase.code_start_nil hne] at hout
        exact .inl ⟨rfl, hne, (Option.some.inj hout).symm⟩
      · rw [Phase.code_start hne] at hout
        exact nomatch hout
  | reading tx =>
      rw [Phase.code_reading] at hout
      exact nomatch hout
  | inserting tx base docs rest =>
      obtain ⟨-, x, -, -, hins⟩ := h
      cases rest with
      | nil =>
          rw [Phase.code_inserting_nil] at hout
          exact nomatch hout
      | cons ed rest =>
          obtain ⟨doc, hdoc⟩ := hins.next ed rfl
          rw [Phase.code_inserting_cons hdoc] at hout
          exact nomatch hout
  | failing tx err => exact nomatch hout
  | returned r => exact .inr (.inl ⟨r, rfl, (Option.some.inj hout).symm⟩)
  | crashed => exact .inr (.inr rfl)

/-- The phases in which a client has an operation to perform. -/
theorem Phase.Local.op_cases {w : World schema Unit ι} {c : ι} {p : Phase V}
    {o : Op schema Unit} {k : o.Res → GoProg schema Unit (Option GoError)}
    (h : Phase.Local codec req strict c p w) (hop : Phase.code codec (req c) p = .op o k) :
    (p = .start ∧ o = .begin ()) ∨
      (∃ tx, p = .reading tx ∧ o = .exec tx (.maxVersion (req c).streamID)) ∨
      (∃ tx base docs, p = .inserting tx base docs [] ∧ o = .commit tx) ∨
      (∃ tx base docs ed doc rest, p = .inserting tx base docs (ed :: rest) ∧
        marshalEvent codec ed = .ok doc ∧ o = .exec tx (.insertEvent (req c).streamID
          (base + 1 + docs.length) doc.type doc.data doc.metadata)) ∨
      ∃ tx err, p = .failing tx err ∧ o = .rollback tx := by
  cases p with
  | start =>
      by_cases hne : (req c).events = []
      · rw [Phase.code_start_nil hne] at hop
        cases hop
      · rw [Phase.code_start hne] at hop
        cases hop
        exact .inl ⟨rfl, rfl⟩
  | reading tx =>
      rw [Phase.code_reading] at hop
      cases hop
      exact .inr (.inl ⟨tx, rfl, rfl⟩)
  | inserting tx base docs rest =>
      obtain ⟨-, x, -, -, hins⟩ := h
      cases rest with
      | nil =>
          rw [Phase.code_inserting_nil] at hop
          cases hop
          exact .inr (.inr (.inl ⟨tx, base, docs, rfl, rfl⟩))
      | cons ed rest =>
          obtain ⟨doc, hdoc⟩ := hins.next ed rfl
          rw [Phase.code_inserting_cons hdoc] at hop
          cases hop
          exact .inr (.inr (.inr (.inl ⟨tx, base, docs, ed, doc, rest, rfl, hdoc, rfl⟩)))
  | failing tx err =>
      cases hop
      exact .inr (.inr (.inr (.inr ⟨tx, err, rfl, rfl⟩)))
  | returned r => cases hop
  | crashed => cases hop

theorem Phase.Local.uncommitted {w : World schema Unit ι} {c : ι} {p : Phase V}
    {o : Op schema Unit} {k : o.Res → GoProg schema Unit (Option GoError)}
    (h : Phase.Local codec req strict c p w) (hcode : Phase.code codec (req c) p = .op o k) :
    c ∉ World.commits w.hist := by
  rcases h.op_cases hcode with ⟨rfl, -⟩ | ⟨tx, rfl, -⟩ | ⟨tx, base, docs, rfl, -⟩ |
    ⟨tx, base, docs, ed, doc, rest, rfl, -⟩ | ⟨tx, err, rfl, -⟩
  · exact h
  · obtain ⟨-, x, hx, -⟩ := h
    exact hx.uncommitted
  · obtain ⟨-, x, hx, -⟩ := h
    exact hx.uncommitted
  · obtain ⟨-, x, hx, -⟩ := h
    exact hx.uncommitted
  · obtain ⟨⟨x, hx⟩, -⟩ := h
    exact hx.uncommitted

/-- In a strict run a client on the stream of a commit has inserted something. -/
theorem docs_ne_nil_of_noOvertaking {s : Sys schema Unit ι (Option GoError)} {b c : ι}
    {tx ty : Tx Unit} {k} {base : ℤ} {docs : List Document} {rest : List (EventData V)}
    (hno : NoOvertaking req s c) (hc : s.prog c = .op (.commit tx) k) (hb : b ≠ c)
    (hsid : (req b).streamID = (req c).streamID)
    (hprog : s.prog b = Phase.code codec (req b) (.inserting ty base docs rest))
    (hL : Phase.Local codec req strict b (.inserting ty base docs rest) s.world) : docs ≠ [] := by
  rintro rfl
  obtain ⟨hne, x, hx, -, hins⟩ := hL
  obtain ⟨done, hevents, hdone⟩ := hins.events
  obtain rfl : done = [] := List.eq_nil_of_length_eq_zero hdone.length_eq
  obtain ⟨ed, rest', rfl⟩ := List.exists_cons_of_ne_nil (hevents ▸ hne)
  obtain ⟨doc, hdoc⟩ := hins.next ed rfl
  rw [Phase.code_inserting_cons hdoc] at hprog
  have hlog : x.log = [] := by simpa [rowsAt] using hins.log
  have habout := hno (by simp [aboutToCommit, hc]) b hb hsid
  simp [aboutToInsert, hprog, hx.open_, hlog] at habout

theorem outline_sound [DecidableEq ι] (codec : Codec V) (req : ι → AppendCall V)
    (hmarshal : strict → ∀ c, ∀ ed ∈ (req c).events, ∃ doc, marshalEvent codec ed = .ok doc) :
    (outline codec req strict).Sound fun s x => strict → Undisturbed req s x where
  step := by
    intro s w c e p o k r hs hA hprog hL hcode hexec
    have hG : Ordered codec req s.world := hs.1
    have hf : strict → e.fault = none := fun h => (hA h).1
    change Phase.code codec (req c) p = .op o k at hcode
    change s.prog c = Phase.code codec (req c) p at hprog
    cases p with
    | start =>
        by_cases hne : (req c).events = []
        · rw [Phase.code_start_nil hne] at hcode
          cases hcode
        · rw [Phase.code_start hne] at hcode
          cases hcode
          obtain ⟨hsil, hnext⟩ := start_step hL hne hf hexec
          obtain ⟨hG', hothers⟩ := Silent.sound hG hexec (fun _ _ ht => nomatch ht) hsil
          exact ⟨hG', hnext, fun b q hb _ => hothers b q hb⟩
    | reading tx =>
        rw [Phase.code_reading] at hcode
        cases hcode
        obtain ⟨hsil, hnext⟩ := reading_step hG (fun h => hmarshal h c) hL hf hexec
        obtain ⟨-, x, hx, -⟩ := hL
        obtain ⟨hG', hothers⟩ :=
          Silent.sound hG hexec (World.owner_of_target hx.open_ hx.owner rfl) hsil
        exact ⟨hG', hnext, fun b q hb _ => hothers b q hb⟩
    | inserting tx base docs rest =>
        obtain ⟨hne, x, hx, ha, hins⟩ := id hL
        cases rest with
        | nil =>
            rw [Phase.code_inserting_nil] at hcode hprog
            cases hcode
            obtain ⟨hG', hnext, hothers⟩ := commit_step hG hne hx ha hins hf hexec
            refine ⟨hG', hnext, fun b q hb hb' hLb => hothers b q hb ?_ hLb⟩
            -- Only a commit can overtake, so the condition on the step is used here.
            rintro ty base' docs' rest' rfl hstrict hsid
            exact docs_ne_nil_of_noOvertaking (hA hstrict).2 hprog hb hsid hb' hLb
        | cons ed rest =>
            obtain ⟨doc, hdoc⟩ := hins.next ed rfl
            rw [Phase.code_inserting_cons hdoc] at hcode
            cases hcode
            obtain ⟨hsil, hnext⟩ :=
              inserting_step hG (fun h => hmarshal h c) hdoc hL hf hexec
            obtain ⟨hG', hothers⟩ :=
              Silent.sound hG hexec (World.owner_of_target hx.open_ hx.owner rfl) hsil
            exact ⟨hG', hnext, fun b q hb _ => hothers b q hb⟩
    | failing tx err =>
        cases hcode
        obtain ⟨⟨x, hx⟩, hretry⟩ := hL
        obtain rfl := World.exec_rollback_eq hexec hx.open_
        have hsil : Silent s.world ((s.world.setTx tx.id none).record c (.rollback tx) r) :=
          ⟨rfl, by simp⟩
        obtain ⟨hG', hothers⟩ :=
          Silent.sound hG hexec (World.owner_of_target hx.open_ hx.owner rfl) hsil
        refine ⟨hG', ⟨.returned (some err), rfl, ?_, ?_⟩, fun b q hb _ => hothers b q hb⟩
        · simpa using hx.uncommitted
        · rintro hs _ ⟨⟩
          exact hretry hs
    | returned r => cases hcode
    | crashed => cases hcode
  crash := by
    intro s c p o k hs hA hL hcode
    have hG : Ordered codec req s.world := hs.1
    have hstrict : ¬strict := fun h => hA h
    refine ⟨hG.of_same (hG.wf.drop c) rfl rfl, ⟨.crashed, rfl, ?_, hstrict⟩, ?_⟩
    · exact hL.uncommitted hcode
    · intro b q hb hLb
      exact Phase.Local.transfer hLb (World.untouched_drop hb) fun _ _ _ _ _ _ _ hins => hins

end Soundness

end Gkit.EventStore
