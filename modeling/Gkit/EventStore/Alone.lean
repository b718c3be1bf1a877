import Gkit.EventStore.Serial
import Gkit.Store.Solo

/-!
# One append, alone on the server

What `Append` does to the transaction it runs in, whatever that transaction has
done before and whatever the outside does: it inserts its documents one by one
and stops at the first error.  A statement that fails leaves an aborted
transaction behind; an event that does not marshal does not.
-/

namespace Gkit.EventStore

open Gkit.Lib Gkit.Store

variable {V ι : Type}

theorem le_maxVersion {sid : String} {rows : List Event} {v : ℤ} (h : v ∈ versions sid rows) :
    v ≤ maxVersion sid rows := by
  rw [maxVersion]
  cases hmax : (versions sid rows).max? with
  | none => simp [List.max?_eq_none_iff.mp hmax] at h
  | some m => exact (List.max?_eq_some_iff.mp hmax).2 v h

theorem foldl_events (d : Tables) (rows : List Event) :
    (rows.map Write.event).foldl Tables.apply d = { d with events := d.events ++ rows } := by
  induction rows generalizing d with
  | nil => simp
  | cons r rows ih => simp [ih, Tables.apply]

theorem view_events {w : World schema Unit ι} {x : TxState schema Unit ι} (rows : List Event)
    (h : x.log = rows.map .event) :
    (w.view x).events = (w.committed ()).events ++ rows := by
  rw [World.view, h]
  exact congrArg Tables.events (foldl_events _ rows)

/-- The transaction is alone on the server and has locked no snapshot. -/
structure Working (t : Tx Unit) (x : TxState schema Unit ι) (w : World schema Unit ι) : Prop
    extends World.Sole t x w where
  snapshots : ∀ sid, Key.snapshot sid ∉ x.locks

/-- `y` is a later state of the transaction `x`, which only inserts events. -/
structure Extends (x y : TxState schema Unit ι) : Prop where
  started : y.started = x.started
  aborted : x.aborted = true → y.aborted = true
  log : ∃ rows : List Event, y.log = x.log ++ rows.map .event

theorem Extends.refl (x : TxState schema Unit ι) : Extends x x :=
  ⟨rfl, id, [], by simp⟩

theorem Extends.trans {x y z : TxState schema Unit ι} (h : Extends x y) (h' : Extends y z) :
    Extends x z := by
  obtain ⟨rows, hrows⟩ := h.log
  obtain ⟨rows', hrows'⟩ := h'.log
  exact ⟨h'.started.trans h.started, fun ha => h'.aborted (h.aborted ha), rows ++ rows',
    by rw [hrows', hrows]; simp⟩

/-- `y` is the transaction `x` with these rows inserted, and can go on. -/
structure Grown (x y : TxState schema Unit ι) (rows : List Event) : Prop where
  alive : y.aborted = false
  log : y.log = x.log ++ rows.map .event
  started : y.started = x.started

theorem Grown.refl {x : TxState schema Unit ι} (ha : x.aborted = false) : Grown x x [] :=
  ⟨ha, by simp, rfl⟩

/-- How the loop of `Append` ends that is to insert `events` from `v` on. -/
inductive Inserted (codec : Codec V) (sid : String) (v : ℤ) (events : List (EventData V))
    (x : TxState schema Unit ι) : Option GoError → TxState schema Unit ι → Prop where
  | aborted {y : TxState schema Unit ι} (err : GoError) (h : y.aborted = true) :
      Inserted codec sid v events x (some err) y
  | stopped {y : TxState schema Unit ι} {done rest : List (EventData V)} {ed : EventData V}
      {docs : List Document} (err : GoError) (hevents : events = done ++ ed :: rest)
      (hdone : Marshals codec done docs) (herr : marshalEvent codec ed = .error err)
      (h : Grown x y (rowsAt sid x.started v docs)) :
      Inserted codec sid v events x (some err) y
  | complete {y : TxState schema Unit ι} {docs : List Document}
      (hdone : Marshals codec events docs) (h : Grown x y (rowsAt sid x.started v docs)) :
      Inserted codec sid v events x none y

/-- A row at `v` in front of what the rest of the loop inserts. -/
theorem Inserted.cons {codec : Codec V} {sid : String} {v : ℤ} {ed : EventData V}
    {events : List (EventData V)} {doc : Document} {x x₁ y : TxState schema Unit ι}
    {r : Option GoError} (hdoc : marshalEvent codec ed = .ok doc)
    (hx : Grown x x₁ (rowsAt sid x.started v [doc]))
    (h : Inserted codec sid (v + 1) events x₁ r y) :
    Inserted codec sid v (ed :: events) x r y := by
  have hgrown : ∀ {docs : List Document}, Grown x₁ y (rowsAt sid x₁.started (v + 1) docs) →
      Grown x y (rowsAt sid x.started v (doc :: docs)) := by
    intro docs hy
    refine ⟨hy.alive, ?_, hy.started.trans hx.started⟩
    rw [hy.log, hx.log, hx.started]
    simp [rowsAt]
  have hmarshals : ∀ {evs : List (EventData V)} {docs : List Document},
      Marshals codec evs docs → Marshals codec (ed :: evs) (doc :: docs) := by
    intro evs docs hdocs
    simp only [Marshals, List.map_cons, hdoc] at hdocs ⊢
    rw [hdocs]
  cases h with
  | aborted err ha => exact .aborted err ha
  | stopped err hevents hdone herr hy =>
      exact .stopped err (by rw [hevents]; rfl) (hmarshals hdone) herr (hgrown hy)
  | complete hdone hy => exact .complete (hmarshals hdone) (hgrown hy)

section Solo

variable {codec : Codec V} {c : ι} {env : ℕ → Tick schema} {t : Tx Unit}

theorem solo_insertEvents (codec : Codec V) (c : ι) (env : ℕ → Tick schema) (sid : String)
    (events : List (EventData V)) {v : ℤ}
    {x : TxState schema Unit ι} {w : World schema Unit ι} (hw : Working t x w)
    (ha : x.aborted = false) (hfree : ∀ i : ℕ, v + i ∉ versions sid (w.view x).events) :
    ∃ r y w', (insertEvents codec t sid v events).solo c env w = some (.ret r, w') ∧
      World.Within w w' ∧ Working t y w' ∧ Extends x y ∧ Inserted codec sid v events x r y ∧
      ((∀ n, (env n).fault = none) → y.aborted = false) := by
  have hnil : Marshals codec [] [] := rfl
  induction events generalizing v x w with
  | nil =>
      exact ⟨none, x, w, rfl, .refl w, hw, .refl x, .complete hnil (.refl ha),
        fun _ => ha⟩
  | cons ed events ih =>
      cases hdoc : marshalEvent codec ed with
      | error err =>
          refine ⟨some err, x, w, by simp [insertEvents, hdoc], .refl w, hw, .refl x,
            .stopped err rfl hnil hdoc (.refl ha), fun _ => ha⟩
      | ok doc =>
          obtain ⟨r, w₁, hexec, hwithin, hcases⟩ := hw.toSole.exec c (env w.hist.length)
            (Stmt.insertEvent sid v doc.type doc.data doc.metadata)
          have hfree₀ : v ∉ versions sid (w.view x).events := by simpa using hfree 0
          have hrun : schema.run ⟨x.started, (env w.hist.length).env, w.hist.length⟩
              (Stmt.insertEvent sid v doc.type doc.data doc.metadata) (w.view x) (fun _ => false) =
              .done () [.event ⟨sid, v, doc.type, doc.data, doc.metadata, x.started⟩]
                [.event sid v] := by
            simp [Stmt.run, hfree₀]
          rw [insertEvents_cons hdoc, Prog.solo_op, hexec]
          rcases hcases with ⟨err, rfl, hsole, hwhy⟩ | ⟨u, ws, ks, rfl, -, -, hdone, hsole⟩
          · refine ⟨_, _, w₁, rfl, hwithin, ⟨hsole, hw.snapshots⟩, ⟨rfl, fun _ => rfl, [], by simp⟩,
              .aborted _ rfl, fun hno => ?_⟩
            rcases hwhy with ⟨hdead, -⟩ | ⟨-, he | ⟨-, hfail⟩⟩
            · exact absurd (ha.symm.trans hdead) (by simp)
            · simp [hno] at he
            · exact absurd (hrun.symm.trans hfail) (by simp)
          · rw [hrun] at hdone
            cases hdone
            set row : Event := ⟨sid, v, doc.type, doc.data, doc.metadata, x.started⟩ with hrow
            set x₁ : TxState schema Unit ι :=
              { x with log := x.log ++ [.event row], locks := x.locks ++ [.event sid v] } with hx₁
            have hview : (w₁.view x₁).events = (w.view x).events ++ [row] := by
              rw [hwithin.view]
              simp [World.view, hx₁, Tables.apply]
            have hfree₁ : ∀ i : ℕ, v + 1 + i ∉ versions sid (w₁.view x₁).events := by
              intro i
              rw [hview, versions_append, List.mem_append, not_or]
              refine ⟨?_, by simp [versions, hrow]; omega⟩
              have := hfree (i + 1)
              push_cast at this
              rwa [add_assoc, add_comm 1]
            have hw₁ : Working t x₁ w₁ := ⟨hsole, by simpa [hx₁] using hw.snapshots⟩
            have hgrown : Grown x x₁ (rowsAt sid x.started v [doc]) := ⟨ha, rfl, rfl⟩
            have hext : Extends x x₁ := ⟨rfl, id, [row], rfl⟩
            obtain ⟨r, y, w₂, hsolo, hwithin₂, hw₂, hext₂, hins, hok⟩ := ih hw₁ ha hfree₁
            exact ⟨r, y, w₂, hsolo, hwithin.trans hwithin₂, hw₂, hext.trans hext₂,
              hins.cons hdoc hgrown, hok⟩

/-- How an `Append` ends that runs in the transaction `x` and sees `rows`. -/
inductive Appended (codec : Codec V) (a : AppendCall V) (rows : List Event)
    (x : TxState schema Unit ι) : Option GoError → TxState schema Unit ι → Prop where
  | failed {y : TxState schema Unit ι} (err : GoError) (h : y.aborted = true) :
      Appended codec a rows x (some err) y
  | rejected {y : TxState schema Unit ι} (err : GoError)
      (hcheck : checkVersion a.streamID (maxVersion a.streamID rows) a.expectedVersion = some err)
      (h : Grown x y []) : Appended codec a rows x (some err) y
  | inserted {y : TxState schema Unit ι} (r : Option GoError)
      (hcheck : checkVersion a.streamID (maxVersion a.streamID rows) a.expectedVersion = none)
      (h : Inserted codec a.streamID (maxVersion a.streamID rows + 1) a.events x r y) :
      Appended codec a rows x r y

theorem solo_appendTx (codec : Codec V) (c : ι) (env : ℕ → Tick schema) (a : AppendCall V)
    (ctx : Context Unit)
    {x : TxState schema Unit ι} {w : World schema Unit ι} (hw : Working t x w) :
    ∃ r y w', (appendTx codec a ctx t).solo c env w = some (.ret r, w') ∧
      World.Within w w' ∧ Working t y w' ∧ Extends x y ∧
      Appended codec a (w.view x).events x r y ∧
      (x.aborted = false → (∀ n, (env n).fault = none) → y.aborted = false) := by
  obtain ⟨r, w₁, hexec, hwithin, hcases⟩ :=
    hw.toSole.exec c (env w.hist.length) (Stmt.maxVersion a.streamID)
  rw [appendTx_eq, Prog.solo_op, hexec]
  rcases hcases with ⟨err, rfl, hsole, hwhy⟩ | ⟨v, ws, ks, rfl, ha, -, hrun, hsole⟩
  · refine ⟨_, _, w₁, rfl, hwithin, ⟨hsole, hw.snapshots⟩, ⟨rfl, fun _ => rfl, [], by simp⟩,
      .failed _ rfl, fun ha hno => ?_⟩
    rcases hwhy with ⟨hdead, -⟩ | ⟨-, he | ⟨-, hfail⟩⟩
    · exact absurd (ha.symm.trans hdead) (by simp)
    · simp [hno] at he
    · cases hfail
  · obtain ⟨rfl, rfl, rfl⟩ : maxVersion a.streamID (w.view x).events = v ∧ ws = [] ∧ ks = [] := by
      cases hrun
      exact ⟨rfl, rfl, rfl⟩
    simp only [List.append_nil] at hsole
    have hw₁ : Working t x w₁ := ⟨hsole, hw.snapshots⟩
    simp only [Option.bind_some]
    cases hcheck : checkVersion a.streamID (maxVersion a.streamID (w.view x).events)
        a.expectedVersion with
    | some err =>
        exact ⟨some err, x, w₁, rfl, hwithin, hw₁, .refl x, .rejected err hcheck (.refl ha),
          fun h _ => h⟩
    | none =>
        have hfree : ∀ i : ℕ, maxVersion a.streamID (w.view x).events + 1 + i ∉
            versions a.streamID (w₁.view x).events := by
          intro i hmem
          rw [hwithin.view] at hmem
          have := le_maxVersion hmem
          omega
        obtain ⟨r, y, w₂, hsolo, hwithin₂, hw₂, hext, hins, hok⟩ :=
          solo_insertEvents codec c env a.streamID a.events hw₁ ha hfree
        exact ⟨r, y, w₂, hsolo, hwithin.trans hwithin₂, hw₂, hext,
          .inserted r hcheck hins, fun _ => hok⟩

/-- `Append` with a context that carries the transaction. -/
theorem solo_append_nested (codec : Codec V) (c : ι) (env : ℕ → Tick schema) (a : AppendCall V)
    {ctx : Context Unit} (hctx : ctx.tx = some t)
    {x : TxState schema Unit ι} {w : World schema Unit ι} (hw : Working t x w) :
    ∃ r y w', (append codec () ctx a).solo c env w = some (.ret r, w') ∧
      World.Within w w' ∧ Working t y w' ∧ Extends x y ∧
      (a.events = [] ∧ r = none ∧ y = x ∨ Appended codec a (w.view x).events x r y) := by
  by_cases hne : a.events = []
  · exact ⟨none, x, w, by simp [append, hne], .refl w, hw, .refl x, .inl ⟨hne, rfl, rfl⟩⟩
  · have hcode : append codec () ctx a = appendTx codec a ctx t := by
      simp [append, hne, withTx_nested () hctx]
    obtain ⟨r, y, w', hsolo, hwithin, hw', hext, happ, -⟩ :=
      solo_appendTx codec c env a ctx hw
    exact ⟨r, y, w', hcode ▸ hsolo, hwithin, hw', hext, .inr happ⟩

/-- A top-level `Append` that finds its version and whose events all marshal
succeeds and commits its rows, if nothing fails from outside. -/
theorem solo_append_succeeds {a : AppendCall V} {docs : List Document}
    {w : World schema Unit ι} (hidle : w.Idle) (now : ℤ) (hne : a.events ≠ [])
    (hcheck : checkVersion a.streamID (maxVersion a.streamID (w.committed ()).events)
      a.expectedVersion = none) (hdocs : Marshals codec a.events docs) :
    ∃ w', (append codec () .background a).solo c (fun _ => ⟨now, none⟩) w =
        some (.ret none, w') ∧ w'.Idle ∧
      w'.committed () = { w.committed () with
        events := (w.committed ()).events ++
          rowsAt a.streamID now (maxVersion a.streamID (w.committed ()).events + 1) docs } := by
  have hcode : append codec () .background a = withTx () .background (appendTx codec a) := by
    simp [append, hne]
  have hw : Working ⟨(), w.next⟩ ⟨(), c, now, [], [], false⟩
      (begun w c (⟨now, none⟩ : Tick schema) ()) := ⟨sole_begun hidle c ⟨now, none⟩ (), by simp⟩
  obtain ⟨r, y, w₁, hsolo, hwithin, hw₁, -, happ, hok⟩ := solo_appendTx codec c
    (fun _ => ⟨now, none⟩) a (contextWithTx .background ⟨(), w.next⟩) hw
  have halive : y.aborted = false := hok rfl fun _ => rfl
  obtain ⟨rfl, hgrown⟩ : r = none ∧ Grown ⟨(), c, now, [], [], false⟩ y (rowsAt a.streamID now
      (maxVersion a.streamID (w.committed ()).events + 1) docs) := by
    cases happ with
    | failed err h => exact absurd (halive.symm.trans h) (by simp)
    | rejected err hrej => exact absurd (hcheck.symm.trans hrej) (by simp)
    | inserted r _ hins =>
        cases hins with
        | aborted err h => exact absurd (halive.symm.trans h) (by simp)
        | stopped err hevents _ herr _ =>
            rw [hevents] at hdocs
            obtain ⟨doc, hdoc⟩ := hdocs.ok_of_mem (List.mem_append_right _ List.mem_cons_self)
            exact absurd (herr.symm.trans hdoc) (by simp)
        | complete hdone h => exact ⟨rfl, hdocs.unique hdone ▸ h⟩
  obtain ⟨out, w', hend, hends⟩ := solo_endTx c (fun _ => ⟨now, none⟩)
    hw₁.toSole (.ret none)
  rw [hcode, solo_withTx_begun () rfl hsolo, hend]
  cases hends with
  | committed =>
      refine ⟨_, rfl, hw₁.toSole.idle_of_close, ?_⟩
      rw [World.committed_record, World.committed_settle w₁ w.next y, World.view,
        hwithin.committed, hgrown.log]
      exact foldl_events _ _
  | failed err h =>
      rcases h with h | h
      · exact absurd (halive.symm.trans h) (by simp)
      · cases h
  | rolledBack _ hout => exact absurd rfl hout

end Solo

end Gkit.EventStore
