import Gkit.Lib.Rows
import Gkit.Lib.Executions
import Gkit.Outbox.Clients

/-!
# Relays and business transactions side by side

Any number of clients take their steps in any order, statements and commits may
fail, and a client may crash between two steps.  What holds throughout concerns
the committed rows and the calls of `Publish` in the history; what a relay knows
during its cycle concerns the rows it has locked, which nobody else can change
or publish.

With `strict` the assertions describe the runs in which nothing goes wrong
between the first `Publish` of a cycle and its commit; there the history says
how often each event was published.
-/

namespace Gkit.Outbox

open Gkit.Lib Gkit.Store

variable {V δ ι : Type}

/-! ## The history -/

/-- The event that an operation publishes. -/
def eventOf : Op schema δ → Option ℕ
  | .ext (.publish e) => some e.id
  | _ => none

/-- How often `Publish` was called for the event. -/
def timesPublished (id : ℕ) (hist : List (Entry schema δ ι)) : ℕ :=
  (Rows.entriesAbout eventOf id hist).length

def Sent (hist : List (Entry schema δ ι)) (e : Event) : Prop :=
  ∃ c r, (⟨c, .ext (.publish e), r⟩ : Entry schema δ ι) ∈ hist

/-- `Publish` has returned nil for the event. -/
def Delivered (hist : List (Entry schema δ ι)) (e : Event) : Prop :=
  ∃ c, (⟨c, .ext (.publish e), none⟩ : Entry schema δ ι) ∈ hist

/-- The transaction has inserted the row. -/
def Inserted (hist : List (Entry schema δ ι)) (c : ι) (t : Tx δ) (row : EventRow) : Prop :=
  hist[row.id]? = some ⟨c, .exec t (.insertEvent row.topic row.payload), .ok ()⟩

/-- The row was inserted by a transaction that has committed. -/
def Stored (hist : List (Entry schema δ ι)) (row : EventRow) : Prop :=
  ∃ c t, Inserted hist c t row ∧ (⟨c, .commit t, .ok ()⟩ : Entry schema δ ι) ∈ hist

section History

variable {hist hist' : List (Entry schema δ ι)} {c : ι} {o : Op schema δ} {r : o.Res} {id : ℕ}

theorem timesPublished_other (h : eventOf o ≠ some id) :
    timesPublished id (hist ++ [⟨c, o, r⟩]) = timesPublished id hist := by
  simp [timesPublished, Rows.entriesAbout, h]

theorem timesPublished_publish (e : Event) (res : Option GoError) :
    timesPublished e.id (hist ++ [⟨c, .ext (.publish e), res⟩]) = timesPublished e.id hist + 1 := by
  simp [timesPublished, Rows.entriesAbout, eventOf]

theorem exists_sent (h : timesPublished id hist ≠ 0) : ∃ e, Sent hist e ∧ e.id = id := by
  obtain ⟨en, hen⟩ := List.exists_mem_of_length_pos (Nat.pos_of_ne_zero h)
  obtain ⟨hmem, habout⟩ := List.mem_filter.mp hen
  obtain ⟨b, o, r⟩ := en
  cases o with
  | ext a =>
      obtain ⟨e⟩ := a
      exact ⟨e, ⟨b, r, hmem⟩, by simpa [eventOf] using habout⟩
  | begin | exec | pool | commit | rollback | observe => simp [eventOf] at habout

theorem Delivered.mono {e : Event} (h : Delivered hist e) (hsub : hist <+: hist') :
    Delivered hist' e := by
  obtain ⟨c, hc⟩ := h
  exact ⟨c, hsub.subset hc⟩

theorem Inserted.mono {t : Tx δ} {row : EventRow} (h : Inserted hist c t row)
    (hsub : hist <+: hist') : Inserted hist' c t row := by
  obtain ⟨more, rfl⟩ := hsub
  rw [Inserted, List.getElem?_append_left, ← h]
  exact (List.getElem?_eq_some_iff.mp h).1

theorem Inserted.lt {t : Tx δ} {row : EventRow} (h : Inserted hist c t row) :
    row.id < hist.length :=
  (List.getElem?_eq_some_iff.mp h).1

theorem Stored.mono {row : EventRow} (h : Stored hist row) (hsub : hist <+: hist') :
    Stored hist' row := by
  obtain ⟨c, t, hins, hcommit⟩ := h
  exact ⟨c, t, hins.mono hsub, hsub.subset hcommit⟩

theorem Stored.mark {row : EventRow} (h : Stored hist row) (now : ℤ) :
    Stored hist (row.mark now) := h

theorem sent_append {e : Event} : Sent (hist ++ [⟨c, o, r⟩]) e ↔
    Sent hist e ∨ o = .ext (.publish e) := by
  constructor
  · rintro ⟨b, res, hmem⟩
    rcases List.mem_append.mp hmem with hmem | hmem
    · exact .inl ⟨b, res, hmem⟩
    · cases List.mem_singleton.mp hmem
      exact .inr rfl
  · rintro (⟨b, res, hmem⟩ | rfl)
    · exact ⟨b, res, List.mem_append_left _ hmem⟩
    · exact ⟨c, r, List.mem_append_right _ (List.mem_singleton.mpr rfl)⟩

end History

/-! ## Assertions -/

def eventRows : Rows schema ℕ EventRow where
  key := id
  get := Table.get
  get_apply := fun h => Table.get_put_of_ne (Ne.symm h)
  get_congr := by
    intro d d' id u h
    simp only [Table.get_put, h]

/-- What holds of the server throughout. -/
structure Global (strict : Prop) (w : World schema Unit ι) : Prop where
  wf : w.WF
  stored : ∀ {id row}, (w.committed ()).get id = some row → Stored w.hist row
  sent : ∀ {e}, Sent w.hist e → ∃ row, (w.committed ()).get e.id = some row ∧ row.event = e
  delivered : ∀ {id row}, (w.committed ()).get id = some row → row.publishedAt.isSome →
    Delivered w.hist row.event
  once : strict → ∀ id, timesPublished id w.hist ≤ 1
  marked : strict → ∀ {id row}, (w.committed ()).get id = some row → row.publishedAt.isSome →
    timesPublished id w.hist = 1
  balanced : strict → eventRows.Balanced
    (fun hist row => row.publishedAt = none → timesPublished row.id hist = 0) () w

/-- The open transaction of a client. -/
structure Owns (c : ι) (tx : Tx Unit) (x : TxState schema Unit ι) (w : World schema Unit ι) :
    Prop where
  found : w.txs tx.id = some x
  owner : x.owner = c

/-- The relay holds these rows, which are committed and not marked. -/
structure Batch (c : ι) (r : Relay Unit) (tx : Tx Unit) (events : List Event)
    (x : TxState schema Unit ι) (w : World schema Unit ι) : Prop extends Owns c tx x w where
  alive : x.aborted = false
  mem_locks : ∀ id, id ∈ x.locks ↔ id ∈ events.map Event.id
  rows : ∀ e ∈ events, ∃ row, (w.committed ()).get e.id = some row ∧ row.publishedAt = none ∧
    row.event = e
  nodup : (events.map Event.id).Nodup
  selected : (⟨c, .exec tx (.selectUnpublished r.batchSize), .ok events⟩ :
    Entry schema Unit ι) ∈ w.hist

/-- The events have been published. -/
structure Emitted (strict : Prop) (events : List Event) (w : World schema Unit ι) : Prop where
  delivered : ∀ e ∈ events, Delivered w.hist e
  times : strict → ∀ e ∈ events, timesPublished e.id w.hist = 1

/-- The rows that a business transaction holds are ones it has inserted. -/
def Pending (c : ι) (tx : Tx Unit) (x : TxState schema Unit ι) (w : World schema Unit ι) : Prop :=
  ∀ id ∈ x.locks, (w.committed ()).get id = none ∧
    ∃ row, (w.view x).get id = some row ∧ row.publishedAt = none ∧ Inserted w.hist c tx row

/-- What a client knows in each phase. -/
def Phase.Local (strict : Prop) (roles : ι → Role V) (c : ι) :
    Phase V → World schema Unit ι → Prop
  | .polling r _, _ => ∃ n, roles c = .relay r n
  | .fetching r tx _, w => (∃ n, roles c = .relay r n) ∧
      ∃ x, Owns c tx x w ∧ x.aborted = false ∧ x.log = [] ∧ x.locks = []
  | .publishing r tx sent todo _, w => (∃ n, roles c = .relay r n) ∧
      ∃ x, Batch c r tx (sent ++ todo) x w ∧ x.log = [] ∧ Emitted strict sent w ∧
        (strict → ∀ e ∈ todo, timesPublished e.id w.hist = 0)
  | .closing r tx batch none _, w => (∃ n, roles c = .relay r n) ∧
      ∃ x, Batch c r tx batch x w ∧ Emitted strict batch w ∧
        ∀ e ∈ batch, (w.view x).get e.id =
          ((w.committed ()).get e.id).map (EventRow.mark x.started.clock)
  | .closing r tx _ (some _) _, w => (∃ n, roles c = .relay r n) ∧
      ∃ x, Owns c tx x w ∧ (strict → x.locks = [])
  | .working _, _ => ∃ work, roles c = .business work
  | .inside tx _ _, w => (∃ work, roles c = .business work) ∧ ∃ x, Owns c tx x w ∧ Pending c tx x w
  | .gone _, _ => True

/-- The transaction that a client has open. -/
def Phase.tx : Phase V → Option ℕ
  | .fetching _ tx _ | .publishing _ tx _ _ _ | .closing _ tx _ _ _ | .inside tx _ _ => some tx.id
  | .polling .. | .working _ | .gone _ => none

/-- The client has no other open transaction. -/
def Only (c : ι) (t : Option ℕ) (w : World schema Unit ι) : Prop :=
  ∀ i x, w.txs i = some x → x.owner = c → t = some i

def outline (marshal : V → Except GoError String) (strict : Prop) (roles : ι → Role V) :
    Outline schema Unit ι Unit where
  Phase := Phase V
  code := fun _ => Phase.code marshal
  Global := Global strict
  Local := fun c p w => Phase.Local strict roles c p w ∧ Only c p.tx w

/-! ## Interference -/

section Interference

variable [DecidableEq ι] {strict : Prop} {b c : ι} {w w' : World schema Unit ι} {tx : Tx Unit}
  {x : TxState schema Unit ι} {r : Relay Unit} {events : List Event} {roles : ι → Role V}

theorem Owns.kept (h : Owns b tx x w) (hk : eventRows.Kept eventOf b w w') : Owns b tx x w' :=
  ⟨(hk.untouched.txs h.owner).mpr h.found, h.owner⟩

theorem Batch.kept (h : Batch b r tx events x w) (hk : eventRows.Kept eventOf b w w') :
    Batch b r tx events x w' where
  toOwns := h.toOwns.kept hk
  alive := h.alive
  mem_locks := h.mem_locks
  rows := fun e he => by
    obtain ⟨row, hrow, hrest⟩ := h.rows e he
    have hlock : e.id ∈ x.locks := (h.mem_locks _).mpr (List.mem_map_of_mem he)
    have hsame : (w'.committed ()).get e.id = (w.committed ()).get e.id :=
      hk.row h.found h.owner hlock
    exact ⟨row, hsame.trans hrow, hrest⟩
  nodup := h.nodup
  selected := hk.grows.subset h.selected

theorem Batch.times_kept (h : Batch b r tx events x w) (hk : eventRows.Kept eventOf b w w')
    {e : Event} (he : e ∈ events) : timesPublished e.id w'.hist = timesPublished e.id w.hist := by
  have hlock : e.id ∈ x.locks := (h.mem_locks _).mpr (List.mem_map_of_mem he)
  rw [timesPublished, hk.entries h.found h.owner hlock, timesPublished]

theorem Emitted.kept {sent : List Event} (h : Emitted strict sent w)
    (hx : Batch b r tx events x w) (hsub : ∀ e ∈ sent, e ∈ events)
    (hk : eventRows.Kept eventOf b w w') : Emitted strict sent w' where
  delivered := fun e he => (h.delivered e he).mono hk.grows
  times := fun hs e he => (hx.times_kept hk (hsub e he)).trans (h.times hs e he)

theorem Pending.kept (h : Pending b tx x w) (hx : Owns b tx x w)
    (hk : eventRows.Kept eventOf b w w') : Pending b tx x w' := by
  intro id hid
  obtain ⟨hnone, row, hrow, hpub, hins⟩ := h id hid
  have hcom : (w'.committed ()).get id = (w.committed ()).get id := hk.row hx.found hx.owner hid
  have hview : (w'.view x).get id = (w.view x).get id := hk.view hx.found hx.owner hid
  exact ⟨hcom.trans hnone, row, hview.trans hrow, hpub, hins.mono hk.grows⟩

theorem Only.kept {t : Option ℕ} (h : Only b t w) (hk : eventRows.Kept eventOf b w w') :
    Only b t w' :=
  fun i x hx hown => h i x ((hk.untouched.txs hown).mp hx) hown

theorem Phase.Local.kept {p : Phase V} (h : Phase.Local strict roles b p w)
    (hk : eventRows.Kept eventOf b w w') : Phase.Local strict roles b p w' := by
  cases p with
  | polling => exact h
  | working => exact h
  | gone => trivial
  | fetching =>
      obtain ⟨hrole, x, hx, hrest⟩ := h
      exact ⟨hrole, x, hx.kept hk, hrest⟩
  | publishing =>
      obtain ⟨hrole, x, hx, hlog, hsent, htodo⟩ := h
      refine ⟨hrole, x, hx.kept hk, hlog, hsent.kept hx (fun e he => ?_) hk, fun hs e he => ?_⟩
      · exact List.mem_append_left _ he
      · rw [hx.times_kept hk (List.mem_append_right _ he)]
        exact htodo hs e he
  | closing r tx batch out n =>
      cases out with
      | some err =>
          obtain ⟨hrole, x, hx, hlocks⟩ := h
          exact ⟨hrole, x, hx.kept hk, hlocks⟩
      | none =>
          obtain ⟨hrole, x, hx, hsent, hview⟩ := h
          refine ⟨hrole, x, hx.kept hk, hsent.kept hx (fun e he => he) hk, fun e he => ?_⟩
          have hlock : e.id ∈ x.locks := (hx.mem_locks _).mpr (List.mem_map_of_mem he)
          have hcom : (w'.committed ()).get e.id = (w.committed ()).get e.id :=
            hk.row hx.found hx.owner hlock
          have hsame : (w'.view x).get e.id = (w.view x).get e.id :=
            hk.view hx.found hx.owner hlock
          rw [hsame, hcom, hview e he]
  | inside =>
      obtain ⟨hrole, x, hx, hpend⟩ := h
      exact ⟨hrole, x, hx.kept hk, hpend.kept hx hk⟩

end Interference

end Gkit.Outbox
