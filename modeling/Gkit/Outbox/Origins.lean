import Gkit.Outbox.Delivery

/-!
# The rows of one transaction

A transaction stores its events with the clock of its start in `created_at`, and
all of them become visible at once, when it commits.  So whoever sees one of them
sees all that the transaction has stored, and sees them with equal `created_at`.
-/

namespace Gkit.Outbox

open Gkit.Lib Gkit.Store

variable {V δ ι : Type}

/-! ## Who has stored an event -/

/-- The transaction that stores an event with this operation. -/
def storer : Entry schema δ ι → Option (Tx δ)
  | ⟨_, .exec t (.insertEvent _ _), .ok _⟩ => some t
  | _ => none

/-- The transaction that has stored the event. -/
def storedBy (hist : List (Entry schema δ ι)) (id : ℕ) : Option (Tx δ) := hist[id]?.bind storer

section History

variable {hist more : List (Entry schema δ ι)} {en : Entry schema δ ι} {a : ℕ} {t : Tx δ}

theorem storedBy_append_left (h : a < hist.length) :
    storedBy (hist ++ more) a = storedBy hist a := by
  rw [storedBy, storedBy, List.getElem?_append_left h]

theorem storedBy_length : storedBy hist hist.length = none := by simp [storedBy]

theorem storedBy_concat (hist : List (Entry schema δ ι)) (en : Entry schema δ ι) (a : ℕ) :
    storedBy (hist ++ [en]) a = if a = hist.length then storer en else storedBy hist a := by
  split_ifs with ha
  · simp [storedBy, ha]
  · rcases lt_or_gt_of_ne ha with hlt | hgt
    · exact storedBy_append_left hlt
    · simp [storedBy, List.getElem?_eq_none, hgt.le, Nat.succ_le_of_lt hgt]

/-- An operation that stores nothing. -/
theorem storedBy_quiet (h : storer en = none) (a : ℕ) :
    storedBy (hist ++ [en]) a = storedBy hist a := by
  rw [storedBy_concat]
  split_ifs with ha
  · rw [h, ha, storedBy_length]
  · rfl

end History

/-! ## What a table shows -/

theorem isSome_get_foldl_put {ws : List EventRow} {d : Table EventRow.id} {a : ℕ} :
    ((ws.foldl Table.put d).get a).isSome ↔ (∃ u ∈ ws, u.id = a) ∨ (d.get a).isSome := by
  induction ws generalizing d with
  | nil => simp
  | cons u ws ih =>
      rw [List.foldl_cons, ih, Table.get_put]
      by_cases ha : a = u.id
      · simp [ha]
      · simp [ha, Ne.symm ha]

/-- A row that is written over does not depend on what was there. -/
theorem get_foldl_put_congr {ws : List EventRow} {d d' : Table EventRow.id} {a : ℕ}
    (h : ∃ u ∈ ws, u.id = a) :
    (ws.foldl Table.put d).get a = (ws.foldl Table.put d').get a := by
  induction ws using List.reverseRecOn with
  | nil => simp at h
  | append_singleton ws u ih =>
      simp only [List.foldl_append, List.foldl_cons, List.foldl_nil, Table.get_put]
      split_ifs with ha
      · rfl
      · obtain ⟨v, hv, rfl⟩ := h
        rcases List.mem_append.mp hv with hv | hv
        · exact ih ⟨v, hv, rfl⟩
        · exact absurd (congrArg EventRow.id (List.mem_singleton.mp hv)) ha

/-- Of the transactions that have stored a row of the table, the table has all rows, with the
start of the transaction in them; and these transactions have ended, unless it is `self`. -/
def Shows (stamp : ℕ → ℤ) (w : World schema Unit ι) (self : Option ℕ) (d : Table EventRow.id) :
    Prop :=
  ∀ row ∈ d.rows, row.id < w.hist.length ∧ ∀ t, storedBy w.hist row.id = some t →
    (some t.id = self ∨ w.txs t.id = none) ∧ row.createdAt = stamp t.id ∧
      ∀ a, storedBy w.hist a = some t → (d.get a).isSome

section Tables

variable {stamp stamp' : ℕ → ℤ} {w w' : World schema Unit ι} {self : Option ℕ}
  {d : Table EventRow.id}

theorem Shows.transfer (h : Shows stamp w self d) (hlen : w.hist.length ≤ w'.hist.length)
    (hstored : ∀ a, storedBy w'.hist a = storedBy w.hist a)
    (hsame : ∀ a t, storedBy w.hist a = some t →
      (w.txs t.id = none → w'.txs t.id = none) ∧ stamp' t.id = stamp t.id) :
    Shows stamp' w' self d := by
  intro row hrow
  obtain ⟨hlt, hrest⟩ := h row hrow
  refine ⟨hlt.trans_le hlen, fun t ht => ?_⟩
  rw [hstored] at ht
  obtain ⟨hended, hcreated, hall⟩ := hrest t ht
  obtain ⟨hnone, hstamp⟩ := hsame row.id t ht
  refine ⟨hended.imp_right hnone, hcreated.trans hstamp.symm, fun a ha => ?_⟩
  rw [hstored] at ha
  exact hall a ha

/-- A new version of a row of the table. -/
theorem Shows.put (h : Shows stamp w self d) {row u : EventRow} (hrow : row ∈ d.rows)
    (hid : u.id = row.id) (hcreated : u.createdAt = row.createdAt) :
    Shows stamp w self (d.put u) := by
  have hsome : ∀ {a}, (d.get a).isSome → ((d.put u).get a).isSome := by
    intro a ha
    rw [Table.get_put]
    split_ifs
    · rfl
    · exact ha
  intro r hr
  rcases Table.mem_put.mp hr with rfl | ⟨hr, -⟩
  · obtain ⟨hlt, hrest⟩ := h row hrow
    rw [hid, hcreated]
    exact ⟨hlt, fun t ht => ⟨(hrest t ht).1, (hrest t ht).2.1, fun a ha =>
      hsome ((hrest t ht).2.2 a ha)⟩⟩
  · obtain ⟨hlt, hrest⟩ := h r hr
    exact ⟨hlt, fun t ht => ⟨(hrest t ht).1, (hrest t ht).2.1, fun a ha =>
      hsome ((hrest t ht).2.2 a ha)⟩⟩

theorem Shows.foldl_put (h : Shows stamp w self d) {ws : List EventRow}
    (hws : ∀ u ∈ ws, ∃ row ∈ d.rows, u.id = row.id ∧ u.createdAt = row.createdAt) :
    Shows stamp w self (ws.foldl Table.put d) := by
  induction ws generalizing d with
  | nil => exact h
  | cons u ws ih =>
      obtain ⟨row, hrow, hid, hcreated⟩ := hws u List.mem_cons_self
      refine ih (h.put hrow hid hcreated) fun v hv => ?_
      obtain ⟨row', hrow', hid', hcreated'⟩ := hws v (List.mem_cons_of_mem _ hv)
      by_cases hsame : row'.id = u.id
      · obtain rfl := Table.eq_of_key hrow' hrow (hsame.trans hid)
        exact ⟨u, Table.mem_put.mpr (.inl rfl), hid'.trans hid.symm,
          hcreated'.trans hcreated.symm⟩
      · exact ⟨row', Table.mem_put.mpr (.inr ⟨hrow', hsame⟩), hid', hcreated'⟩

/-- The writes of a transaction over a table that shows at least what the one before showed. -/
theorem Shows.over {d' : Table EventRow.id} {ws : List EventRow}
    (h : Shows stamp w self (ws.foldl Table.put d)) (h' : Shows stamp w none d')
    (hgrows : ∀ a, (d.get a).isSome → (d'.get a).isSome) :
    Shows stamp w self (ws.foldl Table.put d') := by
  intro row hrow
  have hrow := Table.get_eq_some.mpr ⟨hrow, rfl⟩
  by_cases hmine : ∃ u ∈ ws, u.id = row.id
  · have hrow : (ws.foldl Table.put d).get row.id = some row :=
      (get_foldl_put_congr hmine).trans hrow
    obtain ⟨hlt, hrest⟩ := h row (Table.get_eq_some.mp hrow).1
    refine ⟨hlt, fun t ht => ⟨(hrest t ht).1, (hrest t ht).2.1, fun a ha => ?_⟩⟩
    have hsome := (hrest t ht).2.2 a ha
    rw [isSome_get_foldl_put] at hsome ⊢
    exact hsome.imp_right (hgrows a)
  · rw [Table.get_foldl_put fun u hu hid => hmine ⟨u, hu, hid⟩] at hrow
    obtain ⟨hlt, hrest⟩ := h' row (Table.get_eq_some.mp hrow).1
    refine ⟨hlt, fun t ht => ⟨.inr ((hrest t ht).1.resolve_left (by simp)), (hrest t ht).2.1,
      fun a ha => ?_⟩⟩
    rw [isSome_get_foldl_put]
    exact .inr ((hrest t ht).2.2 a ha)

/-- The transaction `i` stores another event. -/
theorem Shows.store {i : ℕ} {row : EventRow} (h : Shows stamp w (some i) d)
    (hown : ∀ a t, storedBy w.hist a = some t → t.id = i → (d.get a).isSome)
    (hid : row.id = w.hist.length) (hcreated : row.createdAt = stamp i)
    (hhist : ∀ a, storedBy w'.hist a =
      if a = w.hist.length then some ⟨(), i⟩ else storedBy w.hist a)
    (hlen : w.hist.length < w'.hist.length) (htxs : ∀ j, j ≠ i → w'.txs j = w.txs j) :
    Shows stamp w' (some i) (d.put row) := by
  have hget : ∀ a, (d.put row).get a = if a = w.hist.length then some row else d.get a := by
    intro a
    rw [Table.get_put, hid]
  -- Whatever the transaction has stored, now or before, it sees.
  have hsees : ∀ a t, storedBy w'.hist a = some t → t.id = i → ((d.put row).get a).isSome := by
    intro a t ht hi
    rw [hhist] at ht
    rw [hget]
    split_ifs at ht ⊢
    · rfl
    · exact hown a t ht hi
  intro r hr
  rcases Table.mem_put.mp hr with rfl | ⟨hr, hne⟩
  · refine ⟨hid ▸ hlen, fun t ht => ?_⟩
    rw [hhist, if_pos hid] at ht
    obtain rfl := Option.some.inj ht
    exact ⟨.inl rfl, hcreated, fun a ha => hsees a _ ha rfl⟩
  · obtain ⟨hlt, hrest⟩ := h r hr
    refine ⟨hlt.trans hlen, fun t ht => ?_⟩
    rw [hhist, if_neg (hid ▸ hne)] at ht
    obtain ⟨hended, hcreated, hall⟩ := hrest t ht
    by_cases hi : t.id = i
    · exact ⟨.inl (congrArg some hi), hcreated, fun a ha => hsees a t ha hi⟩
    · have hnone := (htxs t.id hi).trans (hended.resolve_left (by simpa using hi))
      refine ⟨.inr hnone, hcreated, fun a ha => ?_⟩
      rw [hhist] at ha
      rw [hget]
      split_ifs at ha ⊢
      · rfl
      · exact hall a ha

end Tables

/-! ## The invariant -/

/-- The committed table and what each open transaction sees.  The clock at the start of each
transaction is kept in `stamp`. -/
structure Filed (stamp : ℕ → ℤ) (w : World schema Unit ι) : Prop where
  started : ∀ {i x}, w.txs i = some x → x.started.clock = stamp i
  opened : ∀ {a t}, storedBy w.hist a = some t → t.id < w.next
  committed : Shows stamp w none (w.committed ())
  views : ∀ {i x}, w.txs i = some x → Shows stamp w (some i) (w.view x)
  own : ∀ {i x a t}, w.txs i = some x → storedBy w.hist a = some t → t.id = i →
    ((w.view x).get a).isSome

section Steps

variable {stamp : ℕ → ℤ} {c : ι} {w w' : World schema Unit ι} {e : Tick schema}
  {o : Op schema Unit} {res : o.Res} {t : Tx Unit} {x : TxState schema Unit ι}

theorem filed_initial :
    Filed stamp (World.initial fun _ => Table.empty : World schema Unit ι) where
  started := fun hx => nomatch hx
  opened := fun h => by simp [storedBy, World.initial] at h
  committed := fun row hrow => absurd hrow List.not_mem_nil
  views := fun hx => nomatch hx
  own := fun hx => nomatch hx

theorem view_congr {y : TxState schema Unit ι} (hcom : w'.committed () = w.committed ())
    (hlog : y.log = x.log) : w'.view y = w.view x := by
  rw [World.view, World.view, hlog]
  exact congrArg (List.foldl Table.put · x.log) hcom

/-- A step that stores nothing, commits nothing and writes nothing. -/
theorem Filed.keep (h : Filed stamp w) (hcom : w'.committed () = w.committed ())
    (hnext : w.next ≤ w'.next) (hlen : w.hist.length ≤ w'.hist.length)
    (hstored : ∀ a, storedBy w'.hist a = storedBy w.hist a)
    (htxs : ∀ i y, w'.txs i = some y →
      ∃ x, w.txs i = some x ∧ y.started = x.started ∧ y.log = x.log) : Filed stamp w' := by
  have hsame : ∀ a t, storedBy w.hist a = some t →
      (w.txs t.id = none → w'.txs t.id = none) ∧ stamp t.id = stamp t.id := by
    refine fun a t _ => ⟨fun hnone => ?_, rfl⟩
    refine Option.eq_none_iff_forall_ne_some.mpr fun y hy => ?_
    obtain ⟨x, hx, -⟩ := htxs t.id y hy
    simp [hnone] at hx
  refine ⟨fun {i y} hy => ?_, fun {a t} ht => ?_, ?_, fun {i y} hy => ?_,
    fun {i y a t} hy ht hi => ?_⟩
  · obtain ⟨x, hx, hstarted, -⟩ := htxs i y hy
    rw [hstarted]
    exact h.started hx
  · rw [hstored] at ht
    exact (h.opened ht).trans_le hnext
  · rw [hcom]
    exact h.committed.transfer hlen hstored hsame
  · obtain ⟨x, hx, -, hlog⟩ := htxs i y hy
    rw [view_congr hcom hlog]
    exact (h.views hx).transfer hlen hstored hsame
  · obtain ⟨x, hx, -, hlog⟩ := htxs i y hy
    rw [hstored] at ht
    rw [view_congr hcom hlog]
    exact h.own hx ht hi

theorem Filed.record (h : Filed stamp w)
    (hquiet : storer (⟨c, o, res⟩ : Entry schema Unit ι) = none) :
    Filed stamp (w.record c o res) :=
  h.keep rfl le_rfl (by simp) (storedBy_quiet hquiet) fun i y hy => ⟨y, hy, rfl, rfl⟩

theorem Filed.begin (h : Filed stamp w) (env : Env) (d : Unit) :
    Filed (Function.update stamp w.next env.clock) (World.record
      { w.setTx w.next (some ⟨d, c, env, [], [], false⟩) with next := w.next + 1 }
      c (.begin d) (.ok ⟨d, w.next⟩)) := by
  set w' := World.record
    { w.setTx w.next (some ⟨d, c, env, [], [], false⟩) with next := w.next + 1 }
    c (.begin d) (.ok ⟨d, w.next⟩)
  have hstored : ∀ a, storedBy w'.hist a = storedBy w.hist a := storedBy_quiet rfl
  have hlen : w.hist.length ≤ w'.hist.length := by simp [w']
  have hold : ∀ {i}, i ≠ w.next → w'.txs i = w.txs i := fun hi => Function.update_of_ne hi ..
  have hnew : w'.txs w.next = some ⟨d, c, env, [], [], false⟩ := Function.update_self ..
  have hsame : ∀ a t, storedBy w.hist a = some t → (w.txs t.id = none → w'.txs t.id = none) ∧
      Function.update stamp w.next env.clock t.id = stamp t.id := by
    intro a t ht
    have hne := (h.opened ht).ne
    exact ⟨fun hnone => (hold hne).trans hnone, Function.update_of_ne hne ..⟩
  have hcommitted : Shows (Function.update stamp w.next env.clock) w' none (w.committed ()) :=
    h.committed.transfer hlen hstored hsame
  refine ⟨fun {i y} hy => ?_, fun {a t} ht => ?_, hcommitted, fun {i y} hy => ?_,
    fun {i y a t} hy ht hi => ?_⟩
  · by_cases hi : i = w.next
    · subst hi
      obtain rfl := Option.some.inj (hnew.symm.trans hy)
      rw [Function.update_self]
    · rw [Function.update_of_ne hi]
      exact h.started ((hold hi).symm.trans hy)
  · rw [hstored] at ht
    exact (h.opened ht).trans (Nat.lt_succ_self _)
  · by_cases hi : i = w.next
    · subst hi
      obtain rfl := Option.some.inj (hnew.symm.trans hy)
      intro row hrow
      obtain ⟨hlt, hrest⟩ := hcommitted row hrow
      exact ⟨hlt, fun t ht => ⟨.inr ((hrest t ht).1.resolve_left (by simp)), (hrest t ht).2⟩⟩
    · exact (h.views ((hold hi).symm.trans hy)).transfer hlen hstored hsame
  · rw [hstored] at ht
    have hi' : i ≠ w.next := hi ▸ (h.opened ht).ne
    exact h.own ((hold hi').symm.trans hy) ht hi

/-- Where a statement gets the rows from that it writes. -/
theorem Stmt.run_rows {m : Moment Env} {d : Table EventRow.id} {locked : ℕ → Bool} {s : Stmt}
    {r : s.Ret} {ws : List EventRow} {ks : List ℕ} (h : s.run m d locked = .done r ws ks) :
    (∃ topic raw, s = .insertEvent topic raw ∧
        ws = [⟨m.serial, topic, raw, m.started.clock, none⟩]) ∨
      (∀ topic raw, s ≠ .insertEvent topic raw) ∧
        ∀ u ∈ ws, ∃ row ∈ d.rows, u.id = row.id ∧ u.createdAt = row.createdAt := by
  cases s with
  | insertEvent topic raw =>
      simp only [Stmt.run] at h
      split_ifs at h
      cases h
      exact .inl ⟨topic, raw, rfl, rfl⟩
  | selectUnpublished limit =>
      simp only [Stmt.run] at h
      split_ifs at h
      cases h
      exact .inr ⟨by simp, by simp⟩
  | markPublished ids =>
      simp only [Stmt.run] at h
      split_ifs at h
      cases h
      refine .inr ⟨by simp, fun u hu => ?_⟩
      obtain ⟨row, hrow, rfl⟩ := List.mem_map.mp hu
      exact ⟨row, List.mem_of_mem_filter hrow, rfl, rfl⟩
  | business sql =>
      simp only [Stmt.run] at h
      split at h
      · cases h
      · cases h
        exact .inr ⟨by simp, by simp⟩

/-- The transaction of a client after a statement. -/
theorem txs_setTx_iff {i j : ℕ} {y z : TxState schema Unit ι} :
    (w.setTx i (some y)).txs j = some z ↔ (j = i ∧ z = y) ∨ j ≠ i ∧ w.txs j = some z := by
  by_cases hj : j = i
  · subst hj
    simp [eq_comm]
  · simp [hj]

/-- New versions of rows that the transaction sees. -/
theorem Filed.write (h : Filed stamp w) (hx : w.txs t.id = some x) {s : Stmt}
    {res : Except GoError s.Ret} (hs : ∀ topic raw, s ≠ .insertEvent topic raw)
    {ws : List EventRow} {ks : List ℕ}
    (hws : ∀ u ∈ ws, ∃ row ∈ (w.view x).rows, u.id = row.id ∧ u.createdAt = row.createdAt) :
    Filed stamp ((w.setTx t.id (some { x with log := x.log ++ ws, locks := x.locks ++ ks })).record
      c (.exec t s) res) := by
  set y : TxState schema Unit ι := { x with log := x.log ++ ws, locks := x.locks ++ ks }
  set w' := (w.setTx t.id (some y)).record c (.exec t s) res
  have hquiet : storer (⟨c, .exec t s, res⟩ : Entry schema Unit ι) = none := by
    cases s with
    | insertEvent topic raw => exact absurd rfl (hs topic raw)
    | selectUnpublished | markPublished | business => rfl
  have hstored : ∀ a, storedBy w'.hist a = storedBy w.hist a := storedBy_quiet hquiet
  have hlen : w.hist.length ≤ w'.hist.length := by simp [w']
  have htxs : ∀ {j z}, w'.txs j = some z ↔ (j = t.id ∧ z = y) ∨ j ≠ t.id ∧ w.txs j = some z :=
    txs_setTx_iff
  have hsame : ∀ a u, storedBy w.hist a = some u →
      (w.txs u.id = none → w'.txs u.id = none) ∧ stamp u.id = stamp u.id := by
    refine fun a u _ => ⟨fun hnone => ?_, rfl⟩
    refine Option.eq_none_iff_forall_ne_some.mpr fun z hz => ?_
    rcases htxs.mp hz with ⟨hid, -⟩ | ⟨-, hz⟩
    · rw [hid, hx] at hnone
      cases hnone
    · simp [hnone] at hz
  have hview : w'.view y = ws.foldl Table.put (w.view x) := by
    simp [World.view, y, w', List.foldl_append]
  refine ⟨fun {j z} hz => ?_, fun {a u} hu => ?_, h.committed.transfer hlen hstored hsame,
    fun {j z} hz => ?_, fun {j z a u} hz hu hj => ?_⟩
  · rcases htxs.mp hz with ⟨rfl, rfl⟩ | ⟨-, hz⟩
    · change x.started.clock = _
      exact h.started hx
    · exact h.started hz
  · rw [hstored] at hu
    exact h.opened hu
  · rcases htxs.mp hz with ⟨rfl, rfl⟩ | ⟨-, hz⟩
    · rw [hview]
      exact ((h.views hx).foldl_put hws).transfer hlen hstored hsame
    · exact (h.views hz).transfer hlen hstored hsame
  · rw [hstored] at hu
    rcases htxs.mp hz with ⟨rfl, rfl⟩ | ⟨-, hz⟩
    · rw [hview, isSome_get_foldl_put]
      exact .inr (h.own hx hu hj)
    · exact h.own hz hu hj

/-- A table in which the open transaction `i` has stored nothing does not notice that it stores
another event. -/
theorem Shows.foreign {self : Option ℕ} {d : Table EventRow.id} {i : ℕ}
    (h : Shows stamp w self d) (hself : self ≠ some i) (hi : w.txs i ≠ none)
    (hhist : ∀ a, storedBy w'.hist a =
      if a = w.hist.length then some ⟨(), i⟩ else storedBy w.hist a)
    (hlen : w.hist.length ≤ w'.hist.length) (htxs : ∀ j, j ≠ i → w'.txs j = w.txs j) :
    Shows stamp w' self d := by
  intro row hrow
  obtain ⟨hlt, hrest⟩ := h row hrow
  refine ⟨hlt.trans_le hlen, fun t ht => ?_⟩
  rw [hhist, if_neg hlt.ne] at ht
  obtain ⟨hended, hcreated, hall⟩ := hrest t ht
  have hne : t.id ≠ i := by
    rintro rfl
    exact hended.elim (fun heq => hself heq.symm) hi
  refine ⟨hended.imp_right fun hnone => (htxs t.id hne).trans hnone, hcreated, fun a ha => ?_⟩
  rw [hhist] at ha
  split_ifs at ha
  · obtain rfl := Option.some.inj ha
    exact absurd rfl hne
  · exact hall a ha

theorem Filed.insert (h : Filed stamp w) (hw : w.WF) (hx : w.txs t.id = some x)
    {topic raw : String} {ks : List ℕ} :
    Filed stamp ((w.setTx t.id (some { x with
      log := x.log ++ [⟨w.hist.length, topic, raw, x.started.clock, none⟩]
      locks := x.locks ++ ks })).record c (.exec t (.insertEvent topic raw)) (.ok ())) := by
  set row : EventRow := ⟨w.hist.length, topic, raw, x.started.clock, none⟩
  set y : TxState schema Unit ι :=
    { x with log := x.log ++ [row], locks := x.locks ++ ks }
  set w' := (w.setTx t.id (some y)).record c (.exec t (.insertEvent topic raw)) (.ok ())
  have hhist : ∀ a, storedBy w'.hist a =
      if a = w.hist.length then some ⟨(), t.id⟩ else storedBy w.hist a := storedBy_concat _ _
  have hlen : w.hist.length < w'.hist.length := by simp [w']
  have htxs : ∀ {j z}, w'.txs j = some z ↔ (j = t.id ∧ z = y) ∨ j ≠ t.id ∧ w.txs j = some z :=
    txs_setTx_iff
  have hother : ∀ j, j ≠ t.id → w'.txs j = w.txs j := fun j hj => Function.update_of_ne hj ..
  have hopen : w.txs t.id ≠ none := by simp [hx]
  have hview : w'.view y = (w.view x).put row := by simp [World.view, y, w']
  refine ⟨fun {j z} hz => ?_, fun {a u} hu => ?_,
    h.committed.foreign (by simp) hopen hhist hlen.le hother,
    fun {j z} hz => ?_, fun {j z a u} hz hu hj => ?_⟩
  · rcases htxs.mp hz with ⟨rfl, rfl⟩ | ⟨-, hz⟩
    · change x.started.clock = _
      exact h.started hx
    · exact h.started hz
  · rw [hhist] at hu
    split_ifs at hu
    · obtain rfl := Option.some.inj hu
      exact hw.lt_next hx
    · exact h.opened hu
  · rcases htxs.mp hz with ⟨rfl, rfl⟩ | ⟨hj, hz⟩
    · rw [hview]
      exact (h.views hx).store (fun a u hu hid => h.own hx hu hid) rfl (h.started hx) hhist hlen
        hother
    · exact (h.views hz).foreign (by simpa using hj) hopen hhist hlen.le hother
  · rw [hhist] at hu
    split_ifs at hu with ha
    · obtain rfl := Option.some.inj hu
      obtain ⟨-, rfl⟩ : j = t.id ∧ z = y := (htxs.mp hz).resolve_right fun hne => hne.1 hj.symm
      rw [hview, Table.get_put, if_pos ha]
      rfl
    · rcases htxs.mp hz with ⟨rfl, rfl⟩ | ⟨-, hz⟩
      · rw [hview, Table.get_put, if_neg ha]
        exact h.own hx hu hj
      · exact h.own hz hu hj

/-- A commit makes all that the transaction has stored visible at once. -/
theorem Filed.commit (h : Filed stamp w) (hx : w.txs t.id = some x) {res : Except GoError Unit} :
    Filed stamp ((w.settle t.id x).record c (.commit t) res) := by
  set w' := (w.settle t.id x).record c (.commit t) res
  have hstored : ∀ a, storedBy w'.hist a = storedBy w.hist a := storedBy_quiet rfl
  have hlen : w.hist.length ≤ w'.hist.length := by simp [w']
  have hcom : w'.committed () = w.view x := World.committed_settle w t.id x
  have hgone : w'.txs t.id = none := Function.update_self ..
  have hother : ∀ {j}, j ≠ t.id → w'.txs j = w.txs j := fun hj => Function.update_of_ne hj ..
  have hopen : ∀ {j z}, w'.txs j = some z → w.txs j = some z := by
    intro j z hz
    have hj : j ≠ t.id := by
      rintro rfl
      simp [hgone] at hz
    exact (hother hj).symm.trans hz
  have hended : ∀ {j}, w.txs j = none → w'.txs j = none := by
    intro j hj
    by_cases hid : j = t.id
    · rw [hid, hgone]
    · exact (hother hid).trans hj
  have hsame : ∀ a u, storedBy w.hist a = some u →
      (w.txs u.id = none → w'.txs u.id = none) ∧ stamp u.id = stamp u.id :=
    fun _ _ _ => ⟨hended, rfl⟩
  -- the transaction is over, so its view is a committed table like any other
  have hcommitted : Shows stamp w' none (w.view x) := by
    intro row hrow
    obtain ⟨hlt, hrest⟩ := (h.views hx).transfer hlen hstored hsame row hrow
    refine ⟨hlt, fun u hu => ⟨.inr ((hrest u hu).1.elim (fun hid => ?_) id), (hrest u hu).2⟩⟩
    rw [Option.some.inj hid, hgone]
  have hview : ∀ z, w'.view z = z.log.foldl Table.put (w.view x) := fun z =>
    congrArg (List.foldl Table.put · z.log) hcom
  have hgrows : ∀ a, ((w.committed ()).get a).isSome → ((w.view x).get a).isSome :=
    fun a ha => isSome_get_foldl_put.mpr (.inr ha)
  refine ⟨fun hz => h.started (hopen hz), fun {a u} hu => ?_, hcom ▸ hcommitted,
    fun {j z} hz => ?_, fun {j z a u} hz hu hj => ?_⟩
  · rw [hstored] at hu
    exact h.opened hu
  · rw [hview]
    exact ((h.views (hopen hz)).transfer hlen hstored hsame).over hcommitted hgrows
  · rw [hstored] at hu
    rw [hview, isSome_get_foldl_put]
    exact (isSome_get_foldl_put.mp (h.own (hopen hz) hu hj)).imp_right (hgrows a)

theorem Filed.close (h : Filed stamp w) {i : ℕ}
    (hquiet : storer (⟨c, o, res⟩ : Entry schema Unit ι) = none) :
    Filed stamp ((w.setTx i none).record c o res) := by
  refine h.keep rfl le_rfl (by simp) (storedBy_quiet hquiet) fun j y hy => ⟨y, ?_, rfl, rfl⟩
  by_cases hj : j = i
  · simp [hj] at hy
  · simpa [Function.update_of_ne hj] using hy

theorem Filed.exec (h : Filed stamp w) (hw : w.WF) {s : Stmt} {res : Except GoError s.Ret}
    (hx : w.txs t.id = some x) (hexec : w.exec c e (.exec t s) = some (res, w')) :
    Filed stamp w' := by
  rcases World.exec_exec_inv hexec hx with
    ⟨err, b, -, rfl, rfl⟩ | ⟨ret, ws, ks, -, -, hrun, rfl, rfl⟩
  · refine h.keep rfl le_rfl (by simp) (storedBy_quiet (by cases s <;> rfl)) fun j y hy => ?_
    rcases txs_setTx_iff.mp hy with ⟨rfl, rfl⟩ | ⟨-, hy⟩
    · exact ⟨x, hx, rfl, rfl⟩
    · exact ⟨y, hy, rfl, rfl⟩
  · rcases Stmt.run_rows hrun with ⟨topic, raw, rfl, rfl⟩ | ⟨hs, hws⟩
    · exact h.insert hw hx
    · exact h.write hx hs hws

end Steps

/-! ## Whole runs -/

section Clients

variable {marshal : V → Except GoError String} {roles : ι → Role V} {strict : Prop} {c : ι}

/-- A client uses its own transaction only. -/
theorem phase_ops {w : World schema Unit ι} {p : Phase V} {o : Op schema Unit}
    {k : o.Res → GoProg schema Unit Unit} (hL : Phase.Local strict roles c p w)
    (hcode : Phase.code marshal p = .op o k) :
    o = .begin () ∨ (∃ a, o = .ext a) ∨
      ∃ t x, w.txs t.id = some x ∧ ((∃ s, o = .exec t s) ∨ o = .commit t ∨ o = .rollback t) := by
  cases p with
  | gone v => cases hcode
  | polling r n =>
      cases n with
      | zero => cases hcode
      | succ n =>
          obtain ⟨k', hk', -⟩ := @Phase.code_polling_succ V marshal r n
          cases hk'.symm.trans hcode
          exact .inl rfl
  | fetching r tx n =>
      obtain ⟨-, x, hx, -⟩ := hL
      obtain ⟨k', hk', -⟩ := @Phase.code_fetching V marshal r tx n
      cases hk'.symm.trans hcode
      exact .inr (.inr ⟨tx, x, hx.found, .inl ⟨_, rfl⟩⟩)
  | publishing r tx sent todo n =>
      obtain ⟨-, x, hx, -⟩ := hL
      cases todo with
      | nil =>
          obtain ⟨k', hk', -⟩ := @Phase.code_publishing_nil V marshal r tx sent n
          cases hk'.symm.trans hcode
          exact .inr (.inr ⟨tx, x, hx.found, .inl ⟨_, rfl⟩⟩)
      | cons ev todo =>
          obtain ⟨k', hk', -⟩ := @Phase.code_publishing_cons V marshal r tx sent ev todo n
          cases hk'.symm.trans hcode
          exact .inr (.inl ⟨_, rfl⟩)
  | closing r tx batch out n =>
      cases out with
      | some err =>
          obtain ⟨-, x, hx, -⟩ := hL
          cases (Phase.code_closing_some r tx batch err n).symm.trans hcode
          exact .inr (.inr ⟨tx, x, hx.found, .inr (.inr rfl)⟩)
      | none =>
          obtain ⟨-, x, hx, -⟩ := hL
          cases (Phase.code_closing_none r tx batch n).symm.trans hcode
          exact .inr (.inr ⟨tx, x, hx.found, .inr (.inl rfl)⟩)
  | working work =>
      cases work with
      | nil => cases hcode
      | cons script work =>
          obtain ⟨k', hk', -⟩ := @Phase.code_working_cons V marshal script work
          cases hk'.symm.trans hcode
          exact .inl rfl
  | inside tx script work =>
      obtain ⟨-, x, hx, -⟩ := hL
      rcases @Phase.code_inside V marshal tx script work with hc | ⟨p, -, hc⟩ |
        ⟨topic, raw, k', hc, -⟩ | ⟨text, k', hc, -⟩
      · cases hc.symm.trans hcode
        exact .inr (.inr ⟨tx, x, hx.found, .inr (.inl rfl)⟩)
      · cases hc.symm.trans hcode
        exact .inr (.inr ⟨tx, x, hx.found, .inr (.inr rfl)⟩)
      · cases hc.symm.trans hcode
        exact .inr (.inr ⟨tx, x, hx.found, .inl ⟨_, rfl⟩⟩)
      · cases hc.symm.trans hcode
        exact .inr (.inr ⟨tx, x, hx.found, .inl ⟨_, rfl⟩⟩)

variable [DecidableEq ι] {s s' : Sys schema Unit ι Unit} {stamp : ℕ → ℤ}

theorem Filed.step (h : Filed stamp s.world) (hs : (outline marshal strict roles).Inv s)
    {x : Action schema ι} (hstep : s.step x = some s') : ∃ stamp', Filed stamp' s'.world := by
  have hw : s.world.WF := hs.1.wf
  cases x with
  | crash c =>
      obtain ⟨o, k, -, rfl⟩ := Sys.step_crash_eq_some hstep
      refine ⟨stamp, h.keep rfl le_rfl le_rfl (fun _ => rfl) fun i y hy => ⟨y, ?_, rfl, rfl⟩⟩
      exact (Option.filter_eq_some_iff.mp hy).1
  | step c e =>
      obtain ⟨o, k, res, w, hprog, hexec, rfl⟩ := Sys.step_step_eq_some hstep
      obtain ⟨p, hcode, hL, -⟩ := hs.2 c
      have hcode : Phase.code marshal p = .op o k := hcode.symm.trans hprog
      change ∃ stamp', Filed stamp' w
      rcases phase_ops hL hcode with rfl | ⟨a, rfl⟩ | ⟨t, x, hx, ⟨st, rfl⟩ | rfl | rfl⟩
      · rcases World.exec_begin_cases hexec with ⟨err, -, rfl, rfl⟩ | ⟨-, rfl, rfl⟩
        · exact ⟨stamp, h.record rfl⟩
        · exact ⟨_, h.begin e.env ()⟩
      · obtain ⟨w₁, hp, rfl⟩ := World.exec_eq_some.mp hexec
        cases hp
        exact ⟨stamp, h.record rfl⟩
      · exact ⟨stamp, h.exec hw hx hexec⟩
      · rcases World.exec_commit_inv hexec hx with ⟨err, -, -, rfl⟩ | ⟨-, -, -, rfl⟩
        · exact ⟨stamp, h.close rfl⟩
        · exact ⟨stamp, h.commit hx⟩
      · rw [World.exec_rollback_eq hexec hx]
        exact ⟨stamp, h.close rfl⟩

end Clients

end Gkit.Outbox
