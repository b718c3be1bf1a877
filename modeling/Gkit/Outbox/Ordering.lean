import Gkit.Lib.Turns
import Gkit.Outbox.Origins

/-!
# The order within a transaction

All events of a transaction have the same `created_at`, so the order of the
query does not tell them apart: it returns them as the scan meets them.  With one
relay, the events of a transaction are published in the order in which they were
stored as long as every scan meets them in this order, those aside that are beyond
the limit of the query.
-/

namespace Gkit.Outbox

open Gkit.Lib Gkit.Store

variable {V δ ι : Type}

/-! ## What was stored and what was published -/

/-- The events that the transaction of `b` has stored before it. -/
def companions [DecidableEq δ] (hist : List (Entry schema δ ι)) (b : ℕ) : List ℕ :=
  if storedBy hist b = none then []
  else (List.range b).filter fun a => storedBy hist a = storedBy hist b

def delivery : Entry schema δ ι → Option ℕ
  | ⟨_, .ext (.publish e), none⟩ => some e.id
  | _ => none

/-- The events that were published, in this order. -/
def published (hist : List (Entry schema δ ι)) : List ℕ := hist.filterMap delivery

def InOrder [DecidableEq δ] (hist : List (Entry schema δ ι)) : Prop :=
  InTurn (companions hist) [] (published hist)

instance [DecidableEq δ] (hist : List (Entry schema δ ι)) : Decidable (InOrder hist) :=
  inferInstanceAs (Decidable (InTurn _ _ _))

section History

variable [DecidableEq δ] {hist more : List (Entry schema δ ι)} {en : Entry schema δ ι} {b : ℕ}

theorem companions_append (hb : b < hist.length) :
    companions (hist ++ more) b = companions hist b := by
  have hsame : ∀ a ≤ b, storedBy (hist ++ more) a = storedBy hist a :=
    fun a ha => storedBy_append_left (ha.trans_lt hb)
  rw [companions, companions, hsame b le_rfl]
  refine if_congr Iff.rfl rfl (List.filter_congr fun a ha => ?_)
  rw [hsame a (List.mem_range.mp ha).le]

omit [DecidableEq δ] in
theorem published_append : published (hist ++ more) = published hist ++ published more :=
  List.filterMap_append

omit [DecidableEq δ] in
theorem mem_published_of_delivered {e : Event} (h : Delivered hist e) : e.id ∈ published hist := by
  obtain ⟨c, hc⟩ := h
  exact List.mem_filterMap.mpr ⟨_, hc, rfl⟩

omit [DecidableEq δ] in
theorem exists_delivered (h : b ∈ published hist) : ∃ e, Delivered hist e ∧ e.id = b := by
  obtain ⟨⟨c, o, res⟩, hmem, hen⟩ := List.mem_filterMap.mp h
  cases o with
  | ext a =>
      obtain ⟨e⟩ := a
      cases res with
      | none => exact ⟨e, ⟨c, hmem⟩, Option.some.inj hen⟩
      | some err => cases hen
  | begin | exec | pool | commit | rollback | observe => cases hen

/-- Published so far and queried so far. -/
structure Orderly (hist : List (Entry schema δ ι)) : Prop where
  inOrder : InOrder hist
  queried : ∀ pre c t limit events post, hist = pre ++
      (⟨c, .exec t (.selectUnpublished limit), .ok events⟩ : Entry schema δ ι) :: post →
    (∀ e ∈ events, e.id < pre.length) ∧
      InTurn (companions pre) (published pre) (events.map Event.id)

theorem orderly_nil : Orderly ([] : List (Entry schema δ ι)) := by
  refine ⟨trivial, fun pre c t limit events post h => ?_⟩
  simp at h

theorem Orderly.snoc (h : Orderly hist) (hlt : ∀ b ∈ published hist, b < hist.length)
    (hpublish : ∀ b, delivery en = some b →
      b < hist.length ∧ ∀ a ∈ companions hist b, a ∈ published hist)
    (hquery : ∀ c t limit events, en = ⟨c, .exec t (.selectUnpublished limit), .ok events⟩ →
      (∀ e ∈ events, e.id < hist.length) ∧
        InTurn (companions hist) (published hist) (events.map Event.id)) :
    Orderly (hist ++ [en]) := by
  constructor
  · rw [InOrder, published_append, inTurn_append]
    refine ⟨(inTurn_congr fun b hb => companions_append (hlt b hb)).mpr h.inOrder, ?_⟩
    cases hen : delivery en with
    | none =>
        have hnone : published [en] = [] := by simp [published, hen]
        rw [hnone]
        trivial
    | some b =>
        have hsome : published [en] = [b] := by simp [published, hen]
        obtain ⟨hb, hbefore⟩ := hpublish b hen
        rw [hsome, InTurn, companions_append hb]
        exact ⟨hbefore, trivial⟩
  · intro pre c t limit events post heq
    rcases List.eq_nil_or_concat post with rfl | ⟨post, last, rfl⟩
    · obtain ⟨rfl, hlast⟩ := List.append_inj' heq rfl
      exact hquery c t limit events (List.singleton_injective hlast)
    · rw [List.concat_eq_append, ← List.cons_append, ← List.append_assoc] at heq
      exact h.queried pre c t limit events post (List.append_inj' heq rfl).1

end History

/-! ## The scan of a query -/

instance (rank : ℕ → ℕ) : Std.Total (EventRow.before rank) where
  total a b := by
    unfold EventRow.before
    omega

instance (rank : ℕ → ℕ) : IsTrans EventRow (EventRow.before rank) where
  trans a b c hab hbc := by
    unfold EventRow.before at *
    omega

/-- The unpublished rows in the order in which a query returns them. -/
def scan (rank : ℕ → ℕ) (events : Table EventRow.id) : List EventRow :=
  (unpublished events).insertionSort (EventRow.before rank)

/-- The unpublished rows that come before the given one for `ORDER BY created_at`, if rows with
equal `created_at` are met in the order of `rank`. -/
def ahead (rank : ℕ → ℕ) (events : Table EventRow.id) (row : EventRow) : List EventRow :=
  (unpublished events).filter fun r => ¬ row.before rank r

section Scans

variable {rank : ℕ → ℕ} {events : Table EventRow.id} {row r : EventRow} {pre post : List EventRow}

theorem fetch_eq_take_scan {limit : ℕ} {locked : ℕ → Bool}
    (hfree : ∀ row ∈ events.rows, locked row.id = false) :
    fetch limit rank events locked = (scan rank events).take limit := by
  have hrows : (events.rows.filter fun r => r.publishedAt = none ∧ locked r.id = false) =
      unpublished events := by
    refine List.filter_congr fun r hr => ?_
    simp [hfree r hr]
  rw [fetch, hrows, scan]

theorem mem_scan (rank : ℕ → ℕ) : r ∈ scan rank events ↔ r ∈ unpublished events :=
  List.mem_insertionSort _

theorem nodup_unpublished (events : Table EventRow.id) : (unpublished events).Nodup :=
  (List.Nodup.of_map _ events.nodup).filter _

theorem nodup_scan (rank : ℕ → ℕ) (events : Table EventRow.id) : (scan rank events).Nodup :=
  (List.perm_insertionSort _ _).nodup_iff.mpr (nodup_unpublished events)

theorem before_of_scan (h : scan rank events = pre ++ row :: post) :
    (∀ r ∈ pre, r.before rank row) ∧ ∀ r ∈ post, row.before rank r := by
  have hsorted : (scan rank events).Pairwise (EventRow.before rank) :=
    List.pairwise_insertionSort _ _
  rw [h, List.pairwise_append] at hsorted
  obtain ⟨-, hrow, hcross⟩ := hsorted
  exact ⟨fun r hr => hcross r hr row List.mem_cons_self, (List.pairwise_cons.mp hrow).1⟩

/-- What has to come before a row does. -/
theorem mem_pre_of_not_before (h : scan rank events = pre ++ row :: post)
    (hr : r ∈ unpublished events) (hbefore : ¬ row.before rank r) : r ∈ pre := by
  have hmem : r ∈ pre ++ row :: post := h ▸ (mem_scan rank).mpr hr
  rcases List.mem_append.mp hmem with hpre | hpost
  · exact hpre
  · rcases List.mem_cons.mp hpost with rfl | hpost
    · exact absurd (.inr ⟨rfl, le_rfl⟩) hbefore
    · exact absurd ((before_of_scan h).2 r hpost) hbefore

theorem length_ahead_le (h : scan rank events = pre ++ row :: post) :
    (ahead rank events row).length ≤ pre.length := by
  refine (((nodup_unpublished events).filter _).subperm fun r hr => ?_).length_le
  obtain ⟨hmem, hbefore⟩ := List.mem_filter.mp hr
  exact mem_pre_of_not_before h hmem (by simpa using hbefore)

/-- A scan meets one row after the other, so nothing else comes before the row. -/
theorem length_pre_le (hrank : Function.Injective rank)
    (h : scan rank events = pre ++ row :: post) :
    pre.length ≤ (ahead rank events row).length := by
  have hnodup := nodup_scan rank events
  rw [h, List.nodup_append] at hnodup
  obtain ⟨hpre, -, hdisj⟩ := hnodup
  have hmem : ∀ r ∈ pre ++ row :: post, r ∈ unpublished events := fun r hr => (mem_scan rank).mp (h ▸ hr)
  refine (hpre.subperm fun r hr => List.mem_filter.mpr ?_).length_le
  have hr' := hmem r (List.mem_append_left _ hr)
  refine ⟨hr', decide_eq_true fun hback => ?_⟩
  have hforth := (before_of_scan h).1 r hr
  -- Both ways round the two are the same row.
  have heq : rank row.id = rank r.id := by
    unfold EventRow.before at hback hforth
    omega
  have hrow := hmem row (List.mem_append_right _ List.mem_cons_self)
  have hsame := Table.eq_of_key (List.mem_of_mem_filter hr') (List.mem_of_mem_filter hrow)
    (hrank heq).symm
  exact hdisj r hr row List.mem_cons_self hsame

end Scans

/-- For every unpublished row, the events that its transaction has stored before it, and that
are not published yet, are met before it, or the row itself is beyond the limit. -/
def InRank [DecidableEq δ] (hist : List (Entry schema δ ι)) (events : Table EventRow.id)
    (rank : ℕ → ℕ) (limit : ℤ) : Prop :=
  ∀ row ∈ unpublished events, ∀ a ∈ companions hist row.id, a ∉ published hist →
    rank a < rank row.id ∨ limit ≤ (ahead rank events row).length

instance [DecidableEq δ] (hist : List (Entry schema δ ι)) (events : Table EventRow.id)
    (rank : ℕ → ℕ) (limit : ℤ) : Decidable (InRank hist events rank limit) :=
  inferInstanceAs (Decidable (∀ _ ∈ _, ∀ _ ∈ _, _ → _))

section Queries

variable {strict : Prop} {stamp : ℕ → ℤ} {w : World schema Unit ι} {rank : ℕ → ℕ} {limit : ℤ}
  {locked : ℕ → Bool} {row : EventRow} {a : ℕ}

theorem mem_companions {hist : List (Entry schema Unit ι)} {a b : ℕ}
    (h : a ∈ companions hist b) :
    a < b ∧ ∃ t, storedBy hist a = some t ∧ storedBy hist b = some t := by
  unfold companions at h
  split_ifs at h with hb
  · simp at h
  · obtain ⟨hlt, heq⟩ := List.mem_filter.mp h
    obtain ⟨t, ht⟩ := Option.ne_none_iff_exists'.mp hb
    exact ⟨List.mem_range.mp hlt, t, (of_decide_eq_true heq).trans ht, ht⟩

/-- The events that its transaction has stored before a row are unpublished rows themselves, with
the same `created_at`, unless they have been published. -/
theorem Filed.companion (hF : Filed stamp w) (hG : Global strict w)
    (hrow : row ∈ unpublished (w.committed ())) (ha : a ∈ companions w.hist row.id)
    (hnew : a ∉ published w.hist) :
    ∃ r ∈ unpublished (w.committed ()), r.id = a ∧ r.createdAt = row.createdAt := by
  obtain ⟨-, t, hta, ht⟩ := mem_companions ha
  obtain ⟨-, hcreated, hall⟩ := (hF.committed row (List.mem_of_mem_filter hrow)).2 t ht
  obtain ⟨r, hr⟩ := Option.isSome_iff_exists.mp (hall a hta)
  obtain ⟨hmem, rfl⟩ := Table.get_eq_some.mp hr
  obtain ⟨-, hcreated', -⟩ := (hF.committed r hmem).2 t hta
  refine ⟨r, List.mem_filter.mpr ⟨hmem, ?_⟩, rfl, hcreated'.trans hcreated.symm⟩
  cases hpub : r.publishedAt with
  | none => simp
  | some now =>
      have hdelivered := hG.delivered hr (by simp [hpub])
      exact absurd (mem_published_of_delivered hdelivered) hnew

/-- A query whose scan meets the events of each transaction in order returns them in order. -/
theorem inTurn_fetch (hF : Filed stamp w) (hG : Global strict w)
    (hfree : ∀ row ∈ (w.committed ()).rows, locked row.id = false)
    (hrank : InRank w.hist (w.committed ()) rank limit) :
    InTurn (companions w.hist) (published w.hist)
      ((fetch limit.toNat rank (w.committed ()) locked).map EventRow.id) := by
  rw [fetch_eq_take_scan hfree, inTurn_iff]
  intro pre b post hl a ha
  obtain ⟨pre, rest, htake, rfl, hrest⟩ := List.map_eq_append_iff.mp hl
  obtain ⟨row, post, rfl, rfl, -⟩ := List.map_eq_cons_iff.mp hrest
  have hscan : scan rank (w.committed ()) =
      pre ++ row :: (post ++ (scan rank (w.committed ())).drop limit.toNat) := by
    conv_lhs => rw [← List.take_append_drop limit.toNat (scan rank (w.committed ())), htake]
    simp
  have hshort : pre.length < limit.toNat := by
    have hlength := congrArg List.length htake
    rw [List.length_take, List.length_append, List.length_cons] at hlength
    omega
  have hrow : row ∈ unpublished (w.committed ()) := by
    rw [← mem_scan rank, hscan]
    exact List.mem_append_right _ List.mem_cons_self
  by_cases hdone : a ∈ published w.hist
  · exact List.mem_append_left _ hdone
  obtain ⟨r, hr, rfl, hcreated⟩ := hF.companion hG hrow ha hdone
  rcases hrank row hrow r.id ha hdone with hlt | hlimit
  · refine List.mem_append_right _ (List.mem_map_of_mem (mem_pre_of_not_before hscan hr ?_))
    unfold EventRow.before
    omega
  · have hahead := length_ahead_le hscan
    omega

/-- The other queries return an event too early. -/
theorem not_inTurn_fetch (hF : Filed stamp w) (hG : Global strict w)
    (hfree : ∀ row ∈ (w.committed ()).rows, locked row.id = false)
    (hinj : Function.Injective rank) (hrank : ¬InRank w.hist (w.committed ()) rank limit) :
    ¬InTurn (companions w.hist) (published w.hist)
      ((fetch limit.toNat rank (w.committed ()) locked).map EventRow.id) := by
  simp only [InRank, not_forall, not_or, not_lt, not_le] at hrank
  obtain ⟨row, hrow, a, ha, hnew, hle, hshort⟩ := hrank
  obtain ⟨r, hr, rfl, hcreated⟩ := hF.companion hG hrow ha hnew
  obtain ⟨pre, post, hscan⟩ := List.append_of_mem ((mem_scan rank).mpr hrow : row ∈ scan rank _)
  have hpre := length_pre_le hinj hscan
  obtain ⟨k, hk⟩ : ∃ k, limit.toNat = pre.length + (k + 1) :=
    ⟨limit.toNat - pre.length - 1, by omega⟩
  have hfetch : fetch limit.toNat rank (w.committed ()) locked = pre ++ row :: post.take k := by
    rw [fetch_eq_take_scan hfree, hscan, hk, List.take_length_add_append, List.take_succ_cons]
  rw [hfetch, List.map_append, List.map_cons, inTurn_append]
  rintro ⟨-, hturn, -⟩
  rcases List.mem_append.mp (hturn r.id ha) with hmem | hmem
  · exact hnew hmem
  · obtain ⟨r', hr', hid⟩ := List.mem_map.mp hmem
    have hmem' : r' ∈ unpublished (w.committed ()) := by
      rw [← mem_scan rank, hscan]
      exact List.mem_append_left _ hr'
    obtain rfl := Table.eq_of_key (List.mem_of_mem_filter hmem') (List.mem_of_mem_filter hr) hid
    have hforth := (before_of_scan hscan).1 r' hr'
    have hne : rank r'.id ≠ rank row.id := fun heq => (mem_companions ha).1.ne (hinj heq)
    unfold EventRow.before at hforth
    omega

end Queries

/-! ## The steps of the clients -/

/-- Neither a query nor a `Publish`. -/
def Quiet : Op schema Unit → Prop
  | .exec _ (.selectUnpublished _) | .ext _ => False
  | _ => True

theorem Quiet.delivery {o : Op schema Unit} (h : Quiet o) {c : ι} {res : o.Res} :
    delivery ⟨c, o, res⟩ = none := by
  cases o with
  | ext a => exact h.elim
  | begin | exec | pool | commit | rollback | observe => rfl

theorem map_id_map_event (rows : List EventRow) :
    (rows.map EventRow.event).map Event.id = rows.map EventRow.id := by
  simp [Function.comp_def, EventRow.event]

section Steps

variable {marshal : V → Except GoError String}

theorem phase_cases {p : Phase V} {o : Op schema Unit} {k : o.Res → GoProg schema Unit Unit}
    (h : Phase.code marshal p = .op o k) :
    (∃ r tx n, p = .fetching r tx n) ∨ (∃ r tx sent ev todo n,
      p = .publishing r tx sent (ev :: todo) n) ∨ Quiet o := by
  cases p with
  | gone v => cases h
  | fetching r tx n => exact .inl ⟨r, tx, n, rfl⟩
  | polling r n =>
      cases n with
      | zero => cases h
      | succ n =>
          obtain ⟨k', hk', -⟩ := @Phase.code_polling_succ V marshal r n
          cases hk'.symm.trans h
          exact .inr (.inr trivial)
  | publishing r tx sent todo n =>
      cases todo with
      | nil =>
          obtain ⟨k', hk', -⟩ := @Phase.code_publishing_nil V marshal r tx sent n
          cases hk'.symm.trans h
          exact .inr (.inr trivial)
      | cons ev todo => exact .inr (.inl ⟨r, tx, sent, ev, todo, n, rfl⟩)
  | closing r tx batch out n =>
      cases out with
      | some err =>
          cases (Phase.code_closing_some r tx batch err n).symm.trans h
          exact .inr (.inr trivial)
      | none =>
          cases (Phase.code_closing_none r tx batch n).symm.trans h
          exact .inr (.inr trivial)
  | working work =>
      cases work with
      | nil => cases h
      | cons script work =>
          obtain ⟨k', hk', -⟩ := @Phase.code_working_cons V marshal script work
          cases hk'.symm.trans h
          exact .inr (.inr trivial)
  | inside tx script work =>
      rcases @Phase.code_inside V marshal tx script work with hc | ⟨p, -, hc⟩ |
        ⟨topic, raw, k', hc, -⟩ | ⟨text, k', hc, -⟩ <;>
        cases hc.symm.trans h <;> exact .inr (.inr trivial)

variable [DecidableEq ι] {roles : ι → Role V} {strict : Prop} {c : ι}
  {w w' : World schema Unit ι} {e : Tick schema} {s s' : Sys schema Unit ι Unit}

omit [DecidableEq ι] in
theorem Global.stored_lt (hG : Global strict w) {id : ℕ} {row : EventRow}
    (h : (w.committed ()).get id = some row) : id < w.hist.length := by
  obtain ⟨c, t, hins, -⟩ := hG.stored h
  exact (Table.get_eq_some.mp h).2 ▸ hins.lt

omit [DecidableEq ι] in
theorem Global.published_lt (hG : Global strict w) {b : ℕ} (h : b ∈ published w.hist) :
    b < w.hist.length := by
  obtain ⟨ev, ⟨c, hc⟩, rfl⟩ := exists_delivered h
  obtain ⟨row, hrow, -⟩ := hG.sent ⟨c, none, hc⟩
  exact hG.stored_lt hrow

omit [DecidableEq ι] in
/-- What a query returns. -/
theorem events_of_select {tx : Tx Unit} {x : TxState schema Unit ι}
    (hx : Owns c tx x w) (hlog : x.log = []) {limit : ℤ} {events : List Event}
    (h : w.exec c e (.exec tx (.selectUnpublished limit)) = some (.ok events, w')) :
    e.fault = none ∧ events = (fetch limit.toNat e.env.rank (w.committed ())
      (w.locked () (some tx.id))).map EventRow.event := by
  have hview : w.view x = w.committed () := by simp [World.view, hlog]
  rcases World.exec_exec_inv h hx.found with
    ⟨err, b, -, herr, -⟩ | ⟨ret, ws, ks, -, he, hrun, hret, -⟩
  · cases herr
  · cases hret
    simp only [Stmt.run, hview] at hrun
    split_ifs at hrun
    cases hrun
    exact ⟨he, rfl⟩

omit [DecidableEq ι] in
theorem select_answered {tx : Tx Unit} {x : TxState schema Unit ι} (hx : Owns c tx x w)
    (ha : x.aborted = false) (he : e.fault = none) {limit : ℤ} (hlimit : 0 ≤ limit)
    {res : Except GoError (List Event)}
    (h : w.exec c e (.exec tx (.selectUnpublished limit)) = some (res, w')) :
    ∃ events, res = .ok events := by
  rcases World.exec_exec_inv h hx.found with ⟨err, b, hwhy, -, -⟩ | ⟨ret, ws, ks, -, -, -, hret, -⟩
  · rcases hwhy with habort | hfault | ⟨-, -, hfail⟩
    · simp [ha] at habort
    · simp [he] at hfault
    · simp only [Stmt.run, if_neg (not_lt.mpr hlimit)] at hfail
      cases hfail
  · exact ⟨ret, hret⟩

omit [DecidableEq ι] in
/-- The rows that a query returns are committed. -/
theorem queried_lt (hG : Global strict w) {limit : ℕ} {rank : ℕ → ℕ} {locked : ℕ → Bool} :
    ∀ ev ∈ (fetch limit rank (w.committed ()) locked).map EventRow.event,
      ev.id < w.hist.length := by
  intro ev hev
  obtain ⟨row, hrow, rfl⟩ := List.mem_map.mp hev
  exact hG.stored_lt (Table.get_eq_some.mpr ⟨(mem_fetch hrow).1, rfl⟩)

omit [DecidableEq ι] in
/-- What a relay is about to publish is at its turn. -/
theorem Orderly.turn (h : Orderly w.hist) (hG : Global strict w) {r : Relay Unit} {tx : Tx Unit}
    {sent todo : List Event} {ev : Event} {x : TxState schema Unit ι}
    (hx : Batch c r tx (sent ++ ev :: todo) x w) (hsent : Emitted strict sent w) :
    ev.id < w.hist.length ∧ ∀ a ∈ companions w.hist ev.id, a ∈ published w.hist := by
  have hmem : ev ∈ sent ++ ev :: todo := List.mem_append_right _ List.mem_cons_self
  obtain ⟨row, hrow, -⟩ := hx.rows ev hmem
  refine ⟨hG.stored_lt hrow, fun a ha => ?_⟩
  -- The query has returned the event behind all that are not published before it.
  obtain ⟨pre, post, hhist⟩ := List.append_of_mem hx.selected
  obtain ⟨hlt, hturn⟩ := h.queried pre c tx r.batchSize _ post hhist
  rw [List.map_append, List.map_cons, inTurn_append, InTurn] at hturn
  rw [hhist, companions_append (hlt ev hmem)] at ha
  rcases List.mem_append.mp (hturn.2.1 a ha) with ha | ha
  · rw [hhist, published_append]
    exact List.mem_append_left _ ha
  · obtain ⟨ev', hev', rfl⟩ := List.mem_map.mp ha
    exact mem_published_of_delivered (hsent.delivered ev' hev')

/-- Only one of the clients is a relay. -/
def Single (roles : ι → Role V) : Prop :=
  ∀ b c r r' n n', roles b = .relay r n → roles c = .relay r' n' → b = c

omit [DecidableEq ι] in
/-- Nobody else holds a committed row when the relay makes its query. -/
theorem unlocked (hs : (outline marshal strict roles).Inv s) (hsingle : Single roles)
    {r : Relay Unit} {n : ℕ} (hrole : roles c = .relay r n) {i : ℕ}
    (honly : Only c (some i) s.world) :
    ∀ row ∈ (s.world.committed ()).rows, s.world.locked () (some i) row.id = false := by
  intro row hrow
  by_contra hlocked
  obtain ⟨j, x, hx, hne, -, hlock⟩ := World.locked_eq_true (by simpa using hlocked)
  obtain ⟨p, -, hL, hp⟩ := hs.2 x.owner
  have hp : p.tx = some j := hp j x hx rfl
  -- a relay would be this one, which has no other transaction
  have hother : ∀ r' n', roles x.owner = .relay r' n' → False := by
    intro r' n' hrole'
    have howner := hsingle _ _ _ _ _ _ hrole' hrole
    exact hne (honly j x hx howner).symm
  cases p with
  | polling | working | gone => cases hp
  | fetching =>
      obtain ⟨⟨n', hrole'⟩, -⟩ := hL
      exact hother _ n' hrole'
  | publishing =>
      obtain ⟨⟨n', hrole'⟩, -⟩ := hL
      exact hother _ n' hrole'
  | closing r' tx batch out =>
      cases out with
      | none =>
          obtain ⟨⟨n', hrole'⟩, -⟩ := hL
          exact hother _ n' hrole'
      | some err =>
          obtain ⟨⟨n', hrole'⟩, -⟩ := hL
          exact hother _ n' hrole'
  | inside tx script work =>
      obtain ⟨-, y, hy, hpend⟩ := hL
      obtain rfl : tx.id = j := Option.some.inj hp
      obtain rfl : x = y := Option.some.inj (hx.symm.trans hy.found)
      have hget := Table.get_eq_some.mpr ⟨hrow, rfl⟩
      simp [(hpend row.id hlock).1] at hget

/-- A query that is answered meets the events of each transaction in order. -/
def TickRanked (w : World schema Unit ι) (e : Tick schema) : Op schema Unit → Prop
  | .exec _ (.selectUnpublished limit) =>
      e.fault = none → InRank w.hist (w.committed ()) e.env.rank limit
  | _ => True

def Ranked (s : Sys schema Unit ι Unit) : Action schema ι → Prop
  | .crash _ => True
  | .step c e =>
      match s.prog c with
      | .op o _ => TickRanked s.world e o
      | _ => True

instance (w : World schema Unit ι) (e : Tick schema) : DecidablePred (TickRanked w e)
  | .exec _ (.selectUnpublished _) => inferInstanceAs (Decidable (_ → _))
  | .exec _ (.insertEvent ..) | .exec _ (.markPublished _) | .exec _ (.business _) | .begin _
  | .pool .. | .commit _ | .rollback _ | .ext _ | .observe .. => inferInstanceAs (Decidable True)

instance (s : Sys schema Unit ι Unit) : DecidablePred (Ranked s)
  | .crash _ => inferInstanceAs (Decidable True)
  | .step c e =>
      match h : s.prog c with
      | .op o _ => decidable_of_iff (TickRanked s.world e o) (by simp [Ranked, h])
      | .ret _ => isTrue (by simp [Ranked, h])
      | .panic _ => isTrue (by simp [Ranked, h])

omit [DecidableEq ι] in
theorem Quiet.tickRanked {o : Op schema Unit} (h : Quiet o) : TickRanked w e o := by
  cases o with
  | exec t s =>
      cases s with
      | selectUnpublished limit => exact h.elim
      | insertEvent | markPublished | business => trivial
  | begin | ext | pool | commit | rollback | observe => trivial

theorem Orderly.step (hs : (outline marshal strict roles).Inv s) (hsingle : Single roles)
    {stamp : ℕ → ℤ} (hF : Filed stamp s.world) (h : Orderly s.world.hist)
    {x : Action schema ι} (hx : Ranked s x) (hstep : s.step x = some s') :
    Orderly s'.world.hist := by
  have hG : Global strict s.world := hs.1
  cases x with
  | crash c =>
      obtain ⟨o, k, -, rfl⟩ := Sys.step_crash_eq_some hstep
      exact h
  | step c e =>
      obtain ⟨o, k, res, w, hprog, hexec, rfl⟩ := Sys.step_step_eq_some hstep
      obtain ⟨p, hcode, hL, honly⟩ := hs.2 c
      change s.prog c = Phase.code marshal p at hcode
      change Phase.Local strict roles c p s.world at hL
      have hcode : Phase.code marshal p = .op o k := hcode.symm.trans hprog
      have hhist := World.exec_hist hexec
      have hrank : TickRanked s.world e o := by
        rwa [Ranked, hprog] at hx
      change Orderly w.hist
      rw [hhist]
      apply h.snoc fun b hb => hG.published_lt hb
      · intro b hb
        rcases phase_cases hcode with ⟨r, tx, n, rfl⟩ | ⟨r, tx, sent, ev, todo, n, rfl⟩ | hquiet
        · obtain ⟨k', hk', -⟩ := @Phase.code_fetching V marshal r tx n
          cases hk'.symm.trans hcode
          cases hb
        · obtain ⟨k', hk', -⟩ := @Phase.code_publishing_cons V marshal r tx sent ev todo n
          cases hk'.symm.trans hcode
          obtain ⟨-, y, hy, -, hsent, -⟩ := hL
          cases res with
          | some err => cases hb
          | none =>
              cases hb
              exact h.turn hG hy hsent
        · simp [hquiet.delivery] at hb
      · intro c' t limit events hen
        cases hen
        rcases phase_cases hcode with ⟨r, tx, n, rfl⟩ | ⟨r, tx, sent, ev, todo, n, rfl⟩ | hquiet
        · obtain ⟨⟨m, hrole⟩, y, hy, -, hlog, -⟩ := hL
          obtain ⟨k', hk', -⟩ := @Phase.code_fetching V marshal r tx n
          cases hk'.symm.trans hcode
          obtain ⟨he, rfl⟩ := events_of_select hy hlog hexec
          refine ⟨queried_lt hG, ?_⟩
          rw [map_id_map_event]
          exact inTurn_fetch hF hG (unlocked hs hsingle hrole honly) (hrank he)
        · obtain ⟨k', hk', -⟩ := @Phase.code_publishing_cons V marshal r tx sent ev todo n
          cases hk'.symm.trans hcode
        · exact hquiet.elim

/-! ## A query out of order -/

/-- A step under which nothing fails. -/
def calm : Tick schema := ⟨⟨0, id, .ok "", none⟩, none⟩

/-- The publisher accepts all that a relay has read. -/
theorem run_publishing {r : Relay Unit} {tx : Tx Unit} {sent : List Event} {n : ℕ}
    (todo : List Event)
    (h : s.prog c = Phase.code marshal (.publishing r tx sent todo n)) :
    ∃ s', run Sys.step s (todo.map fun _ => .step c calm) = some s' ∧
      s'.world.hist = s.world.hist ++ todo.map fun ev => ⟨c, .ext (.publish ev), none⟩ := by
  induction todo generalizing s sent with
  | nil => exact ⟨s, rfl, by simp⟩
  | cons ev todo ih =>
      obtain ⟨k, hk, hnext⟩ := @Phase.code_publishing_cons V marshal r tx sent ev todo n
      have hexec : s.world.exec c calm (.ext (.publish ev)) =
          some (none, s.world.record c (.ext (.publish ev)) none) := rfl
      have hstep := Sys.step_eq (h.trans hk) hexec
      obtain ⟨s', hrun, hhist⟩ := ih
        (s := ⟨s.world.record c (.ext (.publish ev)) none, Function.update s.prog c (k none)⟩)
        ((Function.update_self ..).trans (hnext none))
      refine ⟨s', run_cons_eq_some.mpr ⟨_, hstep, hrun⟩, ?_⟩
      rw [hhist]
      simp

omit [DecidableEq ι] in
theorem published_publishes (c : ι) (events : List Event) :
    published (events.map fun ev => (⟨c, .ext (.publish ev), none⟩ : Entry schema Unit ι)) =
      events.map Event.id := by
  induction events with
  | nil => rfl
  | cons ev events ih => exact congrArg (ev.id :: ·) ih

omit [DecidableEq ι] in
theorem not_inOrder_of_query {hist : List (Entry schema Unit ι)} {events : List Event}
    (hlt : ∀ ev ∈ events, ev.id < hist.length) {tx : Tx Unit} {limit : ℤ}
    (hquery : ¬InTurn (companions hist) (published hist) (events.map Event.id)) :
    ¬InOrder (hist ++ (⟨c, .exec tx (.selectUnpublished limit), .ok events⟩ ::
      events.map fun ev => ⟨c, .ext (.publish ev), none⟩)) := by
  intro horder
  apply hquery
  have hpub : published (⟨c, .exec tx (.selectUnpublished limit), .ok events⟩ ::
      events.map fun ev => (⟨c, .ext (.publish ev), none⟩ : Entry schema Unit ι)) =
        events.map Event.id := published_publishes c events
  rw [InOrder, published_append, hpub, inTurn_append] at horder
  refine (inTurn_congr fun b hb => ?_).mp horder.2
  obtain ⟨ev, hev, rfl⟩ := List.mem_map.mp hb
  exact companions_append (hlt ev hev)

/-- Any other query can be followed by a publication out of order, without any failure. -/
theorem disordered_of_not_ranked (hs : (outline marshal strict roles).Inv s)
    (hsingle : Single roles) {stamp : ℕ → ℤ} (hF : Filed stamp s.world)
    (hinj : Function.Injective e.env.rank) (hstep : s.step (.step c e) = some s')
    (hx : ¬Ranked s (.step c e)) :
    ∃ ys s'', run Sys.step s (.step c e :: ys) = some s'' ∧ ¬InOrder s''.world.hist := by
  have hG : Global strict s.world := hs.1
  obtain ⟨o, k, res, w, hprog, hexec, rfl⟩ := Sys.step_step_eq_some hstep
  obtain ⟨p, hcode, hL, honly⟩ := hs.2 c
  change s.prog c = Phase.code marshal p at hcode
  change Phase.Local strict roles c p s.world at hL
  have hcode : Phase.code marshal p = .op o k := hcode.symm.trans hprog
  have hrank : ¬TickRanked s.world e o := by
    rwa [Ranked, hprog] at hx
  rcases phase_cases hcode with ⟨r, tx, n, rfl⟩ | ⟨r, tx, sent, ev, todo, n, rfl⟩ | hquiet
  · obtain ⟨⟨m, hrole⟩, y, hy, ha, hlog, -⟩ := hL
    obtain ⟨k', hk', hnext⟩ := @Phase.code_fetching V marshal r tx n
    cases hk'.symm.trans hcode
    obtain ⟨he, hrank⟩ := Classical.not_imp.mp hrank
    have hturn := not_inTurn_fetch hF hG (unlocked hs hsingle hrole honly) hinj hrank
    have hlimit : 0 ≤ r.batchSize := by
      by_contra hneg
      exact hrank fun row _ a _ _ => .inr (by omega)
    obtain ⟨events, rfl⟩ := select_answered hy ha he hlimit hexec
    obtain ⟨-, hevents⟩ := events_of_select hy hlog hexec
    rw [← map_id_map_event, ← hevents] at hturn
    cases events with
    | nil => exact absurd trivial hturn
    | cons ev events =>
        obtain ⟨s'', hrun, hhist''⟩ := run_publishing (ev :: events)
          (s := ⟨w, Function.update s.prog c (k' (.ok (ev :: events)))⟩)
          ((Function.update_self ..).trans (hnext (.ok (ev :: events))))
        refine ⟨_, s'', run_cons_eq_some.mpr ⟨_, hstep, hrun⟩, ?_⟩
        rw [hhist'', World.exec_hist hexec, List.append_assoc]
        exact not_inOrder_of_query (fun ev' hev' => queried_lt hG ev' (hevents ▸ hev')) hturn
  · obtain ⟨k', hk', -⟩ := @Phase.code_publishing_cons V marshal r tx sent ev todo n
    cases hk'.symm.trans hcode
    exact absurd trivial hrank
  · exact absurd hquiet.tickRanked hrank

end Steps

/-! ## Whole runs -/

/-- With one relay, whatever fails: as long as every query meets the events of each transaction
in the order in which they were stored, they are published in this order.  After any such run,
a query that does not can be followed by a publication out of order. -/
theorem published_in_order [DecidableEq ι] (marshal : V → Except GoError String)
    (roles : ι → Role V) (hsingle : Single roles) {xs : List (Action schema ι)}
    {s : Sys schema Unit ι Unit} (hxs : Along Sys.step Ranked (launch marshal roles) xs)
    (h : run Sys.step (launch marshal roles) xs = some s) :
    InOrder s.world.hist ∧
    ∀ c e s', Function.Injective e.env.rank → s.step (.step c e) = some s' →
      ¬Ranked s (.step c e) →
      ∃ ys s'', run Sys.step s (.step c e :: ys) = some s'' ∧ ¬InOrder s''.world.hist := by
  have hsound : (outline marshal False roles).Sound _ := outline_sound marshal roles
  have hinv : (outline marshal False roles).Inv s ∧ (∃ stamp, Filed stamp s.world) ∧
      Orderly s.world.hist := by
    refine run_invariant (P := fun s => (outline marshal False roles).Inv s ∧
      (∃ stamp, Filed stamp s.world) ∧ Orderly s.world.hist) ?_
      ⟨outline_initial marshal False roles, ⟨fun _ => 0, filed_initial⟩, orderly_nil⟩ hxs h
    rintro s x s' ⟨hs, ⟨stamp, hF⟩, horder⟩ hx hstep
    exact ⟨hsound.step_inv hs (fun hf => hf.elim) hstep, hF.step hs hstep,
      horder.step hs hsingle hF hx hstep⟩
  obtain ⟨hs, ⟨stamp, hF⟩, horder⟩ := hinv
  exact ⟨horder.inOrder, fun c e s' hinj hstep hx =>
    disordered_of_not_ranked hs hsingle hF hinj hstep hx⟩

/-- One relay, and a transaction that stores two orders. -/
def pairRoles : Fin 2 → Role String
  | 0 => .business [.op (.store "orders" "1") fun _ => .op (.store "orders" "2") fun _ => .ret none]
  | _ => .relay ⟨(), 100⟩ 1

theorem pair_single : Single pairRoles := by
  intro b c r r' n n' hb hc
  fin_cases b <;> fin_cases c <;> simp_all [pairRoles]

/-- The transaction and then a cycle of the relay, in which the query finds the rows in the
order of `rank`. -/
def pairSteps (rank : ℕ → ℕ) : List (Action schema (Fin 2)) :=
  [0, 0, 0, 0, 1, 1, 1, 1, 1, 1].map fun c => .step c ⟨⟨0, rank, .ok "", none⟩, none⟩

/-- The second order is published before the first. -/
theorem second_order_first :
    (run Sys.step (launch (.ok ·) pairRoles) (pairSteps (3 - ·))).map
      (fun s => (storedBy s.world.hist 1, storedBy s.world.hist 2, published s.world.hist,
        decide (InOrder s.world.hist))) = some (some ⟨(), 0⟩, some ⟨(), 0⟩, [2, 1], false) := by
  decide

theorem pair_in_order :
    ∃ s, run Sys.step (launch (.ok ·) pairRoles) (pairSteps id) = some s ∧
      published s.world.hist = [1, 2] ∧ InOrder s.world.hist := by
  have hrun : (run Sys.step (launch (.ok ·) pairRoles) (pairSteps id)).map
      (fun s => published s.world.hist) = some [1, 2] := by
    decide
  obtain ⟨s, hs, hpublished⟩ := Option.map_eq_some_iff.mp hrun
  exact ⟨s, hs, hpublished, (published_in_order (.ok ·) pairRoles pair_single (by decide) hs).1⟩

end Gkit.Outbox
