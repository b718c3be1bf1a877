import Gkit.Outbox.Cycles

/-!
# Delivery

From an empty table, whatever relays and business transactions do and whatever
fails: an event that is marked has been published, an event that is published
was stored by a transaction that has committed, and a relay commits the marks of
a whole batch or nothing.  Where nothing goes wrong after a `Publish`, no event
is published twice.
-/

namespace Gkit.Outbox

open Gkit.Lib Gkit.Store

variable {V ι : Type}

/-- A server with an empty outbox, and its clients. -/
def launch (marshal : V → Except GoError String) (roles : ι → Role V) :
    Sys schema Unit ι Unit :=
  ⟨World.initial fun _ => Table.empty, fun c => (roles c).code marshal⟩

/-- A step of a relay that commits a batch: the rows it has selected were not
marked, and it marks all of them and changes nothing else. -/
def MarksBatch (c : ι) (r : Relay Unit) (w w' : World schema Unit ι) : Prop :=
  ∃ tx events now,
    (⟨c, .exec tx (.selectUnpublished r.batchSize), .ok events⟩ : Entry schema Unit ι) ∈ w.hist ∧
    w'.hist = w.hist ++ [⟨c, .commit tx, .ok ()⟩] ∧
    (∀ e ∈ events, ∃ row, (w.committed ()).get e.id = some row ∧ row.publishedAt = none ∧
      row.event = e) ∧
    ∀ id, (w'.committed ()).get id = if id ∈ events.map Event.id
      then ((w.committed ()).get id).map (EventRow.mark now) else (w.committed ()).get id

section Reachable

variable [DecidableEq ι] {marshal : V → Except GoError String} {strict : Prop}
  {roles : ι → Role V} {s s' : Sys schema Unit ι Unit}

omit [DecidableEq ι] in
theorem global_initial :
    Global strict (World.initial fun _ => Table.empty : World schema Unit ι) where
  wf := World.WF.initial _
  stored := fun hrow => nomatch hrow
  sent := by
    rintro e ⟨b, r, hmem⟩
    exact absurd hmem List.not_mem_nil
  delivered := fun hrow => nomatch hrow
  once := fun _ _ => Nat.zero_le 1
  marked := fun _ _ _ hrow => nomatch hrow
  balanced := fun _ _ _ hrow => nomatch hrow

omit [DecidableEq ι] in
theorem outline_initial (marshal : V → Except GoError String) (strict : Prop)
    (roles : ι → Role V) : (outline marshal strict roles).Inv (launch marshal roles) := by
  refine ⟨global_initial, fun c => ?_⟩
  change ∃ p : Phase V, (roles c).code marshal = Phase.code marshal p ∧
    Phase.Local strict roles c p _ ∧ Only c p.tx _
  have hnone : Only c none (World.initial fun _ => Table.empty : World schema Unit ι) := by
    intro i x hx
    simp [World.initial] at hx
  cases hrole : roles c with
  | relay r n => exact ⟨.polling r n, rfl, ⟨n, hrole⟩, hnone⟩
  | business work => exact ⟨.working work, rfl, ⟨work, hrole⟩, hnone⟩

/-- What a step of a relay does to the committed table. -/
theorem relay_step_cases (hs : (outline marshal strict roles).Inv s) {c : ι} {r : Relay Unit}
    {n : ℕ} (hrole : roles c = .relay r n) {e : Tick schema}
    (h : s.step (.step c e) = some s') :
    s'.world.committed () = s.world.committed () ∨ MarksBatch c r s.world s'.world := by
  have hG : Global strict s.world := hs.1
  obtain ⟨o, k, res, w, hprog, hexec, rfl⟩ := Sys.step_step_eq_some h
  obtain ⟨p, hcode, hL, -⟩ := hs.2 c
  change s.prog c = Phase.code marshal p at hcode
  change Phase.Local strict roles c p s.world at hL
  have hcode : Phase.code marshal p = .op o k := hcode.symm.trans hprog
  cases p with
  | gone v => cases hcode
  | working work => obtain ⟨work', hrole'⟩ := hL; simp [hrole] at hrole'
  | inside tx script work => obtain ⟨⟨work', hrole'⟩, -⟩ := hL; simp [hrole] at hrole'
  | polling r' m =>
      cases m with
      | zero => cases hcode
      | succ m =>
          obtain ⟨k', hk', -⟩ := @Phase.code_polling_succ V marshal r' m
          cases hk'.symm.trans hcode
          rcases World.exec_begin_cases hexec with ⟨err, -, -, rfl⟩ | ⟨-, -, rfl⟩
          · exact .inl rfl
          · exact .inl rfl
  | fetching r' tx m =>
      obtain ⟨-, x, hx, -⟩ := hL
      obtain ⟨k', hk', -⟩ := @Phase.code_fetching V marshal r' tx m
      cases hk'.symm.trans hcode
      obtain ⟨⟨err, b, -, -, rfl⟩ | ⟨ret, ws, ks, -, -, -, rfl⟩, -⟩ := exec_step hG hx hexec
      · exact .inl rfl
      · exact .inl rfl
  | publishing r' tx sent todo m =>
      obtain ⟨-, x, hx, -⟩ := hL
      cases todo with
      | nil =>
          obtain ⟨k', hk', -⟩ := @Phase.code_publishing_nil V marshal r' tx sent m
          cases hk'.symm.trans hcode
          obtain ⟨⟨err, b, -, -, rfl⟩ | ⟨ret, ws, ks, -, -, -, rfl⟩, -⟩ :=
            exec_step hG hx.toOwns hexec
          · exact .inl rfl
          · exact .inl rfl
      | cons ev todo =>
          obtain ⟨k', hk', -⟩ := @Phase.code_publishing_cons V marshal r' tx sent ev todo m
          cases hk'.symm.trans hcode
          obtain ⟨w₁, hp, rfl⟩ := World.exec_eq_some.mp hexec
          cases hp
          exact .inl rfl
  | closing r' tx batch out m =>
      cases out with
      | some err =>
          obtain ⟨-, x, hx, -⟩ := hL
          cases (Phase.code_closing_some r' tx batch err m).symm.trans hcode
          obtain rfl := World.exec_rollback_eq hexec hx.found
          exact .inl rfl
      | none =>
          obtain ⟨⟨m', hrole'⟩, x, hx, -, hview⟩ := hL
          obtain ⟨rfl, -⟩ : r = r' ∧ n = m' := by simpa [hrole] using hrole'
          cases (Phase.code_closing_none r tx batch m).symm.trans hcode
          rcases World.exec_commit_inv hexec hx.found with ⟨err, -, -, rfl⟩ | ⟨-, -, rfl, rfl⟩
          · exact .inl rfl
          · refine .inr ⟨tx, batch, x.started.clock, hx.selected, rfl, hx.rows, fun id => ?_⟩
            rw [← hx.get_view hG.wf hview id, ← World.committed_settle s.world tx.id x]
            rfl

end Reachable

theorem outbox_delivers [DecidableEq ι] (marshal : V → Except GoError String)
    (roles : ι → Role V) {xs : List (Action schema ι)} {s : Sys schema Unit ι Unit}
    (h : run Sys.step (launch marshal roles) xs = some s) :
    -- For every marked row, `Publish` has returned nil for its topic and payload.
    (∀ row ∈ (s.world.committed ()).rows, row.publishedAt.isSome →
      Delivered s.world.hist row.event) ∧
    -- Every published event was stored by a transaction that has committed, and is in the table.
    (∀ e, Sent s.world.hist e →
      ∃ row ∈ (s.world.committed ()).rows, row.event = e ∧ Stored s.world.hist row) ∧
    -- A step of a relay marks its whole batch or changes nothing.
    (∀ c r n e s', roles c = .relay r n → s.step (.step c e) = some s' →
      s'.world.committed () = s.world.committed () ∨ MarksBatch c r s.world s'.world) ∧
    -- Without failures after a `Publish`, no event is published twice, and every marked one once.
    (Along Sys.step Smooth (launch marshal roles) xs →
      (∀ id, timesPublished id s.world.hist ≤ 1) ∧
      ∀ row ∈ (s.world.committed ()).rows, row.publishedAt.isSome →
        timesPublished row.id s.world.hist = 1) := by
  have hinv := (outline_sound marshal roles).run_inv (outline_initial marshal False roles)
    (along_of_forall fun _ _ _ hf => hf.elim) h
  have hG : Global False s.world := hinv.1
  refine ⟨fun row hrow hpub => ?_, fun e hsent => ?_, fun c r n e s' hrole hstep => ?_,
    fun hsmooth => ?_⟩
  · exact hG.delivered (Table.get_eq_some.mpr ⟨hrow, rfl⟩) hpub
  · obtain ⟨row, hrow, hevent⟩ := hG.sent hsent
    exact ⟨row, (Table.get_eq_some.mp hrow).1, hevent, hG.stored hrow⟩
  · exact relay_step_cases hinv hrole hstep
  · have hG' : Global True s.world := ((outline_sound marshal roles).run_inv
      (outline_initial marshal True roles) (hsmooth.imp fun _ _ hx _ => hx) h).1
    refine ⟨hG'.once trivial, fun row hrow hpub => ?_⟩
    exact hG'.marked trivial (Table.get_eq_some.mpr ⟨hrow, rfl⟩) hpub

/-- Two relays, a transaction that stores two orders, and one that stores an
order and returns an error. -/
def shopRoles : Fin 4 → Role String
  | 0 => .business [.op (.store "orders" "1") fun _ => .op (.store "orders" "2") fun _ => .ret none]
  | 1 => .business [.op (.store "orders" "3") fun _ => .ret (some (.new "out of stock"))]
  | 2 => .relay ⟨(), 1⟩ 1
  | _ => .relay ⟨(), 100⟩ 1

/-- While the first relay has one of the orders, the second one takes the other. -/
def shopSteps : List (Action schema (Fin 4)) :=
  [0, 1, 0, 1, 0, 0, 1, 2, 2, 3, 3, 3, 2, 2, 3, 3, 2].map fun c =>
    .step c ⟨⟨0, id, .ok "", none⟩, none⟩

theorem shop_delivers :
    ∃ s, run Sys.step (launch (.ok ·) shopRoles) shopSteps = some s ∧
      (s.world.committed ()).rows.map (fun row => row.publishedAt) = [some 0, some 0] ∧
      ∀ row ∈ (s.world.committed ()).rows, row.publishedAt.isSome →
        Delivered s.world.hist row.event ∧ timesPublished row.id s.world.hist = 1 := by
  have hrun : (run Sys.step (launch (.ok ·) shopRoles) shopSteps).map
      (fun s => (s.world.committed ()).rows.map fun row => row.publishedAt) =
        some [some 0, some 0] := by
    decide
  obtain ⟨s, hs, hrows⟩ := Option.map_eq_some_iff.mp hrun
  obtain ⟨hdelivered, -, -, hsmooth⟩ := outbox_delivers (.ok ·) shopRoles hs
  exact ⟨s, hs, hrows, fun row hrow hpub =>
    ⟨hdelivered row hrow hpub, (hsmooth (by decide)).2 row hrow hpub⟩⟩

end Gkit.Outbox
