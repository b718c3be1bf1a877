import Gkit.Streams.Collect

/-!
# What is lost when the producer gives up

A producer whose context is done closes its channels just as one that has sent
everything, so the caller of `Collect` sees no error.  Through `Map` operators
nothing else is lost: the list is complete if the context ends only when all
elements have been sent, and if it ends earlier there is a schedule in which the
rest is missing and `Collect` returns no error.
-/

namespace Gkit.Streams

open Gkit.Lib

variable {α β κ σ : Type}

/-! ## Chains of `Map` -/

inductive Maps (α : Type) : Type → Type 1 where
  | fromSlice (cap : ℕ) : Maps α α
  | map {β γ : Type} (m : Maps α β) (fn : β → γ) (cap : ℕ) : Maps α γ

namespace Maps

def chain : {β : Type} → Maps α β → Chain α β
  | _, .fromSlice cap => .fromSlice cap
  | _, .map m fn cap => .map m.chain fn cap

/-- The image of an element. -/
def image : {β : Type} → Maps α β → α → β
  | _, .fromSlice _, x => x
  | _, .map m fn _, x => fn (m.image x)

theorem denote_chain (m : Maps α β) (items : List α) :
    m.chain.denote items = items.map m.image := by
  induction m with
  | fromSlice cap => exact (List.map_id items).symm
  | map m fn cap ih => rw [chain, Chain.denote, ih, List.map_map]; rfl

end Maps

/-! ## Operators that lose nothing -/

def Worker.inLoop : Worker σ β → Bool
  | .ranging _ | .sending _ _ => true
  | _ => false

/-- Each operator puts out one value for each element, and it is in its loop as
long as something is to come. -/
def Net.Lossless : {α : Type} → Net α → Prop
  | _, .source _ => True
  | _, .stage up op n => up.Lossless ∧ op.Total ∧ (n.worker.inLoop = false → up.future = [])

theorem Maps.build_lossless (m : Maps α β) (items : List α) :
    (m.chain.build items).Lossless := by
  induction m with
  | fromSlice cap => trivial
  | map m fn cap ih => exact ⟨ih, fun s x => ⟨fn x, (), rfl⟩, nofun⟩

theorem Net.Taken.lossless {net net' : Net α} {o : Option α} (h : net.Taken o net')
    (hl : net.Lossless) : net'.Lossless := by
  cases h with
  | source h => trivial
  | stage h =>
      refine ⟨hl.1, hl.2.1, ?_⟩
      cases h with
      | met hw hbuf => nofun
      | _ => exact hl.2.2

theorem Effect.lossless {done : Option GoError} {net net' : Net α} {a : Act}
    (h : Effect done net a net') (hs : net.Sound) (hdone : done = none ∨ net.unsent = 0)
    (hl : net.Lossless) : net'.Lossless := by
  induction h with
  | exhausted hw => trivial
  | picked hw => trivial
  | gaveUp hw hsome => trivial
  | sourceOwn h => trivial
  | @stopped _ _ _ _ _ _ s v hw ht hr =>
      obtain ⟨y, t, hemit⟩ := hl.2.1 s v
      rw [hr] at hemit
      nomatch hemit
  | skipped hw ht hr => exact ⟨ht.lossless hl.1, hl.2.1, nofun⟩
  | emitted hw ht hr => exact ⟨ht.lossless hl.1, hl.2.1, nofun⟩
  | ended hw ht =>
      obtain ⟨rfl, hbuf, hclosed⟩ := ht.ended
      exact ⟨hl.1, hl.2.1, fun _ => hs.1.future_eq_nil hbuf hclosed⟩
  | failed hw hbuf => simp [hs.1.errCh_buf] at hbuf
  | drained hw hbuf hclosed => exact ⟨hl.1, hl.2.1, fun _ => hl.2.2 (by rw [hw]; rfl)⟩
  | stageOwn h =>
      refine ⟨hl.1, hl.2.1, hs.2.1.own_cases h (fun v s hw hopen => nofun) (fun hw _ => ?_)
        (fun hw _ => ?_)⟩
      · exact hl.2.2 (by rw [hw]; rfl)
      · exact hl.2.2 (by rw [hw]; rfl)
  | behind h ih =>
      refine ⟨ih hs.1 hdone hl.1, hl.2.1, fun hw => ?_⟩
      rw [(h.future_eq hs.1 hdone).1]
      exact hl.2.2 hw

/-- The values to come from an operator that is in its loop. -/
theorem Node.length_future {op : Stage α β} (hop : op.Total) {n : Node op.State β}
    (hw : n.worker.inLoop = true) : ∃ k, ∀ xs : List α,
      (n.future fun s => op.feed s xs).length = k + xs.length := by
  cases hn : n.worker with
  | ranging s =>
      exact ⟨n.ch.buf.length, fun xs => by
        simp [Node.future, hn, Worker.future, hop.length_feed]⟩
  | sending v s =>
      refine ⟨n.ch.buf.length + 1, fun xs => ?_⟩
      simp only [Node.future, hn, Worker.future, hop.length_feed, List.length_append,
        List.length_cons]
      omega
  | _ => simp [hn, Worker.inLoop] at hw

theorem Node.future_isPrefix {op : Stage α β} (n : Node op.State β) {xs ys : List α}
    (h : xs <+: ys) : n.future (fun s => op.feed s xs) <+: n.future fun s => op.feed s ys := by
  apply (List.prefix_append_right_inj n.ch.buf).mpr
  cases hw : n.worker with
  | ranging s => exact Transducer.feed_isPrefix s h
  | sending v s => exact (List.prefix_cons_inj v).mpr (Transducer.feed_isPrefix s h)
  | _ => exact List.prefix_rfl

theorem Net.Lossless.unsent_le {net : Net α} (hl : net.Lossless) :
    net.unsent ≤ net.future.length := by
  induction net with
  | source n => simp [Net.unsent, Net.future, Node.future]
  | stage up op n ih =>
      have hup := ih hl.1
      cases hw : n.worker.inLoop with
      | true =>
          obtain ⟨k, hk⟩ := Node.length_future hl.2.1 hw
          simp only [Net.unsent, Net.future, hk]
          omega
      | false =>
          rw [hl.2.2 hw] at hup
          exact (Nat.le_zero.mp hup).trans_le (Nat.zero_le _)

/-! ## Giving up -/

theorem run_up {done : Option GoError} {up up' : Net α} {as : List Act}
    (h : run (Net.step done) up as = some up') (op : Stage α β) (n : Node op.State β) :
    run (Net.step done) (.stage up op n) (as.map .up) = some (.stage up' op n) := by
  induction as generalizing up with
  | nil => rw [Option.some.inj h]; rfl
  | cons a as ih =>
      obtain ⟨v, hv, hrest⟩ := run_cons_eq_some.mp h
      exact run_cons_eq_some.mpr ⟨_, by simp [Net.step, hv], ih hrest⟩

/-- A producer whose context is done can give up, and what it has not sent is then
missing in what is to come. -/
theorem Net.Lossless.exists_giveUp {done : Option GoError} (hdone : done.isSome = true)
    {net : Net α} (hl : net.Lossless) (hunsent : net.unsent ≠ 0) :
    ∃ as net', run (Net.step done) net as = some net' ∧ net'.unsent = 0 ∧
      net'.future <+: net.future ∧ net'.future.length + net.unsent = net.future.length := by
  induction net with
  | source n =>
      have hafter : (Net.source { n with worker := .returning }).future <+: (Net.source n).future :=
        by simp [Net.future, Node.future, Worker.future]
      have hlength : (Net.source { n with worker := .returning }).future.length +
          (Net.source n).unsent = (Net.source n).future.length := by
        simp [Net.future, Net.unsent, Node.future, Worker.future]
      cases hw : n.worker with
      | ranging todo =>
          cases todo with
          | nil => simp [Net.unsent, hw, Worker.future] at hunsent
          | cons v todo =>
              exact ⟨[.go, .giveUp], _, by simp [run, Net.step, sourceGo, hw, hdone], rfl, hafter,
                hlength⟩
      | sending v todo =>
          exact ⟨[.giveUp], _, by simp [run, Net.step, hw, hdone], rfl, hafter, hlength⟩
      | _ => simp [Net.unsent, hw, Worker.future] at hunsent
  | stage up op n ih =>
      obtain ⟨as, up', hrun, hzero, hpre, hlength⟩ := ih hl.1 hunsent
      refine ⟨as.map .up, .stage up' op n, run_up hrun op n, hzero, n.future_isPrefix hpre, ?_⟩
      cases hw : n.worker.inLoop with
      | true =>
          obtain ⟨k, hk⟩ := Node.length_future hl.2.1 hw
          simp only [Net.unsent, Net.future, hk]
          omega
      | false =>
          have hup := hl.1.unsent_le
          rw [hl.2.2 hw] at hup
          exact absurd (Nat.le_zero.mp hup) hunsent

/-! ## All runs -/

variable [DecidableEq κ] {ctx₁ ctx₂ : κ} {s : Sys κ α}

theorem run_net {as : List Act} {net' : Net α}
    (h : run (Net.step (s.done ctx₁)) s.net as = some net') :
    run (Sys.step ctx₁ ctx₂) s (as.map .net) = some { s with net := net' } := by
  induction as generalizing s with
  | nil => rw [← Option.some.inj h]; rfl
  | cons a as ih =>
      obtain ⟨v, hv, hrest⟩ := run_cons_eq_some.mp h
      have hrest := ih (s := { s with net := v }) hrest
      exact run_cons_eq_some.mpr ⟨{ s with net := v }, by simp [Sys.step, hv], hrest⟩

/-- From where the producer has no reason to give up, `Collect` can return the
whole list. -/
theorem Pending.exists_return {whole : List α} (hp : Pending ctx₁ whole s) (hu : Unfailed s)
    (ctx₂ : κ) :
    ∃ xs t, run (Sys.step ctx₁ ctx₂) s xs = some t ∧ t.consumer = .returned whole none := by
  have hprogress (t : Sys κ α) (ht : Pending ctx₁ whole t ∧ Unfailed t) :
      (∃ out err, t.consumer = .returned out err) ∨
        ∃ x t', t.step ctx₁ ctx₂ x = some t' ∧ (Pending ctx₁ whole t' ∧ Unfailed t') ∧
          t'.rank < t.rank := by
    obtain ⟨hp, hu⟩ := ht
    rcases Sys.progress ctx₁ ctx₂ hp.sound with hret | ⟨x, hcancel, hexpire, hsome⟩
    · exact .inl hret
    · obtain ⟨t', hstep⟩ := Option.isSome_iff_exists.mp hsome
      exact .inr ⟨x, t', hstep, ⟨hp.step (timely_of_ne_cancel hcancel) hstep,
        hu.step hp.sound (absurd · hexpire) hstep⟩,
        (Sys.effect_of_step hstep).rank_lt hp.sound hcancel⟩
  obtain ⟨xs, t, hrun, ⟨hp, hu⟩, out, err, hc⟩ :=
    exists_run_of_progress Sys.rank hprogress ⟨hp, hu⟩
  have hawaits := hp.awaits
  obtain rfl := hu out err hc
  rw [hc] at hawaits
  exact ⟨xs, t, hrun, by rw [hc, hawaits rfl]⟩

/-- The context of the producer ends, the producer gives up, and `Collect` returns
what was sent until then. -/
theorem Pending.exists_truncated {whole : List α} (hp : Pending ctx₁ whole s)
    (hl : s.net.Lossless) (hret : s.consumer.hasReturned = false) (hunsent : s.net.unsent ≠ 0)
    (hdone : s.done ctx₁ = none) (ctx₂ : κ) (err : GoError) :
    ∃ xs t out, run (Sys.step ctx₁ ctx₂) s (.cancel ctx₁ err :: xs) = some t ∧
      t.consumer = .returned out none ∧ out <+: whole ∧
      out.length + s.net.unsent = whole.length := by
  obtain ⟨out, hc⟩ : ∃ out, s.consumer = .collecting out := by
    have hawaits := hp.awaits
    cases hc : s.consumer with
    | collecting out => exact ⟨out, rfl⟩
    | checking out =>
        rw [hc] at hawaits
        have hle := hl.unsent_le
        rw [hawaits.2] at hle
        exact absurd (Nat.le_zero.mp hle) hunsent
    | returned out err => simp [hc, Consumer.hasReturned] at hret
  have hwhole : out ++ s.net.future = whole := by
    simpa only [hc, Consumer.Awaits] using hp.awaits
  let s₁ : Sys κ α := { s with done := Function.update s.done ctx₁ (some err) }
  have hcancel : s.step ctx₁ ctx₂ (.cancel ctx₁ err) = some s₁ := by
    simp [Sys.step, Sys.cancel, hdone, s₁]
  have hsome : (s₁.done ctx₁).isSome = true := by simp [s₁]
  obtain ⟨as, net', hrun, hzero, hpre, hlength⟩ := hl.exists_giveUp hsome hunsent
  have hsound : net'.Sound := run_forall (P := Net.Sound)
    (fun _ _ _ hs hstep => ((effect_of_netStep hstep).sound hs).1) hp.sound hrun
  have hp₂ : Pending ctx₁ (out ++ net'.future) { s₁ with net := net' } :=
    ⟨hsound, fun _ => .inr hzero, by simp [s₁, hc, Consumer.Awaits]⟩
  obtain ⟨xs, t, hrest, ht⟩ := hp₂.exists_return (by simp [Unfailed, s₁, hc]) ctx₂
  refine ⟨as.map .net ++ xs, t, out ++ net'.future, ?_, ht, ?_, ?_⟩
  · exact run_cons_eq_some.mpr ⟨s₁, hcancel, run_append_eq_some.mpr ⟨_, run_net hrun, hrest⟩⟩
  · rw [← hwhole]
    exact (List.prefix_append_right_inj out).mpr hpre
  · rw [← hwhole, List.length_append, List.length_append, ← hlength]
    omega

/-- Until `Collect` returns nothing is lost. -/
theorem Pending.lossless_step {whole : List α} {x : Action κ} {s' : Sys κ α}
    (hp : Pending ctx₁ whole s) (hl : s.consumer.hasReturned = false → s.net.Lossless)
    (hstep : s.step ctx₁ ctx₂ x = some s') (hret' : s'.consumer.hasReturned = false) :
    s'.net.Lossless := by
  have heffect := Sys.effect_of_step hstep
  have hret : s.consumer.hasReturned = false := by
    by_contra hret
    have hret := Bool.eq_true_of_not_eq_false hret
    simp [heffect.consumer_eq hret, hret] at hret'
  cases heffect with
  | behind h => exact h.lossless hp.sound (hp.live hret) (hl hret)
  | received hc ht => exact ht.lossless (hl hret)
  | ended hc ht => exact ht.lossless (hl hret)
  | failed hc hbuf => simp [hp.sound.errCh_buf] at hbuf
  | _ => exact hl hret

theorem collect_complete (ctx₁ ctx₂ : κ) (m : Maps α β) (items : List α) {xs : List (Action κ)}
    {s : Sys κ β} (hrun : run (Sys.step ctx₁ ctx₂) (start (m.chain.build items)) xs = some s)
    (hxs : Along (Sys.step ctx₁ ctx₂) (Timely ctx₁) (start (m.chain.build items)) xs) :
    (∀ out, s.consumer = .returned out none → out = items.map m.image) ∧
      -- any other end of the context of the producer can be followed by a silent loss
      ∀ err, s.done ctx₁ = none → ¬ Timely ctx₁ s (.cancel ctx₁ err) →
        ∃ ys t out, run (Sys.step ctx₁ ctx₂) s (.cancel ctx₁ err :: ys) = some t ∧
          t.consumer = .returned out none ∧ out <+: items.map m.image ∧
          out.length < items.length := by
  have hwhole := m.denote_chain items
  obtain ⟨hp, hl⟩ := run_invariant (P := fun t => Pending ctx₁ (m.chain.denote items) t ∧
      (t.consumer.hasReturned = false → t.net.Lossless))
    (fun _ _ _ ⟨hp, hl⟩ hx hstep => ⟨hp.step hx hstep, hp.lossless_step hl hstep⟩)
    ⟨m.chain.pending_start ctx₁ items, fun _ => m.build_lossless items⟩ hxs hrun
  rw [hwhole] at hp
  refine ⟨fun out hc => ?_, fun err hdone hlate => ?_⟩
  · have hawaits := hp.awaits
    rw [hc] at hawaits
    exact hawaits rfl
  · simp only [Timely, forall_const, Classical.not_imp] at hlate
    obtain ⟨ys, t, out, hys, hc, hpre, hlength⟩ :=
      hp.exists_truncated (hl hlate.1) hlate.1 hlate.2 hdone ctx₂ err
    rw [List.length_map] at hlength
    exact ⟨ys, t, out, hys, hc, hpre, by have := hlate.2; omega⟩

/-- One element through `Map`. -/
def tenfoldMap : Maps ℕ ℕ := (Maps.fromSlice 16).map (10 * ·) 16

def truncatedRun : List (Action Unit) :=
  [.cancel () (.new "context canceled"), .net (.up .go), .net (.up .giveUp), .net (.up .go),
    .net (.up .go), .net .go, .net .go, .net .go, .net .go, .recv, .check]

theorem cancelled_source_truncates :
    ∃ s out, run (Sys.step () ()) (start (tenfoldMap.chain.build [7])) truncatedRun = some s ∧
      s.consumer = .returned out none ∧ ∃ x ∈ [7], tenfoldMap.image x ∉ out := by
  have hc : (run (Sys.step () ()) (start (tenfoldMap.chain.build [7])) truncatedRun).map
      Sys.consumer = some (.returned [] none) := rfl
  obtain ⟨s, hrun, hc⟩ := Option.map_eq_some_iff.mp hc
  exact ⟨s, [], hrun, hc, 7, by simp, by simp⟩

/-- The context ends when the element has been sent. -/
def completeRun : List (Action Unit) :=
  [.net (.up .go), .net (.up .go), .cancel () (.new "context canceled"), .net (.up .go),
    .net (.up .go), .net (.up .go), .net .go, .net .go, .net .go, .net .go, .net .go, .net .go,
    .recv, .recv, .check]

theorem cancelled_after_send_complete :
    ∃ s out, run (Sys.step () ()) (start (tenfoldMap.chain.build [7])) completeRun = some s ∧
      s.consumer = .returned out none ∧ out = [70] := by
  have hc : (run (Sys.step () ()) (start (tenfoldMap.chain.build [7])) completeRun).map
      Sys.consumer = some (.returned [70] none) := rfl
  obtain ⟨s, hrun, hc⟩ := Option.map_eq_some_iff.mp hc
  have htimely : Along (Sys.step () ()) (Timely ()) (start (tenfoldMap.chain.build [7]))
      completeRun := by decide
  exact ⟨s, [70], hrun, hc, (collect_complete () () tenfoldMap [7] hrun htimely).1 _ hc⟩

end Gkit.Streams
