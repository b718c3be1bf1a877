import Gkit.Streams.Progress

/-!
# Chains of operators denote list functions

A chain of `Map`, `Filter` and `Take` on top of `FromSlice`, with any capacities,
and the list function that it stands for.  What the caller of `Collect` has
received and what is still to come are this list together, as long as the
producer does not give up.
-/

namespace Gkit.Streams

open Gkit.Lib

variable {α β κ : Type}

/-! ## Chains -/

/-- Operators on top of `FromSlice`, with the capacities of the channels. -/
inductive Chain (α : Type) : Type → Type 1 where
  | fromSlice (cap : ℕ) : Chain α α
  | map {β γ : Type} (c : Chain α β) (fn : β → γ) (cap : ℕ) : Chain α γ
  | filter {β : Type} (c : Chain α β) (keep : β → Bool) (cap : ℕ) : Chain α β
  | take {β : Type} (c : Chain α β) (n : ℤ) (cap : ℕ) : Chain α β

namespace Chain

/-- The number of operators. -/
def length : {β : Type} → Chain α β → ℕ
  | _, .fromSlice _ => 0
  | _, .map c _ _ => c.length + 1
  | _, .filter c _ _ => c.length + 1
  | _, .take c _ _ => c.length + 1

def build (items : List α) : {β : Type} → Chain α β → Net β
  | _, .fromSlice cap => Streams.fromSlice cap items
  | _, .map c fn cap => Streams.map cap (c.build items) fn
  | _, .filter c keep cap => Streams.filter cap (c.build items) keep
  | _, .take c n cap => Streams.take cap (c.build items) n

def denote (items : List α) : {β : Type} → Chain α β → List β
  | _, .fromSlice _ => items
  | _, .map c fn _ => (c.denote items).map fn
  | _, .filter c keep _ => (c.denote items).filter keep
  | _, .take c n _ => (c.denote items).take n.toNat

end Chain

theorem feed_mapStage (fn : α → β) (xs : List α) : (mapStage fn).feed () xs = xs.map fn := by
  induction xs with
  | nil => rfl
  | cons x xs ih => rw [List.map_cons, ← ih]; rfl

theorem feed_filterStage (keep : α → Bool) (xs : List α) :
    (filterStage keep).feed () xs = xs.filter keep := by
  induction xs with
  | nil => rfl
  | cons x xs ih =>
      by_cases hx : keep x = true
      · rw [List.filter_cons_of_pos hx, ← ih]
        exact Transducer.feed_emit (by simp [filterStage, hx]) xs
      · rw [List.filter_cons_of_neg hx, ← ih]
        exact Transducer.feed_skip (by simp [filterStage, hx]) xs

theorem feed_takeStage (n : ℤ) (count : ℕ) (xs : List α) :
    (takeStage n : Stage α α).feed count xs = xs.take (n - count).toNat := by
  induction xs generalizing count with
  | nil => rw [List.take_nil]; rfl
  | cons x xs ih =>
      by_cases hn : (count : ℤ) ≥ n
      · have hzero : (n - count).toNat = 0 := by omega
        rw [hzero, List.take_zero]
        exact Transducer.feed_stop (by simp [takeStage, hn]) xs
      · have hsucc : (n - count).toNat = (n - (count + 1 : ℕ)).toNat + 1 := by omega
        rw [hsucc, List.take_succ_cons, ← ih]
        exact Transducer.feed_emit (by simp [takeStage, hn]) xs

theorem newNode_sound {σ : Type} (s : σ) (cap : ℕ) : (newNode s cap : Node σ β).Sound :=
  ⟨rfl, rfl, rfl, by simp [newNode], by simp [newNode]⟩

theorem Chain.build_sound (c : Chain α β) (items : List α) : (c.build items).Sound := by
  induction c with
  | fromSlice cap => exact ⟨newNode_sound items cap, by simp [newNode]⟩
  | map c fn cap ih => exact ⟨ih, newNode_sound _ cap, by simp [newNode]⟩
  | filter c keep cap ih => exact ⟨ih, newNode_sound _ cap, by simp [newNode]⟩
  | take c n cap ih => exact ⟨ih, newNode_sound _ cap, by simp [newNode]⟩

theorem Chain.build_future (c : Chain α β) (items : List α) :
    (c.build items).future = c.denote items := by
  induction c with
  | fromSlice cap => rfl
  | map c fn cap ih =>
      rw [Chain.denote, ← ih]
      exact feed_mapStage fn _
  | filter c keep cap ih =>
      rw [Chain.denote, ← ih]
      exact feed_filterStage keep _
  | take c n cap ih =>
      rw [Chain.denote, ← ih]
      have hfeed := feed_takeStage n 0 (c.build items).future
      rw [Nat.cast_zero, sub_zero] at hfeed
      exact hfeed

theorem Chain.build_rank (c : Chain α β) (items : List α) (w : ℕ) :
    (c.build items).rank w = (2 * c.length + w + 2) * items.length + 4 * c.length + 4 := by
  induction c generalizing w with
  | fromSlice cap =>
      simp [Chain.build, Streams.fromSlice, Net.rank, Node.rank, newNode, Worker.rank, Chain.length]
      ring
  | map c fn cap ih =>
      simp only [Chain.build, Streams.map, Net.rank, Node.rank, newNode, Worker.rank, ih,
        Chain.length, List.length_nil]
      ring
  | filter c keep cap ih =>
      simp only [Chain.build, Streams.filter, Net.rank, Node.rank, newNode, Worker.rank, ih,
        Chain.length, List.length_nil]
      ring
  | take c n cap ih =>
      simp only [Chain.build, Streams.take, Net.rank, Node.rank, newNode, Worker.rank, ih,
        Chain.length, List.length_nil]
      ring

/-! ## Received and to come -/

/-- What the caller has received and what is to come make up the whole. -/
def Consumer.Awaits (whole rest : List α) : Consumer α → Prop
  | .collecting out => out ++ rest = whole
  | .checking out => out = whole ∧ rest = []
  | .returned out err => err = none → out = whole

def Consumer.hasReturned : Consumer α → Bool
  | .returned _ _ => true
  | _ => false

structure Pending (ctx₁ : κ) (whole : List α) (s : Sys κ α) : Prop where
  sound : s.net.Sound
  /-- The producer has no reason to give up before `Collect` returns. -/
  live : s.consumer.hasReturned = false → s.done ctx₁ = none ∨ s.net.unsent = 0
  awaits : s.consumer.Awaits whole s.net.future

variable [DecidableEq κ] {ctx₁ ctx₂ : κ} {s s' : Sys κ α} {x : Action κ} {whole : List α}

/-- The context of the producer ends only when all elements have been sent, or
after `Collect` has returned. -/
def Timely (ctx₁ : κ) (s : Sys κ α) : Action κ → Prop
  | .cancel k _ => k = ctx₁ → s.consumer.hasReturned = false → s.net.unsent = 0
  | _ => True

instance Timely.decidable (ctx₁ : κ) (s : Sys κ α) : ∀ x, Decidable (Timely ctx₁ s x)
  | .cancel k _ => inferInstanceAs
      (Decidable (k = ctx₁ → s.consumer.hasReturned = false → s.net.unsent = 0))
  | .net _ | .recv | .expire | .check => inferInstanceAs (Decidable True)

omit [DecidableEq κ] in
theorem timely_of_ne_cancel (hx : ∀ k err, x ≠ .cancel k err) : Timely ctx₁ s x := by
  cases x with
  | cancel k err => exact absurd rfl (hx k err)
  | _ => trivial

theorem Sys.Effect.consumer_eq (h : s.Effect ctx₁ ctx₂ x s')
    (hret : s.consumer.hasReturned = true) : s'.consumer = s.consumer := by
  cases h with
  | received hc ht => simp [hc, Consumer.hasReturned] at hret
  | ended hc ht => simp [hc, Consumer.hasReturned] at hret
  | expired hc hdone => simp [hc, Consumer.hasReturned] at hret
  | failed hc hbuf => simp [hc, Consumer.hasReturned] at hret
  | succeeded hc hbuf => simp [hc, Consumer.hasReturned] at hret
  | _ => rfl

/-- Until `Collect` returns, the producer stays without a reason to give up. -/
theorem Pending.live_step (hp : Pending ctx₁ whole s) (hx : Timely ctx₁ s x)
    (hret : s.consumer.hasReturned = false) (h : s.Effect ctx₁ ctx₂ x s') :
    s'.done ctx₁ = none ∨ s'.net.unsent = 0 := by
  have hlive {net' : Net α} (hle : net'.unsent ≤ s.net.unsent) :
      s.done ctx₁ = none ∨ net'.unsent = 0 := by
    rcases hp.live hret with hnone | hzero
    · exact .inl hnone
    · exact .inr (by omega)
  cases h with
  | behind h => exact hlive (h.future_eq hp.sound (hp.live hret)).2
  | received hc ht => exact hlive ht.unsent_le
  | ended hc ht => exact hlive ht.unsent_le
  | failed hc hbuf => simp [hp.sound.errCh_buf] at hbuf
  | @cancelled k err hk =>
      by_cases hk₁ : k = ctx₁
      · subst hk₁
        exact .inr (hx rfl hret)
      · exact (hp.live hret).imp (fun hnone => by simpa [Function.update_of_ne (Ne.symm hk₁)]) id
  | _ => exact hp.live hret

theorem Pending.awaits_step (hp : Pending ctx₁ whole s) (hret : s.consumer.hasReturned = false)
    (h : s.Effect ctx₁ ctx₂ x s') : s'.consumer.Awaits whole s'.net.future := by
  have hawaits := hp.awaits
  cases h with
  | behind h =>
      rw [(h.future_eq hp.sound (hp.live hret)).1]
      exact hawaits
  | received hc ht =>
      rw [hc, ht.future_eq] at hawaits
      simpa [Consumer.Awaits] using hawaits
  | ended hc ht =>
      obtain ⟨rfl, hbuf, hclosed⟩ := ht.ended
      have hnil := hp.sound.future_eq_nil hbuf hclosed
      rw [hc, Consumer.Awaits, hnil, List.append_nil] at hawaits
      exact ⟨hawaits, hnil⟩
  | expired hc hdone => simp [Consumer.Awaits]
  | failed hc hbuf => simp [hp.sound.errCh_buf] at hbuf
  | succeeded hc hbuf =>
      rw [hc] at hawaits
      exact fun _ => hawaits.1
  | cancelled hk => exact hawaits

theorem Pending.step (hp : Pending ctx₁ whole s) (hx : Timely ctx₁ s x)
    (hstep : s.step ctx₁ ctx₂ x = some s') : Pending ctx₁ whole s' := by
  have heffect := Sys.effect_of_step hstep
  have hsound := heffect.sound hp.sound
  cases hret : s.consumer.hasReturned with
  | false => exact ⟨hsound, fun _ => hp.live_step hx hret heffect, hp.awaits_step hret heffect⟩
  | true =>
      have hconsumer := heffect.consumer_eq hret
      refine ⟨hsound, fun hno => by simp [hconsumer, hret] at hno, ?_⟩
      have hawaits := hp.awaits
      rw [hconsumer]
      cases hc : s.consumer with
      | returned out err => rwa [hc] at hawaits
      | _ => simp [hc, Consumer.hasReturned] at hret

omit [DecidableEq κ] in
theorem Chain.pending_start (ctx₁ : κ) (c : Chain α β) (items : List α) :
    Pending ctx₁ (c.denote items) (start (c.build items)) :=
  ⟨c.build_sound items, fun _ => .inl rfl, c.build_future items⟩

/-! ## All runs -/

def Unfailed (s : Sys κ α) : Prop := ∀ out err, s.consumer = .returned out err → err = none

/-- Only the end of its context makes `Collect` fail. -/
theorem Unfailed.step (hu : Unfailed s) (hs : s.net.Sound)
    (hx : x = .expire → s.done ctx₂ = none) (hstep : s.step ctx₁ ctx₂ x = some s') :
    Unfailed s' := by
  cases Sys.effect_of_step hstep with
  | received hc ht => simp [Unfailed]
  | ended hc ht => simp [Unfailed]
  | expired hc hdone => simp [hx rfl] at hdone
  | failed hc hbuf => simp [hs.errCh_buf] at hbuf
  | succeeded hc hbuf => simp [Unfailed]
  | _ => exact hu

theorem done_of_step (hdone : ∀ k, s.done k = none) (hx : ∀ k err, x ≠ .cancel k err)
    (hstep : s.step ctx₁ ctx₂ x = some s') : ∀ k, s'.done k = none := by
  cases Sys.effect_of_step hstep with
  | cancelled hk => exact absurd rfl (hx _ _)
  | _ => exact hdone

theorem collect_eq_denote (ctx₁ ctx₂ : κ) (c : Chain α β) (items : List α)
    {xs : List (Action κ)} {s : Sys κ β}
    (hrun : run (Sys.step ctx₁ ctx₂) (start (c.build items)) xs = some s)
    (hxs : ∀ k err, .cancel k err ∉ xs) :
    -- every run is short, and it goes on until `Collect` returns
    xs.length ≤ (2 * c.length + 3) * items.length + 4 * c.length + 6 ∧
      ((∃ out err, s.consumer = .returned out err) ∨
        ∃ x, (∀ k err, x ≠ .cancel k err) ∧ (s.step ctx₁ ctx₂ x).isSome) ∧
      ∀ out err, s.consumer = .returned out err → out = c.denote items ∧ err = none := by
  have halong : Along (Sys.step ctx₁ ctx₂) (fun _ x => ∀ k err, x ≠ .cancel k err)
      (start (c.build items)) xs :=
    along_of_forall fun x hx _ k err hxe => hxs k err (hxe ▸ hx)
  obtain ⟨hp, hu, -⟩ := run_invariant
    (P := fun t => Pending ctx₁ (c.denote items) t ∧ Unfailed t ∧ ∀ k, t.done k = none)
    (fun _ _ _ ⟨hp, hu, hd⟩ hx hstep => ⟨hp.step (timely_of_ne_cancel hx) hstep,
      hu.step hp.sound (fun _ => hd ctx₂) hstep, done_of_step hd hx hstep⟩)
    ⟨c.pending_start ctx₁ items, by simp [Unfailed, start], fun _ => rfl⟩ halong hrun
  have hlength := length_add_rank_le Sys.rank (P := fun s : Sys κ β => s.net.Sound)
    (fun _ _ _ hs hx hstep => ⟨(Sys.effect_of_step hstep).sound hs,
      (Sys.effect_of_step hstep).rank_lt hs hx⟩) (c.build_sound items) halong hrun
  have hweight : 2 * c.length + 1 + 2 = 2 * c.length + 3 := rfl
  rw [Sys.rank, Sys.rank, start, c.build_rank, Consumer.rank, hweight] at hlength
  refine ⟨by omega, ?_, fun out err hc => ?_⟩
  · rcases Sys.progress ctx₁ ctx₂ hp.sound with hret | ⟨x, hx, -, hsome⟩
    · exact .inl hret
    · exact .inr ⟨x, hx, hsome⟩
  · have hawaits := hp.awaits
    rw [hc] at hawaits
    exact ⟨hawaits (hu out err hc), hu out err hc⟩

/-- Two elements through `Map` and `Take`, which stops at the second. -/
def tenfold : Chain ℕ ℕ := ((Chain.fromSlice 16).map (10 * ·) 16).take 1 16

def tenfoldRun : List (Action Unit) :=
  [.net (.up (.up .go)), .net (.up (.up .go)), .net (.up .go), .net (.up .go), .net .go, .net .go,
    .recv, .net (.up (.up .go)), .net (.up (.up .go)), .net (.up .go), .net (.up .go), .net .go,
    .net .go, .net .go, .recv, .check]

theorem tenfold_collected :
    ∃ s out, run (Sys.step () ()) (start (tenfold.build [1, 2])) tenfoldRun = some s ∧
      s.consumer = .returned out none ∧ out = [10] := by
  have hc : (run (Sys.step () ()) (start (tenfold.build [1, 2])) tenfoldRun).map Sys.consumer =
      some (.returned [10] none) := rfl
  obtain ⟨s, hrun, hc⟩ := Option.map_eq_some_iff.mp hc
  have hcollect := collect_eq_denote () () tenfold [1, 2] hrun (by simp [tenfoldRun])
  exact ⟨s, [10], hrun, hc, (hcollect.2.2 _ _ hc).1⟩

end Gkit.Streams
