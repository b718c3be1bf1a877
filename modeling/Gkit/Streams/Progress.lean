import Gkit.Streams.Meaning

/-!
# `Collect` comes to its end

A value is worth the operations that it has still to go through on its way to
the caller.  Every operation lowers the total, and until `Collect` has returned
some goroutine behind the stream or the caller can go on.
-/

namespace Gkit.Streams

open Gkit.Lib

variable {α β κ σ : Type}

/-! ## The work that is left -/

/-- For a goroutine whose values are worth `w` each once they are sent. -/
def Worker.rank (w : ℕ) (load : σ → ℕ) : Worker σ β → ℕ
  | .ranging s => 4 + load s
  | .sending _ s => 4 + (w + 1) + load s
  | .draining => 3
  | .returning => 2
  | .closing => 1
  | _ => 0

def Node.rank (w : ℕ) (load : σ → ℕ) (n : Node σ β) : ℕ :=
  w * n.ch.buf.length + n.worker.rank w load

def Net.rank : {α : Type} → ℕ → Net α → ℕ
  | _, w, .source n => n.rank w fun todo => (w + 2) * todo.length
  | _, w, .stage up _ n => n.rank w (fun _ => 0) + up.rank (w + 2)

theorem Node.Sound.rank_lt {n n' : Node σ β} (hs : n.Sound) (h : n.Own n') (w : ℕ)
    (load : σ → ℕ) : n'.rank w load < n.rank w load := by
  refine hs.own_cases h (fun v s hw hopen => ?_) (fun hw => ?_) (fun hw => ?_)
  · simp only [Node.rank, hw, Worker.rank, List.length_append, List.length_cons, List.length_nil,
      mul_add]
    omega
  · simp [Node.rank, hw, Worker.rank]
  · simp [Node.rank, hw, Worker.rank]

theorem Node.Taken.rank_le {n n' : Node σ β} {v : β} (h : n.Taken (some v) n') (w : ℕ)
    (load : σ → ℕ) : n'.rank w load + w ≤ n.rank w load := by
  cases h with
  | buffered hbuf =>
      simp only [Node.rank, hbuf, List.length_cons, mul_add]
      omega
  | met hw hbuf =>
      simp only [Node.rank, hw, Worker.rank]
      omega

theorem Net.Taken.rank_le {net net' : Net α} {v : α} (h : net.Taken (some v) net') (w : ℕ) :
    net'.rank w + w ≤ net.rank w := by
  cases h with
  | source h => exact h.rank_le w _
  | stage h =>
      have := h.rank_le w fun _ => 0
      simp only [Net.rank]
      omega

theorem Effect.rank_lt {done : Option GoError} {net net' : Net α} {a : Act}
    (h : Effect done net a net') (hs : net.Sound) (w : ℕ) : net'.rank w < net.rank w := by
  induction h generalizing w with
  | exhausted hw => simp [Net.rank, Node.rank, hw, Worker.rank]
  | picked hw =>
      simp only [Net.rank, Node.rank, hw, Worker.rank, List.length_cons, mul_add]
      omega
  | gaveUp hw hdone =>
      simp only [Net.rank, Node.rank, hw, Worker.rank]
      omega
  | sourceOwn h => exact hs.1.rank_lt h w _
  | stopped hw ht hr =>
      have := ht.rank_le (w + 2)
      simp only [Net.rank, Node.rank, hw, Worker.rank]
      omega
  | skipped hw ht hr =>
      have := ht.rank_le (w + 2)
      simp only [Net.rank, Node.rank, hw, Worker.rank]
      omega
  | emitted hw ht hr =>
      have := ht.rank_le (w + 2)
      simp only [Net.rank, Node.rank, hw, Worker.rank]
      omega
  | @ended _ _ up up' op n s hw ht =>
      obtain ⟨rfl, -, -⟩ := ht.ended
      cases hp : op.propagates <;> simp [Net.rank, Node.rank, hw, Worker.rank]
  | failed hw hbuf => simp [hs.1.errCh_buf] at hbuf
  | drained hw hbuf hclosed => simp [Net.rank, Node.rank, hw, Worker.rank]
  | stageOwn h =>
      have := hs.2.1.rank_lt h w fun _ => 0
      simp only [Net.rank]
      omega
  | behind h ih =>
      have := ih hs.1 (w + 2)
      simp only [Net.rank]
      omega

def Consumer.rank : Consumer α → ℕ
  | .collecting _ => 2
  | .checking _ => 1
  | .returned _ _ => 0

def Sys.rank (s : Sys κ α) : ℕ := s.net.rank 1 + s.consumer.rank

/-! ## Some goroutine can go on -/

/-- A goroutine that is past its loop and has not exited can go on. -/
theorem Node.Sound.go_isSome {n : Node σ β} (hs : n.Sound)
    (hw : n.worker = .returning ∨ n.worker = .closing) : n.go.isSome := by
  rcases hw with hw | hw
  · have hopen : n.errCh.closed = false := by rw [hs.errCh, hw]; rfl
    simp [Node.go, hw, Chan.close, hopen]
  · have hopen : n.ch.closed = false := by rw [hs.ch, hw]; rfl
    simp [Node.go, hw, Chan.close, hopen]

/-- A receive has to wait only on an open channel. -/
theorem Node.Sound.take_isSome {n : Node σ β} (hs : n.Sound)
    (hw : n.worker = .exited ∨ ∃ v s, n.worker = .sending v s) : n.take.isSome := by
  rcases n.ch.recv_cases with ⟨v, buf, hbuf, hr⟩ | ⟨hbuf, hclosed, hr⟩ | ⟨hbuf, hopen, hr⟩
  · simp [Node.take, hr]
  · simp [Node.take, hr]
  · rcases hw with hw | ⟨v, s, hw⟩
    · rw [hs.ch, hw] at hopen
      nomatch hopen
    · simp [Node.take, hr, hw, Chan.meets, hbuf, hopen]

theorem Net.Sound.progress {net : Net α} (hs : net.Sound) (done : Option GoError) :
    net.take.isSome ∨ ∃ a, (net.step done a).isSome := by
  induction net with
  | source n =>
      have hgo (h : (sourceGo n).isSome) : ∃ a, ((Net.source n).step done a).isSome :=
        ⟨.go, by simpa [Net.step] using h⟩
      cases hw : n.worker with
      | ranging todo => exact .inr (hgo (by cases todo <;> simp [sourceGo, hw]))
      | sending v todo =>
          exact .inl (by simpa [Net.take] using hs.1.take_isSome (.inr ⟨v, todo, hw⟩))
      | draining => exact absurd hw hs.2
      | reporting err => exact absurd hw (hs.1.silent err)
      | returning =>
          exact .inr (hgo (by simpa [sourceGo, hw] using hs.1.go_isSome (.inl hw)))
      | closing =>
          exact .inr (hgo (by simpa [sourceGo, hw] using hs.1.go_isSome (.inr hw)))
      | exited => exact .inl (by simpa [Net.take] using hs.1.take_isSome (.inl hw))
      | crashed text => exact absurd hw (hs.1.alive text)
  | stage up op n ih =>
      have hgo (h : (stageGo up op n).isSome) : ∃ a, ((Net.stage up op n).step done a).isSome :=
        ⟨.go, h⟩
      cases hw : n.worker with
      | ranging s =>
          right
          rcases ih hs.1 with htake | ⟨a, ha⟩
          · obtain ⟨⟨o, up'⟩, ht⟩ := Option.isSome_iff_exists.mp htake
            apply hgo
            cases o with
            | none => simp [stageGo, hw, ht]
            | some v => cases hr : op.react s v <;> simp [stageGo, hw, ht, hr]
          · exact ⟨.up a, by simpa [Net.step] using ha⟩
      | sending v s =>
          exact .inl (by simpa [Net.take] using hs.2.1.take_isSome (.inr ⟨v, s, hw⟩))
      | draining =>
          -- the other goroutine closes its error channel before the channel it is read from
          have hclosed := hs.1.errCh_closed (hs.2.2 hw)
          have hr : up.errCh.recv = .ready (none, up.errCh) := by
            simp [Chan.recv, hs.1.errCh_buf, hclosed]
          exact .inr (hgo (by simp [stageGo, hw, hr]))
      | reporting err => exact absurd hw (hs.2.1.silent err)
      | returning =>
          exact .inr (hgo (by simpa [stageGo, hw] using hs.2.1.go_isSome (.inl hw)))
      | closing =>
          exact .inr (hgo (by simpa [stageGo, hw] using hs.2.1.go_isSome (.inr hw)))
      | exited => exact .inl (by simpa [Net.take] using hs.2.1.take_isSome (.inl hw))
      | crashed text => exact absurd hw (hs.2.1.alive text)

/-! ## With the caller -/

variable [DecidableEq κ] {ctx₁ ctx₂ : κ} {s s' : Sys κ α} {x : Action κ}

theorem Sys.Effect.sound (h : s.Effect ctx₁ ctx₂ x s') (hs : s.net.Sound) : s'.net.Sound := by
  cases h with
  | behind h => exact (h.sound hs).1
  | received hc ht => exact ht.sound hs
  | ended hc ht => exact ht.sound hs
  | failed hc hbuf => simp [hs.errCh_buf] at hbuf
  | _ => exact hs

theorem Sys.Effect.rank_lt (h : s.Effect ctx₁ ctx₂ x s') (hs : s.net.Sound)
    (hx : ∀ k err, x ≠ .cancel k err) : s'.rank < s.rank := by
  cases h with
  | behind h =>
      have := h.rank_lt hs 1
      simp only [Sys.rank]
      omega
  | received hc ht =>
      have := ht.rank_le 1
      simp only [Sys.rank, hc, Consumer.rank]
      omega
  | ended hc ht =>
      obtain ⟨rfl, -, -⟩ := ht.ended
      simp [Sys.rank, hc, Consumer.rank]
  | expired hc hdone => simp [Sys.rank, hc, Consumer.rank]
  | failed hc hbuf => simp [hs.errCh_buf] at hbuf
  | succeeded hc hbuf => simp [Sys.rank, hc, Consumer.rank]
  | cancelled hk => exact absurd rfl (hx _ _)

/-- There is no deadlock: until `Collect` has returned, some operation can be
taken that does not wait for a context. -/
theorem Sys.progress (ctx₁ ctx₂ : κ) (hs : s.net.Sound) :
    (∃ out err, s.consumer = .returned out err) ∨
      ∃ x, (∀ k err, x ≠ .cancel k err) ∧ x ≠ .expire ∧ (s.step ctx₁ ctx₂ x).isSome := by
  cases hc : s.consumer with
  | collecting out =>
      right
      rcases hs.progress (s.done ctx₁) with htake | ⟨a, ha⟩
      · obtain ⟨⟨o, net'⟩, ht⟩ := Option.isSome_iff_exists.mp htake
        exact ⟨.recv, by simp, by simp, by cases o <;> simp [Sys.step, Sys.recv, hc, ht]⟩
      · exact ⟨.net a, by simp, by simp, by simpa [Sys.step] using ha⟩
  | checking out =>
      refine .inr ⟨.check, by simp, by simp, ?_⟩
      simp only [Sys.step, Sys.check, hc]
      split <;> rfl
  | returned out err => exact .inl ⟨out, err, rfl⟩

end Gkit.Streams
