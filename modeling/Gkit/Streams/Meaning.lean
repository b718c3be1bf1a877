import Gkit.Streams.Effects

/-!
# What is still to come out of a stream

The values in its channel, the one that its goroutine is about to send, and what
the operator makes of the values still to come out of the stream that it reads.
A step behind the stream leaves this list as it is, unless the producer gives up,
and a receive takes its head.
-/

namespace Gkit.Streams

open Gkit.Lib

variable {α β σ : Type}

def Worker.future (feed : σ → List β) : Worker σ β → List β
  | .ranging s => feed s
  | .sending v s => v :: feed s
  | _ => []

def Node.future (feed : σ → List β) (n : Node σ β) : List β := n.ch.buf ++ n.worker.future feed

def Net.future : {α : Type} → Net α → List α
  | _, .source n => n.future id
  | _, .stage up op n => n.future fun s => op.feed s up.future

/-- The elements that the producer has not sent yet. -/
def Net.unsent : {α : Type} → Net α → ℕ
  | _, .source n => (n.worker.future id).length
  | _, .stage up _ _ => up.unsent

/-! ## The channels -/

def Worker.hasClosed : Worker σ β → Bool
  | .exited => true
  | _ => false

def Worker.hasClosedErr : Worker σ β → Bool
  | .closing | .exited => true
  | _ => false

/-- A goroutine closes its channels when it is done with them, first the one for
the error, and it sends no error. -/
structure Node.Sound (n : Node σ β) : Prop where
  ch : n.ch.closed = n.worker.hasClosed
  errCh : n.errCh.closed = n.worker.hasClosedErr
  quiet : n.errCh.buf = []
  silent : ∀ err, n.worker ≠ .reporting err
  alive : ∀ text, n.worker ≠ .crashed text

def Net.Sound : {α : Type} → Net α → Prop
  | _, .source n => n.Sound ∧ n.worker ≠ .draining
  | _, .stage up _ n => up.Sound ∧ n.Sound ∧ (n.worker = .draining → up.ch.closed = true)

namespace Node

variable {n n' : Node σ β} {o : Option β}

/-- The goroutine moves on inside, without a look at its channels. -/
theorem Sound.move (hs : n.Sound) {w : Worker σ β} (hch : w.hasClosed = n.worker.hasClosed)
    (herr : w.hasClosedErr = n.worker.hasClosedErr) (hsilent : ∀ err, w ≠ .reporting err)
    (halive : ∀ text, w ≠ .crashed text) : Sound { n with worker := w } :=
  ⟨hs.ch.trans hch.symm, hs.errCh.trans herr.symm, hs.quiet, hsilent, halive⟩

/-- The operations that are left to a sound goroutine. -/
@[elab_as_elim] theorem Sound.own_cases (hs : n.Sound) (h : n.Own n') {P : Node σ β → Prop}
    (sent : ∀ v s, n.worker = .sending v s → n.ch.closed = false →
      P { n with worker := .ranging s, ch := { n.ch with buf := n.ch.buf ++ [v] } })
    (errClosed : n.worker = .returning →
      P { n with worker := .closing, errCh := { n.errCh with closed := true } })
    (closed : n.worker = .closing →
      P { n with worker := .exited, ch := { n.ch with closed := true } }) : P n' := by
  cases h with
  | @sent v s hw hopen hroom => exact sent v s hw hopen
  | reported hw hopen => exact absurd hw (hs.silent _)
  | errClosed hw hopen => exact errClosed hw
  | closed hw hopen => exact closed hw
  | chCrashes hw hclosed =>
      rw [hs.ch] at hclosed
      rcases hw with ⟨v, s, hw⟩ | hw <;> simp [hw, Worker.hasClosed] at hclosed
  | errCrashes hw hclosed =>
      rw [hs.errCh] at hclosed
      rcases hw with ⟨err, hw⟩ | hw <;> simp [hw, Worker.hasClosedErr] at hclosed

theorem Sound.own (hs : n.Sound) (h : n.Own n') :
    n'.Sound ∧ (n.ch.closed = true → n'.ch.closed = true) ∧ n'.worker ≠ .draining := by
  refine hs.own_cases h (fun v s hw hopen => ?_) (fun hw => ?_) (fun hw => ?_)
  · exact ⟨⟨hopen, by rw [hs.errCh, hw]; rfl, hs.quiet, by simp, by simp⟩, id, by simp⟩
  · exact ⟨⟨by rw [hs.ch, hw]; rfl, rfl, hs.quiet, by simp, by simp⟩, id, by simp⟩
  · exact ⟨⟨rfl, by rw [hs.errCh, hw]; rfl, hs.quiet, by simp, by simp⟩, fun _ => rfl, by simp⟩

theorem Sound.own_future (hs : n.Sound) (h : n.Own n') (feed : σ → List β) :
    n'.future feed = n.future feed ∧
      (n'.worker.future feed).length ≤ (n.worker.future feed).length := by
  refine hs.own_cases h (fun v s hw hopen => ?_) (fun hw => ?_) (fun hw => ?_) <;>
    simp [Node.future, hw, Worker.future]

theorem Sound.taken (hs : n.Sound) (h : n.Taken o n') :
    n'.Sound ∧ (n'.worker = .draining → n.worker = .draining) := by
  cases h with
  | buffered hbuf => exact ⟨⟨hs.ch, hs.errCh, hs.quiet, hs.silent, hs.alive⟩, id⟩
  | met hw hbuf =>
      exact ⟨hs.move (by rw [hw]; rfl) (by rw [hw]; rfl) (by simp) (by simp), by simp⟩
  | ended hbuf hclosed => exact ⟨hs, id⟩

theorem Taken.future_eq (h : n.Taken o n') (feed : σ → List β) :
    n.future feed = o.toList ++ n'.future feed := by
  cases h with
  | buffered hbuf => simp [Node.future, hbuf]
  | met hw hbuf => simp [Node.future, hw, hbuf, Worker.future]
  | ended hbuf hclosed => rfl

/-- Nothing comes out of a closed and empty channel any more. -/
theorem Sound.future_eq_nil (hs : n.Sound) (hbuf : n.ch.buf = []) (hclosed : n.ch.closed = true)
    (feed : σ → List β) : n.future feed = [] := by
  rw [hs.ch] at hclosed
  cases hw : n.worker with
  | exited => simp [Node.future, hbuf, hw, Worker.future]
  | _ => simp [hw, Worker.hasClosed] at hclosed

theorem Sound.errCh_closed (hs : n.Sound) (hclosed : n.ch.closed = true) :
    n.errCh.closed = true := by
  rw [hs.ch] at hclosed
  cases hw : n.worker with
  | exited => rw [hs.errCh, hw]; rfl
  | _ => simp [hw, Worker.hasClosed] at hclosed

end Node

/-! ## Receives -/

namespace Net

variable {net net' : Net α} {o : Option α}

theorem Taken.sound (h : net.Taken o net') (hs : net.Sound) : net'.Sound := by
  cases h with
  | source h => exact ⟨(hs.1.taken h).1, fun hw => hs.2 ((hs.1.taken h).2 hw)⟩
  | stage h => exact ⟨hs.1, (hs.2.1.taken h).1, fun hw => hs.2.2 ((hs.2.1.taken h).2 hw)⟩

theorem Taken.future_eq (h : net.Taken o net') : net.future = o.toList ++ net'.future := by
  cases h with
  | source h => exact h.future_eq id
  | stage h => exact h.future_eq _

theorem Taken.unsent_le (h : net.Taken o net') : net'.unsent ≤ net.unsent := by
  cases h with
  | source h =>
      cases h with
      | met hw hbuf => simp [Net.unsent, hw, Worker.future]
      | _ => exact le_rfl
  | stage h => exact le_rfl

/-- A receive that finds the channel closed. -/
theorem Taken.ended (h : net.Taken none net') :
    net' = net ∧ net.ch.buf = [] ∧ net.ch.closed = true := by
  cases h with
  | source h => cases h with | ended hbuf hclosed => exact ⟨rfl, hbuf, hclosed⟩
  | stage h => cases h with | ended hbuf hclosed => exact ⟨rfl, hbuf, hclosed⟩

theorem Sound.future_eq_nil (hs : net.Sound) (hbuf : net.ch.buf = [])
    (hclosed : net.ch.closed = true) : net.future = [] := by
  cases net with
  | source n => exact hs.1.future_eq_nil hbuf hclosed _
  | stage up op n => exact hs.2.1.future_eq_nil hbuf hclosed _

theorem Sound.errCh_buf (hs : net.Sound) : net.errCh.buf = [] := by
  cases net with
  | source n => exact hs.1.quiet
  | stage up op n => exact hs.2.1.quiet

theorem Sound.errCh_closed (hs : net.Sound) (hclosed : net.ch.closed = true) :
    net.errCh.closed = true := by
  cases net with
  | source n => exact hs.1.errCh_closed hclosed
  | stage up op n => exact hs.2.1.errCh_closed hclosed

end Net

/-! ## Steps behind a stream -/

variable {done : Option GoError} {net net' : Net α} {a : Act}

theorem Effect.sound (h : Effect done net a net') (hs : net.Sound) :
    net'.Sound ∧ (net.ch.closed = true → net'.ch.closed = true) := by
  induction h with
  | exhausted hw =>
      exact ⟨⟨hs.1.move (by rw [hw]; rfl) (by rw [hw]; rfl) (by simp) (by simp), by simp⟩, id⟩
  | picked hw =>
      exact ⟨⟨hs.1.move (by rw [hw]; rfl) (by rw [hw]; rfl) (by simp) (by simp), by simp⟩, id⟩
  | gaveUp hw hdone =>
      exact ⟨⟨hs.1.move (by rw [hw]; rfl) (by rw [hw]; rfl) (by simp) (by simp), by simp⟩, id⟩
  | sourceOwn h =>
      obtain ⟨hown, hclosed, hdrain⟩ := hs.1.own h
      exact ⟨⟨hown, hdrain⟩, hclosed⟩
  | stopped hw ht hr =>
      exact ⟨⟨ht.sound hs.1, hs.2.1.move (by rw [hw]; rfl) (by rw [hw]; rfl) (by simp) (by simp),
        by simp⟩, id⟩
  | skipped hw ht hr =>
      exact ⟨⟨ht.sound hs.1, hs.2.1.move (by rw [hw]; rfl) (by rw [hw]; rfl) (by simp) (by simp),
        by simp⟩, id⟩
  | emitted hw ht hr =>
      exact ⟨⟨ht.sound hs.1, hs.2.1.move (by rw [hw]; rfl) (by rw [hw]; rfl) (by simp) (by simp),
        by simp⟩, id⟩
  | @ended _ _ up up' op n s hw ht =>
      obtain ⟨rfl, -, hclosed⟩ := ht.ended
      refine ⟨⟨hs.1, ?_, fun _ => hclosed⟩, id⟩
      cases op.propagates <;>
        exact hs.2.1.move (by rw [hw]; rfl) (by rw [hw]; rfl) (by simp) (by simp)
  | failed hw hbuf => simp [hs.1.errCh_buf] at hbuf
  | drained hw hbuf hclosed =>
      exact ⟨⟨hs.1, hs.2.1.move (by rw [hw]; rfl) (by rw [hw]; rfl) (by simp) (by simp), by simp⟩,
        id⟩
  | stageOwn h =>
      obtain ⟨hown, hclosed, hdrain⟩ := hs.2.1.own h
      exact ⟨⟨hs.1, hown, fun hw => absurd hw hdrain⟩, hclosed⟩
  | behind h ih =>
      obtain ⟨hup, hclosed⟩ := ih hs.1
      exact ⟨⟨hup, hs.2.1, fun hw => hclosed (hs.2.2 hw)⟩, id⟩

/-- What is to come is changed only by a producer that gives up. -/
theorem Effect.future_eq (h : Effect done net a net') (hs : net.Sound)
    (hdone : done = none ∨ net.unsent = 0) :
    net'.future = net.future ∧ net'.unsent ≤ net.unsent := by
  induction h with
  | exhausted hw => simp [Net.future, Net.unsent, Node.future, hw, Worker.future]
  | picked hw => simp [Net.future, Net.unsent, Node.future, hw, Worker.future]
  | gaveUp hw hsome =>
      rcases hdone with rfl | hsent
      · simp at hsome
      · simp [Net.unsent, hw, Worker.future] at hsent
  | sourceOwn h => exact hs.1.own_future h id
  | stopped hw ht hr =>
      refine ⟨?_, ht.unsent_le⟩
      simp [Net.future, Node.future, hw, Worker.future, ht.future_eq, Transducer.feed_stop hr]
  | skipped hw ht hr =>
      refine ⟨?_, ht.unsent_le⟩
      simp [Net.future, Node.future, hw, Worker.future, ht.future_eq, Transducer.feed_skip hr]
  | emitted hw ht hr =>
      refine ⟨?_, ht.unsent_le⟩
      simp [Net.future, Node.future, hw, Worker.future, ht.future_eq, Transducer.feed_emit hr]
  | @ended _ _ up up' op n s hw ht =>
      obtain ⟨rfl, hbuf, hclosed⟩ := ht.ended
      refine ⟨?_, le_rfl⟩
      have hnil : up'.future = [] := hs.1.future_eq_nil hbuf hclosed
      cases hp : op.propagates <;> simp [Net.future, Node.future, hw, Worker.future, hnil]
  | failed hw hbuf => simp [hs.1.errCh_buf] at hbuf
  | drained hw hbuf hclosed => simp [Net.future, Net.unsent, Node.future, hw, Worker.future]
  | stageOwn h => exact ⟨(hs.2.1.own_future h _).1, le_rfl⟩
  | behind h ih =>
      obtain ⟨hfuture, hle⟩ := ih hs.1 hdone
      exact ⟨by simp only [Net.future, hfuture], hle⟩

end Gkit.Streams
