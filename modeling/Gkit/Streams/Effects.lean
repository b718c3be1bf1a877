import Gkit.Streams.Model

/-!
# What a step of a stream can do

One constructor for each outcome of each operation, with the condition under
which it comes about.
-/

namespace Gkit.Streams

open Gkit.Lib

variable {α β κ σ : Type}

/-! ## Goroutines -/

/-- An operation of a goroutine on its own channels. -/
inductive Node.Own (n : Node σ β) : Node σ β → Prop where
  | sent {v : β} {s : σ} (hw : n.worker = .sending v s) (hopen : n.ch.closed = false)
      (hroom : n.ch.buf.length < n.ch.cap) :
      n.Own { n with worker := .ranging s, ch := { n.ch with buf := n.ch.buf ++ [v] } }
  | reported {err : GoError} (hw : n.worker = .reporting err) (hopen : n.errCh.closed = false) :
      n.Own { n with
        worker := .returning, errCh := { n.errCh with buf := n.errCh.buf ++ [err] } }
  | errClosed (hw : n.worker = .returning) (hopen : n.errCh.closed = false) :
      n.Own { n with worker := .closing, errCh := { n.errCh with closed := true } }
  | closed (hw : n.worker = .closing) (hopen : n.ch.closed = false) :
      n.Own { n with worker := .exited, ch := { n.ch with closed := true } }
  | chCrashes {text : String} (hw : (∃ v s, n.worker = .sending v s) ∨ n.worker = .closing)
      (hclosed : n.ch.closed = true) : n.Own { n with worker := .crashed text }
  | errCrashes {text : String} (hw : (∃ err, n.worker = .reporting err) ∨ n.worker = .returning)
      (hclosed : n.errCh.closed = true) : n.Own { n with worker := .crashed text }

/-- A receive by the reader. -/
inductive Node.Taken (n : Node σ β) : Option β → Node σ β → Prop where
  | buffered {v : β} {buf : List β} (hbuf : n.ch.buf = v :: buf) :
      n.Taken (some v) { n with ch := { n.ch with buf := buf } }
  | met {v : β} {s : σ} (hw : n.worker = .sending v s) (hbuf : n.ch.buf = []) :
      n.Taken (some v) { n with worker := .ranging s }
  | ended (hbuf : n.ch.buf = []) (hclosed : n.ch.closed = true) : n.Taken none n

theorem Node.own_of_go {n n' : Node σ β} (h : n.go = some n') : n.Own n' := by
  unfold Node.go at h
  cases hw : n.worker with
  | sending v s =>
      rcases n.ch.send_cases v with ⟨hclosed, hs⟩ | ⟨hopen, hroom, hs⟩ | ⟨-, -, hs⟩
      · simp only [hw, hs, Option.some.injEq] at h
        subst h
        exact .chCrashes (.inl ⟨v, s, hw⟩) hclosed
      · simp only [hw, hs, Option.some.injEq] at h
        subst h
        exact .sent hw hopen hroom
      · simp [hw, hs] at h
  | reporting err =>
      rcases n.errCh.send_cases err with ⟨hclosed, hs⟩ | ⟨hopen, -, hs⟩ | ⟨-, -, hs⟩
      · simp only [hw, hs, Option.some.injEq] at h
        subst h
        exact .errCrashes (.inl ⟨err, hw⟩) hclosed
      · simp only [hw, hs, Option.some.injEq] at h
        subst h
        exact .reported hw hopen
      · simp [hw, hs] at h
  | returning =>
      cases hc : n.errCh.closed with
      | true =>
          simp only [hw, Chan.close, hc, if_true, Option.some.injEq] at h
          subst h
          exact .errCrashes (.inr hw) hc
      | false =>
          simp only [hw, Chan.close, hc, Bool.false_eq_true, if_false, Option.some.injEq] at h
          subst h
          exact .errClosed hw hc
  | closing =>
      cases hc : n.ch.closed with
      | true =>
          simp only [hw, Chan.close, hc, if_true, Option.some.injEq] at h
          subst h
          exact .chCrashes (.inr hw) hc
      | false =>
          simp only [hw, Chan.close, hc, Bool.false_eq_true, if_false, Option.some.injEq] at h
          subst h
          exact .closed hw hc
  | _ => simp [hw] at h

theorem Node.taken_of_take {n n' : Node σ β} {o : Option β} (h : n.take = some (o, n')) :
    n.Taken o n' := by
  unfold Node.take at h
  rcases n.ch.recv_cases with ⟨v, buf, hbuf, hr⟩ | ⟨hbuf, hclosed, hr⟩ | ⟨hbuf, -, hr⟩
  · simp only [hr, Option.some.injEq, Prod.mk.injEq] at h
    obtain ⟨rfl, rfl⟩ := h
    exact .buffered hbuf
  · simp only [hr, Option.some.injEq, Prod.mk.injEq] at h
    obtain ⟨rfl, rfl⟩ := h
    exact .ended hbuf hclosed
  · cases hw : n.worker with
    | sending v s =>
        simp only [hr, hw, Option.ite_none_right_eq_some, Option.some.injEq, Prod.mk.injEq] at h
        obtain ⟨-, rfl, rfl⟩ := h
        exact .met hw hbuf
    | _ => simp [hr, hw] at h

/-! ## Streams -/

inductive Net.Taken : {α : Type} → Net α → Option α → Net α → Prop where
  | source {α : Type} {n n' : Node (List α) α} {o : Option α} (h : n.Taken o n') :
      Taken (.source n) o (.source n')
  | stage {α β : Type} {up : Net α} {op : Stage α β} {n n' : Node op.State β} {o : Option β}
      (h : n.Taken o n') : Taken (.stage up op n) o (.stage up op n')

theorem Net.taken_of_take {net net' : Net α} {o : Option α} (h : net.take = some (o, net')) :
    net.Taken o net' := by
  cases net with
  | source n =>
      obtain ⟨x, hx, heq⟩ := Option.map_eq_some_iff.mp h
      obtain ⟨rfl, rfl⟩ := Prod.mk.inj heq
      exact .source (Node.taken_of_take hx)
  | stage up op n =>
      obtain ⟨x, hx, heq⟩ := Option.map_eq_some_iff.mp h
      obtain ⟨rfl, rfl⟩ := Prod.mk.inj heq
      exact .stage (Node.taken_of_take hx)

inductive Effect (done : Option GoError) : {α : Type} → Net α → Act → Net α → Prop where
  | exhausted {α : Type} {n : Node (List α) α} (hw : n.worker = .ranging []) :
      Effect done (.source n) .go (.source { n with worker := .returning })
  | picked {α : Type} {n : Node (List α) α} {v : α} {todo : List α}
      (hw : n.worker = .ranging (v :: todo)) :
      Effect done (.source n) .go (.source { n with worker := .sending v todo })
  | gaveUp {α : Type} {n : Node (List α) α} {v : α} {todo : List α}
      (hw : n.worker = .sending v todo) (hdone : done.isSome = true) :
      Effect done (.source n) .giveUp (.source { n with worker := .returning })
  | sourceOwn {α : Type} {n n' : Node (List α) α} (h : n.Own n') :
      Effect done (.source n) .go (.source n')
  | stopped {α β : Type} {up up' : Net α} {op : Stage α β} {n : Node op.State β} {s : op.State}
      {v : α} (hw : n.worker = .ranging s) (ht : up.Taken (some v) up')
      (hr : op.react s v = .stop) :
      Effect done (.stage up op n) .go (.stage up' op { n with worker := .returning })
  | skipped {α β : Type} {up up' : Net α} {op : Stage α β} {n : Node op.State β} {s t : op.State}
      {v : α} (hw : n.worker = .ranging s) (ht : up.Taken (some v) up')
      (hr : op.react s v = .skip t) :
      Effect done (.stage up op n) .go (.stage up' op { n with worker := .ranging t })
  | emitted {α β : Type} {up up' : Net α} {op : Stage α β} {n : Node op.State β} {s t : op.State}
      {v : α} {y : β} (hw : n.worker = .ranging s) (ht : up.Taken (some v) up')
      (hr : op.react s v = .emit y t) :
      Effect done (.stage up op n) .go (.stage up' op { n with worker := .sending y t })
  | ended {α β : Type} {up up' : Net α} {op : Stage α β} {n : Node op.State β} {s : op.State}
      (hw : n.worker = .ranging s) (ht : up.Taken none up') :
      Effect done (.stage up op n) .go
        (.stage up' op { n with worker := if op.propagates then .draining else .returning })
  | failed {α β : Type} {up : Net α} {op : Stage α β} {n : Node op.State β} {err : GoError}
      {errs : List GoError} (hw : n.worker = .draining) (hbuf : up.errCh.buf = err :: errs) :
      Effect done (.stage up op n) .go
        (.stage (up.setErrCh { up.errCh with buf := errs }) op { n with worker := .reporting err })
  | drained {α β : Type} {up : Net α} {op : Stage α β} {n : Node op.State β}
      (hw : n.worker = .draining) (hbuf : up.errCh.buf = []) (hclosed : up.errCh.closed = true) :
      Effect done (.stage up op n) .go (.stage up op { n with worker := .returning })
  | stageOwn {α β : Type} {up : Net α} {op : Stage α β} {n n' : Node op.State β} (h : n.Own n') :
      Effect done (.stage up op n) .go (.stage up op n')
  | behind {α β : Type} {up up' : Net α} {op : Stage α β} {n : Node op.State β} {a : Act}
      (h : Effect done up a up') : Effect done (.stage up op n) (.up a) (.stage up' op n)

variable {done : Option GoError}

@[simp] theorem Net.setErrCh_errCh (net : Net α) : net.setErrCh net.errCh = net := by
  cases net <;> rfl

theorem effect_sourceGo {n n' : Node (List α) α} (h : sourceGo n = some n') :
    Effect done (.source n) .go (.source n') := by
  unfold sourceGo at h
  cases hw : n.worker with
  | ranging todo =>
      cases todo with
      | nil =>
          simp only [hw, Option.some.injEq] at h
          subst h
          exact .exhausted hw
      | cons v todo =>
          simp only [hw, Option.some.injEq] at h
          subst h
          exact .picked hw
  | draining => simp [hw] at h
  | _ => exact .sourceOwn (Node.own_of_go (by simpa only [hw] using h))

theorem effect_stageGo {up : Net α} {op : Stage α β} {n : Node op.State β} {net' : Net β}
    (h : stageGo up op n = some net') : Effect done (.stage up op n) .go net' := by
  have hown (h : n.go.map (Net.stage up op) = some net') :
      Effect done (.stage up op n) .go net' := by
    obtain ⟨n', hn, rfl⟩ := Option.map_eq_some_iff.mp h
    exact .stageOwn (Node.own_of_go hn)
  unfold stageGo at h
  cases hw : n.worker with
  | ranging s =>
      cases ht : up.take with
      | none => simp [hw, ht] at h
      | some x =>
          obtain ⟨o, up'⟩ := x
          have htaken := Net.taken_of_take ht
          cases o with
          | none =>
              simp only [hw, ht, Option.some.injEq] at h
              subst h
              exact .ended hw htaken
          | some v =>
              cases hr : op.react s v with
              | stop =>
                  simp only [hw, ht, hr, Option.some.injEq] at h
                  subst h
                  exact .stopped hw htaken hr
              | skip t =>
                  simp only [hw, ht, hr, Option.some.injEq] at h
                  subst h
                  exact .skipped hw htaken hr
              | emit y t =>
                  simp only [hw, ht, hr, Option.some.injEq] at h
                  subst h
                  exact .emitted hw htaken hr
  | draining =>
      rcases up.errCh.recv_cases with ⟨err, errs, hbuf, hr⟩ | ⟨hbuf, hclosed, hr⟩ | ⟨-, -, hr⟩
      · simp only [hw, hr, Option.some.injEq] at h
        subst h
        exact .failed hw hbuf
      · simp only [hw, hr, Net.setErrCh_errCh, Option.some.injEq] at h
        subst h
        exact .drained hw hbuf hclosed
      · simp [hw, hr] at h
  | _ => exact hown (by simpa only [hw] using h)

theorem effect_of_netStep {net net' : Net α} {a : Act} (h : net.step done a = some net') :
    Effect done net a net' := by
  induction net generalizing a with
  | source n =>
      cases a with
      | go =>
          obtain ⟨n', hn, rfl⟩ := Option.map_eq_some_iff.mp h
          exact effect_sourceGo hn
      | giveUp =>
          unfold Net.step at h
          cases hw : n.worker with
          | sending v todo =>
              simp only [hw, Option.ite_none_right_eq_some, Option.some.injEq] at h
              obtain ⟨hdone, rfl⟩ := h
              exact .gaveUp hw hdone
          | _ => simp [hw] at h
      | up a => simp [Net.step] at h
  | stage up op n ih =>
      cases a with
      | go => exact effect_stageGo h
      | giveUp => simp [Net.step] at h
      | up a =>
          obtain ⟨up', hup, rfl⟩ := Option.map_eq_some_iff.mp h
          exact .behind (ih hup)

/-! ## With the caller of `Collect` -/

variable [DecidableEq κ]

inductive Sys.Effect (ctx₁ ctx₂ : κ) (s : Sys κ α) : Action κ → Sys κ α → Prop where
  | behind {a : Act} {net' : Net α} (h : Streams.Effect (s.done ctx₁) s.net a net') :
      s.Effect ctx₁ ctx₂ (.net a) { s with net := net' }
  | received {out : List α} {v : α} {net' : Net α} (hc : s.consumer = .collecting out)
      (ht : s.net.Taken (some v) net') :
      s.Effect ctx₁ ctx₂ .recv { s with net := net', consumer := .collecting (out ++ [v]) }
  | ended {out : List α} {net' : Net α} (hc : s.consumer = .collecting out)
      (ht : s.net.Taken none net') :
      s.Effect ctx₁ ctx₂ .recv { s with net := net', consumer := .checking out }
  | expired {out : List α} {err : GoError} (hc : s.consumer = .collecting out)
      (hdone : s.done ctx₂ = some err) :
      s.Effect ctx₁ ctx₂ .expire { s with consumer := .returned [] (some err) }
  | failed {out : List α} {err : GoError} {errs : List GoError} (hc : s.consumer = .checking out)
      (hbuf : s.net.errCh.buf = err :: errs) :
      s.Effect ctx₁ ctx₂ .check { s with
        net := s.net.setErrCh { s.net.errCh with buf := errs },
        consumer := .returned out (some err) }
  | succeeded {out : List α} (hc : s.consumer = .checking out) (hbuf : s.net.errCh.buf = []) :
      s.Effect ctx₁ ctx₂ .check { s with consumer := .returned out none }
  | cancelled {k : κ} {err : GoError} (hk : s.done k = none) :
      s.Effect ctx₁ ctx₂ (.cancel k err) { s with done := Function.update s.done k (some err) }

theorem Sys.effect_of_step {ctx₁ ctx₂ : κ} {s s' : Sys κ α} {x : Action κ}
    (h : s.step ctx₁ ctx₂ x = some s') : s.Effect ctx₁ ctx₂ x s' := by
  cases x with
  | net a =>
      obtain ⟨net', hnet, rfl⟩ := Option.map_eq_some_iff.mp h
      exact .behind (effect_of_netStep hnet)
  | recv =>
      simp only [Sys.step, Sys.recv] at h
      cases hc : s.consumer with
      | collecting out =>
          cases ht : s.net.take with
          | none => simp [hc, ht] at h
          | some x =>
              obtain ⟨o, net'⟩ := x
              have htaken := Net.taken_of_take ht
              cases o with
              | none =>
                  simp only [hc, ht, Option.some.injEq] at h
                  subst h
                  exact .ended hc htaken
              | some v =>
                  simp only [hc, ht, Option.some.injEq] at h
                  subst h
                  exact .received hc htaken
      | _ => simp [hc] at h
  | expire =>
      simp only [Sys.step, Sys.expire] at h
      cases hc : s.consumer with
      | collecting out =>
          cases hdone : s.done ctx₂ with
          | none => simp [hc, hdone] at h
          | some err =>
              simp only [hc, hdone, Option.some.injEq] at h
              subst h
              exact .expired hc hdone
      | _ => simp [hc] at h
  | check =>
      simp only [Sys.step, Sys.check] at h
      cases hc : s.consumer with
      | checking out =>
          rcases s.net.errCh.recv_cases with ⟨err, errs, hbuf, hr⟩ | ⟨hbuf, -, hr⟩ | ⟨hbuf, -, hr⟩
          · simp only [hc, hr, Option.some.injEq] at h
            subst h
            exact .failed hc hbuf
          · simp only [hc, hr, Net.setErrCh_errCh, Option.some.injEq] at h
            subst h
            exact .succeeded hc hbuf
          · simp only [hc, hr, Option.some.injEq] at h
            subst h
            exact .succeeded hc hbuf
      | _ => simp [hc] at h
  | cancel k err =>
      simp only [Sys.step, Sys.cancel] at h
      cases hk : s.done k with
      | none =>
          simp only [hk, Option.some.injEq] at h
          subst h
          exact .cancelled hk
      | some err' => simp [hk] at h

end Gkit.Streams
