import Gkit.Streams.Effects

/-!
# What `Take` reads

The goroutine of `Take` on top of a producer of any stream, finite or not, with a
reader of its output.  It looks at its count after a receive, so it waits for an
element behind the last one that it forwards.
-/

namespace Gkit.Streams

open Gkit.Lib

variable {α σ β : Type}

/-- The goroutine of `Generate` over the elements of `u`, which end where `u` has
none. -/
def producerGo (u : ℕ → Option α) (n : Node ℕ α) : Option (Node ℕ α) :=
  match n.worker with
  | .ranging k =>
      match u k with
      | some v => some { n with worker := .sending v (k + 1) }
      | none => some { n with worker := .returning }
  | .draining => none
  | _ => n.go

/-- The operation has completed a send. -/
def sends (n n' : Node σ β) : ℕ :=
  match n.worker, n'.worker with
  | .sending _ _, .ranging _ => 1
  | _, _ => 0

/-- `received` and `forwarded` count, and no step reads them. -/
structure Taking (α : Type) where
  up : Node ℕ α
  node : Node ℕ α
  received : ℕ
  forwarded : ℕ

namespace Taking

def start (cap : ℕ) : Taking α := ⟨newNode 0 cap, newNode 0 cap, 0, 0⟩

inductive Turn where
  | produce
  | work
  /-- A receive from the output. -/
  | recv
  deriving DecidableEq, Repr

/-- The goroutine of `Take`. -/
def work (n : ℤ) (s : Taking α) : Option (Taking α) :=
  match s.node.worker with
  | .ranging count =>
      match s.up.take with
      | some (some v, up) =>
          match (takeStage n : Stage α α).react count v with
          | .stop => some { s with
              up := up, node := { s.node with worker := .returning }, received := s.received + 1 }
          | .skip t => some { s with
              up := up, node := { s.node with worker := .ranging t }, received := s.received + 1 }
          | .emit y t => some { s with
              up := up, node := { s.node with worker := .sending y t }, received := s.received + 1 }
      | some (none, up) => some { s with up := up, node := { s.node with worker := .returning } }
      | none => none
  | .draining => none
  | _ => s.node.go.map fun node =>
      { s with node := node, forwarded := s.forwarded + sends s.node node }

def recv (s : Taking α) : Option (Taking α) :=
  s.node.take.map fun x => { s with node := x.2, forwarded := s.forwarded + sends s.node x.2 }

def step (u : ℕ → Option α) (n : ℤ) (s : Taking α) : Turn → Option (Taking α)
  | .produce => (producerGo u s.up).map fun up => { s with up := up }
  | .work => s.work n
  | .recv => s.recv

end Taking

open Taking

/-! ## What a step can do -/

inductive Produces (u : ℕ → Option α) (n : Node ℕ α) : Node ℕ α → Prop where
  | picked {k : ℕ} {v : α} (hw : n.worker = .ranging k) (hv : u k = some v) :
      Produces u n { n with worker := .sending v (k + 1) }
  | exhausted {k : ℕ} (hw : n.worker = .ranging k) (hv : u k = none) :
      Produces u n { n with worker := .returning }
  | own {n' : Node ℕ α} (h : n.Own n') : Produces u n n'

theorem produces_of_producerGo {u : ℕ → Option α} {n n' : Node ℕ α}
    (h : producerGo u n = some n') : Produces u n n' := by
  unfold producerGo at h
  cases hw : n.worker with
  | ranging k =>
      simp only [hw] at h
      cases hv : u k with
      | some v =>
          simp only [hv, Option.some.injEq] at h
          exact h ▸ .picked hw hv
      | none =>
          simp only [hv, Option.some.injEq] at h
          exact h ▸ .exhausted hw hv
  | draining => simp [hw] at h
  | _ => exact .own (Node.own_of_go (by simpa only [hw] using h))

inductive Taking.Effect (u : ℕ → Option α) (n : ℤ) (s : Taking α) : Turn → Taking α → Prop where
  | produced {up : Node ℕ α} (h : Produces u s.up up) : Effect u n s .produce { s with up := up }
  | accepted {count : ℕ} {v : α} {up : Node ℕ α} (hw : s.node.worker = .ranging count)
      (ht : s.up.Taken (some v) up) (hlt : (count : ℤ) < n) :
      Effect u n s .work { s with
        up := up, node := { s.node with worker := .sending v (count + 1) },
        received := s.received + 1 }
  | stopped {count : ℕ} {v : α} {up : Node ℕ α} (hw : s.node.worker = .ranging count)
      (ht : s.up.Taken (some v) up) (hge : n ≤ count) :
      Effect u n s .work { s with
        up := up, node := { s.node with worker := .returning }, received := s.received + 1 }
  | ended {count : ℕ} {up : Node ℕ α} (hw : s.node.worker = .ranging count)
      (ht : s.up.Taken none up) :
      Effect u n s .work { s with up := up, node := { s.node with worker := .returning } }
  | own {node : Node ℕ α} (h : s.node.Own node) :
      Effect u n s .work { s with
        node := node, forwarded := s.forwarded + sends s.node node }
  | taken {o : Option α} {node : Node ℕ α} (h : s.node.Taken o node) :
      Effect u n s .recv { s with
        node := node, forwarded := s.forwarded + sends s.node node }

variable {u : ℕ → Option α} {n : ℤ} {s s' : Taking α} {x : Turn}

theorem Taking.effect_work (h : s.work n = some s') : Taking.Effect u n s .work s' := by
  unfold Taking.work at h
  cases hw : s.node.worker with
  | ranging count =>
      simp only [hw] at h
      cases ht : s.up.take with
      | none => simp [ht] at h
      | some r =>
          obtain ⟨o, up⟩ := r
          have htaken := Node.taken_of_take ht
          cases o with
          | none =>
              simp only [ht, Option.some.injEq] at h
              exact h ▸ .ended hw htaken
          | some v =>
              by_cases hge : (count : ℤ) ≥ n
              · simp only [ht, takeStage, if_pos hge, Option.some.injEq] at h
                exact h ▸ .stopped hw htaken hge
              · simp only [ht, takeStage, if_neg hge, Option.some.injEq] at h
                exact h ▸ .accepted hw htaken (not_le.mp hge)
  | draining => simp [hw] at h
  | _ =>
      simp only [hw] at h
      obtain ⟨node, hnode, rfl⟩ := Option.map_eq_some_iff.mp h
      exact .own (Node.own_of_go hnode)

theorem Taking.effect_of_step (h : s.step u n x = some s') : Taking.Effect u n s x s' := by
  cases x with
  | produce =>
      obtain ⟨up, hup, rfl⟩ := Option.map_eq_some_iff.mp h
      exact .produced (produces_of_producerGo hup)
  | work => exact Taking.effect_work h
  | recv =>
      obtain ⟨r, hr, rfl⟩ := Option.map_eq_some_iff.mp h
      exact .taken (Node.taken_of_take hr)

/-! ## Streams that end early -/

/-- The producer has put out `out` elements, and will not put out more than `k`. -/
def Within (k out : ℕ) : Worker ℕ α → Prop
  | .ranging j => out ≤ j ∧ j ≤ k
  | .sending _ j => out + 1 ≤ j ∧ j ≤ k
  | _ => out ≤ k

theorem Within.le {k out : ℕ} {w : Worker ℕ α} (h : Within k out w) : out ≤ k := by
  cases w with
  | ranging j => exact h.1.trans h.2
  | sending v j => exact (Nat.le_of_succ_le h.1).trans h.2
  | _ => exact h

/-- The element that the goroutine is about to forward. -/
def pending : Worker σ β → ℕ
  | .sending _ _ => 1
  | _ => 0

section

variable {k r : ℕ} {m m' : Node ℕ α}

theorem Within.own (h : Within k (r + m.ch.buf.length) m.worker) (hown : m.Own m') :
    Within k (r + m'.ch.buf.length) m'.worker := by
  cases hown with
  | sent hw hopen hroom =>
      rw [hw] at h
      exact ⟨by simpa [Nat.add_assoc] using h.1, h.2⟩
  | reported hw hopen => exact h.le
  | errClosed hw hopen => exact h.le
  | closed hw hopen => exact h.le
  | chCrashes hw hclosed => exact h.le
  | errCrashes hw hclosed => exact h.le

theorem Within.produces (hu : u k = none) (h : Within k (r + m.ch.buf.length) m.worker)
    (hp : Produces u m m') : Within k (r + m'.ch.buf.length) m'.worker := by
  cases hp with
  | @picked j v hw hv =>
      rw [hw] at h
      have hne : j ≠ k := by
        rintro rfl
        nomatch hu.symm.trans hv
      exact ⟨Nat.succ_le_succ h.1, lt_of_le_of_ne h.2 hne⟩
  | exhausted hw hv => exact h.le
  | own hown => exact h.own hown

theorem Within.taken {o : Option α} (h : Within k (r + m.ch.buf.length) m.worker)
    (ht : m.Taken o m') : Within k (r + o.toList.length + m'.ch.buf.length) m'.worker := by
  cases ht with
  | buffered hbuf =>
      rw [hbuf, List.length_cons, Nat.add_comm _ 1, ← Nat.add_assoc] at h
      exact h
  | met hw hbuf =>
      rw [hw] at h
      rw [hbuf] at h ⊢
      exact h
  | ended hbuf hclosed => exact h

end

/-- The goroutine is where it was. -/
theorem sends_same {m m' : Node σ β} (h : m'.worker = m.worker) :
    sends m m' + pending m'.worker ≤ pending m.worker := by
  have hzero : sends m m' = 0 := by
    rw [sends, h]
    cases m.worker <;> rfl
  rw [hzero, h, Nat.zero_add]

theorem sends_own {m m' : Node σ β} (h : m.Own m') :
    sends m m' + pending m'.worker ≤ pending m.worker := by
  cases h with
  | sent hw hopen hroom => simp [sends, pending, hw]
  | reported hw hopen => simp [sends, pending, hw]
  | errClosed hw hopen => simp [sends, pending, hw]
  | closed hw hopen => simp [sends, pending, hw]
  | chCrashes hw hclosed =>
      rcases hw with ⟨v, s, hw⟩ | hw
      · simp [sends, pending, hw]
      · simp [sends, pending, hw]
  | errCrashes hw hclosed =>
      rcases hw with ⟨err, hw⟩ | hw
      · simp [sends, pending, hw]
      · simp [sends, pending, hw]

theorem sends_taken {m m' : Node σ β} {o : Option β} (h : m.Taken o m') :
    sends m m' + pending m'.worker ≤ pending m.worker := by
  cases h with
  | buffered hbuf => exact sends_same rfl
  | met hw hbuf => simp [sends, pending, hw]
  | ended hbuf hclosed => exact sends_same rfl

/-- A stream of at most `k` elements. -/
structure Early (k : ℕ) (s : Taking α) : Prop where
  within : Within k (s.received + s.up.ch.buf.length) s.up.worker
  forwarded : s.forwarded + pending s.node.worker ≤ s.received

theorem Early.step {k : ℕ} (hu : u k = none) (hs : Early k s) (h : s.step u n x = some s') :
    Early k s' := by
  have hforwarded := hs.forwarded
  cases Taking.effect_of_step h with
  | produced hp => exact { hs with within := hs.within.produces hu hp }
  | accepted hw ht hlt =>
      rw [hw] at hforwarded
      exact ⟨hs.within.taken ht, Nat.succ_le_succ hforwarded⟩
  | stopped hw ht hge =>
      rw [hw] at hforwarded
      exact ⟨hs.within.taken ht, hforwarded.trans (Nat.le_succ _)⟩
  | ended hw ht =>
      rw [hw] at hforwarded
      exact ⟨hs.within.taken ht, hforwarded⟩
  | own hown =>
      have hsends := sends_own hown
      exact { hs with forwarded := by simp only; omega }
  | taken ht =>
      have hsends := sends_taken ht
      exact { hs with forwarded := by simp only; omega }

/-! ## Streams that go on -/

/-- The output can be closed without a step of the producer. -/
def CanClose (u : ℕ → Option α) (n : ℤ) (s : Taking α) : Prop :=
  ∃ xs s', Turn.produce ∉ xs ∧ run (Taking.step u n) s xs = some s' ∧ s'.node.ch.closed = true

/-- No more is read than is forwarded, and nothing is awaited in the end. -/
structure Frugal (u : ℕ → Option α) (n : ℤ) (s : Taking α) : Prop where
  received : s.received ≤ n
  closes : s.forwarded = n → CanClose u n s

/-- After `m` elements, each handed from the producer to the reader before the
next one. -/
def handedOn (cap m : ℕ) : Taking α := ⟨newNode m cap, newNode m cap, m, m⟩

theorem handedOn_step {cap m : ℕ} {v : α} (hv : u m = some v) (hm : (m : ℤ) < n) :
    run (Taking.step u n) (handedOn cap m) [.produce, .work, .recv] =
      some (handedOn cap (m + 1)) := by
  let sending : Node ℕ α := { newNode m cap with worker := .sending v (m + 1) }
  let offered : Taking α := ⟨sending, newNode m cap, m, m⟩
  let forwarding : Taking α := ⟨newNode (m + 1) cap, sending, m + 1, m⟩
  have hproduce : (handedOn cap m).step u n .produce = some offered := by
    simp [Taking.step, producerGo, handedOn, newNode, hv, offered, sending]
  have hwork : offered.step u n .work = some forwarding := by
    simp [Taking.step, Taking.work, Node.take, Chan.recv, Chan.meets, takeStage, newNode, offered,
      forwarding, sending, hm.not_ge]
  exact run_cons_eq_some.mpr ⟨offered, hproduce, run_cons_eq_some.mpr ⟨forwarding, hwork, rfl⟩⟩

theorem exists_run_handedOn (cap : ℕ) {m : ℕ} (hu : ∀ k < m, u k ≠ none) (hm : (m : ℤ) ≤ n) :
    ∃ xs, run (Taking.step u n) (Taking.start cap) xs = some (handedOn cap m) := by
  induction m with
  | zero => exact ⟨[], rfl⟩
  | succ m ih =>
      obtain ⟨xs, hxs⟩ := ih (fun k hk => hu k (Nat.lt_succ_of_lt hk)) (by omega)
      obtain ⟨v, hv⟩ := Option.ne_none_iff_exists'.mp (hu m (Nat.lt_succ_self m))
      exact ⟨xs ++ [.produce, .work, .recv],
        run_append_eq_some.mpr ⟨_, hxs, handedOn_step hv (by omega)⟩⟩

/-- The goroutine waits for the producer, and its reader for the goroutine. -/
theorem not_canClose_handedOn (u : ℕ → Option α) (n : ℤ) (cap m : ℕ) :
    ¬ CanClose u n (handedOn cap m) := by
  rintro ⟨xs, s', hxs, hrun, hclosed⟩
  cases xs with
  | nil =>
      obtain rfl := Option.some.inj hrun
      nomatch hclosed
  | cons x xs =>
      obtain ⟨t, ht, -⟩ := run_cons_eq_some.mp hrun
      cases x with
      | produce => exact hxs List.mem_cons_self
      | work => nomatch ht
      | recv => nomatch ht

/-- `Take` reads no more than `n` elements and needs no further one to end, in every
state of every run, exactly if the stream it reads has fewer than `n`. -/
theorem take_frugal_iff (u : ℕ → Option α) (cap n : ℕ) :
    (∀ xs s, run (Taking.step u n) (Taking.start cap) xs = some s → Frugal u n s) ↔
      ∃ k < n, u k = none := by
  constructor
  · intro h
    by_contra! hlong
    obtain ⟨xs, hxs⟩ := exists_run_handedOn (n := n) cap hlong le_rfl
    exact not_canClose_handedOn u n cap n ((h xs _ hxs).closes rfl)
  · rintro ⟨k, hk, hu⟩ xs s hrun
    have hstart : Early k (Taking.start cap : Taking α) := ⟨⟨le_rfl, Nat.zero_le k⟩, le_rfl⟩
    have hs : Early k s := run_forall (fun _ _ _ ht h => ht.step hu h) hstart hrun
    have hwithin := hs.within.le
    have hforwarded := hs.forwarded
    exact ⟨by omega, fun hn => by omega⟩

/-- `Take(s, 1)` of a stream without an end: the second element is read, and before
it is there the output stays open. -/
theorem take_reads_on :
    (run (Taking.step some 1) (Taking.start 1) [.produce, .work, .recv]).map
        (fun s => (s.received, s.forwarded)) = some (1, 1) ∧
      ¬ CanClose some 1 (handedOn 1 1) ∧
      (run (Taking.step some 1) (Taking.start 1) [.produce, .work, .recv]) = some (handedOn 1 1) ∧
      (run (Taking.step some 1) (Taking.start 1) [.produce, .work, .recv, .produce, .work]).map
        (fun s => (s.received, s.forwarded)) = some (2, 1) :=
  ⟨rfl, not_canClose_handedOn some 1 1 1, rfl, rfl⟩

end Gkit.Streams
