import Gkit.Batch.Model

/-!
# The batches partition the input

What was sent, what is in the buffer and what is still to come make up the
input, in this order.  A batch that was sent lies in an array of its own, so it
stays as it is while the buffer is used again.
-/

namespace Gkit.Batch

open Gkit.Lib

variable {α : Type} {p : Params} {input : List α} {s s' : Sys α}

/-- What a batch has to look like. -/
structure Shape (p : Params) (value : List α) (cause : Cause) : Prop where
  nonempty : value ≠ []
  bounded : (value.length : ℤ) ≤ p.size
  short : (value.length : ℤ) < p.size → cause = .timeout ∨ cause = .ended

/-- A batch that was sent, beside the buffer as it is now. -/
structure Kept (p : Params) (buf : Slice) (heap : Heap α) (e : Emission α) : Prop where
  apart : e.batch.Apart buf heap
  unchanged : e.batch.read heap = e.value
  shape : Shape p e.value e.cause

structure Core (p : Params) (input : List α) (s : Sys α) : Prop where
  buffer : s.buf.Valid s.heap
  whole : (s.emitted.map Emission.value).flatten ++ (s.buf.read s.heap ++ s.input.rest) = input
  kept : ∀ e ∈ s.emitted, Kept p s.buf s.heap e
  passed : s.got ++ s.ch.buf = s.emitted.map Emission.batch

/-- Where the goroutine stands. -/
def Stage (p : Params) (s : Sys α) : Prop :=
  match s.worker with
  | .selecting => (s.buf.len : ℤ) < p.size
  | .sending batch cause => batch.Apart s.buf s.heap ∧
      batch.read s.heap = s.buf.read s.heap ∧ Shape p (s.buf.read s.heap) cause ∧
      (cause = .ended → s.input.rest = [])
  | .resetting cause => s.buf.len = 0 ∧ (cause = .ended → s.input.rest = [])
  | .draining | .reporting _ | .returning | .closing | .exited =>
      s.buf.len = 0 ∧ s.input.rest = []
  | .crashed _ => False

/-- The channel of the batches and the one of the error, whether they are closed. -/
def Worker.shut : Worker → Bool × Bool
  | .closing => (false, true)
  | .exited => (true, true)
  | _ => (false, false)

structure Sound (p : Params) (input : List α) (s : Sys α) : Prop where
  core : Core p input s
  stage : Stage p s
  shut : (s.ch.closed, s.errCh.closed) = s.worker.shut

theorem Sound.not_torn (hs : Sound p input s) : ¬s.Torn := by
  have hshut := hs.shut
  unfold Sys.Torn
  cases hw : s.worker <;> simp_all [Worker.shut]

/-! ## Filling and flushing the buffer -/

theorem Kept.append {buf : Slice} {heap : Heap α} {e : Emission α} (he : Kept p buf heap e)
    (v : α) : Kept p (heap.append buf v).2 (heap.append buf v).1 e where
  apart := he.apart.append
  unchanged := he.apart.read_append.trans he.unchanged
  shape := he.shape

theorem Kept.make {buf : Slice} {heap : Heap α} {e : Emission α} (he : Kept p buf heap e)
    (xs : List α) (cap : ℕ) : Kept p buf (heap.make xs cap).1 e where
  apart := he.apart.make
  unchanged := (Slice.read_make_of_lt he.apart.alive).trans he.unchanged
  shape := he.shape

theorem Core.append (hs : Core p input s) {v : α} {f : Feed α}
    (hrest : s.input.rest = v :: f.rest) : Core p input ({ s with input := f }.append v) where
  buffer := Slice.valid_append hs.buffer
  whole := by
    have hread : ({ s with input := f }.append v).buf.read ({ s with input := f }.append v).heap =
        s.buf.read s.heap ++ [v] := Slice.read_append hs.buffer
    rw [hread, ← hs.whole, hrest, List.append_assoc, List.singleton_append]
    rfl
  kept := fun e he => (hs.kept e he).append v
  passed := hs.passed

theorem Core.len_append (hs : Core p input s) (v : α) (f : Feed α) :
    ({ s with input := f }.append v).buf.len = s.buf.len + 1 :=
  Slice.len_append hs.buffer

/-- With an empty buffer only the timer is set again. -/
theorem Core.flush_empty (hs : Core p input s) {cause : Cause} (hlen : s.buf.len = 0)
    (hended : cause = .ended → s.input.rest = []) :
    Core p input (s.flush cause) ∧ Stage p (s.flush cause) := by
  have hflush : s.flush cause = { s with worker := .resetting cause } := if_neg (by omega)
  rw [hflush]
  exact ⟨{ hs with }, hlen, hended⟩

/-- The copy is made in a new array. -/
theorem Core.flush_copy (hs : Core p input s) {cause : Cause} (hlen : 0 < s.buf.len)
    (hshape : Shape p (s.buf.read s.heap) cause) (hended : cause = .ended → s.input.rest = []) :
    Core p input (s.flush cause) ∧ Stage p (s.flush cause) := by
  have hread : s.buf.read (s.heap.make (s.buf.read s.heap) s.buf.len).1 = s.buf.read s.heap :=
    Slice.read_make_of_lt hs.buffer.alive
  have hmade : s.buf.Valid (s.heap.make (s.buf.read s.heap) s.buf.len).1 := hs.buffer.make
  have hflush : s.flush cause = { s with
      heap := (s.heap.make (s.buf.read s.heap) s.buf.len).1
      worker := .sending (s.heap.make (s.buf.read s.heap) s.buf.len).2 cause } := if_pos hlen
  rw [hflush]
  refine ⟨⟨hmade, ?_, fun e he => (hs.kept e he).make _ s.buf.len, hs.passed⟩,
    Slice.apart_make hs.buffer, ?_, ?_, hended⟩
  · change _ ++ (s.buf.read (s.heap.make (s.buf.read s.heap) s.buf.len).1 ++ _) = input
    rw [hread]
    exact hs.whole
  · exact Slice.read_make.trans hread.symm
  · change Shape p (s.buf.read (s.heap.make (s.buf.read s.heap) s.buf.len).1) cause
    rwa [hread]

/-- A flush for any of the three reasons, of a buffer that is full if it is for that. -/
theorem Core.flush (hs : Core p input s) {cause : Cause} (hbound : (s.buf.len : ℤ) ≤ p.size)
    (hshort : (s.buf.len : ℤ) < p.size → cause = .timeout ∨ cause = .ended)
    (hended : cause = .ended → s.input.rest = []) :
    Core p input (s.flush cause) ∧ Stage p (s.flush cause) := by
  rcases Nat.eq_zero_or_pos s.buf.len with hlen | hlen
  · exact hs.flush_empty hlen hended
  · have hlength := hs.buffer.length_read
    refine hs.flush_copy hlen ⟨?_, ?_, ?_⟩ hended
    · exact List.ne_nil_of_length_pos (hlength ▸ hlen)
    · rwa [hlength]
    · rwa [hlength]

theorem shut_flush (s : Sys α) (cause : Cause) :
    ((s.flush cause).ch.closed, (s.flush cause).errCh.closed) = (s.ch.closed, s.errCh.closed) ∧
      (s.flush cause).worker.shut = (false, false) := by
  unfold Sys.flush
  split_ifs <;> exact ⟨rfl, rfl⟩

theorem Sound.of_flush {t : Sys α} {cause : Cause} (hw : s.worker = .selecting)
    (hs : Sound p input s) (hclosed : (t.ch.closed, t.errCh.closed) = (s.ch.closed, s.errCh.closed))
    (h : Core p input (t.flush cause) ∧ Stage p (t.flush cause)) :
    Sound p input (t.flush cause) := by
  refine ⟨h.1, h.2, ?_⟩
  have hshut := hs.shut
  rw [hw] at hshut
  rw [(shut_flush t cause).1, (shut_flush t cause).2, hclosed, hshut]
  rfl

/-! ## The send of a batch -/

theorem Core.emit (hs : Core p input s) {batch : Slice} {cause : Cause}
    (hapart : batch.Apart s.buf s.heap) (hread : batch.read s.heap = s.buf.read s.heap)
    (hshape : Shape p (s.buf.read s.heap) cause) :
    Core p input (s.emit batch cause { s.ch with buf := s.ch.buf ++ [batch] }) where
  buffer := hs.buffer.cut
  whole := by
    rw [← hs.whole]
    simp [Sys.emit, hread]
  kept := by
    intro e he
    rcases List.mem_append.mp he with he | he
    · have hkept := hs.kept e he
      exact ⟨hkept.apart.cut, hkept.unchanged, hkept.shape⟩
    · obtain rfl := List.mem_singleton.mp he
      exact ⟨hapart.cut, rfl, hread ▸ hshape⟩
  passed := by
    have hpassed := hs.passed
    simp [Sys.emit, ← hpassed]

/-! ## Whole runs -/

theorem Sound.step (hp : 1 ≤ p.size) {x : Action} (hs : Sound p input s)
    (h : Effect p s x s') : Sound p input s' := by
  have hcore := hs.core
  have hstage := hs.stage
  have hshut := hs.shut
  cases h with
  | pass hd => exact ⟨{ hcore with }, hstage, hshut⟩
  | fire hd hnow => exact ⟨{ hcore with }, hstage, hshut⟩
  | @produce f h =>
      have hrest := Feed.rest_produce h
      refine ⟨⟨hcore.buffer, ?_, hcore.kept, hcore.passed⟩, ?_, hshut⟩
      · exact hrest ▸ hcore.whole
      · simpa only [Stage, hrest] using hstage
  | @item v f hw h hsize =>
      rcases Feed.take_cases h with ⟨u, hu, hrest⟩ | ⟨hnone, -⟩
      · cases hu
        refine ⟨hcore.append hrest, ?_, hshut⟩
        simpa only [Stage, Sys.append, hw] using hsize
      · cases hnone
  | @filled v f hw h hsize =>
      rcases Feed.take_cases h with ⟨u, hu, hrest⟩ | ⟨hnone, -⟩
      · cases hu
        have hlen := hcore.len_append v f
        simp only [Stage, hw] at hstage
        refine .of_flush hw hs rfl ((hcore.append hrest).flush ?_ ?_ nofun)
        · omega
        · intro hshort
          omega
      · cases hnone
  | @ended f hw h =>
      rcases Feed.take_cases h with ⟨u, hu, -⟩ | ⟨-, rfl, hrest, -⟩
      · cases hu
      · simp only [Stage, hw] at hstage
        exact .of_flush hw hs rfl
          (hcore.flush hstage.le (fun _ => .inr rfl) fun _ => hrest)
  | tick hw h =>
      simp only [Stage, hw] at hstage
      have hcore : Core p input { s with timer := { s.timer with pending := false } } :=
        { hcore with }
      exact .of_flush hw hs rfl (hcore.flush hstage.le (fun _ => .inl rfl) nofun)
  | @sent batch cause hw hopen =>
      simp only [Stage, hw] at hstage
      obtain ⟨hapart, hread, hshape, hended⟩ := hstage
      rw [hw] at hshut
      exact ⟨hcore.emit hapart hread hshape, ⟨rfl, hended⟩, hshut⟩
  | @reset cause hw =>
      simp only [Stage, hw] at hstage
      rw [hw] at hshut
      have hroom : (s.buf.len : ℤ) < p.size := by
        have := hstage.1
        omega
      cases cause with
      | ended => exact ⟨{ hcore with }, ⟨hstage.1, hstage.2 rfl⟩, hshut⟩
      | full => exact ⟨{ hcore with }, hroom, hshut⟩
      | timeout => exact ⟨{ hcore with }, hroom, hshut⟩
  | @drained err hw =>
      simp only [Stage, hw] at hstage
      rw [hw] at hshut
      cases err with
      | none => exact ⟨{ hcore with }, hstage, hshut⟩
      | some err => exact ⟨{ hcore with }, hstage, hshut⟩
  | reported hw =>
      simp only [Stage, hw] at hstage
      rw [hw] at hshut
      exact ⟨{ hcore with }, hstage, hshut⟩
  | closedErr hw =>
      simp only [Stage, hw] at hstage
      rw [hw] at hshut
      exact ⟨{ hcore with }, hstage,
        congrArg (·, true) (congrArg Prod.fst hshut)⟩
  | closedCh hw =>
      simp only [Stage, hw] at hstage
      rw [hw] at hshut
      exact ⟨{ hcore with }, hstage,
        congrArg (true, ·) (congrArg Prod.snd hshut)⟩
  | @consumed batch rest h =>
      refine ⟨⟨hcore.buffer, hcore.whole, hcore.kept, ?_⟩, hstage, hshut⟩
      rw [← hcore.passed, h, List.append_assoc, List.singleton_append]
  | crashed h => exact absurd h hs.not_torn

theorem sound_start (hp : 1 ≤ p.size) (cap : ℕ) (input : List α) :
    Sound p input (start p cap input) := by
  have hworker : (start p cap input).worker = .selecting := if_neg (by omega)
  refine ⟨⟨Slice.valid_make, ?_, nofun, rfl⟩, ?_, ?_⟩
  · simp [start, Slice.read_make]
  · simp only [Stage, hworker]
    exact_mod_cast hp
  · rw [hworker]
    rfl

theorem sound_of_run (hp : 1 ≤ p.size) {cap : ℕ} {xs : List Action}
    (h : run (Sys.step p) (start p cap input) xs = some s) : Sound p input s :=
  run_forall (fun _ _ _ hs hstep => hs.step hp (effect_of_step hstep)) (sound_start hp cap input) h

/-- Once the channel of the batches is closed nothing is left. -/
theorem Sound.drained_of_closed (hs : Sound p input s) (hclosed : s.ch.closed = true) :
    s.buf.read s.heap = [] ∧ s.input.rest = [] := by
  have hstage := hs.stage
  have hshut := hs.shut
  cases hw : s.worker with
  | exited =>
      simp only [Stage, hw] at hstage
      exact ⟨by simp [Slice.read, hstage.1], hstage.2⟩
  | _ => simp [hw, Worker.shut, hclosed] at hshut

theorem batch_partitions (hp : 1 ≤ p.size) {cap : ℕ} {xs : List Action}
    (h : run (Sys.step p) (start p cap input) xs = some s) :
    (∀ e ∈ s.emitted, e.value ≠ [] ∧ (e.value.length : ℤ) ≤ p.size ∧
      ((e.value.length : ℤ) < p.size → e.cause = .timeout ∨ e.cause = .ended) ∧
      e.batch.read s.heap = e.value) ∧
    (s.emitted.map Emission.value).flatten <+: input ∧
    (s.ch.closed = true → (s.emitted.map Emission.value).flatten = input) ∧
    s.got ++ s.ch.buf = s.emitted.map Emission.batch ∧
    ∀ text, s.worker ≠ .crashed text := by
  have hs := sound_of_run hp h
  refine ⟨fun e he => ?_, ⟨_, hs.core.whole⟩, fun hclosed => ?_, hs.core.passed, fun text hw => ?_⟩
  · have hkept := hs.core.kept e he
    exact ⟨hkept.shape.nonempty, hkept.shape.bounded, hkept.shape.short, hkept.unchanged⟩
  · obtain ⟨hbuf, hrest⟩ := hs.drained_of_closed hclosed
    simpa [hbuf, hrest] using hs.core.whole
  · have hstage := hs.stage
    simp only [Stage, hw] at hstage

/-- Two items fill a batch, and the end of the input flushes the third. -/
def threeItems : List Action :=
  [.recv, .produce, .recv, .send, .consume, .reset, .recv, .produce, .recv, .send, .reset,
    .drain none, .closeErr, .closeCh]

theorem three_items_batched :
    ∃ s, run (Sys.step ⟨2, 100⟩) (start ⟨2, 100⟩ 1 [7, 8, 9]) threeItems = some s ∧
      s.got.map (·.read s.heap) = [[7, 8]] ∧ s.ch.buf.map (·.read s.heap) = [[9]] ∧
      (s.emitted.map Emission.value).flatten = [7, 8, 9] := by
  refine ⟨_, rfl, rfl, rfl, ?_⟩
  have hrun := batch_partitions (by decide)
    (show run (Sys.step ⟨2, 100⟩) (start ⟨2, 100⟩ 1 [7, 8, 9]) threeItems = some _ from rfl)
  exact hrun.2.2.1 rfl

end Gkit.Batch
