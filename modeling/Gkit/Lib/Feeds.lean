import Gkit.Lib.Channels

/-!
# A channel and its producer

The producer sends a finite list of values and then closes the channel, each
when it gets to it.  What a receiver has yet to see is the buffer and what is
still to be sent.
-/

namespace Gkit.Lib

structure Feed (α : Type) where
  chan : Chan α
  /-- What the producer has yet to send. -/
  unsent : List α
  ended : chan.closed = true → unsent = []

namespace Feed

variable {α : Type}

/-- What a receiver has yet to see. -/
def rest (f : Feed α) : List α := f.chan.buf ++ f.unsent

/-- A channel on which nothing has been sent yet. -/
def ofList (cap : ℕ) (xs : List α) : Feed α := ⟨⟨[], cap, false⟩, xs, nofun⟩

@[simp] theorem rest_ofList (cap : ℕ) (xs : List α) : (ofList cap xs).rest = xs := rfl

/-- The next send into the buffer, or the close after the last. -/
def produce (f : Feed α) : Option (Feed α) :=
  match f.unsent with
  | v :: vs =>
      if h : f.chan.closed = false ∧ f.chan.buf.length < f.chan.cap then
        some ⟨{ f.chan with buf := f.chan.buf ++ [v] }, vs, by simp [h.1]⟩
      else none
  | [] =>
      if f.chan.closed then none else some ⟨{ f.chan with closed := true }, [], fun _ => rfl⟩

/-- A receive.  With nothing in the buffer it meets the next send. -/
def take (f : Feed α) : Option (Option α × Feed α) :=
  match f.chan.buf with
  | v :: buf => some (some v, ⟨{ f.chan with buf := buf }, f.unsent, f.ended⟩)
  | [] =>
      if h : f.chan.closed = false then
        match f.unsent with
        | v :: vs => some (some v, ⟨f.chan, vs, by simp [h]⟩)
        | [] => none
      else some (none, f)

variable {f g : Feed α}

theorem rest_produce (h : f.produce = some g) : g.rest = f.rest := by
  unfold produce at h
  cases hunsent : f.unsent with
  | nil =>
      simp only [hunsent] at h
      split_ifs at h
      cases h
      simp [rest, hunsent]
  | cons v vs =>
      simp only [hunsent] at h
      split_ifs at h
      cases h
      simp [rest, hunsent]

theorem produce_closed (hclosed : f.chan.closed = true) : f.produce = none := by
  simp [produce, f.ended hclosed, hclosed]

theorem take_cases {o : Option α} (h : f.take = some (o, g)) :
    (∃ v, o = some v ∧ f.rest = v :: g.rest) ∨
      (o = none ∧ g = f ∧ f.rest = [] ∧ f.chan.closed = true) := by
  unfold take at h
  cases hbuf : f.chan.buf with
  | cons v buf =>
      simp only [hbuf] at h
      cases h
      exact .inl ⟨v, rfl, by simp [rest, hbuf]⟩
  | nil =>
      simp only [hbuf] at h
      split_ifs at h with hopen
      · cases hunsent : f.unsent with
        | nil => simp [hunsent] at h
        | cons v vs =>
            simp only [hunsent] at h
            cases h
            exact .inl ⟨v, rfl, by simp [rest, hbuf, hunsent]⟩
      · cases h
        have hclosed : f.chan.closed = true := by simpa using hopen
        exact .inr ⟨rfl, rfl, by simp [rest, hbuf, f.ended hclosed], hclosed⟩

/-- While something is left a receive goes through. -/
theorem exists_take (h : f.rest ≠ []) : ∃ v g, f.take = some (some v, g) := by
  obtain ⟨⟨buf, cap, closed⟩, unsent, ended⟩ := f
  cases buf with
  | cons v buf => exact ⟨v, _, rfl⟩
  | nil =>
      cases unsent with
      | nil => exact absurd rfl h
      | cons v vs =>
          cases closed with
          | true => exact absurd (ended rfl) (List.cons_ne_nil v vs)
          | false => exact ⟨v, _, rfl⟩

end Feed

end Gkit.Lib
