import Mathlib

/-!
# Slices

Arrays stand under their addresses.  A slice is the first part of an array.
Several slices may share one array, and a write through one of them shows in
the others.
-/

namespace Gkit.Lib

structure Heap (α : Type) where
  arrays : ℕ → List α
  /-- The address of the next array. -/
  next : ℕ

structure Slice where
  array : ℕ
  len : ℕ
  cap : ℕ
  deriving DecidableEq, Repr

variable {α : Type}

def Slice.read (s : Slice) (h : Heap α) : List α := (h.arrays s.array).take s.len

/-- The slice `s[:0]`. -/
def Slice.cut (s : Slice) : Slice := { s with len := 0 }

namespace Heap

def empty : Heap α := ⟨fun _ => [], 0⟩

/-- A new array that begins with these values. -/
def make (h : Heap α) (xs : List α) (cap : ℕ) : Heap α × Slice :=
  (⟨Function.update h.arrays h.next xs, h.next + 1⟩, ⟨h.next, xs.length, cap⟩)

/-- The array with `v` behind the first values of the slice. -/
def write (h : Heap α) (s : Slice) (v : α) : Heap α where
  arrays := Function.update h.arrays s.array
    (s.read h ++ v :: (h.arrays s.array).drop (s.len + 1))
  next := h.next

/-- Without room in the array the values move to a new one, which is twice as large. -/
def append (h : Heap α) (s : Slice) (v : α) : Heap α × Slice :=
  if s.len < s.cap then (h.write s v, { s with len := s.len + 1 })
  else h.make (s.read h ++ [v]) (2 * s.cap + 1)

end Heap

namespace Slice

variable {h : Heap α} {s t : Slice} {v : α} {xs : List α} {cap : ℕ}

structure Valid (s : Slice) (h : Heap α) : Prop where
  alive : s.array < h.next
  fits : s.len ≤ (h.arrays s.array).length

theorem Valid.length_read (hs : s.Valid h) : (s.read h).length = s.len := by
  rw [read, List.length_take, min_eq_left hs.fits]

@[simp] theorem read_cut (s : Slice) (h : Heap α) : s.cut.read h = [] := by
  simp [read, cut]

theorem Valid.cut (hs : s.Valid h) : s.cut.Valid h := ⟨hs.alive, Nat.zero_le _⟩

theorem read_make : (h.make xs cap).2.read (h.make xs cap).1 = xs := by
  simp [read, Heap.make]

theorem valid_make : (h.make xs cap).2.Valid (h.make xs cap).1 :=
  ⟨Nat.lt_succ_self _, by simp [Heap.make]⟩

theorem read_make_of_lt (ht : t.array < h.next) : t.read (h.make xs cap).1 = t.read h := by
  simp [read, Heap.make, Function.update_of_ne ht.ne]

theorem Valid.make (ht : t.Valid h) : t.Valid (h.make xs cap).1 := by
  refine ⟨Nat.lt_succ_of_lt ht.alive, ?_⟩
  simpa [Heap.make, Function.update_of_ne ht.alive.ne] using ht.fits

/-! ## Appending -/

theorem read_append (hs : s.Valid h) :
    (h.append s v).2.read (h.append s v).1 = s.read h ++ [v] := by
  unfold Heap.append
  split_ifs with hroom
  · have hlength : (s.read h ++ [v]).length = s.len + 1 := by simp [hs.length_read]
    simp only [read, Heap.write, Function.update_self]
    rw [← List.singleton_append, ← List.append_assoc]
    exact List.take_left' hlength
  · exact read_make

theorem valid_append (hs : s.Valid h) : (h.append s v).2.Valid (h.append s v).1 := by
  unfold Heap.append
  split_ifs with hroom
  · refine ⟨hs.alive, ?_⟩
    simp [Heap.write, hs.length_read]
  · exact valid_make

theorem len_append (hs : s.Valid h) : (h.append s v).2.len = s.len + 1 := by
  unfold Heap.append
  split_ifs with hroom
  · rfl
  · simp [Heap.make, hs.length_read]

/-! ## Slices that do not share their array -/

structure Apart (t s : Slice) (h : Heap α) : Prop where
  alive : t.array < h.next
  ne : t.array ≠ s.array

theorem Apart.make (ht : t.Apart s h) : t.Apart s (h.make xs cap).1 :=
  ⟨Nat.lt_succ_of_lt ht.alive, ht.ne⟩

theorem apart_make (hs : s.Valid h) : (h.make xs cap).2.Apart s (h.make xs cap).1 :=
  ⟨Nat.lt_succ_self _, hs.alive.ne'⟩

theorem Apart.cut (ht : t.Apart s h) : t.Apart s.cut h := ⟨ht.alive, ht.ne⟩

theorem Apart.append (ht : t.Apart s h) : t.Apart (h.append s v).2 (h.append s v).1 := by
  unfold Heap.append
  split_ifs with hroom
  · exact ⟨ht.alive, ht.ne⟩
  · exact ⟨Nat.lt_succ_of_lt ht.alive, ht.alive.ne⟩

theorem Apart.read_append (ht : t.Apart s h) : t.read (h.append s v).1 = t.read h := by
  unfold Heap.append
  split_ifs with hroom
  · simp [read, Heap.write, Function.update_of_ne ht.ne]
  · exact read_make_of_lt ht.alive

end Slice

end Gkit.Lib
