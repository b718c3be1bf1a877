import Gkit.Lib.Maps

/-!
# Doubly linked lists

The type `List` of `container/list`.  An element has an identity, by which
pointers to it are told apart, and a value.  The elements are listed from the
back of the list to its front.
-/

namespace Gkit.Lib

structure GoList (α : Type) where
  elems : GoMap ℕ α
  next : ℕ
  fresh : ∀ x ∈ elems.rows, x.1 < next

namespace GoList

variable {α : Type}

def new : GoList α := ⟨Table.empty, 0, by simp [Table.empty]⟩

def init (l : GoList α) : GoList α := ⟨Table.empty, l.next, by simp [Table.empty]⟩

def len (l : GoList α) : ℕ := l.elems.rows.length

def back (l : GoList α) : Option ℕ := l.elems.rows.head?.map Prod.fst

def value (l : GoList α) (el : ℕ) : Option α := l.elems.find el

def remove (l : GoList α) (el : ℕ) : GoList α where
  elems := l.elems.delete el
  next := l.next
  fresh x hx := l.fresh x (List.mem_of_mem_filter hx)

def pushFront (l : GoList α) (v : α) : GoList α × ℕ :=
  (⟨l.elems.insert l.next v, l.next + 1, by
    intro x hx
    rcases Table.mem_put.mp hx with rfl | ⟨hx, -⟩
    · exact Nat.lt_succ_self _
    · exact Nat.lt_succ_of_lt (l.fresh x hx)⟩, l.next)

/-- `MoveToFront`, which does nothing with an element of another list, and then
an assignment to its value. -/
def moveToFront (l : GoList α) (el : ℕ) (f : α → α) : GoList α :=
  match h : l.value el with
  | none => l
  | some v => ⟨l.elems.insert el (f v), l.next, by
      intro x hx
      rcases Table.mem_put.mp hx with rfl | ⟨hx, -⟩
      · exact l.fresh (el, v) (GoMap.find_eq_some.mp h)
      · exact l.fresh x hx⟩

theorem rows_moveToFront {l : GoList α} {el : ℕ} {v : α} (h : l.value el = some v) (f : α → α) :
    (l.moveToFront el f).elems.rows =
      l.elems.rows.filter (fun x => x.1 ≠ el) ++ [(el, f v)] := by
  unfold moveToFront
  split
  · next hnone => simp [h] at hnone
  · next w hw =>
      obtain rfl := Option.some.inj (h.symm.trans hw)
      rfl

theorem rows_pushFront (l : GoList α) (v : α) :
    (l.pushFront v).1.elems.rows = l.elems.rows ++ [(l.next, v)] := by
  have hold : l.elems.rows.filter (fun x => x.1 ≠ l.next) = l.elems.rows := by
    refine List.filter_eq_self.mpr fun x hx => ?_
    simpa using (l.fresh x hx).ne
  exact congrArg (· ++ [(l.next, v)]) hold

end GoList

end Gkit.Lib
