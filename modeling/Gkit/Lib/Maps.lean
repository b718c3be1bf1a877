import Gkit.Lib.Tables

/-!
# Go maps

A map is a table of pairs whose key is the first component.  Nothing here
depends on the order of the pairs.
-/

namespace Gkit.Lib

namespace Table

variable {κ ρ : Type} {key : ρ → κ}

def keep (t : Table key) (p : ρ → Bool) : Table key where
  rows := t.rows.filter p
  nodup := t.nodup.sublist (List.filter_sublist.map key)

theorem keep_eq_self {t : Table key} {p : ρ → Bool} (h : ∀ r ∈ t.rows, p r = true) :
    t.keep p = t := by
  have hrows : t.rows.filter p = t.rows := List.filter_eq_self.mpr h
  cases t
  simp only [keep, mk.injEq]
  exact hrows

theorem get_keep [DecidableEq κ] (t : Table key) (p : ρ → Bool) (k : κ) :
    (t.keep p).get k = (t.get k).filter p := by
  refine Option.ext fun r => ?_
  simp only [get_eq_some, keep, List.mem_filter, Option.filter_eq_some_iff]
  tauto

def dropFirst (t : Table key) : Table key where
  rows := t.rows.tail
  nodup := t.nodup.sublist ((List.tail_sublist t.rows).map key)

theorem get_dropFirst_eq_none [DecidableEq κ] {t : Table key} {k : κ} (h : t.get k = none) :
    t.dropFirst.get k = none :=
  get_eq_none.mpr fun r hr => get_eq_none.mp h r (List.mem_of_mem_tail hr)

end Table

abbrev GoMap (K V : Type) : Type := Table (Prod.fst : K × V → K)

namespace GoMap

variable {K V : Type} [DecidableEq K]

def find (m : GoMap K V) (k : K) : Option V := (m.get k).map Prod.snd

def insert (m : GoMap K V) (k : K) (v : V) : GoMap K V := m.put (k, v)

def delete (m : GoMap K V) (k : K) : GoMap K V := m.keep fun r => r.1 ≠ k

@[simp] theorem find_empty (k : K) : find (Table.empty : GoMap K V) k = none := rfl

theorem find_eq_some {m : GoMap K V} {k : K} {v : V} : m.find k = some v ↔ (k, v) ∈ m.rows := by
  simp only [find, Option.map_eq_some_iff, Table.get_eq_some]
  constructor
  · rintro ⟨⟨k', v'⟩, ⟨hmem, rfl⟩, rfl⟩
    exact hmem
  · exact fun h => ⟨(k, v), ⟨h, rfl⟩, rfl⟩

theorem find_insert (m : GoMap K V) (k k' : K) (v : V) :
    (m.insert k v).find k' = if k' = k then some v else m.find k' := by
  rw [find, insert, Table.get_put]
  split_ifs <;> rfl

theorem find_keep (m : GoMap K V) (p : K × V → Bool) (k : K) :
    find (m.keep p) k = (m.find k).filter fun v => p (k, v) := by
  refine Option.ext fun v => ?_
  simp only [find_eq_some, Table.keep, List.mem_filter, Option.filter_eq_some_iff]

theorem find_delete (m : GoMap K V) (k k' : K) :
    (m.delete k).find k' = if k' = k then none else m.find k' := by
  rw [delete, find_keep]
  split_ifs with h
  · simp [h]
  · cases m.find k' <;> simp [h]

end GoMap

end Gkit.Lib
