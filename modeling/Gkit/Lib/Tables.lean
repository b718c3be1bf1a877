import Mathlib

/-!
# Tables with a primary key

A table is a list of rows with distinct keys.  Writing a row replaces the one
with its key, if there is one, and puts the new version last, as an update in a
heap does.
-/

namespace Gkit.Lib

variable {κ ρ : Type}

structure Table (key : ρ → κ) where
  rows : List ρ
  nodup : (rows.map key).Nodup

namespace Table

variable {key : ρ → κ}

def empty : Table key := ⟨[], List.nodup_nil⟩

variable [DecidableEq κ]

def get (t : Table key) (k : κ) : Option ρ := t.rows.find? fun r => key r = k

def put (t : Table key) (row : ρ) : Table key where
  rows := t.rows.filter (fun r => key r ≠ key row) ++ [row]
  nodup := by
    have hsub : (t.rows.filter fun r => key r ≠ key row).map key |>.Nodup :=
      t.nodup.sublist (List.filter_sublist.map key)
    simp only [List.map_append, List.map_cons, List.map_nil]
    refine hsub.append (List.nodup_singleton _) ?_
    simp only [List.disjoint_singleton, List.mem_map, List.mem_filter]
    rintro ⟨r, ⟨-, hr⟩, heq⟩
    simp [heq] at hr

variable {t : Table key} {k : κ} {row : ρ}

omit [DecidableEq κ] in
theorem eq_of_key {r r' : ρ} (h : r ∈ t.rows) (h' : r' ∈ t.rows) (hk : key r = key r') :
    r = r' :=
  List.inj_on_of_nodup_map t.nodup h h' hk

theorem get_eq_some : t.get k = some row ↔ row ∈ t.rows ∧ key row = k := by
  constructor
  · intro h
    exact ⟨List.mem_of_find?_eq_some h, by simpa using List.find?_some h⟩
  · rintro ⟨hmem, rfl⟩
    cases h : t.rows.find? (fun r => decide (key r = key row)) with
    | none => simpa using List.find?_eq_none.mp h row hmem
    | some r =>
        have hr : key r = key row := by simpa using List.find?_some h
        exact h.trans (congrArg some (eq_of_key (List.mem_of_find?_eq_some h) hmem hr))

theorem get_eq_none : t.get k = none ↔ ∀ r ∈ t.rows, key r ≠ k := by
  simp [get, List.find?_eq_none]

theorem mem_put {r : ρ} : r ∈ (t.put row).rows ↔ r = row ∨ r ∈ t.rows ∧ key r ≠ key row := by
  simp [put, or_comm]

theorem get_put : (t.put row).get k = if k = key row then some row else t.get k := by
  split_ifs with hk
  · exact get_eq_some.mpr ⟨mem_put.mpr (.inl rfl), hk.symm⟩
  · refine Option.ext fun r => ?_
    simp only [get_eq_some, mem_put]
    constructor
    · rintro ⟨rfl | ⟨hr, -⟩, hkey⟩
      · exact absurd hkey.symm hk
      · exact ⟨hr, hkey⟩
    · rintro ⟨hr, rfl⟩
      exact ⟨.inr ⟨hr, hk⟩, rfl⟩

@[simp] theorem get_put_self : (t.put row).get (key row) = some row := by
  rw [get_put, if_pos rfl]

theorem get_put_of_ne (h : k ≠ key row) : (t.put row).get k = t.get k := by
  rw [get_put, if_neg h]

theorem length_put_of_get {r : ρ} (h : t.get (key row) = some r) :
    (t.put row).rows.length = t.rows.length := by
  obtain ⟨hmem, hkey⟩ := get_eq_some.mp h
  obtain ⟨pre, post, hrows⟩ := List.append_of_mem hmem
  have hnodup := t.nodup
  rw [hrows, List.map_append, List.map_cons, List.nodup_middle, List.nodup_cons] at hnodup
  have hother : ∀ r' ∈ pre ++ post, key r' ≠ key row := by
    intro r' hr' heq
    apply hnodup.1
    rw [← List.map_append, hkey, ← heq]
    exact List.mem_map_of_mem hr'
  have hfilter : (pre ++ r :: post).filter (fun r' => decide (key r' ≠ key row)) = pre ++ post := by
    rw [List.filter_append, List.filter_cons_of_neg (by simp [hkey]), ← List.filter_append]
    exact List.filter_eq_self.mpr fun r' hr' => by simpa using hother r' hr'
  simp only [put, hrows, hfilter, List.length_append, List.length_cons, List.length_nil]
  omega

theorem rows_put_of_absent (h : t.get (key row) = none) : (t.put row).rows = t.rows ++ [row] := by
  have hself : t.rows.filter (fun r => decide (key r ≠ key row)) = t.rows :=
    List.filter_eq_self.mpr fun r hr => by simpa using get_eq_none.mp h r hr
  exact congrArg (· ++ [row]) hself

theorem length_put_of_absent (h : t.get (key row) = none) :
    (t.put row).rows.length = t.rows.length + 1 := by
  rw [rows_put_of_absent h, List.length_append, List.length_singleton]

theorem get_foldl_put {rs : List ρ} (h : ∀ r ∈ rs, key r ≠ k) (t : Table key) :
    (rs.foldl put t).get k = t.get k := by
  induction rs generalizing t with
  | nil => rfl
  | cons r rs ih =>
      rw [List.foldl_cons, ih fun r' hr' => h r' (List.mem_cons_of_mem _ hr')]
      exact get_put_of_ne (h r List.mem_cons_self).symm

/-- Rows with distinct keys are all there after they are written. -/
theorem get_foldl_put_mem {rs : List ρ} (h : (rs.map key).Nodup) {r : ρ} (hr : r ∈ rs)
    (t : Table key) : (rs.foldl put t).get (key r) = some r := by
  induction rs generalizing t with
  | nil => simp at hr
  | cons r' rs ih =>
      obtain ⟨hnew, hrs⟩ := List.nodup_cons.mp h
      rw [List.foldl_cons]
      rcases List.mem_cons.mp hr with rfl | hr
      · have hother : ∀ r' ∈ rs, key r' ≠ key r := fun r' hr' heq =>
          hnew (heq ▸ List.mem_map_of_mem hr')
        rw [get_foldl_put hother, get_put_self]
      · exact ih hrs hr _

end Table

end Gkit.Lib
