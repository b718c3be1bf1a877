import Gkit.LruCache.Model

/-!
# The cache as a table of entries by recency

Without its pointers the cache is one table of entries with distinct keys, the
least recently used first.  The list and the map of the cache hold the same
entries as that table through every operation.
-/

namespace Gkit.LruCache

open Gkit.Lib

variable {K V : Type} [DecidableEq K]

abbrev Recency (K V : Type) : Type := Table (Entry.key : Entry K V → K)

namespace Recency

def without (t : Recency K V) (key : K) : Recency K V := t.keep fun e => e.key ≠ key

def fetch (t : Recency K V) (now : ℤ) (key : K) : Recency K V × Option V :=
  match t.get key with
  | none => (t, none)
  | some e => if isExpired now e then (t.without key, none) else (t.put e, some e.value)

def store (capacity : ℤ) (t : Recency K V) (e : Entry K V) : Recency K V :=
  match t.get e.key with
  | some _ => t.put e
  | none => (if (t.rows.length : ℤ) ≥ capacity then t.dropFirst else t).put e

def perform (capacity ttl : ℤ) (t : Recency K V) (now : ℤ) : Op K V → Recency K V × Option V
  | .get key => t.fetch now key
  | .set key value => (t.store capacity ⟨key, value, expiry ttl now⟩, none)
  | .delete key => (t.without key, none)
  | .clear => (Table.empty, none)
  | .deleteExpired => (if ttl = 0 then t else t.keep fun e => ¬ isExpired now e, none)

end Recency

/-! ## The configuration stays -/

structure SameConfig (c c' : Cache K V) : Prop where
  capacity : c'.capacity = c.capacity
  ttl : c'.ttl = c.ttl

theorem sameConfig_removeElement (c : Cache K V) (i : ℕ) : SameConfig c (c.removeElement i) := by
  unfold Cache.removeElement
  cases c.list.value i with
  | none => exact ⟨rfl, rfl⟩
  | some e => exact ⟨rfl, rfl⟩

theorem sameConfig_evictOldest (c : Cache K V) : SameConfig c c.evictOldest := by
  unfold Cache.evictOldest
  cases c.list.back with
  | none => exact ⟨rfl, rfl⟩
  | some i => exact ⟨(sameConfig_removeElement c i).capacity, (sameConfig_removeElement c i).ttl⟩

theorem sameConfig_perform (c : Cache K V) (now : ℤ) (o : Op K V) :
    SameConfig c (Sys.perform c now o).1 := by
  have hremove := sameConfig_removeElement c
  cases o with
  | get k =>
      simp only [Sys.perform, Cache.get]
      cases c.items.find k with
      | none => exact ⟨rfl, rfl⟩
      | some i =>
          cases hi : c.list.value i with
          | none => simpa [hi] using (⟨rfl, rfl⟩ : SameConfig c c)
          | some e =>
              simp only [hi]
              split_ifs
              · exact ⟨(hremove i).capacity, (hremove i).ttl⟩
              · exact ⟨rfl, rfl⟩
  | set k v =>
      simp only [Sys.perform, Cache.set]
      cases c.items.find k with
      | some i => exact ⟨rfl, rfl⟩
      | none =>
          simp only
          split_ifs
          · exact ⟨(sameConfig_evictOldest c).capacity, (sameConfig_evictOldest c).ttl⟩
          · exact ⟨rfl, rfl⟩
  | delete k =>
      simp only [Sys.perform, Cache.delete]
      cases c.items.find k with
      | none => exact ⟨rfl, rfl⟩
      | some i => exact hremove i
  | clear => exact ⟨rfl, rfl⟩
  | deleteExpired =>
      simp only [Sys.perform, Cache.deleteExpired]
      split_ifs
      · exact ⟨rfl, rfl⟩
      · refine List.foldlRecOn c.list.elems.rows _ ⟨rfl, rfl⟩ fun c' hc' x _ => ?_
        split_ifs
        · have hx := sameConfig_removeElement c' x.1
          exact ⟨hx.capacity.trans hc'.capacity, hx.ttl.trans hc'.ttl⟩
        · exact hc'

/-! ## The two structures in step -/

/-- The list holds the entries of the table in its order, and the map leads to
them. -/
structure Refines (c : Cache K V) (t : Recency K V) : Prop where
  rows : c.list.elems.rows.map Prod.snd = t.rows
  items : ∀ k i, c.items.find k = some i ↔ ∃ e, (i, e) ∈ c.list.elems.rows ∧ e.key = k

namespace Refines

variable {c : Cache K V} {t : Recency K V} {k : K} {i : ℕ} {e : Entry K V}

theorem congr (h : Refines c t) {t' : Recency K V} (ht : t.rows = t'.rows) : Refines c t' :=
  ⟨h.rows.trans ht, h.items⟩

/-- The counters do not matter. -/
theorem of_eq (h : Refines c t) {c' : Cache K V} (hlist : c'.list = c.list)
    (hitems : c'.items = c.items) : Refines c' t :=
  ⟨hlist ▸ h.rows, hlist ▸ hitems ▸ h.items⟩

theorem mem_rows (h : Refines c t) (he : (i, e) ∈ c.list.elems.rows) : e ∈ t.rows := by
  rw [← h.rows]
  exact List.mem_map_of_mem he

theorem element (h : Refines c t) (hi : c.items.find k = some i) :
    ∃ e, c.list.value i = some e ∧ t.get k = some e := by
  obtain ⟨e, hmem, hkey⟩ := (h.items k i).mp hi
  exact ⟨e, GoMap.find_eq_some.mpr hmem, Table.get_eq_some.mpr ⟨h.mem_rows hmem, hkey⟩⟩

theorem absent (h : Refines c t) (hk : c.items.find k = none) : t.get k = none := by
  refine Table.get_eq_none.mpr fun e he hkey => ?_
  rw [← h.rows] at he
  obtain ⟨⟨i, e⟩, hmem, rfl⟩ := List.mem_map.mp he
  have hfind := (h.items k i).mpr ⟨e, hmem, hkey⟩
  simp [hk] at hfind

/-- Elements and keys tell the entries apart alike. -/
theorem id_eq_iff (h : Refines c t) (hi : (i, e) ∈ c.list.elems.rows) {x : ℕ × Entry K V}
    (hx : x ∈ c.list.elems.rows) : x.1 = i ↔ x.2.key = e.key := by
  obtain ⟨j, f⟩ := x
  constructor
  · rintro rfl
    have := Table.eq_of_key hx hi rfl
    rw [(Prod.mk.inj this).2]
  · intro hkey
    have hj := (h.items e.key j).mpr ⟨f, hx, hkey⟩
    have hi' := (h.items e.key i).mpr ⟨e, hi, rfl⟩
    exact Option.some.inj (hj.symm.trans hi')

theorem filter_rows (h : Refines c t) (hi : (i, e) ∈ c.list.elems.rows) :
    (c.list.elems.rows.filter fun x => x.1 ≠ i).map Prod.snd =
      t.rows.filter fun f => f.key ≠ e.key := by
  rw [← h.rows, List.filter_map]
  congr 1
  refine List.filter_congr fun x hx => ?_
  simp [h.id_eq_iff hi hx]

theorem removeElement (h : Refines c t) (hi : c.list.value i = some e) :
    Refines (c.removeElement i) (t.without e.key) := by
  have hmem := GoMap.find_eq_some.mp hi
  simp only [Cache.removeElement, hi]
  refine ⟨h.filter_rows hmem, fun k j => ?_⟩
  have hrows : ∀ f, (j, f) ∈ (c.list.remove i).elems.rows ↔
      (j, f) ∈ c.list.elems.rows ∧ j ≠ i := by
    simp [GoList.remove, GoMap.delete, Table.keep]
  simp only [GoMap.find_delete, hrows]
  split_ifs with hk
  · simp only [false_iff, not_exists]
    rintro f ⟨⟨hf, hj⟩, hkey⟩
    exact hj ((h.id_eq_iff hmem hf).mpr (hkey.trans hk))
  · rw [h.items]
    constructor
    · rintro ⟨f, hf, rfl⟩
      exact ⟨f, ⟨hf, fun hj => hk ((h.id_eq_iff hmem hf).mp hj)⟩, rfl⟩
    · rintro ⟨f, ⟨hf, -⟩, hkey⟩
      exact ⟨f, hf, hkey⟩

theorem moveToFront (h : Refines c t) (hi : c.list.value i = some e)
    {f : Entry K V → Entry K V} (hf : (f e).key = e.key) {c' : Cache K V}
    (hlist : c'.list = c.list.moveToFront i f) (hitems : c'.items = c.items) :
    Refines c' (t.put (f e)) := by
  have hmem := GoMap.find_eq_some.mp hi
  have hrows : c'.list.elems.rows =
      c.list.elems.rows.filter (fun x => x.1 ≠ i) ++ [(i, f e)] := by
    rw [hlist, GoList.rows_moveToFront hi]
  constructor
  · rw [hrows, List.map_append, h.filter_rows hmem, ← hf]
    rfl
  · intro k j
    rw [hitems, h.items, hrows]
    constructor
    · rintro ⟨g, hg, rfl⟩
      by_cases hj : j = i
      · refine ⟨f e, by simp [hj], ?_⟩
        rw [hf]
        exact ((h.id_eq_iff hmem hg).mp hj).symm
      · exact ⟨g, by simp [hg, hj], rfl⟩
    · rintro ⟨g, hg, rfl⟩
      rcases List.mem_append.mp hg with hg | hg
      · exact ⟨g, List.mem_of_mem_filter hg, rfl⟩
      · obtain ⟨rfl, rfl⟩ := Prod.mk.inj (List.mem_singleton.mp hg)
        exact ⟨e, hmem, hf.symm⟩

theorem pushFront (h : Refines c t) (hk : t.get e.key = none) {c' : Cache K V}
    (hlist : c'.list = (c.list.pushFront e).1)
    (hitems : c'.items = c.items.insert e.key c.list.next) : Refines c' (t.put e) := by
  have hnew := Table.get_eq_none.mp hk
  have hrows : c'.list.elems.rows = c.list.elems.rows ++ [(c.list.next, e)] := by
    rw [hlist, GoList.rows_pushFront]
  constructor
  · rw [hrows, List.map_append, h.rows, Table.rows_put_of_absent hk]
    rfl
  · intro k j
    rw [hitems, GoMap.find_insert, hrows]
    split_ifs with hkey
    · subst hkey
      constructor
      · intro hj
        exact ⟨e, by simp [Option.some.inj hj], rfl⟩
      · rintro ⟨g, hg, hgk⟩
        rcases List.mem_append.mp hg with hg | hg
        · exact absurd hgk (hnew g (h.mem_rows hg))
        · obtain ⟨rfl, rfl⟩ := Prod.mk.inj (List.mem_singleton.mp hg)
          rfl
    · rw [h.items]
      constructor
      · rintro ⟨g, hg, hgk⟩
        exact ⟨g, by simp [hg], hgk⟩
      · rintro ⟨g, hg, hgk⟩
        rcases List.mem_append.mp hg with hg | hg
        · exact ⟨g, hg, hgk⟩
        · obtain ⟨rfl, rfl⟩ := Prod.mk.inj (List.mem_singleton.mp hg)
          exact absurd hgk.symm hkey

theorem evictOldest (h : Refines c t) : Refines c.evictOldest t.dropFirst := by
  unfold Cache.evictOldest
  cases hrows : c.list.elems.rows with
  | nil =>
      have hback : c.list.back = none := by simp [GoList.back, hrows]
      have ht : t.rows = [] := by rw [← h.rows, hrows]; rfl
      rw [hback]
      exact h.congr (by simp [Table.dropFirst, ht])
  | cons x xs =>
      obtain ⟨i, e⟩ := x
      have hback : c.list.back = some i := by simp [GoList.back, hrows]
      have hi : c.list.value i = some e := GoMap.find_eq_some.mpr (by rw [hrows]; simp)
      have hrest := h.removeElement hi
      rw [hback]
      have hevict : Refines { c.removeElement i with evicts := c.evicts + 1 } (t.without e.key) :=
        hrest.of_eq rfl rfl
      refine hevict.congr ?_
      have ht : t.rows = e :: xs.map Prod.snd := by rw [← h.rows, hrows]; rfl
      have hnodup := t.nodup
      rw [ht, List.map_cons, List.nodup_cons] at hnodup
      simp only [Recency.without, Table.keep, Table.dropFirst, ht, List.tail_cons]
      rw [List.filter_cons_of_neg (by simp)]
      refine List.filter_eq_self.mpr fun f hf => ?_
      have hne : f.key ≠ e.key := fun heq => hnodup.1 (heq ▸ List.mem_map_of_mem hf)
      simpa using hne

theorem get (h : Refines c t) (now : ℤ) (k : K) :
    Refines (c.get now k).1 (t.fetch now k).1 ∧ (c.get now k).2 = (t.fetch now k).2 := by
  cases hk : c.items.find k with
  | none =>
      have ht := h.absent hk
      simp only [Cache.get, hk, Recency.fetch, ht]
      exact ⟨h.of_eq rfl rfl, trivial⟩
  | some i =>
      obtain ⟨e, hi, ht⟩ := h.element hk
      have hkey := (Table.get_eq_some.mp ht).2
      simp only [Cache.get, hk, hi, Recency.fetch, ht]
      split_ifs with hexp
      · have hrest := h.removeElement hi
        rw [hkey] at hrest
        exact ⟨hrest.of_eq rfl rfl, rfl⟩
      · refine ⟨?_, rfl⟩
        exact h.moveToFront hi (f := id) rfl rfl rfl

theorem set (h : Refines c t) (now : ℤ) (k : K) (v : V) :
    Refines (c.set now k v) (t.store c.capacity ⟨k, v, expiry c.ttl now⟩) := by
  cases hk : c.items.find k with
  | some i =>
      obtain ⟨e, hi, ht⟩ := h.element hk
      have hkey := (Table.get_eq_some.mp ht).2
      simp only [Cache.set, hk, Recency.store, ht]
      subst hkey
      exact h.moveToFront hi
        (f := fun e => { e with value := v, expiresAt := c.newExpiry now }) rfl rfl rfl
  | none =>
      have ht := h.absent hk
      have hlen : c.list.len = t.rows.length := by rw [← h.rows, List.length_map]; rfl
      simp only [Cache.set, hk, Recency.store, ht, hlen]
      split_ifs with hfull
      · have httl : c.evictOldest.newExpiry now = expiry c.ttl now := by
          rw [Cache.newExpiry, (sameConfig_evictOldest c).ttl]
        rw [httl]
        exact h.evictOldest.pushFront (Table.get_dropFirst_eq_none ht) rfl rfl
      · exact h.pushFront ht rfl rfl

theorem delete (h : Refines c t) (k : K) : Refines (c.delete k) (t.without k) := by
  cases hk : c.items.find k with
  | none =>
      simp only [Cache.delete, hk]
      refine h.congr (List.filter_eq_self.mpr fun e he => ?_).symm
      simpa using Table.get_eq_none.mp (h.absent hk) e he
  | some i =>
      obtain ⟨e, hi, ht⟩ := h.element hk
      obtain rfl := (Table.get_eq_some.mp ht).2
      simp only [Cache.delete, hk]
      exact h.removeElement hi

theorem clear (c : Cache K V) : Refines c.clear Table.empty :=
  ⟨rfl, fun k i => by simp [Cache.clear, GoList.init, GoMap.find_eq_some, Table.empty]⟩

/-- The loop of `deleteExpired` over some of the elements. -/
theorem foldl_expired {now : ℤ} {xs : List (ℕ × Entry K V)} (h : Refines c t)
    (hxs : ∀ x ∈ xs, x ∈ c.list.elems.rows) (hnodup : (xs.map Prod.fst).Nodup) :
    Refines (xs.foldl (fun c x => if isExpired now x.2 then c.removeElement x.1 else c) c)
      (t.keep fun e => ¬ (e.key ∈ xs.map (fun x => x.2.key) ∧ isExpired now e)) := by
  induction xs generalizing c t with
  | nil => exact h.congr (by simp [Table.keep])
  | cons x xs ih =>
      obtain ⟨i, e⟩ := x
      obtain ⟨hother, hnodup⟩ := List.nodup_cons.mp hnodup
      have hi := hxs (i, e) List.mem_cons_self
      have hrest : ∀ x ∈ xs, x ∈ c.list.elems.rows := fun x hx => hxs x (List.mem_cons_of_mem _ hx)
      have hval : c.list.value i = some e := GoMap.find_eq_some.mpr hi
      by_cases hexp : isExpired now e = true
      · have hleft : ∀ x ∈ xs, x ∈ (c.removeElement i).list.elems.rows := by
          intro x hx
          have hne : x.1 ≠ i := fun heq => hother (List.mem_map.mpr ⟨x, hx, heq⟩)
          simpa [Cache.removeElement, hval, GoList.remove, GoMap.delete, Table.keep, hne] using
            hrest x hx
        rw [List.foldl_cons, if_pos hexp]
        refine (ih (h.removeElement hval) hleft hnodup).congr ?_
        simp only [Recency.without, Table.keep, List.filter_filter]
        refine List.filter_congr fun f hf => ?_
        rw [Bool.eq_iff_iff, Bool.and_eq_true, decide_eq_true_eq, decide_eq_true_eq,
          decide_eq_true_eq, List.map_cons, List.mem_cons]
        by_cases hfe : f.key = e.key
        · obtain rfl := Table.eq_of_key hf (h.mem_rows hi) hfe
          simp [hexp]
        · simp only [hfe, false_or, ne_eq, not_false_eq_true, and_true]
      · rw [List.foldl_cons, if_neg hexp]
        refine (ih h hrest hnodup).congr ?_
        refine List.filter_congr fun f hf => decide_eq_decide.mpr ?_
        rw [List.map_cons, List.mem_cons]
        by_cases hfe : f.key = e.key
        · obtain rfl := Table.eq_of_key hf (h.mem_rows hi) hfe
          simp [hexp]
        · simp only [hfe, false_or]

theorem deleteExpired (h : Refines c t) (now : ℤ) :
    Refines (c.deleteExpired now)
      (if c.ttl = 0 then t else t.keep fun e => ¬ isExpired now e) := by
  unfold Cache.deleteExpired
  split_ifs
  · exact h
  · refine (h.foldl_expired (fun _ hx => hx) c.list.elems.nodup).congr ?_
    refine List.filter_congr fun f hf => ?_
    rw [← h.rows] at hf
    obtain ⟨x, hx, rfl⟩ := List.mem_map.mp hf
    have hkey : x.2.key ∈ c.list.elems.rows.map fun y => y.2.key := List.mem_map_of_mem hx
    simp only [hkey, true_and]

theorem perform (h : Refines c t) (now : ℤ) (o : Op K V) :
    Refines (Sys.perform c now o).1 (t.perform c.capacity c.ttl now o).1 ∧
      (Sys.perform c now o).2 = (t.perform c.capacity c.ttl now o).2 := by
  cases o with
  | get k => exact h.get now k
  | set k v => exact ⟨h.set now k v, rfl⟩
  | delete k => exact ⟨h.delete k, rfl⟩
  | clear => exact ⟨clear c, rfl⟩
  | deleteExpired => exact ⟨h.deleteExpired now, rfl⟩

end Refines

theorem refines_new {capacity ttl : ℤ} {c : Cache K V}
    (h : newCache capacity [withTTL ttl] = .ok c) :
    1 ≤ capacity ∧ c.capacity = capacity ∧ c.ttl = ttl ∧ Refines c Table.empty := by
  unfold newCache at h
  split_ifs at h with hcap
  obtain rfl := Except.ok.inj h
  refine ⟨by omega, rfl, rfl, rfl, fun k i => ?_⟩
  simp [withTTL, GoList.new, GoMap.find_eq_some, Table.empty]

end Gkit.LruCache
