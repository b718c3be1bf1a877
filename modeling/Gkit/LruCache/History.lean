import Gkit.LruCache.Recency

/-!
# The cache and its history

What `Get` may and must return, in terms of the operations so far: the latest
`Set` of the key that no `Delete` or `Clear` has undone, and the other keys that
were set or hit since the key itself was.
-/

namespace Gkit.LruCache

open Gkit.Lib

variable {K V : Type} [DecidableEq K]

/-- The key that an operation moves to the front. -/
def Event.touched (ev : Event K V) : Option K :=
  match ev.op with
  | .set k _ => some k
  | .get k => if ev.hit then some k else none
  | _ => none

def noteSet (k : K) (last : Option (ℤ × V)) (ev : Event K V) : Option (ℤ × V) :=
  match ev.op with
  | .set k' v => if k' = k then some (ev.time, v) else last
  | .delete k' => if k' = k then none else last
  | .clear => none
  | _ => last

/-- The latest `Set` of the key, unless the key was deleted or the cache cleared
since, with its time. -/
def lastSet (k : K) (log : List (Event K V)) : Option (ℤ × V) := log.foldl (noteSet k) none

def noteTouch (k : K) (others : List K) (ev : Event K V) : List K :=
  match ev.touched with
  | none => others
  | some k' => if k' = k then [] else others.insert k'

/-- The other keys that were set or hit since the key was last set or hit. -/
def touchedSince (k : K) (log : List (Event K V)) : List K := log.foldl (noteTouch k) []

@[simp] theorem lastSet_concat (k : K) (log : List (Event K V)) (ev : Event K V) :
    lastSet k (log ++ [ev]) = noteSet k (lastSet k log) ev := by
  simp [lastSet]

@[simp] theorem touchedSince_concat (k : K) (log : List (Event K V)) (ev : Event K V) :
    touchedSince k (log ++ [ev]) = noteTouch k (touchedSince k log) ev := by
  simp [touchedSince]

theorem length_le_insert (k : K) (ks : List K) : ks.length ≤ (ks.insert k).length := by
  by_cases h : k ∈ ks <;> simp [h]

/-- The entry of a value set at this time has expired. -/
def Expired (ttl time now : ℤ) : Prop := ttl ≠ 0 ∧ time + ttl < now

omit [DecidableEq K] in
theorem isExpired_iff {e : Entry K V} {ttl time now : ℤ} (he : e.expiresAt = expiry ttl time) :
    isExpired now e = true ↔ Expired ttl time now := by
  unfold isExpired Expired
  rw [he, expiry]
  split_ifs with h
  · simp [h]
  · simp [h]

/-! ## What the table knows of the history -/

structure Tracks (capacity ttl now : ℤ) (t : Recency K V) (log : List (Event K V)) : Prop where
  size : (t.rows.length : ℤ) ≤ capacity
  /-- Every entry is that of the latest `Set`. -/
  latest : ∀ e ∈ t.rows, ∃ time, lastSet e.key log = some (time, e.value) ∧
    e.expiresAt = expiry ttl time
  /-- What stands behind an entry was touched since. -/
  order : t.rows.Pairwise fun e e' => e'.key ∈ touchedSince e.key log
  /-- A key that is gone has expired or was pushed out. -/
  kept : ∀ k time v, lastSet k log = some (time, v) →
    (t.get k).isSome ∨ Expired ttl time now ∨ capacity ≤ (touchedSince k log).length

namespace Tracks

variable {capacity ttl now : ℤ} {t : Recency K V} {log : List (Event K V)}

theorem advance (h : Tracks capacity ttl now t log) (d : ℕ) :
    Tracks capacity ttl (now + d) t log := by
  refine ⟨h.size, h.latest, h.order, fun k time v hk => ?_⟩
  rcases h.kept k time v hk with hin | hexp | hout
  · exact .inl hin
  · exact .inr (.inl ⟨hexp.1, by have := hexp.2; omega⟩)
  · exact .inr (.inr hout)

/-- An operation that touches no key and only takes entries away. -/
theorem remove (h : Tracks capacity ttl now t log) {ev : Event K V} {p : Entry K V → Bool}
    (htouch : ev.touched = none)
    (hlast : ∀ e ∈ t.rows, p e = true → noteSet e.key (lastSet e.key log) ev = lastSet e.key log)
    (hgone : ∀ k time v, noteSet k (lastSet k log) ev = some (time, v) →
      lastSet k log = some (time, v) ∧
        ∀ e, t.get k = some e → p e = true ∨ Expired ttl time now) :
    Tracks capacity ttl now (t.keep p) (log ++ [ev]) := by
  have hsince : ∀ k, touchedSince k (log ++ [ev]) = touchedSince k log := by
    intro k
    rw [touchedSince_concat, noteTouch, htouch]
  refine ⟨?_, ?_, ?_, ?_⟩
  · have hle : (t.rows.filter p).length ≤ t.rows.length := List.length_filter_le ..
    exact le_trans (by exact_mod_cast hle) h.size
  · intro e he
    obtain ⟨hmem, hp⟩ := List.mem_filter.mp he
    rw [lastSet_concat, hlast e hmem hp]
    exact h.latest e hmem
  · simp only [hsince]
    exact h.order.sublist List.filter_sublist
  · intro k time v hk
    rw [lastSet_concat] at hk
    obtain ⟨hold, hp⟩ := hgone k time v hk
    rw [hsince, Table.get_keep]
    rcases h.kept k time v hold with hin | hexp | hout
    · obtain ⟨e, he⟩ := Option.isSome_iff_exists.mp hin
      rcases hp e he with hpe | hexp
      · exact .inl (by simp [he, Option.filter, hpe])
      · exact .inr (.inl hexp)
    · exact .inr (.inl hexp)
    · exact .inr (.inr hout)

theorem idle (h : Tracks capacity ttl now t log) {ev : Event K V} (htouch : ev.touched = none)
    (hlast : ∀ k, noteSet k (lastSet k log) ev = lastSet k log) :
    Tracks capacity ttl now t (log ++ [ev]) := by
  have hkeep : t.keep (fun _ => true) = t := Table.keep_eq_self fun _ _ => rfl
  rw [← hkeep]
  refine h.remove htouch (fun e _ _ => hlast e.key) fun k time v hk => ?_
  rw [hlast k] at hk
  exact ⟨hk, fun _ _ => .inl rfl⟩

/-- An operation that puts an entry to the front, where the keys that get lost on
the way have been pushed out. -/
theorem put (h : Tracks capacity ttl now t log) {ev : Event K V} {e : Entry K V}
    {t' : Recency K V} (htouch : ev.touched = some e.key)
    (hsub : t'.rows.Sublist t.rows) (hsize : ((t'.put e).rows.length : ℤ) ≤ capacity)
    (hout : ∀ k, k ≠ e.key → (t.get k).isSome → (t'.get k).isSome ∨
      capacity ≤ ((touchedSince k log).insert e.key).length)
    (hlast : ∀ k, k ≠ e.key → noteSet k (lastSet k log) ev = lastSet k log)
    (hnew : ∃ time, noteSet e.key (lastSet e.key log) ev = some (time, e.value) ∧
      e.expiresAt = expiry ttl time) :
    Tracks capacity ttl now (t'.put e) (log ++ [ev]) := by
  have hsince : ∀ k, k ≠ e.key →
      touchedSince k (log ++ [ev]) = (touchedSince k log).insert e.key := by
    intro k hk
    rw [touchedSince_concat, noteTouch, htouch]
    exact if_neg (Ne.symm hk)
  refine ⟨hsize, ?_, ?_, ?_⟩
  · intro f hf
    rcases Table.mem_put.mp hf with rfl | ⟨hf, hne⟩
    · simpa only [lastSet_concat] using hnew
    · rw [lastSet_concat, hlast f.key hne]
      exact h.latest f (hsub.subset hf)
  · simp only [Table.put]
    refine List.pairwise_append.mpr ⟨?_, List.pairwise_singleton _ _, ?_⟩
    · refine ((h.order.sublist hsub).sublist List.filter_sublist).imp_of_mem ?_
      intro f g hf _ hfg
      have hne : f.key ≠ e.key := by simpa using (List.mem_filter.mp hf).2
      rw [hsince f.key hne]
      exact List.mem_insert_of_mem hfg
    · intro f hf g hg
      have hne : f.key ≠ e.key := by simpa using (List.mem_filter.mp hf).2
      rw [List.mem_singleton.mp hg, hsince f.key hne]
      exact List.mem_insert_self
  · intro k time v hk
    rw [lastSet_concat] at hk
    by_cases hke : k = e.key
    · exact .inl (by simp [hke])
    · rw [hlast k hke] at hk
      rw [hsince k hke, Table.get_put_of_ne hke]
      rcases h.kept k time v hk with hin | hexp | hmany
      · rcases hout k hke hin with hin | hmany
        · exact .inl hin
        · exact .inr (.inr hmany)
      · exact .inr (.inl hexp)
      · have hle := length_le_insert e.key (touchedSince k log)
        exact .inr (.inr (hmany.trans (by exact_mod_cast hle)))

/-- The oldest key of a full table has as many others touched since, once a new
key comes in. -/
theorem pushed_out (h : Tracks capacity ttl now t log) {k new : K}
    (hnew : t.get new = none) (hfull : capacity ≤ t.rows.length) (hk : (t.get k).isSome) :
    (t.dropFirst.get k).isSome ∨ capacity ≤ ((touchedSince k log).insert new).length := by
  obtain ⟨f, hf⟩ := Option.isSome_iff_exists.mp hk
  obtain ⟨hmem, rfl⟩ := Table.get_eq_some.mp hf
  have hnone := Table.get_eq_none.mp hnew
  have horder := h.order
  have hnodup := t.nodup
  cases hrows : t.rows with
  | nil => simp [hrows] at hmem
  | cons oldest rest =>
      rw [hrows] at hmem horder hnodup hfull
      rcases List.mem_cons.mp hmem with rfl | hrest
      · right
        have hdistinct : (new :: rest.map Entry.key).Nodup := by
          refine List.nodup_cons.mpr ⟨fun hin => ?_, (List.nodup_cons.mp hnodup).2⟩
          obtain ⟨g, hg, hkey⟩ := List.mem_map.mp hin
          exact hnone g (by rw [hrows]; exact List.mem_cons_of_mem _ hg) hkey
        have hsub : new :: rest.map Entry.key ⊆ (touchedSince f.key log).insert new := by
          intro x hx
          rcases List.mem_cons.mp hx with rfl | hx
          · exact List.mem_insert_self
          · obtain ⟨g, hg, rfl⟩ := List.mem_map.mp hx
            exact List.mem_insert_of_mem ((List.pairwise_cons.mp horder).1 g hg)
        have hle := (List.subperm_of_subset hdistinct hsub).length_le
        simp only [List.length_cons, List.length_map] at hle hfull
        exact hfull.trans (by exact_mod_cast hle)
      · left
        have hget : t.dropFirst.get f.key = some f :=
          Table.get_eq_some.mpr ⟨by simpa [Table.dropFirst, hrows] using hrest, rfl⟩
        simp [hget]

theorem expired_of_get (h : Tracks capacity ttl now t log) {k : K} {e : Entry K V} {time : ℤ}
    {v : V} (he : t.get k = some e) (hk : lastSet k log = some (time, v)) :
    isExpired now e = true ↔ Expired ttl time now := by
  obtain ⟨hmem, rfl⟩ := Table.get_eq_some.mp he
  obtain ⟨time', hlast, hexp⟩ := h.latest e hmem
  obtain ⟨rfl, -⟩ := Prod.mk.inj (Option.some.inj (hlast.symm.trans hk))
  exact isExpired_iff hexp

theorem fetch (h : Tracks capacity ttl now t log) (k : K) :
    Tracks capacity ttl now (t.fetch now k).1
      (log ++ [⟨now, .get k, (t.fetch now k).2.isSome⟩]) := by
  unfold Recency.fetch
  cases hk : t.get k with
  | none => exact h.idle rfl fun _ => rfl
  | some e =>
      obtain ⟨hmem, rfl⟩ := Table.get_eq_some.mp hk
      dsimp only
      split_ifs with hexp
      · refine h.remove rfl (fun _ _ _ => rfl) fun k time v hlast => ⟨hlast, fun f hf => ?_⟩
        by_cases hke : k = e.key
        · subst hke
          obtain rfl := Option.some.inj (hk.symm.trans hf)
          exact .inr ((h.expired_of_get hk hlast).mp hexp)
        · have hfkey := (Table.get_eq_some.mp hf).2
          exact .inl (by simpa [hfkey] using hke)
      · refine h.put rfl (List.Sublist.refl _) ?_ (fun _ _ hin => .inl hin) (fun _ _ => rfl)
          (h.latest e hmem)
        rw [Table.length_put_of_get hk]
        exact h.size

theorem store (h : Tracks capacity ttl now t log) (hcap : 1 ≤ capacity) (k : K) (v : V)
    (hit : Bool) : Tracks capacity ttl now (t.store capacity ⟨k, v, expiry ttl now⟩)
      (log ++ [⟨now, .set k v, hit⟩]) := by
  have hlast : ∀ k', k' ≠ k → noteSet k' (lastSet k' log) ⟨now, .set k v, hit⟩ = lastSet k' log :=
    fun k' hk' => if_neg (Ne.symm hk')
  have hnew : ∃ time, noteSet k (lastSet k log) ⟨now, .set k v, hit⟩ = some (time, v) ∧
      expiry ttl now = expiry ttl time := ⟨now, if_pos rfl, rfl⟩
  unfold Recency.store
  cases hk : t.get k with
  | some e =>
      refine h.put rfl (List.Sublist.refl _) ?_ (fun _ _ hin => .inl hin) hlast hnew
      rw [Table.length_put_of_get hk]
      exact h.size
  | none =>
      dsimp only
      split_ifs with hfull
      · refine h.put rfl (List.tail_sublist _) ?_ (fun k' _ hin => ?_) hlast hnew
        · have hlen : t.dropFirst.rows.length = t.rows.length - 1 := List.length_tail
          have hsize := h.size
          rw [Table.length_put_of_absent (Table.get_dropFirst_eq_none hk)]
          omega
        · exact h.pushed_out hk hfull hin
      · refine h.put rfl (List.Sublist.refl _) ?_ (fun _ _ hin => .inl hin) hlast hnew
        rw [Table.length_put_of_absent hk]
        omega

theorem perform (h : Tracks capacity ttl now t log) (hcap : 1 ≤ capacity) (o : Op K V) :
    Tracks capacity ttl now (t.perform capacity ttl now o).1
      (log ++ [⟨now, o, (t.perform capacity ttl now o).2.isSome⟩]) := by
  cases o with
  | get k => exact h.fetch k
  | set k v => exact h.store hcap k v false
  | delete k =>
      refine h.remove rfl (fun e _ he => if_neg (Ne.symm (by simpa using he)))
        fun k' time v hk' => ?_
      by_cases hkk : k = k'
      · simp [noteSet, hkk] at hk'
      · refine ⟨(if_neg hkk).symm.trans hk', fun e he => .inl ?_⟩
        simpa [(Table.get_eq_some.mp he).2] using Ne.symm hkk
  | clear =>
      refine ⟨?_, ?_, ?_, ?_⟩
      · simp only [Recency.perform, Table.empty, List.length_nil]
        omega
      · simp [Recency.perform, Table.empty]
      · exact List.Pairwise.nil
      · intro k time v hk
        simp [noteSet] at hk
  | deleteExpired =>
      simp only [Recency.perform]
      split_ifs with httl
      · exact h.idle rfl fun _ => rfl
      · refine h.remove rfl (fun _ _ _ => rfl) fun k time v hlast => ⟨hlast, fun e he => ?_⟩
        by_cases hexp : isExpired now e = true
        · exact .inr ((h.expired_of_get he hlast).mp hexp)
        · exact .inl (by simpa using hexp)

/-- What `Get` may return, and what it must. -/
theorem fetch_iff (h : Tracks capacity ttl now t log) (k : K) :
    (∀ v, (t.fetch now k).2 = some v →
      ∃ time, lastSet k log = some (time, v) ∧ ¬ Expired ttl time now) ∧
      ∀ time v, lastSet k log = some (time, v) → ¬ Expired ttl time now →
        (touchedSince k log).length < capacity → (t.fetch now k).2 = some v := by
  unfold Recency.fetch
  constructor
  · intro v hv
    cases hk : t.get k with
    | none => simp [hk] at hv
    | some e =>
        obtain ⟨hmem, hkey⟩ := Table.get_eq_some.mp hk
        obtain ⟨time, hlast, -⟩ := h.latest e hmem
        rw [hkey] at hlast
        simp only [hk] at hv
        split_ifs at hv with hexp
        rw [← Option.some.inj hv]
        exact ⟨time, hlast, fun hdead => hexp ((h.expired_of_get hk hlast).mpr hdead)⟩
  · intro time v hlast hlive hfew
    rcases h.kept k time v hlast with hin | hdead | hmany
    · obtain ⟨e, hk⟩ := Option.isSome_iff_exists.mp hin
      obtain ⟨hmem, rfl⟩ := Table.get_eq_some.mp hk
      obtain ⟨time', hlast', -⟩ := h.latest e hmem
      obtain ⟨-, hv⟩ := Prod.mk.inj (Option.some.inj (hlast'.symm.trans hlast))
      simp only [hk]
      rw [if_neg fun hexp => hlive ((h.expired_of_get hk hlast).mp hexp), hv]
    · exact absurd hdead hlive
    · exact absurd hmany hfew.not_ge

end Tracks

/-! ## Whole runs -/

def Tracked (capacity ttl : ℤ) (s : Sys K V) : Prop :=
  s.cache.capacity = capacity ∧ s.cache.ttl = ttl ∧
    ∃ t, Refines s.cache t ∧ Tracks capacity ttl s.clock t s.log

theorem Tracked.step {capacity ttl : ℤ} (hcap : 1 ≤ capacity) {s s' : Sys K V} {x : Action K V}
    (hs : Tracked capacity ttl s) (h : s.step x = some s') : Tracked capacity ttl s' := by
  obtain ⟨rfl, rfl, t, href, htrack⟩ := hs
  cases x with
  | advance d =>
      obtain rfl := Option.some.inj h
      exact ⟨rfl, rfl, t, href, htrack.advance d⟩
  | op o =>
      rw [Sys.step_op] at h
      obtain rfl := Option.some.inj h
      obtain ⟨hnext, hres⟩ := href.perform s.clock o
      have hconfig := sameConfig_perform s.cache s.clock o
      refine ⟨hconfig.capacity, hconfig.ttl, _, hnext, ?_⟩
      rw [hres]
      exact htrack.perform hcap o

theorem tracked_new {capacity ttl now : ℤ} {c : Cache K V}
    (hnew : newCache capacity [withTTL ttl] = .ok c) :
    1 ≤ capacity ∧ Tracked capacity ttl (⟨c, now, []⟩ : Sys K V) := by
  obtain ⟨hcap, hcapacity, httl, href⟩ := refines_new hnew
  refine ⟨hcap, hcapacity, httl, Table.empty, href, ?_, ?_, List.Pairwise.nil, ?_⟩
  · simp only [Table.empty, List.length_nil]
    omega
  · simp [Table.empty]
  · intro k time v hk
    simp [lastSet] at hk

/-- In every run the list and the map hold the same keys, once each and no more
than the capacity; `Get` returns only what was last set and lives, and it does
return that as long as fewer other keys than the capacity came after the key. -/
theorem cache_correct {capacity ttl now : ℤ} {c : Cache K V}
    (hnew : newCache capacity [withTTL ttl] = .ok c) {xs : List (Action K V)} {s : Sys K V}
    (hrun : run Sys.step ⟨c, now, []⟩ xs = some s) :
    (s.cache.list.elems.rows.map fun x => x.2.key).Nodup ∧
      (s.cache.items.rows.map Prod.fst).Nodup ∧
      (∀ k i, s.cache.items.find k = some i ↔ ∃ e, (i, e) ∈ s.cache.list.elems.rows ∧ e.key = k) ∧
      (s.cache.list.len : ℤ) ≤ capacity ∧
      ∀ k, (∀ v, (s.cache.get s.clock k).2 = some v →
          ∃ time, lastSet k s.log = some (time, v) ∧ ¬ Expired ttl time s.clock) ∧
        ∀ time v, lastSet k s.log = some (time, v) → ¬ Expired ttl time s.clock →
          (touchedSince k s.log).length < capacity → (s.cache.get s.clock k).2 = some v := by
  obtain ⟨hcap, hstart⟩ := @tracked_new K V _ capacity ttl now c hnew
  obtain ⟨-, -, t, href, htrack⟩ := run_forall (fun _ _ _ hs => Tracked.step hcap hs) hstart hrun
  refine ⟨?_, s.cache.items.nodup, href.items, ?_, fun k => ?_⟩
  · have hnodup := t.nodup
    rw [← href.rows, List.map_map] at hnodup
    exact hnodup
  · have hlen : s.cache.list.len = t.rows.length := by rw [← href.rows, List.length_map]; rfl
    rw [hlen]
    exact htrack.size
  · rw [(href.get s.clock k).2]
    exact htrack.fetch_iff k

/-- Three keys in a cache of two: the one that was hit stays. -/
def threeKeys : List (Action ℕ String) :=
  [.op (.set 1 "a"), .op (.set 2 "b"), .advance 1, .op (.get 1), .op (.set 3 "c")]

theorem threeKeys_correct : ∃ (c : Cache ℕ String) (s : Sys ℕ String),
    newCache 2 [withTTL 10] = .ok c ∧ run Sys.step ⟨c, 0, []⟩ threeKeys = some s ∧
      (s.cache.get s.clock 1).2 = some "a" := by
  let c : Cache ℕ String := ⟨2, 10, .new, Table.empty, 0, 0, 0⟩
  have hrun : (run Sys.step ⟨c, 0, []⟩ threeKeys).map
      (fun s => (s.clock, lastSet 1 s.log, (touchedSince 1 s.log).length)) =
      some (1, some (0, "a"), 1) := by decide
  obtain ⟨s, hs, hstate⟩ := Option.map_eq_some_iff.mp hrun
  simp only [Prod.mk.injEq] at hstate
  obtain ⟨hclock, hlast, hfew⟩ := hstate
  have hnew : newCache 2 [withTTL 10] = .ok c := rfl
  refine ⟨c, s, hnew, hs, ?_⟩
  exact ((cache_correct hnew hs).2.2.2.2 1).2 0 "a" hlast (by simp [Expired, hclock]) (by omega)

end Gkit.LruCache
