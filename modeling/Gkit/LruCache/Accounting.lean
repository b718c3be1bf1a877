import Gkit.LruCache.Recency

/-!
# The entries of the cache and its counters

Entries come in with a `Set` of a new key.  They leave by eviction, by `Delete`
and `Clear`, and when `Get` or `deleteExpired` finds them expired.  Only the
first way is counted.
-/

namespace Gkit.LruCache

open Gkit.Lib

variable {K V : Type}

structure Stats where
  hits : ℕ
  misses : ℕ
  evicts : ℕ
  len : ℕ
  deriving DecidableEq, Repr

def Cache.stats (c : Cache K V) : Stats := ⟨c.hits, c.misses, c.evicts, c.list.len⟩

/-- The entries in the list, from the back to the front. -/
def Cache.entries (c : Cache K V) : List (Entry K V) := c.list.elems.rows.map Prod.snd

variable [DecidableEq K]

/-- The entries that an operation takes in, and those that leave with it. -/
structure Movement where
  inserted : ℕ
  /-- By `Delete` or `Clear`. -/
  removed : ℕ
  /-- Expired, and come upon by `Get` or `deleteExpired`. -/
  expired : ℕ
  gets : ℕ
  deriving DecidableEq, Repr

/-- What an operation moves, read off the entries there are before it. -/
def movement (c : Cache K V) (now : ℤ) : Op K V → Movement
  | .get key => ⟨0, 0, c.entries.countP fun e => e.key = key ∧ isExpired now e, 1⟩
  | .set key _ => ⟨if ∃ e ∈ c.entries, e.key = key then 0 else 1, 0, 0, 0⟩
  | .delete key => ⟨0, c.entries.countP fun e => e.key = key, 0, 0⟩
  | .clear => ⟨0, c.entries.length, 0, 0⟩
  | .deleteExpired => ⟨0, 0, c.entries.countP (isExpired now), 0⟩

def movements (s : Sys K V) : Action K V → List Movement
  | .advance _ => []
  | .op o => [movement s.cache s.clock o]

/-- The sum of one column. -/
def total (column : Movement → ℕ) (ms : List Movement) : ℕ := (ms.map column).sum

@[simp] theorem total_append (column : Movement → ℕ) (ms ms' : List Movement) :
    total column (ms ++ ms') = total column ms + total column ms' := by
  simp [total]

@[simp] theorem total_singleton (column : Movement → ℕ) (m : Movement) :
    total column [m] = column m := by
  simp [total]

theorem total_eq_zero {column : Movement → ℕ} {ms : List Movement} :
    total column ms = 0 ↔ ∀ m ∈ ms, column m = 0 := by
  rw [total, List.sum_eq_zero_iff]
  simp

/-- No `Get` finds its entry expired, and no `deleteExpired` finds any that is. -/
def Unexpired (s : Sys K V) : Action K V → Prop
  | .op (.get key) => ∀ e ∈ s.cache.entries, e.key = key → isExpired s.clock e = false
  | .op .deleteExpired => ∀ e ∈ s.cache.entries, isExpired s.clock e = false
  | _ => True

theorem unexpired_iff (s : Sys K V) (x : Action K V) :
    (∀ m ∈ movements s x, m.expired = 0) ↔ Unexpired s x := by
  cases x with
  | advance d => simp [movements, Unexpired]
  | op o => cases o <;> simp [movements, movement, Unexpired, List.countP_eq_zero]

theorem along_unexpired_iff {s : Sys K V} {xs : List (Action K V)} :
    Along Sys.step Unexpired s xs ↔ ∀ m ∈ collect Sys.step movements s xs, m.expired = 0 := by
  rw [forall_mem_collect_iff]
  exact ⟨Along.imp fun s x => (unexpired_iff s x).mpr, Along.imp fun s x => (unexpired_iff s x).mp⟩

/-! ## One operation -/

section Operations

variable {c : Cache K V} {t : Recency K V}

theorem Refines.entries (h : Refines c t) : c.entries = t.rows := h.rows

theorem Refines.len (h : Refines c t) : c.list.len = t.rows.length := by
  rw [← h.rows, List.length_map]
  rfl

/-- The counters that `removeElement` leaves alone. -/
structure SameCounters (c c' : Cache K V) : Prop where
  hits : c'.hits = c.hits
  misses : c'.misses = c.misses
  evicts : c'.evicts = c.evicts

theorem sameCounters_removeElement (c : Cache K V) (i : ℕ) :
    SameCounters c (c.removeElement i) := by
  unfold Cache.removeElement
  cases c.list.value i <;> exact ⟨rfl, rfl, rfl⟩

omit [DecidableEq K] in
theorem length_keep (t : Recency K V) (p : Entry K V → Bool) :
    t.rows.length = (t.keep fun e => ¬ p e).rows.length + t.rows.countP p := by
  rw [Table.keep, ← List.countP_eq_length_filter, add_comm]
  exact List.length_eq_countP_add_countP p

/-- A lookup takes its entry out exactly if that has expired. -/
theorem length_fetch (t : Recency K V) (now : ℤ) (key : K) :
    t.rows.length = (t.fetch now key).1.rows.length +
      t.rows.countP fun e => e.key = key ∧ isExpired now e := by
  cases hget : t.get key with
  | none =>
      have habsent := Table.get_eq_none.mp hget
      rw [List.countP_eq_zero.mpr fun e he => by simp [habsent e he]]
      simp [Recency.fetch, hget]
  | some e =>
      obtain ⟨hmem, rfl⟩ := Table.get_eq_some.mp hget
      have honly : ∀ f ∈ t.rows, f.key = e.key → f = e := fun f hf => Table.eq_of_key hf hmem
      simp only [Recency.fetch, hget]
      split_ifs with hexp
      · have hsame : t.rows.countP (fun f => decide (f.key = e.key ∧ isExpired now f = true)) =
            t.rows.countP fun f => decide (f.key = e.key) := by
          refine List.countP_congr fun f hf => ?_
          simp only [decide_eq_true_eq, and_iff_left_iff_imp]
          intro hkey
          rw [honly f hf hkey, hexp]
        rw [hsame, length_keep t fun f => decide (f.key = e.key)]
        simp [Recency.without]
      · rw [List.countP_eq_zero.mpr fun f hf => ?_, Table.length_put_of_get hget]
        · rfl
        · simp only [decide_eq_true_eq, not_and]
          intro hkey
          rwa [honly f hf hkey]

/-- An operation other than `Set` loses what it takes out and what has expired. -/
theorem length_perform {c : Cache K V} {t : Recency K V} (h : Refines c t) (now : ℤ)
    (hlasting : c.ttl = 0 → ∀ e ∈ c.entries, isExpired now e = false) {o : Op K V}
    (ho : ∀ key value, o ≠ .set key value) :
    t.rows.length = (t.perform c.capacity c.ttl now o).1.rows.length +
      (movement c now o).removed + (movement c now o).expired := by
  have hentries := h.entries
  cases o with
  | get key =>
      simp only [movement, hentries, Recency.perform, add_zero]
      exact length_fetch t now key
  | set key value => exact absurd rfl (ho key value)
  | delete key =>
      simp only [movement, hentries, Recency.perform, add_zero]
      simpa [Recency.without] using length_keep t fun e => decide (e.key = key)
  | clear => simp [movement, hentries, Recency.perform, Table.empty]
  | deleteExpired =>
      simp only [movement, hentries, Recency.perform, add_zero]
      split_ifs with httl
      · rw [List.countP_eq_zero.mpr fun e he => by simp [hlasting httl e (hentries ▸ he)]]
        rfl
      · exact length_keep t (isExpired now)

/-- An operation brings in at most the entry it writes. -/
theorem mem_perform {capacity ttl now : ℤ} {t : Recency K V} {o : Op K V} {e : Entry K V}
    (he : e ∈ (t.perform capacity ttl now o).1.rows) :
    e ∈ t.rows ∨ e.expiresAt = expiry ttl now := by
  have hput : ∀ {u : Recency K V} {f : Entry K V}, e ∈ (u.put f).rows → e = f ∨ e ∈ u.rows :=
    fun he => (Table.mem_put.mp he).imp_right And.left
  cases o with
  | get key =>
      simp only [Recency.perform, Recency.fetch] at he
      cases hget : t.get key with
      | none => exact .inl (by simpa [hget] using he)
      | some f =>
          simp only [hget] at he
          split_ifs at he
          · exact .inl (List.mem_of_mem_filter he)
          · rcases hput he with rfl | he
            · exact .inl (Table.get_eq_some.mp hget).1
            · exact .inl he
  | set key value =>
      simp only [Recency.perform, Recency.store] at he
      cases hget : t.get key with
      | some f =>
          simp only [hget] at he
          rcases hput he with rfl | he
          · exact .inr rfl
          · exact .inl he
      | none =>
          simp only [hget] at he
          rcases hput he with rfl | he
          · exact .inr rfl
          · split_ifs at he
            · exact .inl (List.mem_of_mem_tail he)
            · exact .inl he
  | delete key => exact .inl (List.mem_of_mem_filter he)
  | clear => simp [Recency.perform, Table.empty] at he
  | deleteExpired =>
      simp only [Recency.perform] at he
      split_ifs at he
      · exact .inl he
      · exact .inl (List.mem_of_mem_filter he)

/-- A lookup is a hit or a miss, and never an eviction. -/
theorem counters_get (h : Refines c t) (now : ℤ) (key : K) :
    (c.get now key).1.evicts = c.evicts ∧
      (c.get now key).1.hits + (c.get now key).1.misses = c.hits + c.misses + 1 := by
  cases hfind : c.items.find key with
  | none =>
      simp only [Cache.get, hfind]
      exact ⟨trivial, rfl⟩
  | some i =>
      obtain ⟨e, hvalue, -⟩ := h.element hfind
      have hsame := sameCounters_removeElement c i
      simp only [Cache.get, hfind, hvalue]
      split_ifs
      · exact ⟨hsame.evicts, congrArg (· + (c.misses + 1)) hsame.hits⟩
      · exact ⟨rfl, Nat.add_right_comm _ _ _⟩

theorem sameCounters_delete (c : Cache K V) (key : K) : SameCounters c (c.delete key) := by
  unfold Cache.delete
  split
  · exact sameCounters_removeElement c _
  · exact ⟨rfl, rfl, rfl⟩

theorem sameCounters_deleteExpired (c : Cache K V) (now : ℤ) :
    SameCounters c (c.deleteExpired now) := by
  unfold Cache.deleteExpired
  split_ifs
  · exact ⟨rfl, rfl, rfl⟩
  · refine List.foldlRecOn (motive := fun c' : Cache K V => SameCounters c c')
      c.list.elems.rows _ ⟨rfl, rfl, rfl⟩ fun c' hc' x _ => ?_
    split_ifs
    · have hx := sameCounters_removeElement c' x.1
      exact ⟨hx.hits.trans hc'.hits, hx.misses.trans hc'.misses, hx.evicts.trans hc'.evicts⟩
    · exact hc'

/-- One entry leaves a full cache and is counted. -/
theorem counters_evictOldest (h : Refines c t) (ht : t.rows ≠ []) :
    c.evictOldest.hits = c.hits ∧ c.evictOldest.misses = c.misses ∧
      c.evictOldest.evicts = c.evicts + 1 := by
  unfold Cache.evictOldest
  cases hrows : c.list.elems.rows with
  | nil => exact absurd (by rw [← h.rows, hrows]; rfl) ht
  | cons x xs =>
      have hback : c.list.back = some x.1 := by simp [GoList.back, hrows]
      have hsame := sameCounters_removeElement c x.1
      simp only [hback]
      exact ⟨hsame.hits, hsame.misses, trivial⟩

/-- A `Set` of a new key in a full cache is one entry in and one out. -/
theorem counters_set (h : Refines c t) (hcap : 1 ≤ c.capacity) (now : ℤ) (key : K) (value : V) :
    (if ∃ e ∈ c.entries, e.key = key then 0 else 1) + c.list.len + c.evicts =
        (c.set now key value).list.len + (c.set now key value).evicts ∧
      (c.set now key value).hits + (c.set now key value).misses = c.hits + c.misses := by
  have hlen := h.len
  have hlen' := (h.set now key value).len
  cases hfind : c.items.find key with
  | some i =>
      obtain ⟨e, -, hget⟩ := h.element hfind
      have hpresent : ∃ e ∈ c.entries, e.key = key := by
        obtain ⟨hmem, hkey⟩ := Table.get_eq_some.mp hget
        exact ⟨e, h.entries ▸ hmem, hkey⟩
      have hstore : (t.store c.capacity ⟨key, value, expiry c.ttl now⟩).rows.length =
          t.rows.length := by
        simp only [Recency.store, hget]
        exact Table.length_put_of_get hget
      obtain ⟨hhits, hmisses, hevicts⟩ : SameCounters c (c.set now key value) := by
        simp only [Cache.set, hfind]
        exact ⟨rfl, rfl, rfl⟩
      rw [if_pos hpresent]
      omega
  | none =>
      have hget := h.absent hfind
      have habsent : ¬∃ e ∈ c.entries, e.key = key := by
        rintro ⟨e, he, hkey⟩
        exact Table.get_eq_none.mp hget e (h.entries ▸ he) hkey
      rw [if_neg habsent]
      by_cases hfull : (t.rows.length : ℤ) ≥ c.capacity
      · have ht : t.rows ≠ [] := by
          intro hnil
          simp only [hnil, List.length_nil] at hfull
          omega
        have hstore : (t.store c.capacity ⟨key, value, expiry c.ttl now⟩).rows.length =
            t.rows.length := by
          simp only [Recency.store, hget, if_pos hfull]
          rw [Table.length_put_of_absent (Table.get_dropFirst_eq_none hget), Table.dropFirst,
            List.length_tail]
          exact Nat.sub_add_cancel (List.length_pos_of_ne_nil ht)
        obtain ⟨hhits, hmisses, hevicts⟩ := counters_evictOldest h ht
        obtain ⟨hhits', hmisses', hevicts'⟩ :
            SameCounters c.evictOldest (c.set now key value) := by
          simp only [Cache.set, hfind, hlen, if_pos hfull]
          exact ⟨rfl, rfl, rfl⟩
        omega
      · have hstore : (t.store c.capacity ⟨key, value, expiry c.ttl now⟩).rows.length =
            t.rows.length + 1 := by
          simp only [Recency.store, hget, if_neg hfull]
          exact Table.length_put_of_absent hget
        obtain ⟨hhits, hmisses, hevicts⟩ : SameCounters c (c.set now key value) := by
          simp only [Cache.set, hfind, hlen, if_neg hfull]
          exact ⟨rfl, rfl, rfl⟩
        omega

/-- Only a `Set` evicts. -/
theorem evicts_perform (h : Refines c t) (now : ℤ) {o : Op K V}
    (ho : ∀ key value, o ≠ .set key value) : (Sys.perform c now o).1.evicts = c.evicts := by
  cases o with
  | get key => exact (counters_get h now key).1
  | set key value => exact absurd rfl (ho key value)
  | delete key => exact (sameCounters_delete c key).evicts
  | clear => rfl
  | deleteExpired => exact (sameCounters_deleteExpired c now).evicts

theorem entries_perform (h : Refines c t) (hcap : 1 ≤ c.capacity) (now : ℤ)
    (hlasting : c.ttl = 0 → ∀ e ∈ c.entries, isExpired now e = false) (o : Op K V) :
    (movement c now o).inserted + c.list.len + c.evicts =
      (Sys.perform c now o).1.list.len + (Sys.perform c now o).1.evicts +
        (movement c now o).removed + (movement c now o).expired := by
  have hevicts := evicts_perform h now (o := o)
  have hlost := length_perform h now hlasting (o := o)
  have hlen := h.len
  have hlen' := (h.perform now o).1.len
  cases o with
  | set key value => exact (counters_set h hcap now key value).1
  | _ =>
      specialize hevicts (by simp)
      specialize hlost (by simp)
      simp only [movement] at hlost ⊢
      omega

theorem lookups_perform (h : Refines c t) (hcap : 1 ≤ c.capacity) (now : ℤ) (o : Op K V) :
    (Sys.perform c now o).1.hits + (Sys.perform c now o).1.misses =
      c.hits + c.misses + (movement c now o).gets := by
  cases o with
  | get key => exact (counters_get h now key).2
  | set key value => exact (counters_set h hcap now key value).2
  | delete key =>
      have hsame := sameCounters_delete c key
      exact (congrArg₂ (· + ·) hsame.hits hsame.misses : _ = c.hits + c.misses)
  | clear => rfl
  | deleteExpired =>
      have hsame := sameCounters_deleteExpired c now
      exact (congrArg₂ (· + ·) hsame.hits hsame.misses : _ = c.hits + c.misses)

end Operations

/-! ## Whole runs -/

/-- What came in is there, was evicted, removed, or found expired. -/
structure Balanced (c : Cache K V) (ms : List Movement) : Prop where
  entries : total Movement.inserted ms = c.list.len + c.evicts + total Movement.removed ms +
    total Movement.expired ms
  lookups : c.hits + c.misses = total Movement.gets ms

/-- The cache as it is between two operations; without a ttl its entries last. -/
def Accounted (capacity : ℤ) (s : Sys K V) (ms : List Movement) : Prop :=
  s.cache.capacity = capacity ∧ (∃ t, Refines s.cache t) ∧
    (s.cache.ttl = 0 → ∀ e ∈ s.cache.entries, e.expiresAt = none) ∧ Balanced s.cache ms

theorem Accounted.step {capacity : ℤ} (hcap : 1 ≤ capacity) {s s' : Sys K V}
    {ms : List Movement} {x : Action K V} (hs : Accounted capacity s ms)
    (h : s.step x = some s') : Accounted capacity s' (ms ++ movements s x) := by
  obtain ⟨rfl, ⟨t, href⟩, hlasting, hentries, hlookups⟩ := hs
  cases x with
  | advance d =>
      obtain rfl := Option.some.inj h
      rw [movements, List.append_nil]
      exact ⟨rfl, ⟨t, href⟩, hlasting, hentries, hlookups⟩
  | op o =>
      rw [Sys.step_op] at h
      obtain rfl := Option.some.inj h
      have hconfig := sameConfig_perform s.cache s.clock o
      have href' := (href.perform s.clock o).1
      have hmoved := entries_perform href hcap s.clock
        (fun httl e he => by simp [isExpired, hlasting httl e he]) o
      have hlooked := lookups_perform href hcap s.clock o
      refine ⟨hconfig.capacity, ⟨_, href'⟩, ?_, ?_, ?_⟩
      · intro httl e he
        rw [hconfig.ttl] at httl
        rw [href'.entries] at he
        rcases mem_perform he with he | he
        · exact hlasting httl e (href.entries ▸ he)
        · rw [he, expiry, if_pos httl]
      · simp only [movements, total_append, total_singleton]
        omega
      · simp only [movements, total_append, total_singleton]
        omega

/-- The counters account for the entries exactly as long as no `Get` and no
`deleteExpired` comes upon an expired one. -/
theorem entries_accounted_iff {capacity ttl now : ℤ} {c : Cache K V}
    (hnew : newCache capacity [withTTL ttl] = .ok c) {xs : List (Action K V)} {s : Sys K V}
    (hrun : run Sys.step ⟨c, now, []⟩ xs = some s) :
    (total Movement.inserted (collect Sys.step movements ⟨c, now, []⟩ xs) =
        s.cache.stats.len + s.cache.stats.evicts +
          total Movement.removed (collect Sys.step movements ⟨c, now, []⟩ xs) ↔
      Along Sys.step Unexpired ⟨c, now, []⟩ xs) ∧
    s.cache.stats.hits + s.cache.stats.misses =
      total Movement.gets (collect Sys.step movements ⟨c, now, []⟩ xs) := by
  obtain ⟨hcap, hcapacity, -, href⟩ := refines_new hnew
  have hempty : Balanced c [] ∧ c.entries = [] := by
    unfold newCache at hnew
    split_ifs at hnew
    obtain rfl := Except.ok.inj hnew
    exact ⟨⟨rfl, rfl⟩, rfl⟩
  have hs : Accounted capacity s (collect Sys.step movements ⟨c, now, []⟩ xs) :=
    run_collect (P := Accounted capacity) (C := fun _ _ => True)
      (fun _ _ _ _ hs _ h => hs.step hcap h)
      ⟨hcapacity, ⟨_, href⟩, by simp [hempty.2], hempty.1⟩
      (along_of_forall fun _ _ _ => trivial) hrun
  obtain ⟨-, -, -, hentries, hlookups⟩ := hs
  refine ⟨?_, hlookups⟩
  rw [along_unexpired_iff, ← total_eq_zero, hentries]
  simp only [Cache.stats]
  omega

/-- An entry expires and a `Get` takes it out: it is neither there nor evicted. -/
def expiring : List (Action ℕ String) := [.op (.set 1 "a"), .advance 11, .op (.get 1)]

theorem expired_entry_unaccounted :
    ∃ (c : Cache ℕ String) (s : Sys ℕ String), newCache 1 [withTTL 10] = .ok c ∧
      run Sys.step ⟨c, 0, []⟩ expiring = some s ∧ s.cache.stats = ⟨0, 1, 0, 0⟩ ∧
      collect Sys.step movements ⟨c, 0, []⟩ expiring = [⟨1, 0, 0, 0⟩, ⟨0, 0, 1, 1⟩] :=
  ⟨_, _, rfl, rfl, by decide, by decide⟩

/-- Three keys in a cache of two, with one eviction, a lookup in time and one deletion. -/
def evicting : List (Action ℕ String) :=
  [.op (.set 1 "a"), .op (.set 2 "b"), .op (.set 3 "c"), .advance 10, .op (.get 3),
    .op .deleteExpired, .op (.delete 2)]

theorem evicted_entry_accounted :
    ∃ (c : Cache ℕ String) (s : Sys ℕ String), newCache 2 [withTTL 10] = .ok c ∧
      run Sys.step ⟨c, 0, []⟩ evicting = some s ∧ s.cache.stats = ⟨1, 0, 1, 1⟩ ∧
      total Movement.inserted (collect Sys.step movements ⟨c, 0, []⟩ evicting) =
        s.cache.stats.len + s.cache.stats.evicts +
          total Movement.removed (collect Sys.step movements ⟨c, 0, []⟩ evicting) := by
  refine ⟨_, _, rfl, rfl, by decide,
    (entries_accounted_iff (show newCache 2 [withTTL 10] = .ok _ from rfl) rfl).1.mpr ?_⟩
  exact along_unexpired_iff.mpr (by decide)

end Gkit.LruCache
