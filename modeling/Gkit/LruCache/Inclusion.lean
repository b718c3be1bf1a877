import Gkit.LruCache.Recency

/-!
# A larger cache holds what a smaller one holds

Two caches of different capacity under the same operations at the same times.
The entries of the smaller one are among those of the larger one, in the same
order, and the larger one is never ahead by more entries than its capacity is.
-/

namespace Gkit.LruCache

open Gkit.Lib

variable {K V : Type} [DecidableEq K]

structure Included (c₁ c₂ : ℤ) (t₁ t₂ : Recency K V) : Prop where
  sub : t₁.rows.Sublist t₂.rows
  gap : (t₂.rows.length : ℤ) + c₁ ≤ t₁.rows.length + c₂

namespace Included

variable {c₁ c₂ : ℤ} {t₁ t₂ : Recency K V}

theorem get_eq_some (h : Included c₁ c₂ t₁ t₂) {k : K} {e : Entry K V} (hk : t₁.get k = some e) :
    t₂.get k = some e := by
  obtain ⟨hmem, hkey⟩ := Table.get_eq_some.mp hk
  exact Table.get_eq_some.mpr ⟨h.sub.subset hmem, hkey⟩

omit [DecidableEq K] in
/-- What the smaller one loses, the larger one loses too. -/
theorem keep (h : Included c₁ c₂ t₁ t₂) (p : Entry K V → Bool) :
    Included c₁ c₂ (t₁.keep p) (t₂.keep p) := by
  refine ⟨h.sub.filter p, ?_⟩
  have hlost := h.sub.countP_le (p := fun e => ¬ p e)
  have h₁ := List.length_eq_countP_add_countP p (l := t₁.rows)
  have h₂ := List.length_eq_countP_add_countP p (l := t₂.rows)
  have hgap := h.gap
  simp only [Table.keep, ← List.countP_eq_length_filter]
  omega

theorem sub_without (h : Included c₁ c₂ t₁ t₂) {k : K} (hk : t₁.get k = none) :
    t₁.rows.Sublist (t₂.rows.filter fun e => e.key ≠ k) := by
  have hself : t₁.rows.filter (fun e => e.key ≠ k) = t₁.rows :=
    List.filter_eq_self.mpr fun e he => by simpa using Table.get_eq_none.mp hk e he
  rw [← hself]
  exact h.sub.filter _

theorem sub_put {r₁ r₂ : Recency K V} (h : r₁.rows.Sublist r₂.rows) (e : Entry K V) :
    (r₁.put e).rows.Sublist (r₂.put e).rows :=
  (h.filter _).append (List.Sublist.refl _)

theorem fetch (h : Included c₁ c₂ t₁ t₂) (now : ℤ) (k : K) :
    Included c₁ c₂ (t₁.fetch now k).1 (t₂.fetch now k).1 ∧
      ∀ v, (t₁.fetch now k).2 = some v → (t₂.fetch now k).2 = some v := by
  unfold Recency.fetch
  cases hk₁ : t₁.get k with
  | some e =>
      rw [h.get_eq_some hk₁]
      dsimp only
      split_ifs
      · exact ⟨h.keep _, fun v hv => hv⟩
      · obtain ⟨-, rfl⟩ := Table.get_eq_some.mp hk₁
        refine ⟨⟨sub_put h.sub e, ?_⟩, fun v hv => hv⟩
        rw [Table.length_put_of_get hk₁, Table.length_put_of_get (h.get_eq_some hk₁)]
        exact h.gap
  | none =>
      refine ⟨?_, fun v hv => nomatch hv⟩
      cases hk₂ : t₂.get k with
      | none => exact h
      | some e =>
          dsimp only
          split_ifs
          · have hself : t₁.keep (fun f => f.key ≠ k) = t₁ :=
              Table.keep_eq_self fun f hf => by simpa using Table.get_eq_none.mp hk₁ f hf
            rw [← hself]
            exact h.keep _
          · obtain ⟨-, rfl⟩ := Table.get_eq_some.mp hk₂
            refine ⟨(h.sub_without hk₁).trans (List.sublist_append_left _ _), ?_⟩
            rw [Table.length_put_of_get hk₂]
            exact h.gap

theorem store (h : Included c₁ c₂ t₁ t₂) (hc : 1 ≤ c₁) (hle : c₁ ≤ c₂) (e : Entry K V) :
    Included c₁ c₂ (t₁.store c₁ e) (t₂.store c₂ e) := by
  have hgap := h.gap
  unfold Recency.store
  cases hk₁ : t₁.get e.key with
  | some f =>
      rw [h.get_eq_some hk₁]
      refine ⟨sub_put h.sub e, ?_⟩
      rw [Table.length_put_of_get hk₁, Table.length_put_of_get (h.get_eq_some hk₁)]
      exact hgap
  | none =>
      have hgone := Table.get_dropFirst_eq_none hk₁
      have hrow : ∀ t : Recency K V, t.dropFirst.rows = t.rows.tail := fun _ => rfl
      cases hk₂ : t₂.get e.key with
      | some f =>
          -- The key is new to the smaller one only, which may have to drop one.
          dsimp only
          split_ifs with hfull₁
          · refine ⟨?_, ?_⟩
            · rw [Table.rows_put_of_absent hgone, hrow]
              exact ((List.tail_sublist _).trans (h.sub_without hk₁)).append (.refl _)
            · rw [Table.length_put_of_absent hgone, Table.length_put_of_get hk₂, hrow,
                List.length_tail]
              omega
          · refine ⟨?_, ?_⟩
            · rw [Table.rows_put_of_absent hk₁]
              exact (h.sub_without hk₁).append (.refl _)
            · rw [Table.length_put_of_absent hk₁, Table.length_put_of_get hk₂]
              omega
      | none =>
          have hgone₂ := Table.get_dropFirst_eq_none hk₂
          dsimp only
          split_ifs with hfull₁ hfull₂ hfull₂
          · refine ⟨sub_put h.sub.tail e, ?_⟩
            rw [Table.length_put_of_absent hgone, Table.length_put_of_absent hgone₂, hrow, hrow,
              List.length_tail, List.length_tail]
            omega
          · refine ⟨sub_put ((List.tail_sublist _).trans h.sub) e, ?_⟩
            rw [Table.length_put_of_absent hgone, Table.length_put_of_absent hk₂, hrow,
              List.length_tail]
            omega
          · -- The larger one is not full before the smaller one is.
            omega
          · refine ⟨sub_put h.sub e, ?_⟩
            rw [Table.length_put_of_absent hk₁, Table.length_put_of_absent hk₂]
            omega

theorem perform (h : Included c₁ c₂ t₁ t₂) (hc : 1 ≤ c₁) (hle : c₁ ≤ c₂) (ttl now : ℤ)
    (o : Op K V) :
    Included c₁ c₂ (t₁.perform c₁ ttl now o).1 (t₂.perform c₂ ttl now o).1 := by
  cases o with
  | get k => exact (h.fetch now k).1
  | set k v => exact h.store hc hle _
  | delete k => exact h.keep _
  | clear =>
      refine ⟨List.Sublist.refl _, ?_⟩
      simpa [Recency.perform, Table.empty] using hle
  | deleteExpired =>
      simp only [Recency.perform]
      split_ifs
      · exact h
      · exact h.keep _

end Included

/-! ## Two runs -/

/-- The entry that the map of the cache leads to. -/
def Cache.entryAt (c : Cache K V) (k : K) : Option (Entry K V) :=
  (c.items.find k).bind c.list.value

theorem Refines.entryAt_eq {c : Cache K V} {t : Recency K V} (h : Refines c t) (k : K) :
    c.entryAt k = t.get k := by
  unfold Cache.entryAt
  cases hk : c.items.find k with
  | none => exact (h.absent hk).symm
  | some i =>
      obtain ⟨e, hi, ht⟩ := h.element hk
      rw [ht]
      exact hi

structure Nested (c₁ c₂ ttl : ℤ) (s₁ s₂ : Sys K V) : Prop where
  clock : s₁.clock = s₂.clock
  config₁ : s₁.cache.capacity = c₁ ∧ s₁.cache.ttl = ttl
  config₂ : s₂.cache.capacity = c₂ ∧ s₂.cache.ttl = ttl
  tables : ∃ t₁ t₂, Refines s₁.cache t₁ ∧ Refines s₂.cache t₂ ∧ Included c₁ c₂ t₁ t₂

theorem Nested.step {c₁ c₂ ttl : ℤ} (hc : 1 ≤ c₁) (hle : c₁ ≤ c₂) {s₁ s₂ s₁' s₂' : Sys K V}
    {x : Action K V} (h : Nested c₁ c₂ ttl s₁ s₂) (h₁ : s₁.step x = some s₁')
    (h₂ : s₂.step x = some s₂') : Nested c₁ c₂ ttl s₁' s₂' := by
  cases x with
  | advance d =>
      obtain rfl := Option.some.inj h₁
      obtain rfl := Option.some.inj h₂
      exact ⟨congrArg (· + (d : ℤ)) h.clock, h.config₁, h.config₂, h.tables⟩
  | op o =>
      rw [Sys.step_op] at h₁ h₂
      obtain rfl := Option.some.inj h₁
      obtain rfl := Option.some.inj h₂
      obtain ⟨t₁, t₂, hr₁, hr₂, hin⟩ := h.tables
      have hs₁ := sameConfig_perform s₁.cache s₁.clock o
      have hs₂ := sameConfig_perform s₂.cache s₂.clock o
      have hn₁ := (hr₁.perform s₁.clock o).1
      have hn₂ := (hr₂.perform s₂.clock o).1
      rw [h.config₁.1, h.config₁.2] at hn₁
      rw [h.config₂.1, h.config₂.2, ← h.clock] at hn₂
      refine ⟨h.clock, ?_, ?_, _, _, hn₁, ?_, hin.perform hc hle ttl s₁.clock o⟩
      · exact ⟨hs₁.capacity.trans h.config₁.1, hs₁.ttl.trans h.config₁.2⟩
      · exact ⟨hs₂.capacity.trans h.config₂.1, hs₂.ttl.trans h.config₂.2⟩
      · rw [← h.clock]
        exact hn₂

theorem nested_new {c₁ c₂ ttl now : ℤ} (hle : c₁ ≤ c₂) {d₁ d₂ : Cache K V}
    (h₁ : newCache c₁ [withTTL ttl] = .ok d₁) (h₂ : newCache c₂ [withTTL ttl] = .ok d₂) :
    1 ≤ c₁ ∧ Nested c₁ c₂ ttl (⟨d₁, now, []⟩ : Sys K V) ⟨d₂, now, []⟩ := by
  obtain ⟨hc, hcapacity₁, httl₁, href₁⟩ := refines_new h₁
  obtain ⟨-, hcapacity₂, httl₂, href₂⟩ := refines_new h₂
  refine ⟨hc, rfl, ⟨hcapacity₁, httl₁⟩, ⟨hcapacity₂, httl₂⟩, Table.empty, Table.empty, href₁,
    href₂, List.Sublist.refl _, ?_⟩
  simpa [Table.empty] using hle

/-- After the same operations at the same times, every entry of the smaller cache
is in the larger one, and every hit in it is one there. -/
theorem larger_cache_includes {c₁ c₂ ttl now : ℤ} (hle : c₁ ≤ c₂) {d₁ d₂ : Cache K V}
    (h₁ : newCache c₁ [withTTL ttl] = .ok d₁) (h₂ : newCache c₂ [withTTL ttl] = .ok d₂)
    {xs : List (Action K V)} {s₁ s₂ : Sys K V}
    (hr₁ : run Sys.step ⟨d₁, now, []⟩ xs = some s₁)
    (hr₂ : run Sys.step ⟨d₂, now, []⟩ xs = some s₂) :
    (∀ k e, s₁.cache.entryAt k = some e → s₂.cache.entryAt k = some e) ∧
      ∀ k v, (s₁.cache.get s₁.clock k).2 = some v → (s₂.cache.get s₂.clock k).2 = some v := by
  obtain ⟨hc, hstart⟩ := @nested_new K V _ c₁ c₂ ttl now hle d₁ d₂ h₁ h₂
  have hend : Nested c₁ c₂ ttl s₁ s₂ :=
    run_pair (fun _ _ _ _ _ h hx hy => Nested.step hc hle h hx hy) hstart hr₁ hr₂
  obtain ⟨t₁, t₂, ht₁, ht₂, hin⟩ := hend.tables
  constructor
  · intro k e he
    rw [ht₁.entryAt_eq] at he
    rw [ht₂.entryAt_eq]
    exact hin.get_eq_some he
  · intro k v hv
    rw [(ht₁.get s₁.clock k).2] at hv
    rw [(ht₂.get s₂.clock k).2, ← hend.clock]
    exact (hin.fetch s₁.clock k).2 v hv

def twoKeys : List (Action ℕ String) := [.op (.set 1 "a"), .op (.set 2 "b")]

theorem twoKeys_included : ∃ (d₁ d₂ : Cache ℕ String) (s₁ s₂ : Sys ℕ String),
    newCache 1 [withTTL 10] = .ok d₁ ∧ newCache 2 [withTTL 10] = .ok d₂ ∧
      run Sys.step ⟨d₁, 0, []⟩ twoKeys = some s₁ ∧ run Sys.step ⟨d₂, 0, []⟩ twoKeys = some s₂ ∧
      (s₁.cache.get s₁.clock 2).2 = some "b" ∧ (s₂.cache.get s₂.clock 2).2 = some "b" := by
  let d₁ : Cache ℕ String := ⟨1, 10, .new, Table.empty, 0, 0, 0⟩
  let d₂ : Cache ℕ String := ⟨2, 10, .new, Table.empty, 0, 0, 0⟩
  have hsmall : (run Sys.step ⟨d₁, 0, []⟩ twoKeys).map
      (fun s => (s.cache.get s.clock 2).2) = some (some "b") := by decide
  have hlarge : (run Sys.step ⟨d₂, 0, []⟩ twoKeys).isSome = true := by decide
  obtain ⟨s₁, hs₁, hhit⟩ := Option.map_eq_some_iff.mp hsmall
  obtain ⟨s₂, hs₂⟩ := Option.isSome_iff_exists.mp hlarge
  have hnew₁ : newCache 1 [withTTL 10] = .ok d₁ := rfl
  have hnew₂ : newCache 2 [withTTL 10] = .ok d₂ := rfl
  refine ⟨d₁, d₂, s₁, s₂, hnew₁, hnew₂, hs₁, hs₂, hhit, ?_⟩
  exact (larger_cache_includes (by decide) hnew₁ hnew₂ hs₁ hs₂).2 2 "b" hhit

end Gkit.LruCache
