import Gkit.RedisCache.Model

/-!
# Flushing a prefix and reading in batches

`Flush` splices the prefix into a glob pattern as it is, so it removes the keys
of the prefix and no others exactly if no character of the prefix is special
there.  `MGet` agrees with `Get` on every key it is asked for.
-/

namespace Gkit.RedisCache

open Gkit.Lib Gkit.Lib.Redis

variable {V : Type} (c : Cache V)

namespace Cache

/-! ## Reading and writing one key -/

theorem get_set [Inhabited V] {v : V} {raw : Text} (hmarshal : c.marshal v = .ok raw)
    (hunmarshal : c.unmarshal raw = .ok v) (db : Keyspace) (key key' : Text) :
    c.get none (c.set db key v .done).1 key' =
      if key' = key then (v, true, none) else c.get none db key' := by
  have hk : c.k key' = c.k key ↔ key' = key := List.append_right_inj c.keyPrefix
  simp only [set, hmarshal, Written.apply, get, Option.elim_none, Keyspace.get,
    Keyspace.find_set, hk]
  split_ifs with h
  · simp only [hunmarshal]
  · rfl

/-! ## Flush -/

/-- The pages of a scan, as far as they arrived. -/
def arrived (pages : List (Except GoError (List Text) × Written)) : List (List Text) :=
  pages.filterMap fun p => p.1.toOption

theorem arrived_cons (keys : List Text) (w : Written)
    (rest : List (Except GoError (List Text) × Written)) :
    arrived ((.ok keys, w) :: rest) = keys :: arrived rest := rfl

theorem flushPages_find {pages : List (Except GoError (List Text) × Written)}
    {db db' : Keyspace} (h : flushPages pages db = (db', none)) (k : Text) :
    GoMap.find db' k = if k ∈ (arrived pages).flatten then none else GoMap.find db k := by
  induction pages generalizing db with
  | nil =>
      cases h
      rfl
  | cons page rest ih =>
      obtain ⟨keys | keys, w⟩ := page
      · cases h
      · rw [arrived_cons, List.flatten_cons]
        cases keys with
        | nil => exact ih h
        | cons key keys =>
            cases w with
            | failed err executed => cases h
            | done =>
                rw [ih h, Written.apply, Keyspace.find_del]
                by_cases hlater : k ∈ (arrived rest).flatten
                · rw [if_pos hlater, if_pos (List.mem_append_right _ hlater)]
                · rw [if_neg hlater]
                  simp only [List.mem_append, hlater, or_false]

/-- Without a failure `Flush` returns nil. -/
theorem exists_flushPages_done (pages : List (List Text)) (db : Keyspace) :
    ∃ db', flushPages (pages.map fun keys => (.ok keys, .done)) db = (db', none) := by
  induction pages generalizing db with
  | nil => exact ⟨db, rfl⟩
  | cons keys rest ih => cases keys <;> exact ih _

end Cache

/-- When `Flush` returns nil, the keys of the prefix are gone and all others are as
they were, whatever is in the keyspace, exactly if the prefix has no character
that is special in a glob pattern.  It returns nil when no command fails. -/
theorem flush_exact_iff (hpre : c.keyPrefix ≠ []) :
    ((∀ (db db' : Keyspace) (w : Written) (pages : List (Except GoError (List Text) × Written)),
        db.Scans c.flushPattern (Cache.arrived pages) → c.flush w pages db = (db', none) →
        ∀ k, GoMap.find db' k = if c.keyPrefix <+: k then none else GoMap.find db k) ↔
      ∀ ch ∈ c.keyPrefix, Glob.isSpecial ch = false) ∧
    ∀ (db : Keyspace) (w : Written) (pages : List (List Text)),
      ∃ db', c.flush w (pages.map fun keys => (.ok keys, .done)) db = (db', none) := by
  have hflush : ∀ w pages db, c.flush w pages db = Cache.flushPages pages db :=
    fun _ _ _ => if_neg hpre
  refine ⟨?_, fun db w pages => ?_⟩
  · rw [← Glob.isMatch_star_iff]
    constructor
    · intro hall s
      -- the keyspace with this one key
      have hscan := Keyspace.scans_onePage (Keyspace.set Table.empty s []) c.flushPattern
      obtain ⟨db', hrun⟩ := Cache.exists_flushPages_done
        [((Keyspace.set Table.empty s []).rows.map Prod.fst).filter (Glob.isMatch c.flushPattern)]
        (Keyspace.set Table.empty s [])
      have hfind := Cache.flushPages_find hrun s
      rw [hall _ db' .done _ hscan ((hflush ..).trans hrun) s] at hfind
      have hmem := hscan.mem_iff s
      rw [Keyspace.find_set, if_pos rfl] at hfind hmem
      rw [Option.isSome_some, eq_self_iff_true, true_and, Cache.flushPattern] at hmem
      rw [← hmem]
      by_cases hs : c.keyPrefix <+: s
      · rw [if_pos hs] at hfind
        by_contra hne
        rw [iff_true_right hs] at hne
        exact absurd (hfind.trans (if_neg hne)) (by simp)
      · rw [if_neg hs] at hfind
        refine iff_of_false (fun hin => ?_) hs
        exact absurd (hfind.trans (if_pos hin)) (by simp)
    · intro hexact db db' w pages hscan h k
      rw [hflush] at h
      have hmem : k ∈ (Cache.arrived pages).flatten ↔
          (GoMap.find db k).isSome = true ∧ c.keyPrefix <+: k := by
        rw [hscan.mem_iff, Cache.flushPattern, hexact]
      rw [Cache.flushPages_find h]
      cases hfind : GoMap.find db k with
      | none => simp
      | some v => simp only [hmem, hfind, Option.isSome_some, true_and]
  · rw [hflush]
    exact Cache.exists_flushPages_done pages db

/-- Two caches share a database, and the prefix of the first has a set in it. -/
def shelves : Cache Text := ⟨"shelf[1]:".toList, .ok, .ok⟩

def shelvesDb : Keyspace :=
  (Keyspace.set (Keyspace.set Table.empty "shelf[1]:a".toList []) "shelf1:a".toList [])

/-- The flush leaves the cache's own key and deletes the other one. -/
theorem bracketed_prefix_misses :
    shelves.keyPrefix ≠ [] ∧
      shelvesDb.Scans shelves.flushPattern (Cache.arrived [(.ok ["shelf1:a".toList], .done)]) ∧
      ∃ db', shelves.flush .done [(.ok ["shelf1:a".toList], .done)] shelvesDb = (db', none) ∧
        GoMap.find db' "shelf[1]:a".toList = some (.string []) ∧
        GoMap.find db' "shelf1:a".toList = none := by
  have hscan := Keyspace.scans_onePage shelvesDb shelves.flushPattern
  have hpage : (shelvesDb.rows.map Prod.fst).filter (Glob.isMatch shelves.flushPattern) =
      ["shelf1:a".toList] := by decide
  rw [hpage] at hscan
  exact ⟨by decide, hscan, _, rfl, by decide, by decide⟩

/-- A prefix that means itself. -/
def products : Cache Text := ⟨"products:".toList, .ok, .ok⟩

def productsDb : Keyspace :=
  (Keyspace.set (Keyspace.set Table.empty "products:1".toList []) "news:1".toList [])

theorem plain_prefix_flushed :
    ∃ db', products.flush .done [(.ok ["products:1".toList], .done)] productsDb = (db', none) ∧
      GoMap.find db' "products:1".toList = none ∧
      GoMap.find db' "news:1".toList = some (.string []) := by
  have hnone : products.keyPrefix.any Glob.isSpecial = false := by decide
  have hplain : ∀ ch ∈ products.keyPrefix, Glob.isSpecial ch = false :=
    fun ch hch => Bool.eq_false_iff.mpr (List.any_eq_false.mp hnone ch hch)
  have hscan := Keyspace.scans_onePage productsDb products.flushPattern
  have hpage : (productsDb.rows.map Prod.fst).filter (Glob.isMatch products.flushPattern) =
      ["products:1".toList] := by decide
  rw [hpage] at hscan
  obtain ⟨hexact, hreturns⟩ := flush_exact_iff products (by decide)
  obtain ⟨db', hflush⟩ := hreturns productsDb .done [["products:1".toList]]
  have hfind := hexact.mpr hplain productsDb db' .done
    [(.ok ["products:1".toList], .done)] hscan hflush
  exact ⟨db', hflush, (hfind _).trans (by decide), (hfind _).trans (by decide)⟩

/-! ## MGet -/

/-- What `Get` finds for a key, if it finds a value. -/
def Cache.lookup (db : Keyspace) (key : Text) : Option V :=
  match GoMap.find db (c.k key) with
  | some (.string raw) => (c.unmarshal raw).toOption
  | _ => none

theorem Cache.get_eq_iff [Inhabited V] (db : Keyspace) (key : Text) (v : V) :
    c.get none db key = (v, true, none) ↔ c.lookup db key = some v := by
  unfold get lookup Keyspace.get
  rcases hfind : GoMap.find db (c.k key) with _ | raw | _
  · simp
  · rcases hraw : c.unmarshal raw with err | v' <;> simp [hraw, Except.toOption]
  · simp

theorem Cache.find_collect (db : Keyspace) (keys : List Text) (result : GoMap Text V) (k : Text) :
    (c.collect (keys.zip (db.mget (keys.map c.k))) result).find k =
      if k ∈ keys then (c.lookup db k).or (result.find k) else result.find k := by
  induction keys generalizing result with
  | nil => rfl
  | cons key keys ih =>
      have hcons : (key :: keys).zip (db.mget ((key :: keys).map c.k)) =
          (key, match GoMap.find db (c.k key) with
            | some (.string raw) => some raw
            | _ => none) :: keys.zip (db.mget (keys.map c.k)) := rfl
      rw [hcons]
      by_cases hk : k = key
      · subst hk
        rcases hfind : GoMap.find db (c.k k) with _ | raw | _
        · simp [collect, ih, lookup, hfind]
        · rcases hraw : c.unmarshal raw with err | v
          · simp [collect, ih, lookup, hfind, hraw, Except.toOption]
          · simp [collect, ih, lookup, hfind, hraw, Except.toOption, GoMap.find_insert]
        · simp [collect, ih, lookup, hfind]
      · rcases hfind : GoMap.find db (c.k key) with _ | raw | _
        · simp [collect, ih, hk]
        · rcases hraw : c.unmarshal raw with err | v
          · simp [collect, ih, hraw, hk]
          · simp [collect, ih, hraw, hk, GoMap.find_insert]
        · simp [collect, ih, hk]

/-- `MGet` maps a key to a value exactly if it was asked for the key and `Get`
returns that value. -/
theorem mGet_agrees_with_get [Inhabited V] (db : Keyspace) (keys : List Text) :
    (c.mGet none db keys).2 = none ∧
      ∀ k v, (c.mGet none db keys).1.find k = some v ↔
        k ∈ keys ∧ c.get none db k = (v, true, none) := by
  unfold Cache.mGet
  split_ifs with hkeys
  · subst hkeys
    exact ⟨rfl, fun k v => by simp⟩
  · refine ⟨rfl, fun k v => ?_⟩
    rw [c.find_collect, c.get_eq_iff, GoMap.find_empty, Option.or_none]
    split_ifs with hk <;> simp [hk]

end Gkit.RedisCache
