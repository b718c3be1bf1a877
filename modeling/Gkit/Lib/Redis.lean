import Gkit.Lib.Errors
import Gkit.Lib.Globs
import Gkit.Lib.Maps

/-!
# Redis keyspaces

What the commands of the packages do to a keyspace and reply.  Values that are
not strings are there, but nothing is said about them.
-/

namespace Gkit.Lib.Redis

open Gkit.Lib

inductive Value where
  | string (raw : Text)
  /-- A list, a hash, a set, and so on. -/
  | other
  deriving DecidableEq, Repr

abbrev Keyspace := GoMap Text Value

inductive Reply where
  | nil
  | bulk (raw : Text)
  | err (err : GoError)
  deriving DecidableEq, Repr

def errWrongType : GoError :=
  .new "WRONGTYPE Operation against a key holding the wrong kind of value"

namespace Keyspace

/-- `GET`. -/
def get (db : Keyspace) (key : Text) : Reply :=
  match GoMap.find db key with
  | none => .nil
  | some (.string raw) => .bulk raw
  | some .other => .err errWrongType

/-- `SET`, which replaces a value of any kind. -/
def set (db : Keyspace) (key raw : Text) : Keyspace := GoMap.insert db key (.string raw)

/-- `DEL`. -/
def del (db : Keyspace) (keys : List Text) : Keyspace := db.keep fun r => r.1 ∉ keys

/-- `MGET`: the strings among the values, nil for everything else. -/
def mget (db : Keyspace) (keys : List Text) : List (Option Text) :=
  keys.map fun key =>
    match GoMap.find db key with
    | some (.string raw) => some raw
    | _ => none

theorem find_set (db : Keyspace) (key raw k : Text) :
    GoMap.find (db.set key raw) k = if k = key then some (.string raw) else GoMap.find db k :=
  GoMap.find_insert db key k _

theorem find_del (db : Keyspace) (keys : List Text) (k : Text) :
    GoMap.find (db.del keys) k = if k ∈ keys then none else GoMap.find db k := by
  rw [del, GoMap.find_keep]
  by_cases hk : k ∈ keys
  · cases GoMap.find db k <;> simp [hk]
  · cases GoMap.find db k <;> simp [hk]

/-- The pages of a `SCAN` with a pattern, from cursor zero back to it: every key
that matches comes at least once, and no other key. -/
structure Scans (db : Keyspace) (pattern : Text) (pages : List (List Text)) : Prop where
  mem_iff : ∀ k, k ∈ pages.flatten ↔
    (GoMap.find db k).isSome = true ∧ Glob.isMatch pattern k = true

/-- The scan that returns everything at once. -/
theorem scans_onePage (db : Keyspace) (pattern : Text) :
    db.Scans pattern [(db.rows.map Prod.fst).filter (Glob.isMatch pattern)] := by
  refine ⟨fun k => ?_⟩
  rw [List.flatten_singleton, List.mem_filter, Option.isSome_iff_exists]
  simp only [GoMap.find_eq_some, List.mem_map, Prod.exists, exists_and_right, exists_eq_right]

end Keyspace

end Gkit.Lib.Redis
