import Gkit.Lib.Redis

/-!
# Feature flags

A store keeps its flags as JSON texts under keys that begin with its namespace.
The server answers every command here; `fault` is a connection error of the one
command whose failure a caller is told about.
-/

namespace Gkit.Feature

open Gkit.Lib Gkit.Lib.Redis

structure Flag where
  enabled : Bool
  percentage : ℤ
  allowList : List Text
  updatedAt : ℤ
  deriving DecidableEq, Repr

/-- `encoding/json` on flags. -/
structure Json where
  marshal : Flag → Except GoError Text
  unmarshal : Text → Except GoError Flag

structure Store where
  ns : Text
  deriving DecidableEq, Repr

/-- `NewStore`, with the namespace of `WithNamespace` if that option is given. -/
def newStore (ns : Option Text) : Store := ⟨ns.getD "gkit".toList⟩

/-- FNV-1a on 64 bits, over the bytes of the key. -/
def hashBucket (key : Text) (buckets : ℕ) : ℕ :=
  key.bytes.foldl (fun h b => (h ^^^ b.toNat) * 1099511628211 % 2 ^ 64) 14695981039346656037 %
    buckets

namespace Store

variable (s : Store) (json : Json)

def key (name : Text) : Text := s.ns ++ ":flags:".toList ++ name

/-- The text of an error about a flag. -/
def about (what : String) (name : Text) (err : GoError) : GoError :=
  .wrapping ("feature: " ++ what ++ " " ++ quote (String.ofList name)) err

/-- `now` is the time the flag is stamped with. -/
def set (fault : Option GoError) (now : ℤ) (name : Text) (flag : Flag) (db : Keyspace) :
    Keyspace × Option GoError :=
  match json.marshal { flag with updatedAt := now } with
  | .error err => (db, some (about "marshal" name err))
  | .ok raw =>
      match fault with
      | some err => (db, some (about "set" name err))
      | none => (db.set (s.key name) raw, none)

/-- A flag that is not there is no error. -/
def get (fault : Option GoError) (db : Keyspace) (name : Text) : Except GoError (Option Flag) :=
  match fault.elim (db.get (s.key name)) .err with
  | .nil => .ok none
  | .err err => .error (about "get" name err)
  | .bulk raw =>
      match json.unmarshal raw with
      | .error err => .error (about "unmarshal" name err)
      | .ok f => .ok (some f)

def delete (fault : Option GoError) (name : Text) (db : Keyspace) : Keyspace × Option GoError :=
  match fault with
  | some err => (db, some (about "delete" name err))
  | none => (db.del [s.key name], none)

def isEnabled (fault : Option GoError) (db : Keyspace) (name : Text) : Bool :=
  match s.get json fault db name with
  | .error _ | .ok none => false
  | .ok (some f) =>
      f.enabled ∧ (f.percentage = 0 ∨ 100 ≤ f.percentage) ∧ f.allowList.length = 0

/-- `hashBucket` is a parameter, so that results do not depend on the hash. -/
def isEnabledFor (hashBucket : Text → ℕ → ℕ) (fault : Option GoError) (db : Keyspace)
    (name entityID : Text) : Bool :=
  match s.get json fault db name with
  | .error _ | .ok none => false
  | .ok (some f) =>
      if f.enabled = false then false
      else if entityID ∈ f.allowList then true
      else if 0 < f.percentage then
        hashBucket (name ++ ":".toList ++ entityID) 100 < f.percentage
      else true

/-! ## ListAll -/

/-- The pattern of the scan. -/
def pattern : Text := s.key "*".toList

/-- The loop over the keys of the scan; `none` where the slice expression panics. -/
def listKeys (db : Keyspace) : List Text → GoMap Text Flag → Option (GoMap Text Flag)
  | [], flags => some flags
  | k :: ks, flags =>
      match db.get k with
      | .nil | .err _ => listKeys db ks flags
      | .bulk raw =>
          match json.unmarshal raw with
          | .error _ => listKeys db ks flags
          | .ok f =>
              if k.length < (s.key []).length then none
              else listKeys db ks (flags.insert (k.drop (s.key []).length) f)

/-- `ListAll`, given the pages of its scan. -/
def listAll (db : Keyspace) (pages : List (List Text)) : Option (GoMap Text Flag) :=
  s.listKeys json db pages.flatten Table.empty

end Store

end Gkit.Feature
