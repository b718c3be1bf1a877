import Gkit.Lib.Redis

/-!
# The Redis cache

The span and the log lines of a call are left out.  A command may fail on its way
to the server or back; in the second case it has been executed.
-/

namespace Gkit.RedisCache

open Gkit.Lib Gkit.Lib.Redis

structure Cache (V : Type) where
  keyPrefix : Text
  /-- `json.Unmarshal` into a fresh value. -/
  unmarshal : Text → Except GoError V
  /-- `json.Marshal`. -/
  marshal : V → Except GoError Text

/-- How a command that writes ends. -/
inductive Written where
  | done
  | failed (err : GoError) (executed : Bool)

def Written.apply (w : Written) (write : Keyspace → Keyspace) (db : Keyspace) : Keyspace :=
  match w with
  | .done | .failed _ true => write db
  | .failed _ false => db

def Written.err : Written → Option GoError
  | .done => none
  | .failed err _ => some err

namespace Cache

variable {V : Type} (c : Cache V)

def k (key : Text) : Text := c.keyPrefix ++ key

/-- The text of an error about a key. -/
def about (what : String) (key : Text) (err : GoError) : GoError :=
  .wrapping ("rediscache: " ++ what ++ " " ++ quote (String.ofList key)) err

/-- The value, whether there is one, and the error.  `fault` is a connection error. -/
def get [Inhabited V] (fault : Option GoError) (db : Keyspace) (key : Text) :
    V × Bool × Option GoError :=
  match fault.elim (db.get (c.k key)) .err with
  | .nil => (default, false, none)
  | .err err => (default, false, some (about "get" key err))
  | .bulk raw =>
      match c.unmarshal raw with
      | .error err => (default, false, some (about "unmarshal" key err))
      | .ok v => (v, true, none)

def set (db : Keyspace) (key : Text) (value : V) (w : Written) : Keyspace × Option GoError :=
  match c.marshal value with
  | .error err => (db, some (about "marshal" key err))
  | .ok raw => (w.apply (·.set (c.k key) raw) db, w.err.map (about "set" key))

def delete (db : Keyspace) (key : Text) (w : Written) : Keyspace × Option GoError :=
  (w.apply (·.del [c.k key]) db, w.err.map (about "del" key))

/-- The loop of `Flush`: one page of the scan after the other, with how the `DEL`
of the page ends. -/
def flushPages : List (Except GoError (List Text) × Written) → Keyspace →
    Keyspace × Option GoError
  | [], db => (db, none)
  | (.error err, _) :: _, db => (db, some (.wrapping "rediscache: scan" err))
  | (.ok [], _) :: rest, db => flushPages rest db
  | (.ok keys, w) :: rest, db =>
      match w.err with
      | none => flushPages rest (w.apply (·.del keys) db)
      | some err => (w.apply (·.del keys) db, some (.wrapping "rediscache: del batch" err))

/-- Without a prefix the whole database is flushed, with `w` for that command. -/
def flush (w : Written) (pages : List (Except GoError (List Text) × Written)) (db : Keyspace) :
    Keyspace × Option GoError :=
  if c.keyPrefix = [] then
    (w.apply (fun _ => Table.empty) db, w.err.map (.wrapping "rediscache: flush db"))
  else flushPages pages db

/-- The pattern `Flush` scans for. -/
def flushPattern : Text := c.keyPrefix ++ ['*']

/-- The loop over the replies of `MGET`, which come in the order of the keys. -/
def collect : List (Text × Option Text) → GoMap Text V → GoMap Text V
  | [], result => result
  | (_, none) :: rest, result => collect rest result
  | (key, some raw) :: rest, result =>
      match c.unmarshal raw with
      | .error _ => collect rest result
      | .ok v => collect rest (result.insert key v)

def mGet (fault : Option GoError) (db : Keyspace) (keys : List Text) :
    GoMap Text V × Option GoError :=
  if keys = [] then (Table.empty, none)
  else
    match fault with
    | some err => (Table.empty, some (.wrapping "rediscache: mget" err))
    | none => (c.collect (keys.zip (db.mget (keys.map c.k))) Table.empty, none)

end Cache

end Gkit.RedisCache
