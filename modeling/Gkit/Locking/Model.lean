import Gkit.Lib.Durations
import Gkit.Lib.Errors
import Gkit.Lib.Runs

/-!
# Package `lock`

A lock is a Redis key that stores the token of its holder.  A command either
executes and its reply arrives, or it fails without executing; which of the two
is up to the environment.  Tokens are drawn from a counter, so that each attempt
to acquire has its own.  Keys expire whenever the environment likes.
-/

namespace Gkit.Locking

open Gkit.Lib

/-! ## Redis -/

structure Entry where
  token : ℕ
  /-- The remaining lease in milliseconds, if there is one. -/
  px : Option ℤ
  deriving DecidableEq, Repr

abbrev Store : Type := String → Option Entry

namespace Store

def set (store : Store) (key : String) (e : Option Entry) : Store := Function.update store key e

/-- The lease of `SetArgs`: a positive duration below a millisecond counts as
one, any other that is not positive as none. -/
def lease (ttl : ℤ) : Option ℤ := if 0 < ttl then some (max 1 (ttl / millisecond)) else none

/-- `SET key token NX`; the reply says whether the key was set. -/
def setNX (store : Store) (key : String) (token : ℕ) (ttl : ℤ) : Store × Bool :=
  match store key with
  | some _ => (store, false)
  | none => (store.set key (some ⟨token, lease ttl⟩), true)

def del (store : Store) (key : String) : Store × ℤ :=
  match store key with
  | some _ => (store.set key none, 1)
  | none => (store, 0)

/-- A lease that is not positive deletes the key. -/
def pexpire (store : Store) (key : String) (ms : ℤ) : Store × ℤ :=
  match store key with
  | some e => (store.set key (if 0 < ms then some { e with px := some ms } else none), 1)
  | none => (store, 0)

def holds (store : Store) (key : String) (token : ℕ) : Prop :=
  (store key).map Entry.token = some token

instance (store : Store) (key : String) (token : ℕ) : Decidable (store.holds key token) :=
  inferInstanceAs (Decidable ((store key).map Entry.token = some token))

def releaseScript (store : Store) (key : String) (token : ℕ) : Store × ℤ :=
  if store.holds key token then store.del key else (store, 0)

def renewScript (store : Store) (key : String) (token : ℕ) (ms : ℤ) : Store × ℤ :=
  if store.holds key token then store.pexpire key ms else (store, 0)

end Store

/-! ## The lock handle -/

structure Lock where
  key : String
  token : ℕ
  ttl : ℤ
  deriving DecidableEq, Repr

def errNotAcquired : GoError := .new "lock: not acquired"

def tryAcquire (fault : Option GoError) (store : Store) (token : ℕ) (key : String) (ttl : ℤ) :
    Store × Except GoError Lock :=
  match fault with
  | some err => (store, .error (.wrapping ("lock: acquire " ++ quote key) err))
  | none =>
      match store.setNX key token ttl with
      | (store, true) => (store, .ok ⟨key, token, ttl⟩)
      | (store, false) => (store, .error errNotAcquired)

/-- The second half of `Release`, after the keepalive goroutine has ended. -/
def Lock.release (l : Lock) (fault : Option GoError) (store : Store) : Store × Option GoError :=
  match fault with
  | some err => (store, some (.wrapping ("lock: release " ++ quote l.key) err))
  | none =>
      let (store, n) := store.releaseScript l.key l.token
      if n = 0 then
        (store, some (.new ("lock: release " ++ quote l.key ++
          ": token mismatch (lock expired?)")))
      else (store, none)

/-- One tick of `keepalive`, whose error is dropped. -/
def Lock.renew (l : Lock) (fault : Option GoError) (store : Store) : Store :=
  match fault with
  | some _ => store
  | none => (store.renewScript l.key l.token (l.ttl.tdiv millisecond)).1

/-- The period of the ticker; it has to be positive. -/
def Lock.interval (l : Lock) : ℤ := l.ttl.tdiv 3

/-! ## Any number of clients -/

structure Handle where
  lock : Lock
  /-- The keepalive goroutine still runs. -/
  alive : Bool
  deriving DecidableEq

/-- The handles given out so far stand under their tokens. -/
structure Sys where
  store : Store
  handles : ℕ → Option Handle
  fresh : ℕ

inductive Action where
  | tryAcquire (key : String) (ttl : ℤ) (fault : Option GoError)
  | renew (token : ℕ) (fault : Option GoError)
  /-- The first half of `Release`: stop the keepalive goroutine and wait for it. -/
  | stop (token : ℕ)
  | release (token : ℕ) (fault : Option GoError)
  | expire (key : String)
  deriving DecidableEq

def start : Sys := ⟨fun _ => none, fun _ => none, 0⟩

/-- A new handle.  Where the period of its ticker is not positive, the goroutine
panics before the first tick. -/
def Sys.give (s : Sys) : Except GoError Lock → ℕ → Option Handle
  | .ok l => Function.update s.handles s.fresh (some ⟨l, decide (0 < l.interval)⟩)
  | .error _ => s.handles

def Sys.step (s : Sys) : Action → Option Sys
  | .tryAcquire key ttl fault =>
      let (store, res) := Locking.tryAcquire fault s.store s.fresh key ttl
      some ⟨store, s.give res, s.fresh + 1⟩
  | .renew token fault =>
      (s.handles token).bind fun h =>
        if h.alive then some { s with store := h.lock.renew fault s.store } else none
  | .stop token =>
      (s.handles token).map fun h =>
        { s with handles := Function.update s.handles token (some { h with alive := false }) }
  | .release token fault =>
      (s.handles token).bind fun h =>
        if h.alive then none else some { s with store := (h.lock.release fault s.store).1 }
  | .expire key => some { s with store := s.store.set key none }

end Gkit.Locking
