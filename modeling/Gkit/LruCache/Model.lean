import Gkit.Lib.Durations
import Gkit.Lib.Lists
import Gkit.Lib.Runs

/-!
# Package `cache`

The cache keeps its entries twice: in a list by recency, the least recently used
one at the back, and in a map from keys to the elements of that list.  Each
method is one critical section at one time.  The janitor calls `deleteExpired`
at times of its own.  The counters are natural numbers where the source has
`uint64`, which would begin again at zero after 2^64 operations.
-/

namespace Gkit.LruCache

open Gkit.Lib

structure Entry (K V : Type) where
  key : K
  value : V
  /-- None for the zero time. -/
  expiresAt : Option ℤ
  deriving DecidableEq

structure Cache (K V : Type) where
  capacity : ℤ
  ttl : ℤ
  list : GoList (Entry K V)
  items : GoMap K ℕ
  hits : ℕ
  misses : ℕ
  evicts : ℕ

variable {K V : Type}

def withTTL (ttl : ℤ) (c : Cache K V) : Cache K V := { c with ttl := ttl }

/-- The constructor `New`; the error is the text it panics with. -/
def newCache (capacity : ℤ) (opts : List (Cache K V → Cache K V)) : Except String (Cache K V) :=
  if capacity < 1 then .error "cache: capacity must be >= 1"
  else .ok (opts.foldl (fun c o => o c) ⟨capacity, 0, .new, Table.empty, 0, 0, 0⟩)

def isExpired (now : ℤ) (e : Entry K V) : Bool :=
  match e.expiresAt with
  | none => false
  | some t => decide (t < now)

def expiry (ttl now : ℤ) : Option ℤ := if ttl = 0 then none else some (now + ttl)

namespace Cache

def newExpiry (c : Cache K V) (now : ℤ) : Option ℤ := expiry c.ttl now

variable [DecidableEq K]

def removeElement (c : Cache K V) (el : ℕ) : Cache K V :=
  match c.list.value el with
  | none => c
  | some e => { c with list := c.list.remove el, items := c.items.delete e.key }

def evictOldest (c : Cache K V) : Cache K V :=
  match c.list.back with
  | none => c
  | some el => { c.removeElement el with evicts := c.evicts + 1 }

def get (c : Cache K V) (now : ℤ) (key : K) : Cache K V × Option V :=
  match c.items.find key with
  | none => ({ c with misses := c.misses + 1 }, none)
  | some el =>
      match c.list.value el with
      | none => (c, none)
      | some e =>
          if isExpired now e then
            ({ c.removeElement el with misses := c.misses + 1 }, none)
          else ({ c with list := c.list.moveToFront el id, hits := c.hits + 1 }, some e.value)

def set (c : Cache K V) (now : ℤ) (key : K) (value : V) : Cache K V :=
  match c.items.find key with
  | some el =>
      { c with
        list := c.list.moveToFront el fun e =>
          { e with value := value, expiresAt := c.newExpiry now } }
  | none =>
      let c := if (c.list.len : ℤ) ≥ c.capacity then c.evictOldest else c
      let (list, el) := c.list.pushFront ⟨key, value, c.newExpiry now⟩
      { c with list := list, items := c.items.insert key el }

def delete (c : Cache K V) (key : K) : Cache K V :=
  match c.items.find key with
  | some el => c.removeElement el
  | none => c

def clear (c : Cache K V) : Cache K V := { c with list := c.list.init, items := Table.empty }

/-- The loop goes from the back to the front and reads the next element before
it removes one. -/
def deleteExpired (c : Cache K V) (now : ℤ) : Cache K V :=
  if c.ttl = 0 then c
  else c.list.elems.rows.foldl
    (fun c x => if isExpired now x.2 then c.removeElement x.1 else c) c

end Cache

/-! ## Runs -/

inductive Op (K V : Type) where
  | get (key : K)
  | set (key : K) (value : V)
  | delete (key : K)
  | clear
  | deleteExpired

/-- What a history remembers of an operation: its time, and of a `Get` whether it
hit. -/
structure Event (K V : Type) where
  time : ℤ
  op : Op K V
  hit : Bool

structure Sys (K V : Type) where
  cache : Cache K V
  clock : ℤ
  log : List (Event K V)

inductive Action (K V : Type) where
  | advance (d : ℕ)
  | op (o : Op K V)

namespace Sys

variable [DecidableEq K]

/-- The cache after an operation, and what a `Get` returned. -/
def perform (c : Cache K V) (now : ℤ) : Op K V → Cache K V × Option V
  | .get key => c.get now key
  | .set key value => (c.set now key value, none)
  | .delete key => (c.delete key, none)
  | .clear => (c.clear, none)
  | .deleteExpired => (c.deleteExpired now, none)

def step (s : Sys K V) : Action K V → Option (Sys K V)
  | .advance d => some { s with clock := s.clock + d }
  | .op o =>
      let (c, res) := perform s.cache s.clock o
      some ⟨c, s.clock, s.log ++ [⟨s.clock, o, res.isSome⟩]⟩

theorem step_op (s : Sys K V) (o : Op K V) :
    s.step (.op o) = some ⟨(perform s.cache s.clock o).1, s.clock,
      s.log ++ [⟨s.clock, o, (perform s.cache s.clock o).2.isSome⟩]⟩ := rfl

end Sys

end Gkit.LruCache
