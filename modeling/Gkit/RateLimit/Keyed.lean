import Gkit.Lib.Maps
import Gkit.RateLimit.Limiter

/-!
# Package `ratelimit`: one bucket for each key

The limiters of the keys live on a heap, and the map holds their addresses.  A
call of `Allow` looks up or creates the limiter of its key and then asks it, at
one time.  `Evict` forgets the limiters that were idle for longer than the
retention time; a key that comes back gets a new one with a full bucket.
-/

namespace Gkit.RateLimit

open Gkit.Lib

structure KeyedEntry where
  limiter : ℕ
  lastSeen : ℤ
  deriving DecidableEq, Repr

structure KeyedLimiter (K : Type) where
  rate : ℚ
  burst : ℤ
  ttl : ℤ
  entries : GoMap K KeyedEntry
  heap : List Limiter

variable {K : Type}

def withKeyTTL (d : ℤ) (kl : KeyedLimiter K) : KeyedLimiter K := { kl with ttl := d }

def newKeyed (rate : ℚ) (burst : ℤ) (opts : List (KeyedLimiter K → KeyedLimiter K)) :
    KeyedLimiter K :=
  opts.foldl (fun kl o => o kl) ⟨rate, burst, 600000 * millisecond, Table.empty, []⟩

namespace KeyedLimiter

variable [DecidableEq K]

def limiterFor (kl : KeyedLimiter K) (now : ℤ) (key : K) : KeyedLimiter K × ℕ :=
  match kl.entries.find key with
  | some e =>
      ({ kl with entries := kl.entries.insert key { e with lastSeen := now } }, e.limiter)
  | none =>
      ({ kl with entries := kl.entries.insert key ⟨kl.heap.length, now⟩
                 heap := kl.heap ++ [Limiter.new kl.rate kl.burst now] }, kl.heap.length)

/-- `AllowN` of the limiter at an address. -/
def allowNAt (kl : KeyedLimiter K) (p : ℕ) (now n : ℤ) : KeyedLimiter K × Bool :=
  match kl.heap[p]? with
  | some l =>
      let (l, ok) := l.allowN now n
      ({ kl with heap := kl.heap.set p l }, ok)
  | none => (kl, false)

def allowN (kl : KeyedLimiter K) (now : ℤ) (key : K) (n : ℤ) : KeyedLimiter K × Bool :=
  let (kl, p) := kl.limiterFor now key
  kl.allowNAt p now n

def allow (kl : KeyedLimiter K) (now : ℤ) (key : K) : KeyedLimiter K × Bool :=
  kl.allowN now key 1

def delete (kl : KeyedLimiter K) (key : K) : KeyedLimiter K :=
  { kl with entries := kl.entries.delete key }

omit [DecidableEq K] in
def evict (kl : KeyedLimiter K) (now : ℤ) : KeyedLimiter K × ℕ :=
  let cutoff := now - kl.ttl
  let kept : GoMap K KeyedEntry := kl.entries.keep fun e => ¬ e.2.lastSeen < cutoff
  ({ kl with entries := kept }, kl.entries.rows.length - kept.rows.length)

end KeyedLimiter

inductive Call (K : Type) where
  | allow (key : K)
  | allowN (key : K) (n : ℤ)
  | evict

def Call.isEvict : Call K → Bool
  | .evict => true
  | _ => false

/-- A call of `Allow` or `AllowN` and what it returned. -/
structure Outcome (K : Type) where
  time : ℤ
  key : K
  amount : ℤ
  ok : Bool

variable [DecidableEq K]

def KeyedLimiter.outcomes (kl : KeyedLimiter K) : List (ℤ × Call K) → List (Outcome K)
  | [] => []
  | (now, .allow key) :: xs =>
      ⟨now, key, 1, (kl.allow now key).2⟩ :: (kl.allow now key).1.outcomes xs
  | (now, .allowN key n) :: xs =>
      ⟨now, key, n, (kl.allowN now key n).2⟩ :: (kl.allowN now key n).1.outcomes xs
  | (now, .evict) :: xs => (kl.evict now).1.outcomes xs

def withoutEvict (xs : List (ℤ × Call K)) : List (ℤ × Call K) := xs.filter fun x => ¬ x.2.isEvict

/-- What was granted to a key, with the times. -/
def grantsTo (key : K) (os : List (Outcome K)) : List (ℤ × ℤ) :=
  (os.filter fun o => o.key = key).map fun o => (o.time, if o.ok then o.amount else 0)

/-! ## The bucket of a key -/

namespace KeyedLimiter

def bucket (kl : KeyedLimiter K) (key : K) : Option Limiter :=
  (kl.entries.find key).bind fun e => kl.heap[e.limiter]?

/-- Every entry has its own limiter, last filled when its key was last seen. -/
structure WF (kl : KeyedLimiter K) : Prop where
  filled : ∀ k e, kl.entries.find k = some e →
    ∃ l, kl.heap[e.limiter]? = some l ∧ l.lastFill = e.lastSeen
  own : ∀ k k' e e', kl.entries.find k = some e → kl.entries.find k' = some e' →
    e.limiter = e'.limiter → k = k'

/-- The limiter that a call for the key uses. -/
def target (kl : KeyedLimiter K) (now : ℤ) (key : K) : Limiter :=
  (kl.bucket key).getD (Limiter.new kl.rate kl.burst now)

structure SameConfig (kl kl' : KeyedLimiter K) : Prop where
  rate : kl'.rate = kl.rate
  burst : kl'.burst = kl.burst
  ttl : kl'.ttl = kl.ttl

/-- `limiterFor` in a well-formed limiter: the entry of the key has an address of
its own, at which its limiter lies. -/
theorem limiterFor_spec {kl : KeyedLimiter K} (h : kl.WF) (now : ℤ) (key : K) :
    ∃ entries heap p, kl.limiterFor now key = ({ kl with entries := entries, heap := heap }, p) ∧
      heap[p]? = some (kl.target now key) ∧
      (∀ k, entries.find k = if k = key then some ⟨p, now⟩ else kl.entries.find k) ∧
      (∀ k e, k ≠ key → kl.entries.find k = some e →
        e.limiter ≠ p ∧ heap[e.limiter]? = kl.heap[e.limiter]?) := by
  cases hfind : kl.entries.find key with
  | some e =>
      obtain ⟨l, hl, -⟩ := h.filled key e hfind
      refine ⟨kl.entries.insert key { e with lastSeen := now }, kl.heap, e.limiter,
        by simp [limiterFor, hfind], by simp [target, bucket, hfind, hl], fun k => ?_, ?_⟩
      · exact GoMap.find_insert ..
      · intro k e' hk he'
        exact ⟨fun heq => hk (h.own k key e' e he' hfind heq), rfl⟩
  | none =>
      refine ⟨kl.entries.insert key ⟨kl.heap.length, now⟩,
        kl.heap ++ [Limiter.new kl.rate kl.burst now],
        kl.heap.length, by simp [limiterFor, hfind], by simp [target, bucket, hfind], fun k => ?_,
        ?_⟩
      · exact GoMap.find_insert ..
      · intro k e' hk he'
        obtain ⟨l, hl, -⟩ := h.filled k e' he'
        have hlt : e'.limiter < kl.heap.length := (List.getElem?_eq_some_iff.mp hl).1
        exact ⟨hlt.ne, List.getElem?_append_left hlt⟩

theorem lastFill_allowN (l : Limiter) (now n : ℤ) : (l.allowN now n).1.lastFill = now := by
  unfold Limiter.allowN
  dsimp only
  split_ifs <;> rfl

/-- A call asks the limiter of its key and leaves the buckets of all others. -/
theorem allowN_spec {kl : KeyedLimiter K} (h : kl.WF) (now : ℤ) (key : K) (n : ℤ) :
    (kl.allowN now key n).2 = ((kl.target now key).allowN now n).2 ∧
      (kl.allowN now key n).1.WF ∧ kl.SameConfig (kl.allowN now key n).1 ∧
      ∀ k, (kl.allowN now key n).1.bucket k =
        if k = key then some ((kl.target now key).allowN now n).1 else kl.bucket k := by
  obtain ⟨entries, heap, p, hfor, hp, hentries, hother⟩ := limiterFor_spec h now key
  have hlt : p < heap.length := (List.getElem?_eq_some_iff.mp hp).1
  have hres : kl.allowN now key n = ({ kl with
      entries := entries, heap := heap.set p ((kl.target now key).allowN now n).1 },
      ((kl.target now key).allowN now n).2) := by
    simp [allowN, hfor, allowNAt, hp]
  rw [hres]
  refine ⟨rfl, ⟨?_, ?_⟩, ⟨rfl, rfl, rfl⟩, ?_⟩
  · intro k e he
    simp only [hentries] at he
    split_ifs at he with hk
    · obtain rfl := Option.some.inj he
      exact ⟨_, List.getElem?_set_self hlt, lastFill_allowN ..⟩
    · obtain ⟨hne, hheap⟩ := hother k e hk he
      obtain ⟨l, hl, hfill⟩ := h.filled k e he
      exact ⟨l, (List.getElem?_set_ne hne.symm).trans (hheap.trans hl), hfill⟩
  · intro k k' e e' he he' heq
    simp only [hentries] at he he'
    split_ifs at he he' with hk hk' hk'
    · rw [hk, hk']
    · obtain rfl := Option.some.inj he
      exact absurd heq.symm (hother k' e' hk' he').1
    · obtain rfl := Option.some.inj he'
      exact absurd heq (hother k e hk he).1
    · exact h.own k k' e e' he he' heq
  · intro k
    simp only [bucket, hentries]
    split_ifs with hk
    · exact List.getElem?_set_self hlt
    · cases hfind : kl.entries.find k with
      | none => rfl
      | some e =>
          obtain ⟨hne, hheap⟩ := hother k e hk hfind
          exact (List.getElem?_set_ne hne.symm).trans hheap

theorem evict_spec {kl : KeyedLimiter K} (h : kl.WF) (now : ℤ) :
    (kl.evict now).1.WF ∧ kl.SameConfig (kl.evict now).1 ∧
      ∀ k, (kl.evict now).1.bucket k =
        (kl.bucket k).filter fun l => ¬ l.lastFill < now - kl.ttl := by
  have hfind : ∀ k, (kl.evict now).1.entries.find k =
      (kl.entries.find k).filter fun e => ¬ e.lastSeen < now - kl.ttl :=
    fun k => GoMap.find_keep kl.entries _ k
  refine ⟨⟨?_, ?_⟩, ⟨rfl, rfl, rfl⟩, ?_⟩
  · intro k e he
    rw [hfind, Option.filter_eq_some_iff] at he
    exact h.filled k e he.1
  · intro k k' e e' he he'
    rw [hfind, Option.filter_eq_some_iff] at he he'
    exact h.own k k' e e' he.1 he'.1
  · intro k
    rw [bucket, hfind, bucket]
    cases hk : kl.entries.find k with
    | none => rfl
    | some e =>
        obtain ⟨l, hl, hfill⟩ := h.filled k e hk
        have hheap : (kl.evict now).1.heap = kl.heap := rfl
        by_cases hidle : e.lastSeen < now - kl.ttl
        · simp [Option.filter, hidle, hl, hfill]
        · simp [Option.filter, hidle, hl, hfill, hheap]

theorem wf_newKeyed (rate : ℚ) (burst ttl : ℤ) :
    (newKeyed rate burst [withKeyTTL ttl] : KeyedLimiter K).WF where
  filled k e he := by simp [newKeyed, withKeyTTL] at he
  own k k' e e' he := by simp [newKeyed, withKeyTTL] at he

theorem bucket_newKeyed (rate : ℚ) (burst ttl : ℤ) (k : K) :
    (newKeyed rate burst [withKeyTTL ttl] : KeyedLimiter K).bucket k = none := rfl

end KeyedLimiter

end Gkit.RateLimit
