import Gkit.RateLimit.Keyed

/-!
# Isolation of keys

Callers look up the limiter of their key under the lock of the map and ask it
after that, so entries may come and go between the two.  The run without the
calls for other keys mirrors the whole run: the limiters that were created for
the key correspond to each other, in the order in which they were created, and
nobody else holds the address of one.
-/

namespace Gkit.RateLimit

open Gkit.Lib

/-- A call of `Allow` or `AllowN`. -/
inductive Request (K : Type) where
  | allow (key : K)
  | allowN (key : K) (n : ℤ)

def Request.key {K : Type} : Request K → K
  | .allow key => key
  | .allowN key _ => key

def Request.amount {K : Type} : Request K → ℤ
  | .allow _ => 1
  | .allowN _ n => n

inductive Phase where
  | idle
  | holding (p : ℕ)
  | returned (ok : Bool)
  deriving DecidableEq, Repr

structure Server (K ι : Type) where
  limiter : KeyedLimiter K
  phase : ι → Phase

/-- `lookup` and `ask` are the two sections of a call. -/
inductive Action (K ι : Type) where
  | lookup (c : ι)
  | ask (c : ι)
  | delete (key : K)
  | evict

variable {K ι : Type} [DecidableEq K] [DecidableEq ι]

/-- One section, at the time that comes with it. -/
def Server.step (calls : ι → Request K) (s : Server K ι) : ℤ × Action K ι → Option (Server K ι)
  | (now, .lookup c) =>
      match s.phase c with
      | .idle =>
          let (kl, p) := s.limiter.limiterFor now (calls c).key
          some ⟨kl, Function.update s.phase c (.holding p)⟩
      | _ => none
  | (now, .ask c) =>
      match s.phase c with
      | .holding p =>
          let (kl, ok) := s.limiter.allowNAt p now (calls c).amount
          some ⟨kl, Function.update s.phase c (.returned ok)⟩
      | _ => none
  | (_, .delete key) => some { s with limiter := s.limiter.delete key }
  | (now, .evict) => some { s with limiter := (s.limiter.evict now).1 }

/-- The action is a part of a call on another key. -/
def Action.foreign (calls : ι → Request K) (key : K) : Action K ι → Bool
  | .lookup c => (calls c).key ≠ key
  | .ask c => (calls c).key ≠ key
  | .delete key' => key' ≠ key
  | .evict => false

def erase (calls : ι → Request K) (key : K) (xs : List (ℤ × Action K ι)) :
    List (ℤ × Action K ι) :=
  xs.filter fun x => ¬ x.2.foreign calls key

/-- A new limiter, with its options, and callers that have not called yet. -/
def serve (rate : ℚ) (burst : ℤ) (ttls : List ℤ) : Server K ι :=
  ⟨newKeyed rate burst (ttls.map withKeyTTL), fun _ => .idle⟩

/-! ## What a step can do -/

/-- The steps of `Server`, with what `limiterFor` and `AllowN` do spelled out. -/
inductive Effect (calls : ι → Request K) (s : Server K ι) : ℤ × Action K ι → Server K ι → Prop where
  | found {now : ℤ} {c : ι} {e : KeyedEntry} (hc : s.phase c = .idle)
      (he : s.limiter.entries.find (calls c).key = some e) :
      Effect calls s (now, .lookup c)
        ⟨{ s.limiter with
            entries := s.limiter.entries.insert (calls c).key { e with lastSeen := now } },
          Function.update s.phase c (.holding e.limiter)⟩
  | created {now : ℤ} {c : ι} (hc : s.phase c = .idle)
      (he : s.limiter.entries.find (calls c).key = none) :
      Effect calls s (now, .lookup c)
        ⟨{ s.limiter with
            entries := s.limiter.entries.insert (calls c).key ⟨s.limiter.heap.length, now⟩
            heap := s.limiter.heap ++ [Limiter.new s.limiter.rate s.limiter.burst now] },
          Function.update s.phase c (.holding s.limiter.heap.length)⟩
  | asked {now : ℤ} {c : ι} {p : ℕ} {l : Limiter} (hc : s.phase c = .holding p)
      (hl : s.limiter.heap[p]? = some l) :
      Effect calls s (now, .ask c)
        ⟨{ s.limiter with heap := s.limiter.heap.set p (l.allowN now (calls c).amount).1 },
          Function.update s.phase c (.returned (l.allowN now (calls c).amount).2)⟩
  | dangling {now : ℤ} {c : ι} {p : ℕ} (hc : s.phase c = .holding p)
      (hl : s.limiter.heap[p]? = none) :
      Effect calls s (now, .ask c) { s with phase := Function.update s.phase c (.returned false) }
  | deleted {now : ℤ} {key : K} :
      Effect calls s (now, .delete key) { s with limiter := s.limiter.delete key }
  | evicted {now : ℤ} :
      Effect calls s (now, .evict) { s with limiter := (s.limiter.evict now).1 }

section Steps

variable {calls : ι → Request K} {s s' t : Server K ι} {x : ℤ × Action K ι}

theorem effect_of_step (h : s.step calls x = some s') : Effect calls s x s' := by
  obtain ⟨now, x⟩ := x
  cases x with
  | lookup c =>
      simp only [Server.step] at h
      split at h
      · rename_i hc
        cases he : s.limiter.entries.find (calls c).key with
        | some e =>
            simp only [KeyedLimiter.limiterFor, he] at h
            cases h
            exact .found hc he
        | none =>
            simp only [KeyedLimiter.limiterFor, he] at h
            cases h
            exact .created hc he
      · cases h
  | ask c =>
      simp only [Server.step] at h
      split at h
      · rename_i p hc
        cases hl : s.limiter.heap[p]? with
        | some l =>
            simp only [KeyedLimiter.allowNAt, hl] at h
            cases h
            exact .asked hc hl
        | none =>
            simp only [KeyedLimiter.allowNAt, hl] at h
            cases h
            exact .dangling hc hl
      · cases h
  | delete key =>
      cases h
      exact .deleted
  | evict =>
      cases h
      exact .evicted

theorem step_of_effect (h : Effect calls s x s') : s.step calls x = some s' := by
  cases h with
  | found hc he => simp only [Server.step, hc, KeyedLimiter.limiterFor, he]
  | created hc he => simp only [Server.step, hc, KeyedLimiter.limiterFor, he]
  | asked hc hl => simp only [Server.step, hc, KeyedLimiter.allowNAt, hl]
  | dangling hc hl => simp only [Server.step, hc, KeyedLimiter.allowNAt, hl]
  | deleted => rfl
  | evicted => rfl

/-! ## Corresponding addresses -/

/-- The entry of the second map is that of the first, at the corresponding
address. -/
def EntryAt (addr : List ℕ) : Option KeyedEntry → Option KeyedEntry → Prop
  | none, none => True
  | some e, some e' => addr[e'.limiter]? = some e.limiter ∧ e'.lastSeen = e.lastSeen
  | _, _ => False

def PhaseAt (addr : List ℕ) : Phase → Phase → Prop
  | .idle, .idle => True
  | .holding p, .holding i => addr[i]? = some p
  | .returned ok, .returned ok' => ok' = ok
  | _, _ => False

/-- The second server has served the calls on the key only.  Its limiters lie in
the first one at the addresses `addr`, which belong to the key alone. -/
structure Mirrors (calls : ι → Request K) (key : K) (addr : List ℕ) (s t : Server K ι) :
    Prop where
  config : s.limiter.SameConfig t.limiter
  nodup : addr.Nodup
  length : addr.length = t.limiter.heap.length
  heap : ∀ i p : ℕ, addr[i]? = some p →
    ∃ l, s.limiter.heap[p]? = some l ∧ t.limiter.heap[i]? = some l
  entry : EntryAt addr (s.limiter.entries.find key) (t.limiter.entries.find key)
  phase : ∀ c, (calls c).key = key → PhaseAt addr (s.phase c) (t.phase c)
  entries : ∀ k e, k ≠ key → s.limiter.entries.find k = some e →
    e.limiter ∉ addr ∧ e.limiter < s.limiter.heap.length
  phases : ∀ c p, (calls c).key ≠ key → s.phase c = .holding p →
    p ∉ addr ∧ p < s.limiter.heap.length

omit [DecidableEq ι] in
theorem mirrors_serve (calls : ι → Request K) (key : K) (rate : ℚ) (burst : ℤ) (ttls : List ℤ) :
    Mirrors calls key [] (serve rate burst ttls) (serve rate burst ttls) := by
  have hempty : (newKeyed rate burst (ttls.map withKeyTTL) : KeyedLimiter K).entries =
      Table.empty ∧ (newKeyed rate burst (ttls.map withKeyTTL) : KeyedLimiter K).heap = [] := by
    unfold newKeyed
    generalize 600000 * millisecond = ttl
    induction ttls generalizing ttl with
    | nil => exact ⟨rfl, rfl⟩
    | cons d ttls ih => exact ih d
  refine ⟨⟨rfl, rfl, rfl⟩, List.nodup_nil, ?_, fun i p hp => by simp at hp, ?_, fun _ _ => trivial,
    fun k e _ he => ?_, fun c p _ hp => nomatch hp⟩
  · change 0 = (newKeyed rate burst (ttls.map withKeyTTL) : KeyedLimiter K).heap.length
    rw [hempty.2]
    rfl
  · change EntryAt [] ((newKeyed rate burst (ttls.map withKeyTTL)).entries.find key)
      ((newKeyed rate burst (ttls.map withKeyTTL)).entries.find key)
    rw [hempty.1]
    trivial
  · change (newKeyed rate burst (ttls.map withKeyTTL)).entries.find k = some e at he
    rw [hempty.1] at he
    cases he

theorem EntryAt.append {addr : List ℕ} {e e' : Option KeyedEntry} (h : EntryAt addr e e') (p : ℕ) :
    EntryAt (addr ++ [p]) e e' := by
  cases e <;> cases e' <;> try exact h
  have hlt := (List.getElem?_eq_some_iff.mp h.1).1
  exact ⟨(List.getElem?_append_left hlt).trans h.1, h.2⟩

theorem PhaseAt.append {addr : List ℕ} {f f' : Phase} (h : PhaseAt addr f f') (p : ℕ) :
    PhaseAt (addr ++ [p]) f f' := by
  cases f <;> cases f' <;> try exact h
  have hlt := (List.getElem?_eq_some_iff.mp h).1
  exact (List.getElem?_append_left hlt).trans h

theorem EntryAt.eq_none {addr : List ℕ} {e' : Option KeyedEntry} (h : EntryAt addr none e') :
    e' = none := by
  cases e' with
  | none => rfl
  | some e' => exact h.elim

theorem EntryAt.exists_some {addr : List ℕ} {e : KeyedEntry} {e' : Option KeyedEntry}
    (h : EntryAt addr (some e) e') :
    ∃ f, e' = some f ∧ addr[f.limiter]? = some e.limiter ∧ f.lastSeen = e.lastSeen := by
  cases e' with
  | none => exact h.elim
  | some f => exact ⟨f, rfl, h⟩

theorem PhaseAt.eq_idle {addr : List ℕ} {f : Phase} (h : PhaseAt addr .idle f) : f = .idle := by
  cases f with
  | idle => rfl
  | holding | returned => exact h.elim

theorem PhaseAt.exists_holding {addr : List ℕ} {p : ℕ} {f : Phase}
    (h : PhaseAt addr (.holding p) f) : ∃ i, f = .holding i ∧ addr[i]? = some p := by
  cases f with
  | holding i => exact ⟨i, rfl, h⟩
  | idle | returned => exact h.elim

/-! ## Updates of the two servers

An update for the key is made on both sides, at corresponding addresses, and one
for another key on the first side only. -/

namespace Server

def setPhase (s : Server K ι) (c : ι) (f : Phase) : Server K ι :=
  { s with phase := Function.update s.phase c f }

def setEntries (s : Server K ι) (entries : GoMap K KeyedEntry) : Server K ι :=
  { s with limiter := { s.limiter with entries := entries } }

def setHeap (s : Server K ι) (heap : List Limiter) : Server K ι :=
  { s with limiter := { s.limiter with heap := heap } }

end Server

section Updates

variable {key : K} {addr : List ℕ}

theorem Mirrors.setPhase_own (h : Mirrors calls key addr s t) {c : ι} (hc : (calls c).key = key)
    {f f' : Phase} (hf : PhaseAt addr f f') :
    Mirrors calls key addr (s.setPhase c f) (t.setPhase c f') := by
  refine { h with phase := fun b hb => ?_, phases := fun b p hb hp => ?_ }
  · by_cases hne : b = c
    · subst hne
      simpa only [Server.setPhase, Function.update_self] using hf
    · simpa only [Server.setPhase, Function.update_of_ne hne] using h.phase b hb
  · have hne : b ≠ c := fun heq => hb (heq ▸ hc)
    exact h.phases b p hb ((Function.update_of_ne hne _ _).symm.trans hp)

theorem Mirrors.setPhase_other (h : Mirrors calls key addr s t) {c : ι}
    (hc : (calls c).key ≠ key) {f : Phase}
    (hf : ∀ p, f = .holding p → p ∉ addr ∧ p < s.limiter.heap.length) :
    Mirrors calls key addr (s.setPhase c f) t := by
  refine { h with phase := fun b hb => ?_, phases := fun b p hb hp => ?_ }
  · have hne : b ≠ c := fun heq => hc (heq ▸ hb)
    simpa only [Server.setPhase, Function.update_of_ne hne] using h.phase b hb
  · by_cases hne : b = c
    · subst hne
      exact hf p (by simpa only [Server.setPhase, Function.update_self] using hp)
    · exact h.phases b p hb ((Function.update_of_ne hne _ _).symm.trans hp)

omit [DecidableEq ι] in
theorem Mirrors.setEntries (h : Mirrors calls key addr s t) (entries entries' : GoMap K KeyedEntry)
    (hown : EntryAt addr (entries.find key) (entries'.find key))
    (hother : ∀ k e, k ≠ key → entries.find k = some e →
      e.limiter ∉ addr ∧ e.limiter < s.limiter.heap.length) :
    Mirrors calls key addr (s.setEntries entries) (t.setEntries entries') :=
  { h with
    config := ⟨h.config.rate, h.config.burst, h.config.ttl⟩
    entry := hown
    entries := hother }

omit [DecidableEq ι] in
theorem Mirrors.insert_own (h : Mirrors calls key addr s t) (e e' : KeyedEntry)
    (he : EntryAt addr (some e) (some e')) :
    Mirrors calls key addr (s.setEntries (s.limiter.entries.insert key e))
      (t.setEntries (t.limiter.entries.insert key e')) := by
  refine h.setEntries _ _ ?_ fun k e'' hk he'' => h.entries k e'' hk ?_
  · simpa only [GoMap.find_insert, if_true] using he
  · rwa [GoMap.find_insert, if_neg hk] at he''

omit [DecidableEq ι] in
theorem Mirrors.insert_other (h : Mirrors calls key addr s t) {k : K} (hk : k ≠ key)
    (e : KeyedEntry) (he : e.limiter ∉ addr ∧ e.limiter < s.limiter.heap.length) :
    Mirrors calls key addr (s.setEntries (s.limiter.entries.insert k e)) t := by
  refine h.setEntries _ t.limiter.entries ?_ fun k' e' hk' he' => ?_
  · rw [GoMap.find_insert, if_neg hk.symm]
    exact h.entry
  · rw [GoMap.find_insert] at he'
    split_ifs at he'
    · exact Option.some.inj he' ▸ he
    · exact h.entries k' e' hk' he'

omit [DecidableEq ι] in
theorem Mirrors.lt_heap (h : Mirrors calls key addr s t) {p : ℕ} (hp : p ∈ addr) :
    p < s.limiter.heap.length := by
  obtain ⟨i, hi⟩ := List.mem_iff_getElem?.mp hp
  obtain ⟨l, hl, -⟩ := h.heap i p hi
  exact (List.getElem?_eq_some_iff.mp hl).1

omit [DecidableEq ι] in
theorem Mirrors.heap_notMem (h : Mirrors calls key addr s t) : s.limiter.heap.length ∉ addr :=
  fun hmem => (h.lt_heap hmem).ne rfl

omit [DecidableEq ι] in
/-- A limiter of another key. -/
theorem Mirrors.alloc_other (h : Mirrors calls key addr s t) (l : Limiter) :
    Mirrors calls key addr (s.setHeap (s.limiter.heap ++ [l])) t := by
  have hlonger : s.limiter.heap.length < (s.limiter.heap ++ [l]).length := by simp
  refine { h with
    config := ⟨h.config.rate, h.config.burst, h.config.ttl⟩
    heap := fun i p hp => ?_
    entries := fun k e hk he => ⟨(h.entries k e hk he).1, (h.entries k e hk he).2.trans hlonger⟩
    phases := fun c p hc hp => ⟨(h.phases c p hc hp).1, (h.phases c p hc hp).2.trans hlonger⟩ }
  obtain ⟨l', hl', hi⟩ := h.heap i p hp
  exact ⟨l', (List.getElem?_append_left (h.lt_heap (List.mem_of_getElem? hp))).trans hl', hi⟩

omit [DecidableEq ι] in
/-- A new limiter of the key, at an address that nobody has. -/
theorem Mirrors.alloc_own (h : Mirrors calls key addr s t) (l : Limiter) :
    Mirrors calls key (addr ++ [s.limiter.heap.length]) (s.setHeap (s.limiter.heap ++ [l]))
      (t.setHeap (t.limiter.heap ++ [l])) := by
  have hlength : (s.limiter.heap ++ [l]).length = s.limiter.heap.length + 1 := by simp
  have hkeep : ∀ {p}, p ∉ addr ∧ p < s.limiter.heap.length →
      p ∉ addr ++ [s.limiter.heap.length] ∧ p < (s.limiter.heap ++ [l]).length := by
    rintro p ⟨hnot, hlt⟩
    refine ⟨?_, hlength ▸ hlt.trans (Nat.lt_succ_self _)⟩
    rw [List.mem_append, List.mem_singleton]
    exact not_or.mpr ⟨hnot, hlt.ne⟩
  refine ⟨⟨h.config.rate, h.config.burst, h.config.ttl⟩,
    List.nodup_append_comm.mp (List.nodup_cons.mpr ⟨h.heap_notMem, h.nodup⟩), ?_,
    fun i p hp => ?_, h.entry.append _, fun c hc => (h.phase c hc).append _,
    fun k e hk he => hkeep (h.entries k e hk he), fun c p hc hp => hkeep (h.phases c p hc hp)⟩
  · simp [Server.setHeap, h.length]
  · rcases Nat.lt_or_ge i addr.length with hi | hi
    · rw [List.getElem?_append_left hi] at hp
      obtain ⟨l', hl', hi'⟩ := h.heap i p hp
      exact ⟨l', (List.getElem?_append_left (h.lt_heap (List.mem_of_getElem? hp))).trans hl',
        (List.getElem?_append_left (h.length ▸ hi)).trans hi'⟩
    · have hlast := (List.getElem?_eq_some_iff.mp hp).1
      rw [List.length_append, List.length_singleton] at hlast
      obtain rfl : i = addr.length := by omega
      obtain rfl : s.limiter.heap.length = p := by simpa using hp
      exact ⟨l, by simp [Server.setHeap], by simp [Server.setHeap, h.length]⟩

omit [DecidableEq ι] in
theorem Mirrors.put_other (h : Mirrors calls key addr s t) {p : ℕ} (hp : p ∉ addr) (l : Limiter) :
    Mirrors calls key addr (s.setHeap (s.limiter.heap.set p l)) t := by
  refine { h with
    config := ⟨h.config.rate, h.config.burst, h.config.ttl⟩
    heap := fun i q hq => ?_
    entries := fun k e hk he => by simpa [Server.setHeap] using h.entries k e hk he
    phases := fun c q hc hq => by simpa [Server.setHeap] using h.phases c q hc hq }
  obtain ⟨l', hl', hi⟩ := h.heap i q hq
  have hne : p ≠ q := fun heq => hp (heq ▸ List.mem_of_getElem? hq)
  exact ⟨l', (List.getElem?_set_ne hne).trans hl', hi⟩

omit [DecidableEq ι] in
theorem Mirrors.put_own (h : Mirrors calls key addr s t) {i p : ℕ} (hi : addr[i]? = some p)
    (l : Limiter) :
    Mirrors calls key addr (s.setHeap (s.limiter.heap.set p l))
      (t.setHeap (t.limiter.heap.set i l)) := by
  obtain ⟨l₀, hl₀, hl₀'⟩ := h.heap i p hi
  refine { h with
    config := ⟨h.config.rate, h.config.burst, h.config.ttl⟩
    length := by simpa [Server.setHeap] using h.length
    heap := fun j q hq => ?_
    entries := fun k e hk he => by simpa [Server.setHeap] using h.entries k e hk he
    phases := fun c q hc hq => by simpa [Server.setHeap] using h.phases c q hc hq }
  by_cases hj : j = i
  · subst hj
    obtain rfl : p = q := Option.some.inj (hi.symm.trans hq)
    exact ⟨l, List.getElem?_set_self (List.getElem?_eq_some_iff.mp hl₀).1,
      List.getElem?_set_self (List.getElem?_eq_some_iff.mp hl₀').1⟩
  · -- the address of one limiter of the key is not that of another one
    have hne : p ≠ q := by
      rintro rfl
      exact hj ((List.getElem?_inj (List.getElem?_eq_some_iff.mp hq).1 h.nodup).mp
        (hq.trans hi.symm))
    obtain ⟨l', hl', hj'⟩ := h.heap j q hq
    exact ⟨l', (List.getElem?_set_ne hne).trans hl',
      (List.getElem?_set_ne (Ne.symm hj)).trans hj'⟩

/-- A part of a call on another key changes nothing that the key sees. -/
theorem Mirrors.foreign (h : Mirrors calls key addr s t) (heffect : Effect calls s x s')
    (hx : x.2.foreign calls key = true) : Mirrors calls key addr s' t := by
  cases heffect with
  | @found now c e hc he =>
      have hkey : (calls c).key ≠ key := by simpa [Action.foreign] using hx
      have hapart := h.entries _ e hkey he
      refine (h.insert_other hkey { e with lastSeen := now } hapart).setPhase_other hkey ?_
      rintro p ⟨rfl⟩
      exact hapart
  | @created now c hc he =>
      have hkey : (calls c).key ≠ key := by simpa [Action.foreign] using hx
      have hgrown := h.alloc_other (Limiter.new s.limiter.rate s.limiter.burst now)
      have hapart : s.limiter.heap.length ∉ addr ∧ s.limiter.heap.length <
          (s.limiter.heap ++ [Limiter.new s.limiter.rate s.limiter.burst now]).length :=
        ⟨h.heap_notMem, by simp⟩
      refine (hgrown.insert_other hkey ⟨_, now⟩ hapart).setPhase_other hkey ?_
      rintro p ⟨rfl⟩
      exact hapart
  | @asked now c p l hc hl =>
      have hkey : (calls c).key ≠ key := by simpa [Action.foreign] using hx
      exact (h.put_other (h.phases c p hkey hc).1 _).setPhase_other hkey (by simp)
  | @dangling now c p hc hl =>
      have hkey : (calls c).key ≠ key := by simpa [Action.foreign] using hx
      exact h.setPhase_other hkey (by simp)
  | @deleted now k =>
      have hkey : k ≠ key := by simpa [Action.foreign] using hx
      refine h.setEntries _ t.limiter.entries ?_ fun k' e hk' he => ?_
      · rw [GoMap.find_delete, if_neg hkey.symm]
        exact h.entry
      · rw [GoMap.find_delete] at he
        split_ifs at he
        exact h.entries k' e hk' he
  | evicted => simp [Action.foreign] at hx

/-- An eviction keeps an entry of the key on both sides or on neither. -/
theorem EntryAt.filter {e e' : Option KeyedEntry} (h : EntryAt addr e e') (cutoff : ℤ) :
    EntryAt addr (e.filter fun e => ¬ e.lastSeen < cutoff)
      (e'.filter fun e => ¬ e.lastSeen < cutoff) := by
  cases e with
  | none =>
      rw [h.eq_none]
      trivial
  | some e =>
      obtain ⟨f, rfl, haddr, hseen⟩ := h.exists_some
      by_cases hidle : e.lastSeen < cutoff
      · simp [Option.filter, hseen, hidle, EntryAt]
      · simp [Option.filter, hseen, hidle, EntryAt, haddr]

/-- A part of a call on the key, or an eviction, goes the same way without the
others. -/
theorem Mirrors.own (h : Mirrors calls key addr s t) (heffect : Effect calls s x s')
    (hx : x.2.foreign calls key = false) :
    ∃ t' addr', Effect calls t x t' ∧ Mirrors calls key addr' s' t' := by
  have hentry := h.entry
  cases heffect with
  | @found now c e hc he =>
      obtain rfl : (calls c).key = key := by simpa [Action.foreign] using hx
      have hphase := h.phase c rfl
      rw [hc] at hphase
      rw [he] at hentry
      obtain ⟨e', he', haddr, -⟩ := hentry.exists_some
      have hinserted := h.insert_own { e with lastSeen := now } { e' with lastSeen := now }
        ⟨haddr, rfl⟩
      exact ⟨_, addr, .found hphase.eq_idle he', hinserted.setPhase_own rfl haddr⟩
  | @created now c hc he =>
      obtain rfl : (calls c).key = key := by simpa [Action.foreign] using hx
      have hphase := h.phase c rfl
      rw [hc] at hphase
      rw [he] at hentry
      have hnew : (addr ++ [s.limiter.heap.length])[t.limiter.heap.length]? =
          some s.limiter.heap.length := by
        rw [← h.length]
        simp
      refine ⟨_, addr ++ [s.limiter.heap.length],
        .created hphase.eq_idle hentry.eq_none, ?_⟩
      rw [h.config.rate, h.config.burst]
      have hgrown := h.alloc_own (Limiter.new s.limiter.rate s.limiter.burst now)
      have hinserted := hgrown.insert_own ⟨s.limiter.heap.length, now⟩
        ⟨t.limiter.heap.length, now⟩ ⟨hnew, rfl⟩
      exact hinserted.setPhase_own rfl hnew
  | @asked now c p l hc hl =>
      have hkey : (calls c).key = key := by simpa [Action.foreign] using hx
      have hphase := h.phase c hkey
      rw [hc] at hphase
      obtain ⟨i, hc', hi⟩ := hphase.exists_holding
      obtain ⟨l', hl', hi'⟩ := h.heap i p hi
      obtain rfl : l' = l := Option.some.inj (hl'.symm.trans hl)
      exact ⟨_, addr, .asked hc' hi', (h.put_own hi _).setPhase_own hkey rfl⟩
  | @dangling now c p hc hl =>
      have hkey : (calls c).key = key := by simpa [Action.foreign] using hx
      have hphase := h.phase c hkey
      rw [hc] at hphase
      obtain ⟨i, -, hi⟩ := hphase.exists_holding
      obtain ⟨l, hl', -⟩ := h.heap i p hi
      cases hl.symm.trans hl'
  | @deleted now k =>
      obtain rfl : k = key := by simpa [Action.foreign] using hx
      refine ⟨_, addr, .deleted, h.setEntries _ _ ?_ fun k' e hk he => h.entries k' e hk ?_⟩
      · rw [GoMap.find_delete, GoMap.find_delete, if_pos rfl, if_pos rfl]
        trivial
      · rwa [GoMap.find_delete, if_neg hk] at he
  | @evicted now =>
      refine ⟨_, addr, .evicted, h.setEntries _ _ ?_ fun k e hk he => h.entries k e hk ?_⟩
      · rw [GoMap.find_keep, GoMap.find_keep, h.config.ttl]
        exact hentry.filter (now - s.limiter.ttl)
      · rw [GoMap.find_keep, Option.filter_eq_some_iff] at he
        exact he.1

end Updates

theorem Mirrors.run {key : K} {addr : List ℕ} (h : Mirrors calls key addr s t)
    {xs : List (ℤ × Action K ι)} (hrun : Lib.run (Server.step calls) s xs = some s') :
    ∃ t' addr', Lib.run (Server.step calls) t (erase calls key xs) = some t' ∧
      Mirrors calls key addr' s' t' := by
  induction xs generalizing s t addr with
  | nil =>
      cases hrun
      exact ⟨t, addr, rfl, h⟩
  | cons x xs ih =>
      obtain ⟨s₁, hstep, hrest⟩ := run_cons_eq_some.mp hrun
      have heffect := effect_of_step hstep
      cases hx : x.2.foreign calls key with
      | true =>
          obtain ⟨t', addr', hrun', h'⟩ := ih (h.foreign heffect hx) hrest
          exact ⟨t', addr', by simpa [erase, hx] using hrun', h'⟩
      | false =>
          obtain ⟨t₁, addr₁, heffect', h₁⟩ := h.own heffect hx
          obtain ⟨t', addr', hrun', h'⟩ := ih h₁ hrest
          refine ⟨t', addr', ?_, h'⟩
          have herase : erase calls key (x :: xs) = x :: erase calls key xs := by
            simp [erase, hx]
          rw [herase]
          exact run_cons_eq_some.mpr ⟨t₁, step_of_effect heffect', hrun'⟩

end Steps

/-- What a caller has been told. -/
def Server.result (s : Server K ι) (c : ι) : Option Bool :=
  match s.phase c with
  | .returned ok => some ok
  | _ => none

/-- Without the calls on other keys every call on the key ends as it did. -/
theorem other_keys_irrelevant (calls : ι → Request K) (key : K) (rate : ℚ) (burst : ℤ)
    (ttls : List ℤ) {xs : List (ℤ × Action K ι)} {s : Server K ι}
    (h : run (Server.step calls) (serve rate burst ttls) xs = some s) :
    ∃ t, run (Server.step calls) (serve rate burst ttls) (erase calls key xs) = some t ∧
      ∀ c, (calls c).key = key → t.result c = s.result c := by
  obtain ⟨t, addr, hrun, hmirrors⟩ := (mirrors_serve calls key rate burst ttls).run h
  refine ⟨t, hrun, fun c hc => ?_⟩
  have hphase := hmirrors.phase c hc
  unfold Server.result
  cases hs : s.phase c <;> cases ht : t.phase c <;> rw [hs, ht] at hphase <;>
    first | exact hphase.elim | rfl | exact congrArg some hphase

/-- Two calls for one key around two calls for another one, whose entry is deleted
while the second of them holds its limiter, and an eviction. -/
def twoKeys : Fin 4 → Request String
  | 0 => .allow "a"
  | 1 => .allow "b"
  | 2 => .allowN "b" 2
  | 3 => .allow "a"

def twoKeysRun : List (ℤ × Action String (Fin 4)) :=
  [(0, .lookup 1), (0, .lookup 0), (1, .ask 1), (1, .lookup 2), (2, .delete "b"), (2, .ask 0),
    (3, .evict), (3, .ask 2), (4, .lookup 3), (4, .ask 3)]

theorem second_key_erased :
    ∃ s t, run (Server.step twoKeys) (serve 1 1 [5]) twoKeysRun = some s ∧
      run (Server.step twoKeys) (serve 1 1 [5]) (erase twoKeys "a" twoKeysRun) = some t ∧
      (erase twoKeys "a" twoKeysRun).length = 5 ∧ s.result 0 = some true ∧
      s.result 3 = some false ∧ t.result 0 = s.result 0 ∧ t.result 3 = s.result 3 := by
  have hresults : (run (Server.step twoKeys) (serve 1 1 [5]) twoKeysRun).map
      (fun s => (s.result 0, s.result 3)) = some (some true, some false) := by
    decide +kernel
  obtain ⟨s, hs, hends⟩ := Option.map_eq_some_iff.mp hresults
  obtain ⟨t, ht, hsame⟩ := other_keys_irrelevant twoKeys "a" 1 1 [5] hs
  exact ⟨s, t, hs, ht, by decide, (Prod.mk.inj hends).1, (Prod.mk.inj hends).2, hsame 0 rfl,
    hsame 3 rfl⟩

end Gkit.RateLimit
