import Gkit.EventStore.Serial

/-!
# Replaying a stream

A stream without gaps is what comes up to a version followed by what `Load`
returns from the next version on.  Later appends do not change what comes up to
a version that is there.
-/

namespace Gkit.EventStore

open Gkit.Lib Gkit.Store

/-- The rows of one stream, in table order. -/
def stream (streamID : String) (rows : List Event) : List Event :=
  rows.filter fun r => r.streamID = streamID

/-- The events of a stream up to a version. -/
def upTo (streamID : String) (version : ℤ) (rows : List Event) : List Event :=
  (stream streamID rows).filter fun r => r.version ≤ version

theorem stream_append (sid : String) (rows more : List Event) :
    stream sid (rows ++ more) = stream sid rows ++ stream sid more := by
  simp [stream]

theorem Gapless.pairwise {rows : List Event} (h : Gapless rows) (sid : String) :
    (stream sid rows).Pairwise fun a b => a.version < b.version := by
  have hversions : ((stream sid rows).map Event.version).Pairwise (· < ·) := by
    change (versions sid rows).Pairwise (· < ·)
    rw [h sid, List.pairwise_map]
    exact List.pairwise_lt_range.imp fun hlt => by exact_mod_cast hlt
  exact List.pairwise_map.mp hversions

theorem Gapless.nonneg {rows : List Event} (h : Gapless rows) {sid : String} {r : Event}
    (hr : r ∈ stream sid rows) : 0 ≤ r.version :=
  (h.mem_versions.mp (List.mem_map_of_mem hr)).1

/-- `Load` returns the rows in the order in which they were appended. -/
theorem Gapless.eventsFrom_eq {rows : List Event} (h : Gapless rows) (sid : String) (v : ℤ) :
    eventsFrom sid v rows = (stream sid rows).filter fun r => v ≤ r.version := by
  have hfilter : (rows.filter fun r => r.streamID = sid ∧ v ≤ r.version) =
      (stream sid rows).filter fun r => v ≤ r.version := by
    simp only [stream, List.filter_filter]
    congr 1
    funext r
    simp [Bool.and_comm]
  rw [eventsFrom, hfilter]
  apply List.Pairwise.insertionSort_eq
  exact ((h.pairwise sid).imp le_of_lt).filter _

theorem Gapless.eventsFrom_zero {rows : List Event} (h : Gapless rows) (sid : String) :
    eventsFrom sid 0 rows = stream sid rows := by
  rw [h.eventsFrom_eq]
  exact List.filter_eq_self.mpr fun r hr => by simpa using h.nonneg hr

/-- A list in the order of its keys, cut at a key. -/
theorem filter_append_filter {β : Type*} {key : β → ℤ} {l : List β}
    (h : l.Pairwise fun a b => key a < key b) (v : ℤ) :
    l.filter (key · ≤ v) ++ l.filter (v + 1 ≤ key ·) = l := by
  induction l with
  | nil => rfl
  | cons a l ih =>
      obtain ⟨ha, hl⟩ := List.pairwise_cons.mp h
      by_cases hle : key a ≤ v
      · have hnot : ¬v + 1 ≤ key a := by omega
        rw [List.filter_cons_of_pos (by simpa using hle),
          List.filter_cons_of_neg (by simpa using hnot), List.cons_append, ih hl]
      · have hgt : ∀ b ∈ a :: l, v + 1 ≤ key b := by
          intro b hb
          rcases List.mem_cons.mp hb with rfl | hb
          · omega
          · have := ha b hb
            omega
        have hbelow : (a :: l).filter (key · ≤ v) = [] := by
          apply List.filter_eq_nil_iff.mpr
          intro b hb
          have := hgt b hb
          simpa using this
        have habove : (a :: l).filter (v + 1 ≤ key ·) = a :: l :=
          List.filter_eq_self.mpr fun b hb => by simpa using hgt b hb
        rw [hbelow, habove, List.nil_append]

theorem Gapless.foldl_eventsFrom {rows : List Event} (h : Gapless rows) {σ : Type}
    (f : σ → Event → σ) (init : σ) (sid : String) (v : ℤ) :
    (eventsFrom sid (v + 1) rows).foldl f ((upTo sid v rows).foldl f init) =
      (eventsFrom sid 0 rows).foldl f init := by
  rw [h.eventsFrom_zero, h.eventsFrom_eq, ← List.foldl_append, upTo,
    filter_append_filter (h.pairwise sid)]

/-- What comes up to a committed version is not touched by later appends. -/
theorem Gapless.upTo_append {rows more : List Event} (h : Gapless (rows ++ more)) {sid : String}
    {v : ℤ} (hv : v ∈ versions sid rows) : upTo sid v (rows ++ more) = upTo sid v rows := by
  obtain ⟨r, hr, rfl⟩ := List.mem_map.mp hv
  have hpairwise := h.pairwise sid
  rw [stream_append, List.pairwise_append] at hpairwise
  have hnone : (stream sid more).filter (fun r' => r'.version ≤ r.version) = [] := by
    apply List.filter_eq_nil_iff.mpr
    intro r' hr'
    simpa using hpairwise.2.2 r hr r' hr'
  rw [upTo, stream_append, List.filter_append, hnone, List.append_nil, upTo]

end Gkit.EventStore
