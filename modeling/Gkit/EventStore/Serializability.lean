import Gkit.EventStore.Interleaved

/-!
# Concurrent appends are serializable

`Append` takes no lock on the stream it reads.  The primary key is enough: in
every state that interleaved top-level appends reach, crashes and outside
failures included, the committed tables are those of the successful appends run
one after the other in the order of their commits.
-/

namespace Gkit.EventStore

open Gkit.Lib Gkit.Store

variable {V ι : Type}

/-- One `Append` with the server to itself, in a transaction that starts at the
given time; it has to succeed. -/
def appendAlone (codec : Codec V) (req : ι → AppendCall V) (w : World schema Unit ι)
    (p : ι × ℤ) : Option (World schema Unit ι) :=
  match (append codec () .background (req p.1)).solo p.1 (fun _ => ⟨p.2, none⟩) w with
  | some (.ret none, w') => some w'
  | _ => none

/-- The sequential history is what the code does when its appends run one after
the other. -/
theorem Serial.run_appendAlone {codec : Codec V} {req : ι → AppendCall V}
    {cs : List (ι × ℤ)} {rows : List Event} (h : Serial codec req cs rows) :
    ∃ w, run (appendAlone codec req) emptyDB cs = some w ∧
      w.Idle ∧ w.committed () = ⟨rows, []⟩ := by
  induction h with
  | nil => exact ⟨_, rfl, fun _ => rfl, rfl⟩
  | @snoc cs rows docs c t h hne hcheck hdocs ih =>
      obtain ⟨w, hrun, hidle, hcom⟩ := ih
      obtain ⟨w', hsolo, hidle', hcom'⟩ := solo_append_succeeds (c := c) hidle t hne
        (by rw [hcom]; exact hcheck) hdocs
      refine ⟨w', run_append_eq_some.mpr ⟨w, hrun, ?_⟩, hidle', by rw [hcom', hcom]⟩
      simp [run, appendAlone, hsolo]

/-- A client is among the committed ones when its call has returned nil. -/
theorem mem_commits_iff {codec : Codec V} {req : ι → AppendCall V}
    {s : Sys schema Unit ι (Option GoError)} (hs : (outline codec req False).Inv s) (c : ι) :
    c ∈ World.commits s.world.hist ↔ s.prog c = .ret none ∧ (req c).events ≠ [] := by
  obtain ⟨p, hcode, hL⟩ := hs.2 c
  change s.prog c = Phase.code codec (req c) p at hcode
  cases hprog : s.prog c with
  | op o k =>
      exact ⟨fun hmem => absurd hmem (hL.uncommitted (hcode.symm.trans hprog)),
        fun h => nomatch h.1⟩
  | ret r =>
      have hend : (Phase.code codec (req c) p).ended = some (.ret r) := by rw [← hcode, hprog]; rfl
      rcases hL.ended_cases hend with ⟨rfl, hne, -⟩ | ⟨r', rfl, hr⟩ | rfl
      · exact ⟨fun hmem => absurd hmem hL, fun h => absurd hne h.2⟩
      · cases hr
        rw [hL.1]
        simp
      · exact nomatch hcode.symm.trans hprog
  | panic v =>
      have hend : (Phase.code codec (req c) p).ended = some (.panic v) := by
        rw [← hcode, hprog]
        rfl
      rcases hL.ended_cases hend with ⟨-, -, hr⟩ | ⟨r', -, hr⟩ | rfl
      · exact nomatch hr
      · exact nomatch hr
      · exact ⟨fun hmem => absurd hmem hL.1, fun h => nomatch h.1⟩

theorem appends_serializable [DecidableEq ι] (codec : Codec V) (req : ι → AppendCall V)
    {xs : List (Action schema ι)} {s : Sys schema Unit ι (Option GoError)}
    (h : run Sys.step (appends codec req) xs = some s) :
    -- The versions of every stream have no gap and no duplicate.
    (∀ sid, ∃ n : ℕ, versions sid (s.world.committed ()).events =
      (List.range n).map fun i : ℕ => (i : ℤ)) ∧
    -- The committed appends are the ones that have returned nil, each commits once,
    (∀ c, c ∈ World.commits s.world.hist ↔ s.prog c = .ret none ∧ (req c).events ≠ []) ∧
    (World.commits s.world.hist).Nodup ∧
    -- has its events at consecutive versions, in order,
    (∀ c ∈ World.commits s.world.hist, ∃ before after t v docs,
      Marshals codec (req c).events docs ∧ (s.world.committed ()).events =
        before ++ rowsAt (req c).streamID t v docs ++ after) ∧
    -- and one after the other, in commit order, they all succeed and leave the same tables.
    (∃ cs : List (ι × ℤ), cs.map Prod.fst = World.commits s.world.hist ∧
      ∃ w, run (appendAlone codec req) emptyDB cs = some w ∧
        w.committed () = s.world.committed ()) ∧
    -- So no two of them share a stream and a guarded expected version.
    (∀ b ∈ World.commits s.world.hist, ∀ c ∈ World.commits s.world.hist,
      (req b).streamID = (req c).streamID → (req b).expectedVersion = (req c).expectedVersion →
      Guarded (req b).expectedVersion → b = c) := by
  have hinv := (outline_sound codec req (fun hf => hf.elim)).run_inv
    (outline_initial codec req False) (along_of_forall fun _ _ _ hf => hf.elim) h
  obtain ⟨hwf, hsnap, hnodup, cs, hcs, hserial⟩ := hinv.1
  refine ⟨fun sid => ⟨_, hserial.gapless sid⟩, mem_commits_iff hinv, hnodup, ?_, ?_, ?_⟩
  · intro c hc
    obtain ⟨⟨b, t⟩, hp, rfl⟩ := List.mem_map.mp (hcs ▸ hc)
    obtain ⟨before, after, v, docs, hdocs, hrows⟩ := hserial.block _ hp
    exact ⟨before, after, t, v, docs, hdocs, hrows⟩
  · obtain ⟨w, hrun, -, hcom⟩ := hserial.run_appendAlone
    refine ⟨cs, hcs, w, hrun, ?_⟩
    rw [hcom]
    exact congrArg (Tables.mk _) hsnap.symm
  · let R : ι → ι → Prop := fun b c => (req b).streamID = (req c).streamID →
      (req b).expectedVersion = (req c).expectedVersion → Guarded (req b).expectedVersion → b = c
    have hpair : (World.commits s.world.hist).Pairwise R := by
      rw [← hcs, List.pairwise_map]
      exact hserial.pairwise.imp fun hno hsid he hg => absurd hg (hno hsid he)
    have hsymm : Std.Symm R :=
      ⟨fun b c hbc hsid he hg => (hbc hsid.symm he.symm (he ▸ hg)).symm⟩
    exact fun b hb c hc => hpair.forall_of_forall (fun _ _ _ _ _ => rfl) hb hc

/-- Two appends to one stream whose steps overlap; the second one does not ask
for a version. -/
def overlapping : Bool → AppendCall (Option String)
  | false => ⟨"order", [⟨"Placed", some "1", none⟩, ⟨"Paid", some "2", none⟩], expectedVersionNew⟩
  | true => ⟨"order", [⟨"Shipped", some "3", none⟩], expectedVersionAny⟩

def overlappingSteps : List (Action schema Bool) :=
  [false, true, false, false, false, false, true, true, true].map fun c => .step c ⟨0, none⟩

theorem overlapping_serializable :
    ∃ s, run Sys.step (appends textCodec overlapping) overlappingSteps = some s ∧
      World.commits s.world.hist = [false, true] ∧
      ∃ n : ℕ, versions "order" (s.world.committed ()).events =
        (List.range n).map fun i : ℕ => (i : ℤ) := by
  have hsome : (run Sys.step (appends textCodec overlapping) overlappingSteps).isSome = true := by
    decide
  obtain ⟨s, hs⟩ := Option.isSome_iff_exists.mp hsome
  have hcommits : (run Sys.step (appends textCodec overlapping) overlappingSteps).map
      (fun s => World.commits s.world.hist) = some [false, true] := by
    decide
  refine ⟨s, hs, ?_, (appends_serializable textCodec overlapping hs).1 "order"⟩
  simpa [hs] using hcommits

end Gkit.EventStore
