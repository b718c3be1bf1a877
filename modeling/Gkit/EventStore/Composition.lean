import Gkit.EventStore.Callers

/-!
# Composing the methods of the store in one transaction

`Append` works on the caller's transaction and the other methods on the pool.
A caller therefore does not read the events it has just appended, and a
snapshot it saves stays when the events it was taken from are rolled back.  The
methods compose for callers that read only streams they have not touched and
that commit once they have saved a snapshot.  The callers here come one after the
other.  That they commit their snapshots is sufficient and not necessary: a caller
that fails may have saved a snapshot that was there already.
-/

namespace Gkit.EventStore

open Gkit.Lib Gkit.Store

variable {V ι : Type}

/-- A read that succeeds returns what the caller's own view holds, as long as
there is one: a transaction in which a statement has failed has none. -/
def ReadsOwn (env : ℕ → Tick schema) (t : Tx Unit) : StoreCall V ι → Prop
  | ⟨.load sid v, r, w, _⟩ => (env w.hist.length).fault = none →
      ∀ x, w.txs t.id = some x → x.aborted = false →
        r = loadReply sid v (.ok (eventsFrom sid v (w.view x).events))
  | ⟨.currentVersion sid, r, w, _⟩ => (env w.hist.length).fault = none →
      ∀ x, w.txs t.id = some x → x.aborted = false → r = .ok (maxVersion sid (w.view x).events)
  | _ => True

/-- No event that the read is about is still pending. -/
def ReadsCommitted (env : ℕ → Tick schema) (t : Tx Unit) : StoreCall V ι → Prop
  | ⟨.load sid v, _, w, _⟩ => (env w.hist.length).fault = none →
      ∀ x, w.txs t.id = some x → x.aborted = false →
        ∀ row ∈ pending t w, row.streamID = sid → row.version < v
  | ⟨.currentVersion sid, _, w, _⟩ => (env w.hist.length).fault = none →
      ∀ x, w.txs t.id = some x → x.aborted = false → ∀ row ∈ pending t w, row.streamID ≠ sid
  | _ => True

/-- A snapshot is taken at a version that the caller sees. -/
def SnapshotBehind (t : Tx Unit) : StoreCall V ι → Prop
  | ⟨.saveSnapshot sid v _, _, w, _⟩ => ∀ x, w.txs t.id = some x →
      v ≤ maxVersion sid (w.view x).events
  | _ => True

def SavesSnapshot : StoreCall V ι → Prop
  | ⟨.saveSnapshot .., none, _, _⟩ => True
  | _ => False

/-- The caller makes these calls, returns `out` and leaves the server in `w'`. -/
def Ran (codec : Codec V) (c : ι) (env : ℕ → Tick schema) (w : World schema Unit ι)
    (script : Script V) (calls : List (StoreCall V ι)) (out : Outcome (Option GoError))
    (w' : World schema Unit ι) : Prop :=
  (∃ out₁ w₁, callsInTx codec script c env w = some (calls, out₁, w₁)) ∧
    (inTx codec script).solo c env w = some (out, w')

/-- Every snapshot is at most at the version of its stream. -/
def Consistent (d : Tables) : Prop :=
  (∀ row ∈ d.events, 0 ≤ row.version) ∧
    ∀ snap ∈ d.snapshots, snap.version ≤ maxVersion snap.streamID d.events

theorem consistent_empty : Consistent Tables.empty := by
  constructor <;> simp [Tables.empty]

/-! ## Versions -/

theorem maxVersion_le_append (sid : String) (rows : List Event) {more : List Event}
    (h : ∀ row ∈ more, 0 ≤ row.version) : maxVersion sid rows ≤ maxVersion sid (rows ++ more) := by
  cases hmax : (versions sid rows).max? with
  | some m =>
      have hm : m ∈ versions sid (rows ++ more) := by
        rw [versions_append]
        exact List.mem_append_left _ (List.max?_eq_some_iff.mp hmax).1
      have heq : maxVersion sid rows = m := by simp [maxVersion, hmax]
      exact heq ▸ le_maxVersion hm
  | none =>
      have hnil : versions sid rows = [] := List.max?_eq_none_iff.mp hmax
      simp only [maxVersion, versions_append, hnil, List.nil_append, List.max?_nil]
      cases hmore : (versions sid more).max? with
      | none => exact le_refl _
      | some m =>
          obtain ⟨row, hrow, rfl⟩ := List.mem_map.mp (List.max?_eq_some_iff.mp hmore).1
          have := h row (List.mem_of_mem_filter hrow)
          simp only [Option.getD_none, Option.getD_some]
          omega

theorem neg_one_le_maxVersion (sid : String) {rows : List Event}
    (h : ∀ row ∈ rows, 0 ≤ row.version) : -1 ≤ maxVersion sid rows := by
  simpa [maxVersion] using maxVersion_le_append sid [] h

theorem lt_version_of_mem_rowsAt {sid : String} {now v : ℤ} {docs : List Document} {row : Event}
    (h : row ∈ rowsAt sid now (v + 1) docs) : v < row.version := by
  induction docs generalizing v with
  | nil => simp [rowsAt] at h
  | cons doc docs ih =>
      rcases List.mem_cons.mp h with rfl | h
      · exact Int.lt_succ v
      · exact (Int.lt_succ v).trans (ih h)

/-! ## Reads -/

/-- Uncommitted rows change what `Load` returns exactly if `Load` asks for one of
them. -/
theorem eventsFrom_append_eq {sid : String} {v : ℤ} {rows more : List Event} :
    eventsFrom sid v (rows ++ more) = eventsFrom sid v rows ↔
      ∀ row ∈ more, row.streamID = sid → row.version < v := by
  constructor
  · intro h row hrow hsid
    have hlen := congrArg List.length h
    simp only [eventsFrom, List.length_insertionSort, List.filter_append, List.length_append,
      Nat.add_eq_left, List.length_eq_zero_iff, List.filter_eq_nil_iff] at hlen
    simpa [hsid] using hlen row hrow
  · intro h
    have hnil : more.filter (fun r => r.streamID = sid ∧ v ≤ r.version) = [] := by
      refine List.filter_eq_nil_iff.mpr fun row hrow => ?_
      simpa using fun hsid => h row hrow hsid
    simp only [eventsFrom, List.filter_append, hnil, List.append_nil]

theorem loadReply_injective (sid : String) (v : ℤ) {xs ys : List Event}
    (h : loadReply sid v (.ok xs) = loadReply sid v (.ok ys)) : xs = ys := by
  simp only [loadReply] at h
  split_ifs at h with hx hy hy
  · rw [List.isEmpty_iff.mp hx.1, List.isEmpty_iff.mp hy.1]
  · exact Except.ok.inj h

/-- The rows are numbered above the versions of their streams. -/
def Above (rows : List Event) (more : List Event) : Prop :=
  ∀ row ∈ more, maxVersion row.streamID rows < row.version

theorem maxVersion_append_eq {sid : String} {rows more : List Event} (h : Above rows more) :
    maxVersion sid (rows ++ more) = maxVersion sid rows ↔ ∀ row ∈ more, row.streamID ≠ sid := by
  constructor
  · rintro heq row hrow rfl
    have hmem : row.version ∈ versions row.streamID (rows ++ more) := by
      refine List.mem_map_of_mem (List.mem_filter.mpr ⟨List.mem_append_right _ hrow, by simp⟩)
    have hlt := h row hrow
    have hle := le_maxVersion hmem
    omega
  · intro hne
    have hnil : versions sid more = [] := by
      simpa [versions, List.filter_eq_nil_iff] using hne
    simp [maxVersion, hnil]

section Calls

variable {codec : Codec V} {env : ℕ → Tick schema} {t : Tx Unit} {x y : TxState schema Unit ι}

/-- A read shows the caller's own view exactly if nothing it asks for is pending. -/
theorem CallSpec.readsOwn_iff {call : StoreCall V ι} (h : CallSpec codec env t x call y)
    (habove : x.aborted = false →
      Above (call.before.committed ()).events (pending t call.before)) :
    ReadsOwn env t call ↔ ReadsCommitted env t call := by
  obtain ⟨request, reply, w, w'⟩ := call
  have hview := h.before.view_eq
  have htx : w.txs t.id = some x := h.before.tx
  cases request with
  | append | saveSnapshot | loadSnapshot => exact Iff.rfl
  | load sid v =>
      refine forall_congr' fun he => ?_
      have hreply := h.effect.2.2 he
      simp only [htx, Option.some.injEq, forall_eq'] at hreply ⊢
      refine forall_congr' fun ha => ?_
      rw [hreply, hview, ← eventsFrom_append_eq]
      exact ⟨fun heq => (loadReply_injective sid v heq).symm, fun heq => by rw [heq]⟩
  | currentVersion sid =>
      refine forall_congr' fun he => ?_
      have hreply := h.effect.2.2 he
      simp only [htx, Option.some.injEq, forall_eq'] at hreply ⊢
      refine forall_congr' fun ha => ?_
      rw [hreply, hview, ← maxVersion_append_eq (habove ha)]
      exact ⟨fun heq => (Except.ok.inj heq).symm, fun heq => by rw [heq]⟩

/-- Only a saved snapshot changes the committed tables. -/
theorem CallSpec.committed_eq {call : StoreCall V ι} (h : CallSpec codec env t x call y)
    (hsave : ¬SavesSnapshot call) : call.after.committed () = call.before.committed () := by
  obtain ⟨request, reply, w, w'⟩ := call
  cases request with
  | append => exact h.effect.1
  | load => exact h.effect.2.1
  | currentVersion => exact h.effect.2.1
  | loadSnapshot => exact h.effect.2
  | saveSnapshot sid v state =>
      rcases h.effect.2 with ⟨-, hcom⟩ | ⟨rfl, -⟩
      · exact hcom
      · exact absurd trivial hsave

theorem CallSpec.alive {call : StoreCall V ι} (h : CallSpec codec env t x call y)
    (hy : y.aborted = false) : x.aborted = false := by
  by_contra hx
  simp [h.ext.aborted (by simpa using hx)] at hy

/-- What a call adds to the pending rows is numbered above what the caller sees. -/
theorem CallSpec.pending_eq {call : StoreCall V ι} (h : CallSpec codec env t x call y)
    (hy : y.aborted = false) : ∃ rows, pending t call.after = pending t call.before ++ rows ∧
      Above (call.before.view x).events rows := by
  have hpending : ∀ {rows : List Event}, y.log = x.log ++ rows.map .event →
      pending t call.after = pending t call.before ++ rows := by
    intro rows hlog
    simp only [pending, h.before.toSole.logOf, h.after.toSole.logOf, hlog,
      List.filterMap_append, filterMap_event]
  have hsame : y = x → ∃ rows, pending t call.after = pending t call.before ++ rows ∧
      Above (call.before.view x).events rows :=
    fun hyx => ⟨[], hpending (by simp [hyx]), by simp [Above]⟩
  obtain ⟨request, reply, w, w'⟩ := call
  cases request with
  | load | currentVersion | saveSnapshot | loadSnapshot => exact hsame h.effect.1
  | append a =>
      have hrows : ∀ {now docs}, Above (w.view x).events
          (rowsAt a.streamID now (maxVersion a.streamID (w.view x).events + 1) docs) := by
        intro now docs row hrow
        rw [rowsAt_streamID row hrow]
        exact lt_version_of_mem_rowsAt hrow
      obtain ⟨-, ⟨-, -, rfl⟩ | happ⟩ := h.effect
      · exact hsame rfl
      · cases happ with
        | failed err hdead => exact absurd (hy.symm.trans hdead) (by simp)
        | rejected err hcheck hgrown => exact ⟨[], hpending hgrown.log, by simp [Above]⟩
        | inserted r hcheck hins =>
            cases hins with
            | aborted err hdead => exact absurd (hy.symm.trans hdead) (by simp)
            | stopped err hevents hdone herr hgrown => exact ⟨_, hpending hgrown.log, hrows⟩
            | complete hdone hgrown => exact ⟨_, hpending hgrown.log, hrows⟩

/-- The versions are those that `Append` gives. -/
def Numbered (t : Tx Unit) (w : World schema Unit ι) : Prop :=
  (∀ row ∈ (w.committed ()).events, 0 ≤ row.version) ∧
    Above (w.committed ()).events (pending t w)

theorem Numbered.nonneg {w : World schema Unit ι} (h : Numbered t w) :
    ∀ row ∈ pending t w, 0 ≤ row.version := by
  intro row hrow
  have hlt := h.2 row hrow
  have hle := neg_one_le_maxVersion row.streamID h.1
  omega

theorem CallSpec.numbered {call : StoreCall V ι} (h : CallSpec codec env t x call y)
    (hy : y.aborted = false) (hnum : Numbered t call.before) : Numbered t call.after := by
  obtain ⟨rows, hrows, habove⟩ := h.pending_eq hy
  refine ⟨by simpa only [h.events] using hnum.1, fun row hrow => ?_⟩
  rw [hrows] at hrow
  rw [h.events]
  rcases List.mem_append.mp hrow with hrow | hrow
  · exact hnum.2 row hrow
  · have hlt := habove row hrow
    rw [h.before.view_eq] at hlt
    exact (maxVersion_le_append row.streamID _ hnum.nonneg).trans_lt hlt

/-- What the caller would commit stays consistent. -/
theorem CallSpec.consistent {call : StoreCall V ι} (h : CallSpec codec env t x call y)
    (hbehind : SnapshotBehind t call) (hy : y.aborted = false) (hnum : Numbered t call.before)
    (hx : Consistent (call.before.view x)) : Consistent (call.after.view y) := by
  obtain ⟨rows, hrows, habove⟩ := h.pending_eq hy
  have hnonneg : ∀ row ∈ rows, 0 ≤ row.version := fun row hrow =>
    (h.numbered hy hnum).nonneg row (hrows ▸ List.mem_append_right _ hrow)
  have hevents : (call.after.view y).events = (call.before.view x).events ++ rows := by
    rw [h.after.view_eq, h.before.view_eq, hrows, h.events, List.append_assoc]
  have hsnapshots : ∀ snap ∈ (call.after.committed ()).snapshots,
      snap.version ≤ maxVersion snap.streamID (call.before.view x).events := by
    have hbefore := hx.2
    rw [h.before.view_eq] at hbefore
    by_cases hsave : SavesSnapshot call
    · obtain ⟨request, reply, w, w'⟩ := call
      cases request with
      | append | load | currentVersion | loadSnapshot => exact hsave.elim
      | saveSnapshot sid v state =>
          rcases h.effect.2 with ⟨hne, -⟩ | ⟨-, data, now, hcom⟩
          · cases reply with
            | none => exact absurd rfl hne
            | some err => exact hsave.elim
          · intro snap hsnap
            rw [hcom] at hsnap
            rcases List.mem_append.mp hsnap with hsnap | hsnap
            · rw [h.before.view_eq]
              exact hbefore snap (List.mem_of_mem_filter hsnap)
            · obtain rfl := List.mem_singleton.mp hsnap
              exact hbehind x h.before.tx
    · rw [h.committed_eq hsave, h.before.view_eq]
      exact hbefore
  refine ⟨fun row hrow => ?_, fun snap hsnap => ?_⟩
  · rw [hevents] at hrow
    exact (List.mem_append.mp hrow).elim (hx.1 row) (hnonneg row)
  · rw [h.after.view_eq] at hsnap
    rw [hevents]
    exact (hsnapshots snap hsnap).trans (maxVersion_le_append _ _ hnonneg)

end Calls

/-! ## Whole callers -/

variable {codec : Codec V} {c : ι} {env : ℕ → Tick schema} {w w' : World schema Unit ι}

section Chains

variable {t : Tx Unit} {s s' : TxState schema Unit ι × World schema Unit ι}
  {calls : List (StoreCall V ι)}

theorem Linked.chain_committed (h : Chained (Linked codec env t) s calls s')
    (hsave : ∀ call ∈ calls, ¬SavesSnapshot call) : s'.2.committed () = s.2.committed () := by
  refine h.invariant (P := fun u => u.2.committed () = s.2.committed ())
    (H := fun call => ¬SavesSnapshot call) ?_ rfl hsave
  rintro u call u' hu hno ⟨hspec, hbefore, hafter⟩
  rw [← hafter, hspec.committed_eq hno, hbefore, hu]

theorem Linked.chain_numbered (h : Chained (Linked codec env t) s calls s')
    (hs : Numbered t s.2) : s'.1.aborted = false → Numbered t s'.2 := by
  refine h.invariant (P := fun u => u.1.aborted = false → Numbered t u.2)
    (H := fun _ => True) ?_ (fun _ => hs) fun _ _ => trivial
  rintro u call u' hu - ⟨hspec, hbefore, hafter⟩ hy
  rw [← hafter]
  exact hspec.numbered hy (hbefore ▸ hu (hspec.alive hy))

theorem Linked.chain_consistent (h : Chained (Linked codec env t) s calls s')
    (hbehind : ∀ call ∈ calls, SnapshotBehind t call) (hs : Numbered t s.2)
    (hcons : Consistent (s.2.view s.1)) :
    s'.1.aborted = false → Consistent (s'.2.view s'.1) := by
  refine fun hy => (h.invariant (P := fun u => u.1.aborted = false →
      Numbered t u.2 ∧ Consistent (u.2.view u.1)) (H := SnapshotBehind t) ?_
      (fun _ => ⟨hs, hcons⟩) hbehind hy).2
  rintro u call u' hu hcall ⟨hspec, hbefore, hafter⟩ hy
  obtain ⟨hnum, hview⟩ := hu (hspec.alive hy)
  rw [← hbefore] at hnum hview
  exact hafter ▸ ⟨hspec.numbered hy hnum, hspec.consistent hcall hy hnum hview⟩

end Chains

/-- The caller takes snapshots only of what it sees. -/
def Admissible (codec : Codec V) (c : ι) (env : ℕ → Tick schema) (w : World schema Unit ι)
    (script : Script V) : Prop :=
  ∀ calls out w', Ran codec c env w script calls out w' →
    ∀ call ∈ calls, SnapshotBehind ⟨(), w.next⟩ call

/-- The caller commits if it has saved a snapshot. -/
def CommitsSnapshots (codec : Codec V) (c : ι) (env : ℕ → Tick schema) (w : World schema Unit ι)
    (script : Script V) : Prop :=
  ∀ calls out w', Ran codec c env w script calls out w' →
    (∃ call ∈ calls, SavesSnapshot call) → out = .ret none

/-- Every caller runs to its end. -/
theorem exists_ran (codec : Codec V) (c : ι) (env : ℕ → Tick schema) (script : Script V)
    (hidle : w.Idle) : ∃ calls out w', Ran codec c env w script calls out w' := by
  cases hbegin : (env w.hist.length).fault with
  | some err =>
      have hcalls : callsInTx codec script c env w = some ([],
          .ret (some (.wrapping "store: begin tx" err)), w.record c (.begin ()) (.error err)) := by
        simp [callsInTx, hbegin]
      exact ⟨_, _, _, ⟨_, _, hcalls⟩, solo_withTx_fault () hbegin _⟩
  | none =>
      obtain ⟨calls, out₁, w₁, y, out, w', hcalls, -, -, hsolo, -⟩ :=
        solo_inTx codec script c env hidle hbegin
      exact ⟨calls, out, w', ⟨out₁, w₁, hcalls⟩, hsolo⟩

/-- What one caller does to consistent tables. -/
theorem Ran.composes {script : Script V} {calls : List (StoreCall V ι)}
    {out : Outcome (Option GoError)} (h : Ran codec c env w script calls out w')
    (hidle : w.Idle) (hcons : Consistent (w.committed ()))
    (hbehind : ∀ call ∈ calls, SnapshotBehind ⟨(), w.next⟩ call) :
    w'.Idle ∧
      (∀ call ∈ calls, ReadsOwn env ⟨(), w.next⟩ call ↔ ReadsCommitted env ⟨(), w.next⟩ call) ∧
      (out = .ret none → Consistent (w'.committed ())) ∧
      (out ≠ .ret none → (∀ call ∈ calls, ¬SavesSnapshot call) →
        w'.committed () = w.committed ()) := by
  obtain ⟨⟨out₁, w₁, hcalls⟩, hsolo⟩ := h
  cases hbegin : (env w.hist.length).fault with
  | some err =>
      rw [inTx, solo_withTx_fault () hbegin] at hsolo
      simp only [callsInTx, hbegin] at hcalls
      cases hsolo
      cases hcalls
      exact ⟨hidle, by simp, by simp, fun _ _ => rfl⟩
  | none =>
      obtain ⟨calls', out₁', w₁', y, out', w'', hcalls', hchain, hy, hsolo', hends⟩ :=
        solo_inTx codec script c env hidle hbegin
      rw [hcalls] at hcalls'
      rw [hsolo] at hsolo'
      cases hcalls'
      cases hsolo'
      have hnum : Numbered ⟨(), w.next⟩ (begun w c (env w.hist.length) ()) :=
        ⟨hcons.1, by simp [Above, pending, World.logOf, begun]⟩
      refine ⟨hends.idle hy.toSole, fun call hcall => ?_, fun hout => ?_, fun hout hsave => ?_⟩
      · obtain ⟨ys, zs, s, s', -, hys, ⟨hspec, hbefore, -⟩, -⟩ := hchain.link_of_mem hcall
        exact hspec.readsOwn_iff fun ha => hbefore ▸ (Linked.chain_numbered hys hnum ha).2
      · cases hends with
        | committed ha he =>
            have hview := Linked.chain_consistent hchain hbehind hnum hcons ha
            rwa [World.committed_record, World.committed_settle]
        | failed err hwhy => simp at hout
        | rolledBack _ hne r => exact absurd hout hne
      · have hsame := Linked.chain_committed hchain hsave
        cases hends with
        | committed ha he => exact absurd rfl hout
        | failed err hwhy => exact hsame
        | rolledBack _ _ r => exact hsame

/-- One caller after the other. -/
def runInTx (codec : Codec V) (c : ι) (env : ℕ → Tick schema) (w : World schema Unit ι)
    (script : Script V) : Option (World schema Unit ι) :=
  ((inTx codec script).solo c env w).map Prod.snd

/-- After any sequence of admissible callers that commit their snapshots the
snapshots are consistent.  A further caller reads its own view exactly where
nothing it asks for is pending, and leaves nothing behind on an error unless it
has saved a snapshot. -/
theorem store_composes (codec : Codec V) (c : ι) (env : ℕ → Tick schema)
    (scripts : List (Script V)) {w : World schema Unit ι}
    (hcommits : Along (runInTx codec c env)
      (fun w script => Admissible codec c env w script ∧ CommitsSnapshots codec c env w script)
      emptyDB scripts)
    (hrun : run (runInTx codec c env) emptyDB scripts = some w) :
    w.Idle ∧ Consistent (w.committed ()) ∧
      ∀ script, Admissible codec c env w script → ∃ calls out w',
        Ran codec c env w script calls out w' ∧
        (∀ call ∈ calls,
          ReadsOwn env ⟨(), w.next⟩ call ↔ ReadsCommitted env ⟨(), w.next⟩ call) ∧
        (out ≠ .ret none → (∀ call ∈ calls, ¬SavesSnapshot call) →
          w'.committed () = w.committed ()) := by
  have hinv : w.Idle ∧ Consistent (w.committed ()) := by
    refine run_invariant (P := fun w => w.Idle ∧ Consistent (w.committed ())) ?_
      ⟨fun _ => rfl, consistent_empty⟩ hcommits hrun
    rintro w₁ script w₂ ⟨hidle, hcons⟩ ⟨hadm, hd⟩ hstep
    obtain ⟨calls, out, w', hran⟩ := exists_ran codec c env script hidle
    obtain rfl : w' = w₂ := by simpa [runInTx, hran.2] using hstep
    obtain ⟨hidle', -, hcommit, hkeep⟩ := hran.composes hidle hcons (hadm _ _ _ hran)
    refine ⟨hidle', ?_⟩
    by_cases hout : out = .ret none
    · exact hcommit hout
    · rw [hkeep hout fun call hcall hs => hout (hd _ _ _ hran ⟨call, hcall, hs⟩)]
      exact hcons
  refine ⟨hinv.1, hinv.2, fun script hadm => ?_⟩
  obtain ⟨calls, out, w', hran⟩ := exists_ran codec c env script hinv.1
  obtain ⟨-, hreads, -, hkeep⟩ := hran.composes hinv.1 hinv.2 (hadm _ _ _ hran)
  exact ⟨calls, out, w', hran, hreads, hkeep⟩

/-- A caller that appends an event, asks for the version, saves a snapshot at the
version of the event and then fails. -/
def hasty : Script (Option String) :=
  .op (.append ⟨"order", [⟨"Placed", some "1", none⟩], expectedVersionNew⟩) fun _ =>
    .op (.currentVersion "order") fun _ =>
      .op (.saveSnapshot "order" 0 (some "placed")) fun _ => .ret (some (.new "declined"))

theorem hasty_not_composes :
    ∃ calls w', Ran textCodec () calm emptyDB hasty calls (.ret (some (.new "declined"))) w' ∧
      (∀ call ∈ calls, SnapshotBehind ⟨(), 0⟩ call) ∧
      ¬(∀ call ∈ calls, ReadsOwn calm ⟨(), 0⟩ call) ∧
      w'.committed () ≠ (emptyDB : World schema Unit Unit).committed () ∧ w'.Idle ∧
      ¬Consistent (w'.committed ()) := by
  refine ⟨_, _, ⟨⟨_, _, rfl⟩, rfl⟩, ?_, fun h => ?_, ?_, ?_, fun h => ?_⟩
  · intro call hcall
    simp only [List.mem_cons, List.not_mem_nil, or_false] at hcall
    rcases hcall with rfl | rfl | rfl
    · trivial
    · trivial
    · rintro x hx
      cases hx
      decide
  · have hread := h _ (List.mem_cons_of_mem _ List.mem_cons_self) rfl _ rfl rfl
    exact absurd hread (by decide)
  · exact fun h => absurd (congrArg (List.length ∘ Tables.snapshots) h) (by decide)
  · rintro (_ | i) <;> rfl
  · exact absurd (h.2 _ List.mem_cons_self) (by decide)

/-- A caller that commits the event and the snapshot together. -/
def diligent : Script (Option String) :=
  .op (.append ⟨"order", [⟨"Placed", some "1", none⟩], expectedVersionNew⟩) fun _ =>
    .op (.saveSnapshot "order" 0 (some "placed")) fun _ => .ret none

theorem diligent_composes :
    ∃ w, run (runInTx textCodec () calm) emptyDB [diligent] = some w ∧
      (w.committed ()).snapshots.map Snapshot.version = [0] ∧ Consistent (w.committed ()) := by
  have hadm : Admissible textCodec () calm emptyDB diligent := by
    rintro calls out w' ⟨⟨out₁, w₁, hcalls⟩, -⟩ call hcall
    cases hcalls
    simp only [List.mem_cons, List.not_mem_nil, or_false] at hcall
    rcases hcall with rfl | rfl
    · trivial
    · rintro x hx
      cases hx
      decide
  have hcommits : CommitsSnapshots textCodec () calm emptyDB diligent := by
    rintro calls out w' ⟨-, hsolo⟩ -
    cases hsolo
    rfl
  refine ⟨_, rfl, by decide, ?_⟩
  exact (store_composes textCodec () calm [diligent]
    ⟨⟨hadm, hcommits⟩, fun _ _ => trivial⟩ rfl).2.1

end Gkit.EventStore
