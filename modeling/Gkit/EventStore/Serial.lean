import Gkit.EventStore.Model

/-!
# The sequential event log

What the store is for: appends happen one after the other, each finds its
expected version at the end of its stream and adds its events at the following
versions.  `Serial` is that history.  From it alone the versions of a stream
have no gap, and no two appends that ask for one version both succeed.
-/

namespace Gkit.EventStore

open Gkit.Lib Gkit.Store

/-! ## Versions of a stream -/

@[simp] theorem versions_nil (sid : String) : versions sid [] = [] := rfl

@[simp] theorem versions_append (sid : String) (xs ys : List Event) :
    versions sid (xs ++ ys) = versions sid xs ++ versions sid ys := by
  simp [versions]

/-- The rows of an append: its documents at consecutive versions. -/
def rowsAt (sid : String) (createdAt : ℤ) : ℤ → List Document → List Event
  | _, [] => []
  | v, doc :: docs =>
      ⟨sid, v, doc.type, doc.data, doc.metadata, createdAt⟩ :: rowsAt sid createdAt (v + 1) docs

theorem rowsAt_append (sid : String) (t v : ℤ) (xs ys : List Document) :
    rowsAt sid t v (xs ++ ys) = rowsAt sid t v xs ++ rowsAt sid t (v + xs.length) ys := by
  induction xs generalizing v with
  | nil => simp [rowsAt]
  | cons x xs ih =>
      simp only [List.cons_append, rowsAt, ih, List.length_cons]
      congr 3
      push_cast
      ring

theorem rowsAt_streamID {sid : String} {t v : ℤ} {docs : List Document} :
    ∀ r ∈ rowsAt sid t v docs, r.streamID = sid := by
  induction docs generalizing v with
  | nil => simp [rowsAt]
  | cons doc docs ih =>
      intro r hr
      rcases List.mem_cons.mp hr with rfl | hr
      · rfl
      · exact ih r hr

theorem versions_rowsAt (sid : String) (t v : ℤ) (docs : List Document) :
    versions sid (rowsAt sid t v docs) = (List.range docs.length).map fun i : ℕ => v + (i : ℤ) := by
  induction docs generalizing v with
  | nil => rfl
  | cons doc docs ih =>
      have htail := ih (v + 1)
      rw [List.length_cons, List.range_succ_eq_map]
      simp only [versions, rowsAt, List.filter_cons, decide_true, if_true, List.map_cons,
        List.map_map] at htail ⊢
      rw [htail]
      refine congrArg₂ _ (by simp) (List.map_congr_left fun i _ => ?_)
      simp only [Function.comp_apply]
      push_cast
      ring

theorem versions_rowsAt_ne {sid sid' : String} (h : sid' ≠ sid) (t v : ℤ)
    (docs : List Document) : versions sid' (rowsAt sid t v docs) = [] := by
  simp only [versions, List.map_eq_nil_iff, List.filter_eq_nil_iff]
  intro r hr
  simpa [rowsAt_streamID r hr] using Ne.symm h

/-- The committed versions of every stream are `0, …, n - 1`, in this order. -/
def Gapless (rows : List Event) : Prop :=
  ∀ sid, versions sid rows = (List.range (versions sid rows).length).map fun n : ℕ => (n : ℤ)

theorem max_range (n : ℕ) :
    (((List.range n).map fun i : ℕ => (i : ℤ)).max?).getD (-1) = n - 1 := by
  cases n with
  | zero => rfl
  | succ n =>
      have hmax : ((List.range (n + 1)).map fun i : ℕ => (i : ℤ)).max? = some (n : ℤ) := by
        apply List.max?_eq_some_iff.mpr
        refine ⟨List.mem_map.mpr ⟨n, by simp, rfl⟩, ?_⟩
        intro b hb
        obtain ⟨i, hi, rfl⟩ := List.mem_map.mp hb
        have := List.mem_range.mp hi
        omega
      simp [hmax]

theorem Gapless.maxVersion_eq {rows : List Event} (h : Gapless rows) (sid : String) :
    maxVersion sid rows = (versions sid rows).length - 1 := by
  rw [maxVersion, h sid, max_range]
  simp

theorem Gapless.mem_versions {rows : List Event} (h : Gapless rows) {sid : String} {v : ℤ} :
    v ∈ versions sid rows ↔ 0 ≤ v ∧ v ≤ maxVersion sid rows := by
  rw [h.maxVersion_eq sid, h sid]
  constructor
  · intro hv
    obtain ⟨i, hi, rfl⟩ := List.mem_map.mp hv
    have := List.mem_range.mp hi
    simp only [List.length_map, List.length_range] at *
    omega
  · rintro ⟨h₀, h₁⟩
    refine List.mem_map.mpr ⟨v.toNat, ?_, by omega⟩
    simp only [List.length_map, List.length_range, List.mem_range] at *
    omega

theorem Gapless.neg_one_le {rows : List Event} (h : Gapless rows) (sid : String) :
    -1 ≤ maxVersion sid rows := by
  rw [h.maxVersion_eq sid]
  omega

theorem maxVersion_append_ne {sid sid' : String} (h : sid' ≠ sid) (rows : List Event) (t v : ℤ)
    (docs : List Document) :
    maxVersion sid' (rows ++ rowsAt sid t v docs) = maxVersion sid' rows := by
  simp [maxVersion, versions_rowsAt_ne h]

/-- Rows put at the end of a stream keep it without gaps. -/
theorem Gapless.append {rows : List Event} (h : Gapless rows) (sid : String) (t : ℤ)
    (docs : List Document) :
    Gapless (rows ++ rowsAt sid t (maxVersion sid rows + 1) docs) := by
  intro sid'
  by_cases hs : sid' = sid
  · subst hs
    rw [versions_append, versions_rowsAt, h.maxVersion_eq sid']
    rw [List.length_append, List.length_map, List.length_range, List.range_add, List.map_append,
      ← h sid']
    congr 1
    simp
  · rw [versions_append, versions_rowsAt_ne hs, List.append_nil]
    exact h sid'

theorem Gapless.maxVersion_append {rows : List Event} (h : Gapless rows) (sid : String) (t : ℤ)
    (docs : List Document) :
    maxVersion sid (rows ++ rowsAt sid t (maxVersion sid rows + 1) docs) =
      maxVersion sid rows + docs.length := by
  rw [(h.append sid t docs).maxVersion_eq sid, h.maxVersion_eq sid, versions_append,
    versions_rowsAt]
  simp
  ring

/-! ## The version check -/

/-- The expected versions that only one state of the stream satisfies. -/
def Guarded (expectedVersion : ℤ) : Prop :=
  expectedVersion = expectedVersionNew ∨ 0 ≤ expectedVersion

theorem checkVersion_eq_none {sid : String} {cur e : ℤ} :
    checkVersion sid cur e = none ↔
      (e = expectedVersionNew ∧ cur < 0) ∨ e = expectedVersionAny ∨
        (e ≠ expectedVersionNew ∧ cur = e) := by
  by_cases hnew : e = expectedVersionNew
  · have hany : e ≠ expectedVersionAny := by rw [hnew]; decide
    simp [checkVersion, hnew, hnew ▸ hany]
  · by_cases hany : e = expectedVersionAny
    · simp [checkVersion, hany, show expectedVersionAny ≠ expectedVersionNew by decide]
    · simp [checkVersion, hnew, hany]

theorem Guarded.eq_of_checkVersion {sid : String} {cur e : ℤ} (he : Guarded e)
    (hcur : -1 ≤ cur) (h : checkVersion sid cur e = none) : cur = e := by
  rcases checkVersion_eq_none.mp h with ⟨hnew, hneg⟩ | hany | ⟨-, heq⟩
  · simp only [expectedVersionNew] at hnew
    omega
  · rcases he with he | he
    · exact absurd (he.symm.trans hany) (by decide)
    · simp only [expectedVersionAny] at hany
      omega
  · exact heq

/-! ## Appends one after the other -/

variable {V ι : Type}

/-- The events of a call marshal to these documents. -/
def Marshals (codec : Codec V) (events : List (EventData V)) (docs : List Document) : Prop :=
  events.map (marshalEvent codec) = docs.map .ok

theorem Marshals.length_eq {codec : Codec V} {events : List (EventData V)}
    {docs : List Document} (h : Marshals codec events docs) : events.length = docs.length := by
  simpa using congrArg List.length h

theorem Marshals.ok_of_mem {codec : Codec V} {events : List (EventData V)}
    {docs : List Document} (h : Marshals codec events docs) {ed : EventData V}
    (hed : ed ∈ events) : ∃ doc, marshalEvent codec ed = .ok doc := by
  have hmem : marshalEvent codec ed ∈ docs.map (Except.ok (ε := GoError)) :=
    h ▸ List.mem_map_of_mem hed
  obtain ⟨doc, -, hdoc⟩ := List.mem_map.mp hmem
  exact ⟨doc, hdoc.symm⟩

theorem Marshals.unique {codec : Codec V} {events : List (EventData V)}
    {docs docs' : List Document} (h : Marshals codec events docs)
    (h' : Marshals codec events docs') : docs = docs' := by
  have heq : docs.map (Except.ok (ε := GoError)) = docs'.map .ok := h.symm.trans h'
  exact List.map_injective_iff.mpr (fun _ _ hab => Except.ok.inj hab) heq

/-- The log after the appends of the listed clients, in this order and at these
times, each of which finds its expected version. -/
inductive Serial (codec : Codec V) (req : ι → AppendCall V) : List (ι × ℤ) → List Event → Prop where
  | nil : Serial codec req [] []
  | snoc {cs : List (ι × ℤ)} {rows : List Event} {docs : List Document} (c : ι) (t : ℤ)
      (h : Serial codec req cs rows) (hne : (req c).events ≠ [])
      (hcheck : checkVersion (req c).streamID (maxVersion (req c).streamID rows)
        (req c).expectedVersion = none)
      (hdocs : Marshals codec (req c).events docs) :
      Serial codec req (cs ++ [(c, t)])
        (rows ++ rowsAt (req c).streamID t (maxVersion (req c).streamID rows + 1) docs)

namespace Serial

variable {codec : Codec V} {req : ι → AppendCall V} {cs : List (ι × ℤ)} {rows : List Event}

theorem gapless (h : Serial codec req cs rows) : Gapless rows := by
  induction h with
  | nil => exact fun _ => rfl
  | snoc c t h hne hcheck hdocs ih => exact ih.append _ _ _

/-- The rows of an append stand together, in the order of its arguments. -/
theorem block (h : Serial codec req cs rows) :
    ∀ p ∈ cs, ∃ pre post v docs, Marshals codec (req p.1).events docs ∧
      rows = pre ++ rowsAt (req p.1).streamID p.2 v docs ++ post := by
  induction h with
  | nil => simp
  | @snoc cs rows docs c t h hne hcheck hdocs ih =>
      intro p hp
      rcases List.mem_append.mp hp with hp | hp
      · obtain ⟨pre, post, v, docs', hdocs', hrows⟩ := ih p hp
        refine ⟨pre, post ++ rowsAt (req c).streamID t
          (maxVersion (req c).streamID rows + 1) docs, v, docs', hdocs', ?_⟩
        rw [← List.append_assoc, ← hrows]
      · obtain rfl := List.mem_singleton.mp hp
        exact ⟨rows, [], _, docs, hdocs, (List.append_nil _).symm⟩

/-- Once an append with a guarded version is in, its stream is past it. -/
theorem lt_maxVersion (h : Serial codec req cs rows) :
    ∀ p ∈ cs, Guarded (req p.1).expectedVersion →
      (req p.1).expectedVersion < maxVersion (req p.1).streamID rows := by
  induction h with
  | nil => simp
  | @snoc cs rows docs c t h hne hcheck hdocs ih =>
      have hlen : 0 < docs.length := hdocs.length_eq ▸ List.length_pos_iff.mpr hne
      intro p hp hg
      have hgrow : maxVersion (req p.1).streamID rows ≤ maxVersion (req p.1).streamID
          (rows ++ rowsAt (req c).streamID t (maxVersion (req c).streamID rows + 1) docs) := by
        by_cases hs : (req p.1).streamID = (req c).streamID
        · rw [hs, h.gapless.maxVersion_append]
          omega
        · rw [maxVersion_append_ne hs]
      rcases List.mem_append.mp hp with hp | hp
      · exact (ih p hp hg).trans_le hgrow
      · obtain rfl := List.mem_singleton.mp hp
        have heq : maxVersion (req c).streamID rows = (req c).expectedVersion :=
          hg.eq_of_checkVersion (h.gapless.neg_one_le _) hcheck
        rw [h.gapless.maxVersion_append, heq]
        exact lt_add_of_pos_right _ (by exact_mod_cast hlen)

/-- No two appends to a stream both find the same guarded version. -/
theorem pairwise (h : Serial codec req cs rows) :
    cs.Pairwise fun p q => (req p.1).streamID = (req q.1).streamID →
      (req p.1).expectedVersion = (req q.1).expectedVersion →
      ¬Guarded (req p.1).expectedVersion := by
  induction h with
  | nil => exact .nil
  | @snoc cs rows docs c t h hne hcheck hdocs ih =>
      refine List.pairwise_append.mpr ⟨ih, List.pairwise_singleton _ _, ?_⟩
      intro p hp q hq hs he hg
      obtain rfl := List.mem_singleton.mp hq
      have hlt := h.lt_maxVersion p hp hg
      have heq : maxVersion (req c).streamID rows = (req c).expectedVersion :=
        Guarded.eq_of_checkVersion (he ▸ hg) (h.gapless.neg_one_le _) hcheck
      rw [hs, he, heq] at hlt
      exact hlt.false

end Serial

end Gkit.EventStore
