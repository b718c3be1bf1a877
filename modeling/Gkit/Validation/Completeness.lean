import Gkit.Validation.Model

/-!
# Which failures are reported

`faults` lists the fields at every depth whose rules fail.  A struct field with a
`validate` tag of its own is not descended into, so what fails inside it is not
reached; and entries of a nested error are assigned, so a failure can be lost to
another one with the same key.
-/

namespace Gkit.Validation

open Gkit.Lib

section Faults

variable (check : Text → Value → Text)

/-- A field whose rules fail: where it is, the key under which the code reports it,
the messages, and whether no struct around it has a `validate` tag. -/
structure Fault where
  path : List ℕ
  key : Text
  msgs : List Text
  reached : Bool
  deriving DecidableEq, Repr

/-- The messages of the rules of a tag that fail. -/
def failing (rules : List Text) (fv : Value) : List Text :=
  (rules.map fun rule => check rule fv).filter fun msg => msg ≠ []

def ownFault (n : ℕ) (tags : Tags) (fv : Value) : List Fault :=
  if tags.validate = [] ∨ failing check (rulesOf tags.validate) fv = [] then []
  else [⟨[n], tags.display, failing check (rulesOf tags.validate) fv, true⟩]

/-- A fault inside a struct field. -/
def Fault.under (n : ℕ) (tags : Tags) (f : Fault) : Fault :=
  ⟨n :: f.path, tags.name ++ '.' :: f.key, f.msgs, f.reached && tags.validate = []⟩

/-- The faults of the fields from position `n` on, at every depth. -/
def faults : ℕ → Fields → List Fault
  | _, .nil => []
  | n, .scalar tags value rest => ownFault check n tags (.scalar value) ++ faults (n + 1) rest
  | n, .struct tags inner rest =>
      ownFault check n tags (.struct inner) ++
        ((faults 0 inner).map (Fault.under n tags) ++ faults (n + 1) rest)

/-- The faults the code comes across. -/
def reached (n : ℕ) (fields : Fields) : List Fault :=
  (faults check n fields).filter Fault.reached

/-- `Validate` returns nil exactly if nothing fails, and otherwise every failing
field has a key of its own under which all its messages are. -/
structure Complete (fields : Fields) : Prop where
  nil_iff : validateStruct check fields = none ↔ faults check 0 fields = []
  kept : ∃ key : List ℕ → Text,
    (∀ f ∈ faults check 0 fields, ∀ g ∈ faults check 0 fields,
      key f.path = key g.path → f.path = g.path) ∧
    ∀ f ∈ faults check 0 fields, ∃ ve msgs, validateStruct check fields = some ve ∧
      GoMap.find ve (key f.path) = some msgs ∧ f.msgs.Sublist msgs

variable {check}

/-! ## The error of one struct -/

theorem find_applyRules (name : Text) (fv : Value) (rules : List Text) (ve : VErr) (k : Text) :
    GoMap.find (applyRules check name fv rules ve) k =
      if k = name ∧ failing check rules fv ≠ []
      then some ((GoMap.find ve name).getD [] ++ failing check rules fv) else GoMap.find ve k := by
  induction rules generalizing ve with
  | nil => simp [applyRules, failing]
  | cons rule rules ih =>
      rw [applyRules, ih]
      by_cases hmsg : check rule fv = []
      · have hfailing : failing check (rule :: rules) fv = failing check rules fv := by
          simp [failing, hmsg]
        rw [hfailing, if_pos hmsg]
      · have hfailing : failing check (rule :: rules) fv =
            check rule fv :: failing check rules fv := by
          simp [failing, hmsg]
        rw [hfailing, if_neg hmsg, VErr.add, GoMap.find_insert, GoMap.find_insert, if_pos rfl]
        by_cases hk : k = name
        · by_cases hrest : failing check rules fv = []
          · simp [hk, hrest]
          · simp [hk, hrest]
        · simp [hk]

theorem find_mergeNested_of_forall_ne {name k : Text} {rows : List (Text × List Text)}
    (h : ∀ r ∈ rows, k ≠ name ++ '.' :: r.1) (ve : VErr) :
    GoMap.find (mergeNested name rows ve) k = GoMap.find ve k := by
  induction rows generalizing ve with
  | nil => rfl
  | cons r rows ih =>
      obtain ⟨k', msgs⟩ := r
      rw [mergeNested, ih fun r hr => h r (List.mem_cons_of_mem _ hr), GoMap.find_insert,
        if_neg (h _ List.mem_cons_self)]

theorem find_mergeNested {name k : Text} {msgs : List Text} {nested : VErr}
    (h : GoMap.find nested k = some msgs) (ve : VErr) :
    GoMap.find (mergeNested name nested.rows ve) (name ++ '.' :: k) = some msgs := by
  obtain ⟨rows, hnodup⟩ := nested
  have hmem : (k, msgs) ∈ rows := GoMap.find_eq_some.mp h
  clear h
  induction rows generalizing ve with
  | nil => cases hmem
  | cons r rows ih =>
      obtain ⟨k', msgs'⟩ := r
      obtain ⟨hne, hnodup⟩ := List.nodup_cons.mp hnodup
      rw [mergeNested]
      rcases List.mem_cons.mp hmem with heq | hmem
      · obtain ⟨rfl, rfl⟩ := Prod.mk.inj heq
        rw [find_mergeNested_of_forall_ne, GoMap.find_insert, if_pos rfl]
        intro r hr hkey
        have hk : k = r.1 := (List.cons.inj ((List.append_right_inj name).mp hkey)).2
        exact hne (List.mem_map.mpr ⟨r, hr, hk.symm⟩)
      · exact ih _ hnodup hmem

/-- What faults do to an error that is built up: other keys are as before, the keys of
the faults are there, and if these are distinct and new, with exactly the messages. -/
structure Adds (part : List Fault) (ve ve' : VErr) : Prop where
  frame : ∀ k, (∀ f ∈ part, k ≠ f.key) → GoMap.find ve' k = GoMap.find ve k
  present : ∀ f ∈ part, (GoMap.find ve' f.key).isSome = true
  exact : (part.map Fault.key).Nodup → ∀ f ∈ part, GoMap.find ve f.key = none →
    GoMap.find ve' f.key = some f.msgs

theorem adds_nil (ve : VErr) : Adds [] ve ve :=
  ⟨fun _ _ => rfl, by simp, by simp⟩

theorem Adds.trans {part part' : List Fault} {ve ve' ve'' : VErr} (h : Adds part ve ve')
    (h' : Adds part' ve' ve'') : Adds (part ++ part') ve ve'' := by
  refine ⟨fun k hk => ?_, fun f hf => ?_, fun hnodup f hf hnew => ?_⟩
  · rw [h'.frame k fun f hf => hk f (List.mem_append_right _ hf),
      h.frame k fun f hf => hk f (List.mem_append_left _ hf)]
  · rcases List.mem_append.mp hf with hf | hf
    · by_cases hlater : ∃ g ∈ part', f.key = g.key
      · obtain ⟨g, hg, hkey⟩ := hlater
        rw [hkey]
        exact h'.present g hg
      · rw [h'.frame f.key fun g hg hkey => hlater ⟨g, hg, hkey⟩]
        exact h.present f hf
    · exact h'.present f hf
  · rw [List.map_append] at hnodup
    obtain ⟨hnodup₁, hnodup₂, hdisjoint⟩ := List.nodup_append.mp hnodup
    have hne : ∀ f ∈ part, ∀ g ∈ part', f.key ≠ g.key := fun f hf g hg =>
      hdisjoint _ (List.mem_map_of_mem hf) _ (List.mem_map_of_mem hg)
    rcases List.mem_append.mp hf with hf | hf
    · rw [h'.frame f.key fun g hg => hne f hf g hg]
      exact h.exact hnodup₁ f hf hnew
    · refine h'.exact hnodup₂ f hf ?_
      rw [h.frame f.key fun g hg => (hne g hg f hf).symm]
      exact hnew

theorem adds_own (n : ℕ) (tags : Tags) (fv : Value) (ve : VErr) (htag : tags.validate ≠ []) :
    Adds (ownFault check n tags fv) ve
      (applyRules check tags.display fv (rulesOf tags.validate) ve) := by
  by_cases hfailing : failing check (rulesOf tags.validate) fv = []
  · have hown : ownFault check n tags fv = [] := if_pos (.inr hfailing)
    rw [hown]
    refine ⟨fun k _ => ?_, by simp, by simp⟩
    rw [find_applyRules, if_neg fun h => h.2 hfailing]
  · have hown : ownFault check n tags fv =
        [⟨[n], tags.display, failing check (rulesOf tags.validate) fv, true⟩] :=
      if_neg (not_or.mpr ⟨htag, hfailing⟩)
    rw [hown]
    refine ⟨fun k hk => ?_, fun f hf => ?_, fun _ f hf hnew => ?_⟩
    · rw [find_applyRules, if_neg fun h => hk _ List.mem_cons_self h.1]
    · rw [List.mem_singleton] at hf
      rw [hf, find_applyRules, if_pos ⟨rfl, hfailing⟩]
      rfl
    · rw [List.mem_singleton] at hf
      subst hf
      rw [find_applyRules, if_pos ⟨rfl, hfailing⟩, hnew]
      rfl

theorem Adds.merge {part : List Fault} {nested : VErr} (h : Adds part Table.empty nested)
    (n : ℕ) (tags : Tags) (ve : VErr) :
    Adds (part.map (Fault.under n tags)) ve (mergeNested tags.name nested.rows ve) := by
  refine ⟨fun k hk => find_mergeNested_of_forall_ne (fun r hr heq => ?_) ve, ?_, ?_⟩
  · -- a key of the nested error is the key of one of the faults
    have hnested : GoMap.find nested r.1 = some r.2 := GoMap.find_eq_some.mpr hr
    by_cases hpart : ∃ f ∈ part, r.1 = f.key
    · obtain ⟨f, hf, hrf⟩ := hpart
      exact hk _ (List.mem_map_of_mem hf) (by rw [heq, hrf]; rfl)
    · rw [h.frame r.1 fun f hf hrf => hpart ⟨f, hf, hrf⟩, GoMap.find_empty] at hnested
      cases hnested
  · intro f hf
    obtain ⟨g, hg, rfl⟩ := List.mem_map.mp hf
    obtain ⟨msgs, hmsgs⟩ := Option.isSome_iff_exists.mp (h.present g hg)
    rw [Fault.under, find_mergeNested hmsgs]
    rfl
  · intro hnodup f hf _
    obtain ⟨g, hg, rfl⟩ := List.mem_map.mp hf
    have hkeys : (part.map Fault.key).Nodup := by
      refine List.Nodup.of_map (fun k => tags.name ++ '.' :: k) ?_
      rw [List.map_map] at hnodup ⊢
      exact hnodup
    rw [Fault.under, find_mergeNested (h.exact hkeys g hg (GoMap.find_empty _))]

/-- The loop over the fields adds the faults it reaches. -/
theorem adds_validateFields (n : ℕ) (fields : Fields) (ve : VErr) :
    Adds (reached check n fields) ve (validateFields check fields ve) := by
  have hown : ∀ n tags fv, (ownFault check n tags fv).filter Fault.reached =
      ownFault check n tags fv := by
    intro n tags fv
    unfold ownFault
    split_ifs <;> rfl
  induction fields generalizing n ve with
  | nil => exact adds_nil ve
  | scalar tags value rest ih =>
      rw [reached, faults, List.filter_append, hown, validateFields]
      split_ifs with htag
      · have hnone : ownFault check n tags (.scalar value) = [] := if_pos (.inl htag)
        rw [hnone]
        exact ih (n + 1) ve
      · exact (adds_own n tags _ ve htag).trans (ih (n + 1) _)
  | struct tags inner rest ihinner ih =>
      rw [reached, faults, List.filter_append, List.filter_append, hown, validateFields]
      split_ifs with htag
      · have hnone : ownFault check n tags (.struct inner) = [] := if_pos (.inl htag)
        have hinner : ((faults check 0 inner).map (Fault.under n tags)).filter Fault.reached =
            (reached check 0 inner).map (Fault.under n tags) := by
          rw [reached, List.filter_map]
          congr 1
          exact List.filter_congr fun f _ => by simp [Fault.under, htag]
        rw [hnone, List.nil_append, hinner]
        exact ((ihinner 0 Table.empty).merge n tags ve).trans (ih (n + 1) _)
      · have hinner : ((faults check 0 inner).map (Fault.under n tags)).filter Fault.reached =
            [] := by
          simp [Fault.under, htag]
        rw [hinner, List.nil_append]
        exact (adds_own n tags _ ve htag).trans (ih (n + 1) _)

/-! ## The places of the faults -/

theorem path_ownFault {n : ℕ} {tags : Tags} {fv : Value} {f : Fault}
    (h : f ∈ ownFault check n tags fv) : f.path = [n] := by
  unfold ownFault at h
  split_ifs at h with hnone
  · cases h
  · rw [List.mem_singleton.mp h]

theorem path_of_mem_faults {n : ℕ} {fields : Fields} {f : Fault} (h : f ∈ faults check n fields) :
    ∃ i p, n ≤ i ∧ f.path = i :: p := by
  induction fields generalizing n with
  | nil => cases h
  | scalar tags value rest ih =>
      rcases List.mem_append.mp h with h | h
      · exact ⟨n, [], le_rfl, path_ownFault h⟩
      · obtain ⟨i, p, hi, hpath⟩ := ih h
        exact ⟨i, p, Nat.le_of_succ_le hi, hpath⟩
  | struct tags inner rest _ ih =>
      rcases List.mem_append.mp h with h | h
      · exact ⟨n, [], le_rfl, path_ownFault h⟩
      · rcases List.mem_append.mp h with h | h
        · obtain ⟨g, -, rfl⟩ := List.mem_map.mp h
          exact ⟨n, g.path, le_rfl, rfl⟩
        · obtain ⟨i, p, hi, hpath⟩ := ih h
          exact ⟨i, p, Nat.le_of_succ_le hi, hpath⟩

theorem nodup_ownFault (n : ℕ) (tags : Tags) (fv : Value) :
    ((ownFault check n tags fv).map Fault.path).Nodup := by
  unfold ownFault
  split_ifs
  · exact List.nodup_nil
  · exact List.nodup_singleton _

/-- No two faults are at the same place. -/
theorem nodup_paths (n : ℕ) (fields : Fields) :
    ((faults check n fields).map Fault.path).Nodup := by
  have hlater : ∀ {n rest f p}, f ∈ faults check (n + 1) rest → f.path ≠ n :: p := by
    intro n rest f p hf heq
    obtain ⟨i, q, hi, hpath⟩ := path_of_mem_faults hf
    rw [heq] at hpath
    obtain ⟨rfl, -⟩ := List.cons.inj hpath
    exact absurd hi (Nat.not_succ_le_self n)
  induction fields generalizing n with
  | nil => exact List.nodup_nil
  | scalar tags value rest ih =>
      rw [faults, List.map_append]
      refine List.nodup_append.mpr ⟨nodup_ownFault .., ih (n + 1), ?_⟩
      intro p hp q hq
      obtain ⟨f, hf, rfl⟩ := List.mem_map.mp hp
      obtain ⟨g, hg, rfl⟩ := List.mem_map.mp hq
      rw [path_ownFault hf]
      exact (hlater hg).symm
  | struct tags inner rest ihinner ih =>
      have hinner : (((faults check 0 inner).map (Fault.under n tags)).map Fault.path).Nodup := by
        rw [List.map_map]
        have hcons := (ihinner 0).map (List.cons_injective (a := n))
        rwa [List.map_map] at hcons
      rw [faults, List.map_append, List.map_append]
      refine List.nodup_append.mpr ⟨nodup_ownFault ..,
        List.nodup_append.mpr ⟨hinner, ih (n + 1), ?_⟩, ?_⟩
      · intro p hp q hq
        obtain ⟨f, hf, rfl⟩ := List.mem_map.mp hp
        obtain ⟨g, hg, rfl⟩ := List.mem_map.mp hq
        obtain ⟨f', -, rfl⟩ := List.mem_map.mp hf
        exact (hlater hg).symm
      · intro p hp q hq
        obtain ⟨f, hf, rfl⟩ := List.mem_map.mp hp
        rw [path_ownFault hf]
        rcases List.mem_append.mp hq with hq | hq
        · obtain ⟨g, hg, rfl⟩ := List.mem_map.mp hq
          obtain ⟨g', hg', rfl⟩ := List.mem_map.mp hg
          obtain ⟨i, p', -, hpath⟩ := path_of_mem_faults hg'
          simp [Fault.under, hpath]
        · obtain ⟨g, hg, rfl⟩ := List.mem_map.mp hq
          exact (hlater hg).symm

/-! ## Completeness -/

theorem validateStruct_eq_none_iff (fields : Fields) :
    validateStruct check fields = none ↔ reached check 0 fields = [] := by
  have hadds : Adds (reached check 0 fields) Table.empty _ :=
    adds_validateFields 0 fields Table.empty
  have hrows : validateStruct check fields = none ↔
      (validateFields check fields Table.empty).rows = [] := by
    simp [validateStruct]
  rw [hrows]
  constructor
  · intro hnil
    refine List.eq_nil_iff_forall_not_mem.mpr fun f hf => ?_
    obtain ⟨msgs, hmsgs⟩ := Option.isSome_iff_exists.mp (hadds.present f hf)
    have hmem := GoMap.find_eq_some.mp hmsgs
    rw [hnil] at hmem
    cases hmem
  · intro hnil
    refine List.eq_nil_iff_forall_not_mem.mpr fun r hr => ?_
    have hfind := GoMap.find_eq_some.mpr hr
    rw [hadds.frame r.1 (by simp [hnil]), GoMap.find_empty] at hfind
    cases hfind

theorem eq_of_validateStruct {fields : Fields} {ve : VErr}
    (h : validateStruct check fields = some ve) : ve = validateFields check fields Table.empty := by
  simp only [validateStruct] at h
  split_ifs at h
  exact (Option.some.inj h).symm

theorem reached_of_complete {fields : Fields} (h : Complete check fields) :
    (∀ f ∈ faults check 0 fields, f.reached = true) ∧
      ((faults check 0 fields).map Fault.key).Nodup := by
  obtain ⟨key, hinj, hkept⟩ := h.kept
  have hadds : Adds (reached check 0 fields) Table.empty _ :=
    adds_validateFields 0 fields Table.empty
  -- the keys are distinct and each is the key of a fault the code reaches, so there
  -- are at least as many of these as there are faults
  have hnodup : ((faults check 0 fields).map fun f => key f.path).Nodup := by
    have hpaths : ((faults check 0 fields).map Fault.path).Nodup := nodup_paths 0 fields
    refine List.Nodup.map_on (fun f hf g hg hkey => ?_) hpaths.of_map
    exact List.inj_on_of_nodup_map hpaths hf hg (hinj f hf g hg hkey)
  have hsubset : ((faults check 0 fields).map fun f => key f.path) ⊆
      ((reached check 0 fields).map Fault.key).dedup := by
    intro k hk
    obtain ⟨f, hf, rfl⟩ := List.mem_map.mp hk
    obtain ⟨ve, msgs, hve, hfind, -⟩ := hkept f hf
    rw [eq_of_validateStruct hve] at hfind
    rw [List.mem_dedup]
    by_contra hnone
    rw [hadds.frame (key f.path) fun g hg heq => hnone (List.mem_map.mpr ⟨g, hg, heq.symm⟩)]
      at hfind
    cases hfind
  have hle := (hnodup.subperm hsubset).length_le
  have hdedup := (List.dedup_sublist ((reached check 0 fields).map Fault.key)).length_le
  have hfilter : (reached check 0 fields).length ≤ (faults check 0 fields).length :=
    List.length_filter_le _ _
  rw [List.length_map] at hle hdedup
  have hreached : ∀ f ∈ faults check 0 fields, f.reached = true :=
    List.length_filter_eq_length_iff.mp (le_antisymm hfilter (hle.trans hdedup))
  refine ⟨hreached, ?_⟩
  have hall : reached check 0 fields = faults check 0 fields :=
    List.filter_eq_self.mpr hreached
  rw [hall] at hle
  rw [← List.dedup_eq_self]
  refine (List.dedup_sublist _).eq_of_length_le ?_
  rwa [List.length_map]

/-- The key the code uses for the fault at a place. -/
def keyAt (faults : List Fault) (path : List ℕ) : Text :=
  ((faults.find? fun f => f.path = path).map Fault.key).getD []

theorem keyAt_path {l : List Fault} (h : (l.map Fault.path).Nodup) {f : Fault} (hf : f ∈ l) :
    keyAt l f.path = f.key := by
  obtain ⟨g, hg⟩ := Option.isSome_iff_exists.mp
    (List.find?_isSome.mpr ⟨f, hf, by simp⟩ : (l.find? fun g => g.path = f.path).isSome = true)
  have hpath : g.path = f.path := by simpa using List.find?_some hg
  have heq : g = f := List.inj_on_of_nodup_map h (List.mem_of_find?_eq_some hg) hf hpath
  rw [keyAt, hg, heq]
  rfl

/-- Nothing is skipped or lost exactly if no failing field is inside a struct field
with a `validate` tag, and the failing fields have different keys. -/
theorem validation_complete_iff (check : Text → Value → Text) (fields : Fields) :
    Complete check fields ↔
      (∀ f ∈ faults check 0 fields, f.reached = true) ∧
        ((faults check 0 fields).map Fault.key).Nodup := by
  refine ⟨reached_of_complete, fun ⟨hreached, hkeys⟩ => ?_⟩
  have hall : reached check 0 fields = faults check 0 fields :=
    List.filter_eq_self.mpr hreached
  have hnil : validateStruct check fields = none ↔ reached check 0 fields = [] :=
    validateStruct_eq_none_iff fields
  have hadds : Adds (reached check 0 fields) Table.empty _ :=
    adds_validateFields 0 fields Table.empty
  have hpath : ∀ f ∈ faults check 0 fields, keyAt (faults check 0 fields) f.path = f.key :=
    fun f hf => keyAt_path (nodup_paths 0 fields) hf
  rw [hall] at hnil hadds
  refine ⟨hnil, keyAt (faults check 0 fields), fun f hf g hg hkey => ?_, fun f hf => ?_⟩
  · rw [hpath f hf, hpath g hg] at hkey
    rw [List.inj_on_of_nodup_map hkeys hf hg hkey]
  · obtain ⟨ve, hve⟩ := Option.ne_none_iff_exists'.mp
      (fun hnone => List.ne_nil_of_mem hf (hnil.mp hnone))
    refine ⟨ve, f.msgs, hve, ?_, List.Sublist.refl _⟩
    rw [eq_of_validateStruct hve, hpath f hf]
    exact hadds.exact hkeys f hf (GoMap.find_empty _)

end Faults

/-- No rule uses another package. -/
def noChecks : Checks := ⟨fun _ => .ok fun _ => true, fun _ => [], fun _ => [], fun _ _ => [],
  fun _ _ => []⟩

/-- An address whose postcode is missing, in a field that is required. -/
def taggedOrder : Fields :=
  .struct ⟨"Address".toList, [], "required".toList⟩
    (.scalar ⟨"City".toList, [], []⟩ (.string "Oslo".toList)
      (.scalar ⟨"Zip".toList, [], "required".toList⟩ (.string []) .nil)) .nil

/-- A field that is renamed to the key of a nested one. -/
def renamedOrder : Fields :=
  .scalar ⟨"Label".toList, "Address.Zip".toList, "required".toList⟩ (.string [])
    (.struct ⟨"Address".toList, [], []⟩
      (.scalar ⟨"Zip".toList, [], "oneof=0150|0151".toList⟩ (.string "9".toList) .nil) .nil)

/-- The first order passes; the second has two failing fields, and one message. -/
theorem tagged_struct_passes :
    validate noChecks taggedOrder = none ∧
      (faults (applyRule noChecks) 0 taggedOrder).map Fault.key = ["Address.Zip".toList] ∧
      (validate noChecks renamedOrder).map Table.rows =
        some [("Address.Zip".toList, ["must be one of [0150, 0151]".toList])] ∧
      (faults (applyRule noChecks) 0 renamedOrder).map Fault.msgs =
        [["is required".toList], ["must be one of [0150, 0151]".toList]] := by
  decide

end Gkit.Validation
