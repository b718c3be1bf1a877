import Gkit.Feature.Model
import Gkit.Lib.Runs

/-!
# Listing the flags of a namespace

Stores share one keyspace.  A key is the namespace, a separator that may occur in
both parts, and the name; `ListAll` turns the namespace into a glob pattern and
cuts a fixed number of characters off each key it finds.  The listing is the map
of the store's own flags in every run exactly if the pattern matches all keys of
the store and no key another store can write.
-/

namespace Gkit.Feature

open Gkit.Lib Gkit.Lib.Redis

inductive Call where
  | set (name : Text) (flag : Flag) (now : ℤ)
  | delete (name : Text)

section Runs

variable {ι : Type} (json : Json) (stores : ι → Store)

/-- A call on one of the stores. -/
def exec (db : Keyspace) : ι × Call → Keyspace
  | (i, .set name flag now) => ((stores i).set json none now name flag db).1
  | (i, .delete name) => ((stores i).delete none name db).1

def execAll (calls : List (ι × Call)) : Keyspace := calls.foldl (exec json stores) Table.empty

/-- What a call does to the flags of one store. -/
def note [DecidableEq ι] (i : ι) (flags : Text → Option Flag) :
    ι × Call → Text → Option Flag
  | (j, .set name flag now) =>
      if j = i then Function.update flags name (some { flag with updatedAt := now }) else flags
  | (j, .delete name) => if j = i then Function.update flags name none else flags

/-- The flags last set through a store and not deleted since. -/
def current [DecidableEq ι] (i : ι) (calls : List (ι × Call)) : Text → Option Flag :=
  calls.foldl (note i) fun _ => none

/-- The JSON text of every flag that is set decodes to that flag. -/
def RoundTrips (calls : List (ι × Call)) : Prop :=
  ∀ j name flag now, (j, Call.set name flag now) ∈ calls →
    ∃ raw, json.marshal { flag with updatedAt := now } = .ok raw ∧
      json.unmarshal raw = .ok { flag with updatedAt := now }

/-- The pattern of a store matches its own keys and those of no other store. -/
structure Listable (i : ι) : Prop where
  own : ∀ name, Glob.isMatch (stores i).pattern ((stores i).key name) = true
  foreign : ∀ j, j ≠ i → ∀ name, Glob.isMatch (stores i).pattern ((stores j).key name) = false

/-! ## Keys -/

theorem key_eq (s : Store) (name : Text) : s.key name = s.key [] ++ name := by
  simp [Store.key]

theorem key_inj {s : Store} {name name' : Text} : s.key name = s.key name' ↔ name = name' :=
  List.append_right_inj _

variable {json stores} {i : ι}

theorem Listable.key_ne (h : Listable stores i) {j : ι} (hj : j ≠ i) (name name' : Text) :
    (stores j).key name ≠ (stores i).key name' := by
  intro heq
  have hno := h.foreign j hj name
  rw [heq, h.own] at hno
  cases hno

/-- Namespaces without special characters of which none is, with the separator, the
beginning of another. -/
theorem listable_of_plain (hplain : ∀ ch ∈ (stores i).ns, Glob.isSpecial ch = false)
    (hapart : ∀ j, j ≠ i → ¬(stores i).key [] <+: (stores j).key [] ∧
      ¬(stores j).key [] <+: (stores i).key []) : Listable stores i := by
  have hspecial : ∀ ch ∈ (stores i).key [], Glob.isSpecial ch = false := by
    intro ch hch
    simp only [Store.key, List.append_nil, List.mem_append] at hch
    rcases hch with hch | hch
    · exact hplain ch hch
    · exact Bool.eq_false_iff.mpr (List.any_eq_false.mp (by decide) ch hch)
  have hmatch : ∀ k, Glob.isMatch (stores i).pattern k = true ↔ (stores i).key [] <+: k := by
    rw [Store.pattern, key_eq]
    exact (Glob.isMatch_star_iff _).mpr hspecial
  refine ⟨fun name => ?_, fun j hj name => ?_⟩
  · rw [hmatch, key_eq _ name]
    exact List.prefix_append _ _
  · rw [Bool.eq_false_iff, Ne, hmatch, key_eq _ name]
    intro hpre
    rcases List.prefix_or_prefix_of_prefix hpre (List.prefix_append _ name) with h | h
    · exact (hapart j hj).1 h
    · exact (hapart j hj).2 h

/-! ## The keyspace in a run -/

/-- The flag whose JSON text a key holds. -/
def decoded (json : Json) (db : Keyspace) (k : Text) : Option Flag :=
  match db.get k with
  | .bulk raw => (json.unmarshal raw).toOption
  | _ => none

theorem decoded_set (db : Keyspace) (key raw k : Text) :
    decoded json (db.set key raw) k =
      if k = key then (json.unmarshal raw).toOption else decoded json db k := by
  simp only [decoded, Keyspace.get, Keyspace.find_set]
  split_ifs <;> rfl

theorem decoded_del (db : Keyspace) (keys : List Text) (k : Text) :
    decoded json (db.del keys) k = if k ∈ keys then none else decoded json db k := by
  simp only [decoded, Keyspace.get, Keyspace.find_del]
  split_ifs <;> rfl

theorem isSome_find_of_decoded {db : Keyspace} {k : Text} {f : Flag}
    (h : decoded json db k = some f) : (GoMap.find db k).isSome = true := by
  unfold decoded Keyspace.get at h
  cases hfind : GoMap.find db k with
  | none => simp [hfind] at h
  | some v => rfl

/-- The keyspace holds the flags of the store, and every key is a key of some store. -/
structure Holds (json : Json) (stores : ι → Store) (i : ι) (db : Keyspace)
    (flags : Text → Option Flag) : Prop where
  own : ∀ name, decoded json db ((stores i).key name) = flags name
  keys : ∀ k, (GoMap.find db k).isSome = true → ∃ j name, k = (stores j).key name

variable [DecidableEq ι]

theorem Holds.exec {db : Keyspace} {flags : Text → Option Flag} {x : ι × Call}
    (h : Holds json stores i db flags) (hlist : Listable stores i) (hx : RoundTrips json [x]) :
    Holds json stores i (exec json stores db x) (note i flags x) := by
  obtain ⟨j, call⟩ := x
  have hkey : ∀ name name', (stores i).key name = (stores j).key name' ↔ j = i ∧ name = name' := by
    intro name name'
    by_cases hj : j = i
    · subst hj
      simp [key_inj]
    · exact iff_of_false (fun heq => hlist.key_ne hj name' name heq.symm) fun hand => hj hand.1
  cases call with
  | set name flag now =>
      obtain ⟨raw, hmarshal, hunmarshal⟩ := hx j name flag now List.mem_cons_self
      have hexec : Feature.exec json stores db (j, .set name flag now) =
          db.set ((stores j).key name) raw := by
        simp [Feature.exec, Store.set, hmarshal]
      rw [hexec]
      refine ⟨fun name' => ?_, fun k hk => ?_⟩
      · rw [decoded_set, h.own, hunmarshal, note]
        simp only [hkey, Except.toOption]
        by_cases hj : j = i
        · simp [hj, Function.update_apply]
        · simp [hj]
      · rw [Keyspace.find_set] at hk
        split_ifs at hk with hkk
        · exact ⟨j, name, hkk⟩
        · exact h.keys k hk
  | delete name =>
      have hexec : Feature.exec json stores db (j, .delete name) = db.del [(stores j).key name] :=
        rfl
      rw [hexec]
      refine ⟨fun name' => ?_, fun k hk => ?_⟩
      · rw [decoded_del, h.own, note]
        simp only [List.mem_singleton, hkey]
        by_cases hj : j = i
        · simp [hj, Function.update_apply]
        · simp [hj]
      · rw [Keyspace.find_del] at hk
        split_ifs at hk with hkk
        · cases hk
        · exact h.keys k hk

theorem holds_execAll (hlist : Listable stores i) {calls : List (ι × Call)}
    (hcalls : RoundTrips json calls) :
    Holds json stores i (execAll json stores calls) (current i calls) := by
  induction calls using List.reverseRecOn with
  | nil => exact ⟨fun _ => rfl, fun k hk => absurd hk (by simp [execAll])⟩
  | append_singleton calls x ih =>
      have hbefore := ih fun j name flag now hmem =>
        hcalls j name flag now (List.mem_append_left _ hmem)
      have hx : RoundTrips json [x] := fun j name flag now hmem =>
        hcalls j name flag now (List.mem_append_right _ hmem)
      rw [execAll, current, List.foldl_append, List.foldl_append]
      exact hbefore.exec hlist hx

/-! ## The listing -/

theorem listKeys_cons (s : Store) (db : Keyspace) (k : Text) (ks : List Text)
    (flags : GoMap Text Flag) :
    s.listKeys json db (k :: ks) flags =
      match decoded json db k with
      | none => s.listKeys json db ks flags
      | some f =>
          if k.length < (s.key []).length then none
          else s.listKeys json db ks (flags.insert (k.drop (s.key []).length) f) := by
  rw [Store.listKeys, decoded]
  rcases db.get k with _ | raw | err
  · rfl
  · rcases hraw : json.unmarshal raw with err | f <;> simp [hraw, Except.toOption]
  · rfl

/-- The loop over keys of the store itself. -/
theorem listKeys_own (s : Store) (db : Keyspace) {ks : List Text}
    (hks : ∀ k ∈ ks, ∃ name, k = s.key name) (flags : GoMap Text Flag) :
    ∃ flags', s.listKeys json db ks flags = some flags' ∧
      ∀ name, flags'.find name = if s.key name ∈ ks
        then (decoded json db (s.key name)).or (flags.find name) else flags.find name := by
  induction ks generalizing flags with
  | nil => exact ⟨flags, rfl, fun name => by simp⟩
  | cons k ks ih =>
      obtain ⟨name, rfl⟩ := hks k List.mem_cons_self
      have hrest := fun k hk => hks k (List.mem_cons_of_mem _ hk)
      have hlength : ¬(s.key name).length < (s.key []).length := by
        rw [key_eq s name, List.length_append]
        omega
      have hdrop : (s.key name).drop (s.key []).length = name := by
        rw [key_eq s name, List.drop_left]
      rw [listKeys_cons]
      cases hdecoded : decoded json db (s.key name) with
      | none =>
          obtain ⟨flags', hflags', hfind⟩ := ih hrest flags
          refine ⟨flags', hflags', fun name' => ?_⟩
          rw [hfind]
          by_cases hname : name' = name
          · simp [hname, hdecoded]
          · simp [key_inj, hname]
      | some f =>
          simp only [if_neg hlength, hdrop]
          obtain ⟨flags', hflags', hfind⟩ := ih hrest (flags.insert name f)
          refine ⟨flags', hflags', fun name' => ?_⟩
          rw [hfind, GoMap.find_insert]
          by_cases hname : name' = name
          · simp [hname, hdecoded]
          · simp [key_inj, hname]

theorem listAll_exact (hlist : Listable stores i) {calls : List (ι × Call)}
    (hcalls : RoundTrips json calls) {pages : List (List Text)}
    (hscan : (execAll json stores calls).Scans (stores i).pattern pages) :
    ∃ flags, (stores i).listAll json (execAll json stores calls) pages = some flags ∧
      ∀ name, flags.find name = current i calls name := by
  have hholds := holds_execAll hlist hcalls
  have hks : ∀ k ∈ pages.flatten, ∃ name, k = (stores i).key name := by
    intro k hk
    obtain ⟨hfind, hmatch⟩ := (hscan.mem_iff k).mp hk
    obtain ⟨j, name, rfl⟩ := hholds.keys k hfind
    by_cases hj : j = i
    · exact ⟨name, by rw [hj]⟩
    · rw [hlist.foreign j hj] at hmatch
      cases hmatch
  obtain ⟨flags, hflags, hfind⟩ :=
    listKeys_own (stores i) (execAll json stores calls) hks Table.empty
  refine ⟨flags, hflags, fun name => ?_⟩
  rw [hfind, hholds.own, GoMap.find_empty, Option.or_none]
  split_ifs with hmem
  · rfl
  · cases hname : current i calls name with
    | none => rfl
    | some f =>
        have hsome := isSome_find_of_decoded ((hholds.own name).trans hname)
        exact absurd ((hscan.mem_iff _).mpr ⟨hsome, hlist.own name⟩) hmem

/-! ## Namespaces that are not listable -/

/-- A codec for a single flag. -/
def singleFlag (f : Flag) : Json := ⟨fun _ => .ok [], fun _ => .ok f⟩

omit [DecidableEq ι] in
theorem roundTrips_single (f : Flag) (j : ι) (name : Text) :
    RoundTrips (singleFlag f) [(j, .set name f f.updatedAt)] := by
  intro j' name' flag now hmem
  obtain ⟨-, rfl, rfl, rfl⟩ : j' = j ∧ name' = name ∧ flag = f ∧ now = f.updatedAt := by
    simpa using hmem
  exact ⟨[], rfl, rfl⟩

variable (stores)

omit [DecidableEq ι] in
/-- One flag that is set, and the listing of a scan in one page. -/
theorem listAll_single (f : Flag) (i j : ι) (name : Text) :
    (stores i).listAll (singleFlag f)
        (execAll (singleFlag f) stores [(j, .set name f f.updatedAt)])
        [((execAll (singleFlag f) stores [(j, .set name f f.updatedAt)]).rows.map Prod.fst).filter
          (Glob.isMatch (stores i).pattern)] =
      if Glob.isMatch (stores i).pattern ((stores j).key name) = true then
        if ((stores j).key name).length < ((stores i).key []).length then none
        else
          some (GoMap.insert Table.empty (((stores j).key name).drop ((stores i).key []).length) f)
      else some Table.empty := by
  have hdb : execAll (singleFlag f) stores [(j, .set name f f.updatedAt)] =
      Keyspace.set Table.empty ((stores j).key name) [] := rfl
  have hrows : ((Keyspace.set Table.empty ((stores j).key name) []).rows.map Prod.fst) =
      [(stores j).key name] := rfl
  have hdecoded : decoded (singleFlag f) (Keyspace.set Table.empty ((stores j).key name) [])
      ((stores j).key name) = some f := by
    rw [decoded_set, if_pos rfl]
    rfl
  rw [hdb, hrows, Store.listAll, List.flatten_singleton]
  split_ifs with hmatch hlength
  · rw [List.filter_singleton, hmatch, cond_true, listKeys_cons, hdecoded]
    exact if_pos hlength
  · rw [List.filter_singleton, hmatch, cond_true, listKeys_cons, hdecoded]
    exact if_neg hlength
  · rw [List.filter_singleton, Bool.eq_false_iff.mpr hmatch]
    rfl

/-- In every run of calls on the stores, `ListAll` of a store returns its current
flags, exactly if the pattern of its namespace matches its own keys and no key of
another store.  It does so if the namespace has no special character and, with the
separator, neither begins that of another store nor is begun by it. -/
theorem listing_exact_iff (i : ι) :
    ((∀ (json : Json) (calls : List (ι × Call)) (pages : List (List Text)),
        RoundTrips json calls → (execAll json stores calls).Scans (stores i).pattern pages →
        ∃ flags, (stores i).listAll json (execAll json stores calls) pages = some flags ∧
          ∀ name, flags.find name = current i calls name) ↔
      Listable stores i) ∧
    ((∀ ch ∈ (stores i).ns, Glob.isSpecial ch = false) →
      (∀ j, j ≠ i → ¬(stores i).key [] <+: (stores j).key [] ∧
        ¬(stores j).key [] <+: (stores i).key []) → Listable stores i) := by
  refine ⟨⟨fun hall => ?_, fun hlist json calls pages hcalls hscan => ?_⟩, listable_of_plain⟩
  · have hsingle := fun j name => hall (singleFlag ⟨true, 0, [], 0⟩) _ _
      (roundTrips_single ⟨true, 0, [], 0⟩ j name) (Keyspace.scans_onePage _ _)
    refine ⟨fun name => ?_, fun j hj name => ?_⟩
    · -- a key of its own that the pattern misses is not listed
      by_contra hmatch
      obtain ⟨flags, hflags, hfind⟩ := hsingle i name
      rw [listAll_single, if_neg hmatch] at hflags
      have hname := hfind name
      rw [← Option.some.inj hflags] at hname
      simp [current, note] at hname
    · -- a key of another store that the pattern matches is listed, or panics
      by_contra hmatch
      obtain ⟨flags, hflags, hfind⟩ := hsingle j name
      rw [listAll_single, if_pos (Bool.eq_true_of_not_eq_false hmatch)] at hflags
      split_ifs at hflags with hlength
      have hname := hfind (((stores j).key name).drop ((stores i).key []).length)
      rw [← Option.some.inj hflags, GoMap.find_insert, if_pos rfl] at hname
      simp [current, note, hj] at hname
  · exact listAll_exact hlist hcalls hscan

end Runs

def apart : Fin 2 → Store := ![⟨"orders".toList⟩, ⟨"users".toList⟩]

theorem apart_listed :
    ∀ (json : Json) (calls : List (Fin 2 × Call)) (pages : List (List Text)),
      RoundTrips json calls → (execAll json apart calls).Scans (apart 0).pattern pages →
      ∃ flags, (apart 0).listAll json (execAll json apart calls) pages = some flags ∧
        ∀ name, flags.find name = current 0 calls name := by
  have hplain : ∀ ch ∈ (apart 0).ns, Glob.isSpecial ch = false :=
    fun ch hch => Bool.eq_false_iff.mpr (List.any_eq_false.mp (by decide) ch hch)
  exact (listing_exact_iff apart 0).1.mpr ((listing_exact_iff apart 0).2 hplain (by decide))

/-- Two stores without special characters, and two with a star. -/
def nested : Fin 2 → Store := ![⟨"a".toList⟩, ⟨"a:flags:b".toList⟩]
def starred : Fin 2 → Store := ![⟨"a*".toList⟩, ⟨"a".toList⟩]

def onFlag : Flag := ⟨true, 0, [], 0⟩

/-- The first store lists a flag of the second, or panics over it. -/
theorem foreign_flags_listed :
    (nested 0).listAll (singleFlag onFlag)
        (execAll (singleFlag onFlag) nested [(1, .set "x".toList onFlag 0)])
        [["a:flags:b:flags:x".toList]] =
      some (GoMap.insert Table.empty "b:flags:x".toList onFlag) ∧
    (execAll (singleFlag onFlag) nested [(1, .set "x".toList onFlag 0)]).Scans (nested 0).pattern
      [["a:flags:b:flags:x".toList]] ∧
    current 0 [((1 : Fin 2), Call.set "x".toList onFlag 0)] "b:flags:x".toList = none ∧
    (starred 0).listAll (singleFlag onFlag)
        (execAll (singleFlag onFlag) starred [(1, .set [] onFlag 0)]) [["a:flags:".toList]] =
      none ∧
    (execAll (singleFlag onFlag) starred [(1, .set [] onFlag 0)]).Scans (starred 0).pattern
      [["a:flags:".toList]] := by
  have hnested := Keyspace.scans_onePage
    (execAll (singleFlag onFlag) nested [(1, .set "x".toList onFlag 0)]) (nested 0).pattern
  have hstarred := Keyspace.scans_onePage
    (execAll (singleFlag onFlag) starred [(1, .set [] onFlag 0)]) (starred 0).pattern
  exact ⟨rfl, hnested, rfl, rfl, hstarred⟩

end Gkit.Feature
