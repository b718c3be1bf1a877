import Gkit.Lib.Maps
import Gkit.PubSub.Registry

/-!
# The topics of the bus

`subs` as the map it is: a topic keeps its key when its last handler is removed,
and a loop over the map visits the keys in any order.  The functions that end a
subscription may be called again here, which finds no handler to remove.
-/

namespace Gkit.PubSub

open Gkit.Lib

variable {ι κ P : Type}

structure Directory (ι : Type) where
  subs : GoMap String (List ι)
  /-- The topic that the function returned for a handler has captured. -/
  topicOf : ι → Option String

inductive Op (ι : Type) where
  | subscribe (h : ι) (topic : String)
  | unsubscribe (h : ι)
  deriving DecidableEq, Repr

namespace Directory

def new : Directory ι := ⟨Table.empty, fun _ => none⟩

/-- The entry of a topic, nil where there is none. -/
def handlers (d : Directory ι) (topic : String) : List ι := (d.subs.find topic).getD []

variable [DecidableEq ι]

/-- Each call makes a handler of its own. -/
def subscribe (d : Directory ι) (h : ι) (topic : String) : Option (Directory ι) :=
  match d.topicOf h with
  | none => some ⟨d.subs.insert topic (d.handlers topic ++ [h]),
      Function.update d.topicOf h (some topic)⟩
  | some _ => none

def unsubscribe (d : Directory ι) (h : ι) : Option (Directory ι) :=
  (d.topicOf h).map fun topic =>
    if h ∈ d.handlers topic then
      { d with subs := d.subs.insert topic ((d.handlers topic).erase h) }
    else d

def step (d : Directory ι) : Op ι → Option (Directory ι)
  | .subscribe h topic => d.subscribe h topic
  | .unsubscribe h => d.unsubscribe h

end Directory

/-- The loop of `Topics`, over the entries in the order in which it comes to them. -/
def topics (entries : List (String × List ι)) : List String :=
  entries.foldl (fun topics e => if 0 < e.2.length then topics ++ [e.1] else topics) []

theorem topics_eq (entries : List (String × List ι)) :
    topics entries = (entries.filter fun e => 0 < e.2.length).map Prod.fst := by
  have hfold (acc : List String) :
      entries.foldl (fun topics e => if 0 < e.2.length then topics ++ [e.1] else topics) acc =
        acc ++ (entries.filter fun e => 0 < e.2.length).map Prod.fst := by
    induction entries generalizing acc with
    | nil => simp
    | cons e entries ih =>
        by_cases he : 0 < e.2.length
        · simp [ih, he]
        · simp [ih, he]
  exact hfold []

/-! ## The live subscriptions -/

/-- Subscribed to the topic, and not ended. -/
def Live (ops : List (Op ι)) (topic : String) (h : ι) : Prop :=
  .subscribe h topic ∈ ops ∧ .unsubscribe h ∉ ops

theorem Directory.handlers_insert (d : Directory ι) (topicOf : ι → Option String)
    (topic topic' : String) (hs : List ι) :
    (⟨d.subs.insert topic hs, topicOf⟩ : Directory ι).handlers topic' =
      if topic' = topic then hs else d.handlers topic' := by
  rw [handlers, GoMap.find_insert]
  split_ifs <;> rfl

/-- What the map says about the calls so far. -/
structure Recorded (d : Directory ι) (ops : List (Op ι)) : Prop where
  nodup : ∀ topic, (d.handlers topic).Nodup
  mem : ∀ topic h, h ∈ d.handlers topic ↔ Live ops topic h
  topicOf : ∀ h topic, d.topicOf h = some topic ↔ .subscribe h topic ∈ ops
  ended : ∀ h, .unsubscribe h ∈ ops → (d.topicOf h).isSome

section

variable [DecidableEq ι] {d d' : Directory ι} {ops : List (Op ι)}

omit [DecidableEq ι] in
theorem Recorded.fresh (hd : Recorded d ops) {h : ι} (hnew : d.topicOf h = none) :
    (∀ topic, .subscribe h topic ∉ ops) ∧ .unsubscribe h ∉ ops := by
  refine ⟨fun topic hmem => ?_, fun hmem => ?_⟩
  · have htopic := (hd.topicOf h topic).mpr hmem
    rw [hnew] at htopic
    cases htopic
  · have hsome := hd.ended h hmem
    rw [hnew] at hsome
    cases hsome

theorem Recorded.subscribe (hd : Recorded d ops) {h : ι} (hnew : d.topicOf h = none)
    (topic : String) :
    Recorded ⟨d.subs.insert topic (d.handlers topic ++ [h]),
        Function.update d.topicOf h (some topic)⟩
      (ops ++ [.subscribe h topic]) where
  nodup topic' := by
    have habsent : h ∉ d.handlers topic :=
      fun hmem => (hd.fresh hnew).1 topic ((hd.mem topic h).mp hmem).1
    rw [Directory.handlers_insert]
    split_ifs
    · rw [← List.concat_eq_append]
      exact (hd.nodup topic).concat habsent
    · exact hd.nodup topic'
  mem topic' g := by
    have hlive := (hd.fresh hnew).2
    rw [Directory.handlers_insert]
    have hmem := hd.mem topic' g
    unfold Live at hmem ⊢
    by_cases hg : g = h
    · subst hg
      split_ifs with ht
      · simp [ht, hlive]
      · simp [ht, hmem]
    · split_ifs with ht
      · subst ht
        simp [hg, hmem]
      · simp [ht, hmem]
  topicOf g topic' := by
    by_cases hg : g = h
    · subst hg
      have hnone := (hd.fresh hnew).1 topic'
      simp [hnone, eq_comm]
    · simp [hg, hd.topicOf]
  ended g hg := by
    by_cases hgh : g = h
    · simp [hgh]
    · simpa [hgh] using hd.ended g (by simpa using hg)

omit [DecidableEq ι] in
theorem Recorded.not_mem_of_ne (hd : Recorded d ops) {h : ι} {topic topic' : String}
    (htopic : d.topicOf h = some topic) (hne : topic' ≠ topic) : h ∉ d.handlers topic' := by
  intro hmem
  have hsub := (hd.topicOf h topic').mpr ((hd.mem topic' h).mp hmem).1
  exact hne (Option.some.inj (hsub.symm.trans htopic))

/-- A second call finds no handler, and the list without `h` is the list. -/
theorem Recorded.handlers_unsubscribe (hd : Recorded d ops) {h : ι} {topic : String}
    (htopic : d.topicOf h = some topic) (topic' : String) :
    (if h ∈ d.handlers topic then
      { d with subs := d.subs.insert topic ((d.handlers topic).erase h) } else d).handlers topic' =
        (d.handlers topic').erase h := by
  have hother : topic' ≠ topic → h ∉ d.handlers topic' := hd.not_mem_of_ne htopic
  by_cases hmem : h ∈ d.handlers topic
  · rw [if_pos hmem, Directory.handlers_insert]
    split_ifs with ht
    · rw [ht]
    · exact (List.erase_of_not_mem (hother ht)).symm
  · rw [if_neg hmem]
    by_cases ht : topic' = topic
    · exact (List.erase_of_not_mem (ht ▸ hmem)).symm
    · exact (List.erase_of_not_mem (hother ht)).symm

theorem Recorded.unsubscribe (hd : Recorded d ops) {h : ι} {topic : String}
    (htopic : d.topicOf h = some topic) :
    Recorded (if h ∈ d.handlers topic then
      { d with subs := d.subs.insert topic ((d.handlers topic).erase h) } else d)
      (ops ++ [.unsubscribe h]) := by
  have hhandlers := hd.handlers_unsubscribe htopic
  have htopics : (if h ∈ d.handlers topic then
      { d with subs := d.subs.insert topic ((d.handlers topic).erase h) } else d).topicOf =
        d.topicOf := by
    split_ifs <;> rfl
  refine ⟨fun topic' => ?_, fun topic' g => ?_, fun g topic' => ?_, fun g hg => ?_⟩
  · rw [hhandlers]
    exact (hd.nodup topic').erase h
  · rw [hhandlers, (hd.nodup topic').mem_erase_iff, hd.mem]
    simp only [Live, List.mem_append, List.mem_singleton, Op.unsubscribe.injEq, reduceCtorEq,
      or_false]
    tauto
  · rw [htopics, hd.topicOf]
    simp
  · rw [htopics]
    rcases List.mem_append.mp hg with hold | hnow
    · exact hd.ended g hold
    · obtain rfl := Op.unsubscribe.inj (List.mem_singleton.mp hnow)
      rw [htopic]
      rfl

theorem Recorded.step {x : Op ι} (hd : Recorded d ops) (h : d.step x = some d') :
    Recorded d' (ops ++ [x]) := by
  cases x with
  | subscribe g topic =>
      simp only [Directory.step, Directory.subscribe] at h
      cases hg : d.topicOf g with
      | none =>
          simp only [hg, Option.some.injEq] at h
          exact h ▸ hd.subscribe hg topic
      | some topic' => simp [hg] at h
  | unsubscribe g =>
      obtain ⟨topic, hg, rfl⟩ := Option.map_eq_some_iff.mp h
      exact hd.unsubscribe hg

theorem recorded_of_run (h : run Directory.step .new ops = some d) : Recorded d ops := by
  refine run_history (fun _ _ _ _ hd hstep => hd.step hstep) ?_ h
  exact ⟨fun _ => List.nodup_nil, fun _ _ => by simp [Live, Directory.handlers, Directory.new],
    fun _ _ => by simp [Directory.new], fun _ hmem => nomatch hmem⟩

end

/-! ## The map and the runs of the bus -/

/-- What an action of the bus does to the map. -/
def registration : Action ι κ P → List (Op ι)
  | .subscribe h topic _ => [.subscribe h topic]
  | .remove h => [.unsubscribe h]
  | _ => []

/-- The handlers of every topic are the same. -/
structure Mirrors (d : Directory ι) (s : Sys ι κ P) : Prop where
  handlers : ∀ topic, d.handlers topic = s.subs topic
  topicOf : ∀ h, d.topicOf h = (s.handlers h).map Subscription.topic

section

variable [DecidableEq ι] [DecidableEq κ] {d : Directory ι} {s s' : Sys ι κ P} {x : Action ι κ P}

omit [DecidableEq κ] in
theorem Mirrors.setSub (hd : Mirrors d s) {h : ι} {sub sub' : Subscription κ P}
    (hsub : s.handlers h = some sub) (htopic : sub'.topic = sub.topic) :
    Mirrors d (s.setSub h sub') := by
  refine ⟨hd.handlers, fun g => ?_⟩
  rw [hd.topicOf]
  by_cases hg : g = h
  · subst hg
    simp [Sys.setSub, hsub, htopic]
  · simp [Sys.setSub, hg]

omit [DecidableEq ι] in
theorem Mirrors.setCall (hd : Mirrors d s) (p : κ) (call : Publish ι P) :
    Mirrors d (s.setCall p call) :=
  ⟨hd.handlers, hd.topicOf⟩

theorem Mirrors.step {ops : List (Op ι)} (hd : Mirrors d s) (hl : Recorded d ops)
    (hstep : s.step x = some s') :
    ∃ d', run Directory.step d (registration x) = some d' ∧ Mirrors d' s' := by
  obtain ⟨es, -, heffect⟩ := effect_of_step hstep
  cases heffect with
  | @subscribed h topic bufSize hnew =>
      have htopic : d.topicOf h = none := by rw [hd.topicOf, hnew]; rfl
      refine ⟨_, run_cons_eq_some.mpr ⟨_, by rw [Directory.step, Directory.subscribe, htopic], rfl⟩,
        fun topic' => ?_, fun g => ?_⟩
      · change _ = Function.update s.subs topic (s.subs topic ++ [h]) topic'
        rw [Directory.handlers_insert, Function.update_apply, hd.handlers, hd.handlers]
      · by_cases hg : g = h
        · subst hg
          simp [Sys.setSub, Subscription.new]
        · simp [Sys.setSub, hg, hd.topicOf]
  | @removed h sub hsub hun =>
      have htopic : d.topicOf h = some sub.topic := by rw [hd.topicOf, hsub]; rfl
      refine ⟨_, run_cons_eq_some.mpr ⟨_, by rw [Directory.step, Directory.unsubscribe, htopic,
        Option.map_some], rfl⟩, fun topic => ?_, fun g => ?_⟩
      · change _ = Function.update s.subs sub.topic ((s.subs sub.topic).erase h) topic
        rw [hl.handlers_unsubscribe htopic, Function.update_apply, hd.handlers]
        split_ifs with ht
        · rw [ht]
        · rw [← hd.handlers]
          exact List.erase_of_not_mem (hl.not_mem_of_ne htopic ht)
      · have hsame : Mirrors d (s.setSub h { sub with unsubscribe := .removed }) :=
          hd.setSub hsub rfl
        rw [← hsame.topicOf g]
        split_ifs <;> rfl
  | published hp => exact ⟨d, rfl, hd.setCall _ _⟩
  | returned hp => exact ⟨d, rfl, hd.setCall _ _⟩
  | panicked hp hsub hclosed => exact ⟨d, rfl, hd.setCall _ _⟩
  | dropped hp hsub hopen hbusy hfull => exact ⟨d, rfl, hd.setCall _ _⟩
  | handed hp hsub hopen hparked =>
      refine ⟨d, rfl, Mirrors.setCall ?_ _ _⟩
      exact hd.setSub hsub rfl
  | queued hp hsub hopen hbusy hroom =>
      refine ⟨d, rfl, Mirrors.setCall ?_ _ _⟩
      exact hd.setSub hsub rfl
  | cancelled hsub hun => exact ⟨d, rfl, hd.setSub hsub rfl⟩
  | closed hsub hun hopen => exact ⟨d, rfl, hd.setSub hsub rfl⟩
  | closePanics hsub hun hclosed => exact ⟨d, rfl, hd.setSub hsub rfl⟩
  | parked hsub hparks hdone hbuf hopen => exact ⟨d, rfl, hd.setSub hsub rfl⟩
  | took hsub htakes hbuf => exact ⟨d, rfl, hd.setSub hsub rfl⟩
  | drained hsub htakes hbuf hclosed => exact ⟨d, rfl, hd.setSub hsub rfl⟩
  | quit hsub hquits hdone => exact ⟨d, rfl, hd.setSub hsub rfl⟩
  | called hsub hcalls => exact ⟨d, rfl, hd.setSub hsub rfl⟩
  | finished hsub hends => exact ⟨d, rfl, hd.setSub hsub rfl⟩

/-- The lists that the bus has for its topics are those of the map. -/
theorem exists_directory {xs : List (Action ι κ P)} (h : run Sys.step newBus xs = some s) :
    ∃ d, run Directory.step .new (xs.flatMap registration) = some d ∧ Mirrors d s := by
  refine run_history (P := fun s xs => ∃ d,
    run Directory.step .new (xs.flatMap registration) = some d ∧ Mirrors d s) ?_ ?_ h
  · rintro s xs x s' ⟨d, hd, hmirrors⟩ hstep
    obtain ⟨d', hd', hmirrors'⟩ := hmirrors.step (recorded_of_run hd) hstep
    refine ⟨d', ?_, hmirrors'⟩
    rw [List.flatMap_append, List.flatMap_singleton]
    exact run_append_eq_some.mpr ⟨d, hd, hd'⟩
  · exact ⟨.new, rfl, fun _ => rfl, fun _ => rfl⟩

end

/-! ## What `Topics` returns -/

theorem mem_topics {entries : List (String × List ι)} {topic : String} :
    topic ∈ topics entries ↔ ∃ h hs, (topic, hs) ∈ entries ∧ h ∈ hs := by
  rw [topics_eq]
  simp only [List.mem_map, List.mem_filter, decide_eq_true_eq, Prod.exists,
    exists_and_right, exists_eq_right, List.length_pos_iff_exists_mem]
  tauto

theorem topics_perm {entries entries' : List (String × List ι)} (h : entries.Perm entries') :
    (topics entries).Perm (topics entries') := by
  rw [topics_eq, topics_eq]
  exact (h.filter _).map _

theorem topics_reverse (entries : List (String × List ι)) :
    topics entries.reverse = (topics entries).reverse := by
  rw [topics_eq, topics_eq, List.filter_reverse, List.map_reverse]

theorem Directory.nodup_topics (d : Directory ι) : (topics d.subs.rows).Nodup := by
  rw [topics_eq]
  exact d.subs.nodup.sublist (List.filter_sublist.map Prod.fst)

/-- A list that is sorted in both directions has no two elements. -/
theorem eq_of_pairwise_reverse {α : Type} [Preorder α] {l : List α} (h : l.Pairwise (· < ·))
    (h' : l.reverse.Pairwise (· < ·)) {x y : α} (hx : x ∈ l) (hy : y ∈ l) : x = y := by
  rw [List.pairwise_reverse] at h'
  cases l with
  | nil => nomatch hx
  | cons a l =>
      cases l with
      | nil => rw [List.mem_singleton.mp hx, List.mem_singleton.mp hy]
      | cons b l =>
          have hab := List.rel_of_pairwise_cons h List.mem_cons_self
          exact absurd (List.rel_of_pairwise_cons h' List.mem_cons_self) hab.asymm

variable [DecidableEq ι]

/-- In whatever order the loop comes to the entries, the topics with a live
subscription are listed once each and nothing else is; they are sorted in every
such order exactly if there is at most one. -/
theorem topics_sorted_iff {ops : List (Op ι)} {d : Directory ι}
    (hrun : run Directory.step .new ops = some d) :
    (∀ entries : List (String × List ι), entries.Perm d.subs.rows → (topics entries).Nodup ∧
        ∀ topic, topic ∈ topics entries ↔ ∃ h, Live ops topic h) ∧
      ((∀ entries : List (String × List ι), entries.Perm d.subs.rows →
          (topics entries).Pairwise (· < ·)) ↔
        ∀ topic topic' h h', Live ops topic h → Live ops topic' h' → topic = topic') := by
  have hrecorded := recorded_of_run hrun
  have hmem (topic : String) : topic ∈ topics d.subs.rows ↔ ∃ h, Live ops topic h := by
    rw [mem_topics]
    refine exists_congr fun h => ?_
    rw [← hrecorded.mem, Directory.handlers]
    cases hfind : d.subs.find topic with
    | none =>
        refine iff_of_false ?_ List.not_mem_nil
        rintro ⟨hs, hrow, -⟩
        rw [GoMap.find_eq_some.mpr hrow] at hfind
        nomatch hfind
    | some hs =>
        have hrow := GoMap.find_eq_some.mp hfind
        refine ⟨?_, fun hh => ⟨hs, hrow, hh⟩⟩
        rintro ⟨hs', hrow', hh⟩
        obtain rfl := Option.some.inj ((GoMap.find_eq_some.mpr hrow').symm.trans hfind)
        exact hh
  have hnodup := d.nodup_topics
  refine ⟨fun entries hperm => ?_, fun hsorted => ?_, fun hone entries hperm => ?_⟩
  · have htopics := topics_perm hperm
    exact ⟨htopics.nodup_iff.mpr hnodup, fun topic => htopics.mem_iff.trans (hmem topic)⟩
  · intro topic topic' h h' hlive hlive'
    have hup := hsorted _ (List.Perm.refl d.subs.rows)
    have hdown := hsorted _ (List.reverse_perm d.subs.rows)
    rw [topics_reverse] at hdown
    exact eq_of_pairwise_reverse hup hdown ((hmem topic).mpr ⟨h, hlive⟩)
      ((hmem topic').mpr ⟨h', hlive'⟩)
  · have htopics := topics_perm hperm
    refine ((htopics.nodup_iff.mpr hnodup).imp_of_mem ?_)
    intro topic topic' ht ht' hne
    obtain ⟨h, hlive⟩ := (hmem topic).mp (htopics.mem_iff.mp ht)
    obtain ⟨h', hlive'⟩ := (hmem topic').mp (htopics.mem_iff.mp ht')
    exact absurd (hone topic topic' h h' hlive hlive') hne

/-- Two topics, and a loop that comes to the second of them first. -/
def twoTopics : List (Op ℕ) := [.subscribe 0 "orders", .subscribe 1 "audit"]

theorem topics_unsorted : ∃ (d : Directory ℕ) (entries : List (String × List ℕ)),
    run Directory.step .new twoTopics = some d ∧ entries.Perm d.subs.rows ∧
      topics entries = ["orders", "audit"] ∧ ¬ (topics entries).Pairwise (· < ·) :=
  ⟨_, _, rfl, List.Perm.refl _, by decide, by decide⟩

/-- The second topic has lost its only subscription and keeps its key. -/
theorem topics_sorted_of_one : ∃ d : Directory ℕ,
    run Directory.step .new (twoTopics ++ [.unsubscribe 0, .unsubscribe 0]) = some d ∧
      d.subs.rows.length = 2 ∧
      ∀ entries : List (String × List ℕ), entries.Perm d.subs.rows →
        (topics entries).Pairwise (· < ·) := by
  have hrun : (run Directory.step .new (twoTopics ++ [.unsubscribe 0, .unsubscribe 0])).map
      (fun d => d.subs.rows.length) = some 2 := by
    decide
  obtain ⟨d, hd, hlength⟩ := Option.map_eq_some_iff.mp hrun
  refine ⟨d, hd, hlength, (topics_sorted_iff hd).2.mpr ?_⟩
  have haudit (topic : String) (h : ℕ)
      (hlive : Live (twoTopics ++ [.unsubscribe 0, .unsubscribe 0]) topic h) : topic = "audit" := by
    simp only [Live, twoTopics, List.cons_append, List.nil_append, List.mem_cons,
      Op.subscribe.injEq, Op.unsubscribe.injEq, reduceCtorEq, List.not_mem_nil] at hlive
    tauto
  intro topic topic' h h' hlive hlive'
  rw [haudit topic h hlive, haudit topic' h' hlive']

end Gkit.PubSub
