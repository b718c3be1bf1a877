import Gkit.Pipeline.Progress
import Gkit.Pipeline.Results

/-!
# Concurrent `Process` against the sequential map

In every interleaving `Process` returns after boundedly many operations.  If the
function succeeds on all items the result is the list of its values, in order or
permuted as the options say; otherwise it is an error that a call of the function
returned before the context was cancelled.
-/

namespace Gkit.Pipeline

open Gkit.Lib

variable {α β : Type} {n : ℕ} {fn : α → Except GoError β} {items : List α} {s s' : Sys α β n}
  {x : Action n} {log : List (Event α β)}

theorem mem_works {job : Work α} : job ∈ works items ↔ items[job.idx]? = some job.val := by
  obtain ⟨idx, val⟩ := job
  simp [works, List.mem_zipIdx_iff_getElem?, Work.mk.injEq, and_comm]

theorem indicesOf_works (items : List α) :
    indicesOf (works items) = Multiset.range items.length := by
  have hmap : (works items).map Work.idx = List.range items.length := by
    rw [works, List.map_map, List.range_eq_range']
    exact List.zipIdx_map_snd 0 items
  rw [indicesOf, hmap]
  rfl

/-! ## What the collector has put together -/

structure Output (items : List α) (s : Sys α β n) (log : List (Event α β)) : Prop where
  length : s.out.length = items.length
  ordered : s.ordered = true → ∀ r ∈ collected log, ∀ v, r.res = .ok v → s.out[r.idx]? = some v
  unordered : s.ordered = false → s.firstErr = none →
    s.unordered.map .ok = (collected log).map Result.res
  returned : ∀ o, s.main = .returned o → o = s.outcome

/-- The index of the result at hand is an index of an item, and it has not been
collected before. -/
theorem Balanced.fresh (hb : Balanced items s log) {r : Result β} (hm : s.main = .handling r) :
    r.idx < items.length ∧ ∀ r' ∈ collected log, r'.idx ≠ r.idx := by
  have hindices := hb.indices
  rw [hm, Main.indices, add_assoc, add_assoc, add_assoc, Multiset.singleton_add] at hindices
  have hnodup := Multiset.nodup_range items.length
  have hmem : r.idx ∈ Multiset.range items.length := by
    rw [← hindices]
    exact Multiset.mem_cons_self _ _
  rw [← hindices, Multiset.nodup_cons] at hnodup
  refine ⟨Multiset.mem_range.mp hmem, fun r' hr' heq => hnodup.1 ?_⟩
  have hr' : r.idx ∈ indicesIn (collected log) := heq ▸ List.mem_map_of_mem hr'
  simp [hr']

/-- An error has been collected, and it is not forgotten. -/
theorem Output.error (hs : Output items s log) {idx : ℕ} {err : GoError} (hout : s'.out = s.out)
    (hord : s'.ordered = s.ordered) (hfirst : s'.firstErr ≠ none)
    (hmain : ∀ o, s'.main ≠ .returned o) :
    Output items s' (log ++ [.collected ⟨idx, .error err⟩]) where
  length := hout ▸ hs.length
  ordered ho r hr v hv := by
    rw [collected_append, List.mem_append] at hr
    rcases hr with hr | hr
    · rw [hout]
      exact hs.ordered (hord ▸ ho) r hr v hv
    · obtain rfl : r = ⟨idx, .error err⟩ := by simpa [collected] using hr
      cases hv
  unordered _ hf := absurd hf hfirst
  returned o ho := absurd ho (hmain o)

theorem Output.step (hs : Output items s log) (hb : Balanced items s log)
    (h : s.step fn x = some s') : Output items s' (log ++ events fn s x) := by
  obtain ⟨es, hes, heffect⟩ := effect_of_step h
  rw [hes]
  -- the steps that neither collect a result nor return
  have hkeep (t : Sys α β n) (hout : t.out = s.out) (hord : t.ordered = s.ordered)
      (hun : t.unordered = s.unordered) (hfirst : t.firstErr = s.firstErr)
      (hcollected : collected es = []) (hmain : ∀ o, t.main = .returned o → s.main = .returned o) :
      Output items t (log ++ es) := by
    refine ⟨hout ▸ hs.length, ?_, ?_, fun o ho => ?_⟩
    · simpa only [hout, hord, collected_append, hcollected, List.append_nil] using hs.ordered
    · simpa only [hun, hord, hfirst, collected_append, hcollected, List.append_nil] using
        hs.unordered
    · rw [hs.returned o (hmain o ho), Sys.outcome, Sys.outcome, hout, hord, hun, hfirst]
  cases heffect with
  | @stored idx v hm ho =>
      obtain ⟨hlt, hfresh⟩ := hb.fresh hm
      refine ⟨by simp [hs.length], fun _ r hr v' hv' => ?_, fun hno => by simp [ho] at hno, by simp⟩
      rw [collected_append, List.mem_append] at hr
      rcases hr with hr | hr
      · rw [List.getElem?_set_ne (hfresh r hr).symm]
        exact hs.ordered ho r hr v' hv'
      · obtain rfl : r = ⟨idx, .ok v⟩ := by simpa [collected] using hr
        obtain rfl := Except.ok.inj hv'
        exact List.getElem?_set_self (hs.length ▸ hlt)
  | @appended idx v hm ho =>
      refine ⟨hs.length, fun hyes => by simp [ho] at hyes, fun _ hf => ?_, by simp⟩
      rw [List.map_append, hs.unordered ho hf, collected_append, List.map_append]
      rfl
  | cancelled hm herr => exact hs.error rfl rfl (by simp) (by simp)
  | ignored hm herr => exact hs.error rfl rfl (by simp [herr]) (by simp)
  | returned hm hbuf hclosed =>
      rw [List.append_nil]
      exact ⟨hs.length, hs.ordered, hs.unordered, fun o ho => (Main.returned.inj ho).symm⟩
  | fed hm hopen hroom => exact hkeep _ rfl rfl rfl rfl rfl (by simp)
  | feedCrashes hm hclosed => exact hkeep _ rfl rfl rfl rfl rfl (by simp)
  | jobsClosed hm hopen => exact hkeep _ rfl rfl rfl rfl rfl (by simp)
  | reportCrashes hw hclosed => exact hkeep _ rfl rfl rfl rfl rfl (by simp)
  | collected hm hbuf => exact hkeep _ rfl rfl rfl rfl rfl (by simp)
  | _ => exact hkeep _ rfl rfl rfl rfl rfl fun o ho => ho

/-! ## At the end -/

/-- When `Process` has returned, everything has been collected. -/
theorem Balanced.finished (hb : Balanced items s log) (hst : Staged items s) (hn : 0 < n)
    {o : Outcome β} (hm : s.main = .returned o) :
    indicesIn (collected log) = Multiset.range items.length ∧
      (calls log ++ skips log).Perm (Pipeline.works items) := by
  obtain ⟨hclosed, hresults⟩ := hst.returned o hm
  have hexited := hst.results hclosed
  have hjobs := (hst.exited ⟨0, hn⟩ (hexited _)).2
  constructor
  · simpa [hm, hresults, hjobs, Main.indices, tally_eq_zero hexited Worker.indices rfl] using
      hb.indices
  · apply Multiset.coe_eq_coe.mp
    simpa [hm, hjobs, Main.pending, tally_eq_zero hexited Worker.pending rfl] using hb.works

theorem Balanced.calls_subperm (hb : Balanced items s log) :
    (calls log).Subperm (Pipeline.works items) := by
  apply Multiset.coe_le.mp
  rw [← hb.works, add_assoc, add_assoc, add_left_comm]
  exact Multiset.le_add_right _ _

/-- Every item has been collected under its index. -/
theorem exists_collected (hall : indicesIn (collected log) = Multiset.range items.length) {i : ℕ}
    (hi : i < items.length) : ∃ r ∈ collected log, r.idx = i := by
  have hmem : i ∈ indicesIn (collected log) := by
    rw [hall]
    exact Multiset.mem_range.mpr hi
  exact List.mem_map.mp (Multiset.mem_coe.mp hmem)

/-- Without an error, what is collected under an index is what the function gives
for the item with this index. -/
theorem Traced.getElem?_idx (ht : Traced fn items s log) (hf : s.firstErr = none) {r : Result β}
    (hr : r ∈ collected log) : (items.map fn)[r.idx]? = some r.res := by
  obtain ⟨v, hv⟩ := ht.good hf r hr
  obtain ⟨job, hjob, hidx, hfn⟩ := ht.gathered r hr
  rw [List.getElem?_map, ← hidx, mem_works.mp hjob, Option.map_some, hfn v hv, hv]

theorem Output.eq_map (hs : Output items s log) (ht : Traced fn items s log)
    (hall : indicesIn (collected log) = Multiset.range items.length) (hf : s.firstErr = none)
    (ho : s.ordered = true) : s.out.map .ok = items.map fn := by
  apply List.ext_getElem?
  intro i
  by_cases hi : i < items.length
  · obtain ⟨r, hr, rfl⟩ := exists_collected hall hi
    obtain ⟨v, hv⟩ := ht.good hf r hr
    rw [ht.getElem?_idx hf hr, List.getElem?_map, hs.ordered ho r hr v hv, hv]
    rfl
  · rw [List.getElem?_eq_none (by simpa [hs.length] using hi),
      List.getElem?_eq_none (by simpa using hi)]

theorem Output.perm_map (hs : Output items s log) (ht : Traced fn items s log)
    (hall : indicesIn (collected log) = Multiset.range items.length) (hf : s.firstErr = none)
    (ho : s.ordered = false) : (s.unordered.map .ok).Perm (items.map fn) := by
  rw [hs.unordered ho hf]
  apply (List.map_perm_map_iff (Option.some_injective _)).mp
  have hrange : ((collected log).map Result.idx).Perm (List.range items.length) :=
    Multiset.coe_eq_coe.mp hall
  calc ((collected log).map Result.res).map some
      = ((collected log).map Result.idx).map fun i => (items.map fn)[i]? := by
        rw [List.map_map, List.map_map]
        exact List.map_congr_left fun r hr => (ht.getElem?_idx hf hr).symm
    List.Perm _ ((List.range items.length).map fun i => (items.map fn)[i]?) := hrange.map _
    _ = (items.map fn).map some := by
        apply List.ext_getElem?
        intro i
        by_cases hi : i < items.length <;> simp [hi]

theorem mem_of_mem_works {job : Work α} (h : job ∈ works items) : job.val ∈ items :=
  List.mem_of_getElem? (mem_works.mp h)

/-- Without a failing call there is no error. -/
theorem Traced.firstErr_eq_none (ht : Traced fn items s log)
    (hok : ∀ item ∈ items, ∃ v, fn item = .ok v) : s.firstErr = none := by
  apply Option.eq_none_iff_forall_not_mem.mpr
  intro e he
  obtain ⟨job, hjob, -, hfn⟩ := ht.first e he
  obtain ⟨v, hv⟩ := hok job.val (mem_of_mem_works hjob)
  simp [hfn] at hv

theorem Traced.exists_firstErr (ht : Traced fn items s log)
    (hall : indicesIn (collected log) = Multiset.range items.length)
    (hfail : ∃ item ∈ items, ∃ e, fn item = .error e) : ∃ e, s.firstErr = some e := by
  obtain ⟨item, hitem, e, he⟩ := hfail
  obtain ⟨i, hi, rfl⟩ := List.mem_iff_getElem.mp hitem
  apply Option.ne_none_iff_exists'.mp
  intro hf
  obtain ⟨r, hr, rfl⟩ := exists_collected hall hi
  obtain ⟨v, hv⟩ := ht.good hf r hr
  have hres := ht.getElem?_idx hf hr
  simp [hi, he, hv] at hres

/-! ## All runs -/

theorem processOptions_workers_pos {len : ℕ} (hlen : 0 < len) (opts : List Opt) :
    0 < (processOptions len opts).workers.toNat := by
  have hfold (o : ProcessOptions) (ho : 0 < o.workers) : 0 < (opts.foldl Opt.apply o).workers := by
    induction opts generalizing o with
    | nil => exact ho
    | cons opt opts ih =>
        apply ih
        cases opt with
        | workers n =>
            simp only [Opt.apply]
            split_ifs with hn
            · exact hn
            · exact ho
        | ordered b => exact ho
  have := hfold ⟨len, false⟩ (by simpa using hlen)
  simp only [processOptions]
  split_ifs with hmore
  · simpa using hlen
  · omega

/-- What holds in every state of a run in which the caller does not cancel. -/
structure Processing (fn : α → Except GoError β) (items : List α) (s : Sys α β n)
    (log : List (Event α β)) : Prop where
  staged : Staged items s
  balanced : Balanced items s log
  traced : Traced fn items s log
  output : Output items s log

theorem Processing.step (hp : Processing fn items s log) (hx : ∀ err, x ≠ .done err)
    (h : s.step fn x = some s') : Processing fn items s' (log ++ events fn s x) where
  staged := hp.staged.step h
  balanced := hp.balanced.step hp.staged h
  traced := hp.traced.step hp.staged hp.balanced hx h
  output := hp.output.step hp.balanced h

theorem processing_start (zero : β) (hne : items ≠ []) (o : ProcessOptions) :
    Processing fn items (start zero items o) [] := by
  have hlen : items.length ≠ 0 := by simpa using hne
  have hw (w) : (start zero items o).workers w = .receiving := rfl
  refine ⟨?_, ⟨?_, ?_⟩, ?_, ?_⟩
  · refine ⟨rfl, rfl, ?_, by simp [hw], by simp [start], ?_, ?_⟩ <;>
      simp [start, hne, Main.hasSent]
  · rw [tally_eq_zero hw Worker.indices rfl]
    simp [start, hne, Main.indices, indicesOf_works]
  · rw [tally_eq_zero hw Worker.pending rfl]
    simp [start, hne, Main.pending, calls, skips]
  · refine ⟨?_, ?_, ?_, ?_, ?_, ?_, ?_, ?_⟩ <;>
      simp [start, hne, InFlight, skips]
  · refine ⟨?_, ?_, ?_, ?_⟩ <;> simp [start, hne]

theorem ordered_of_step (h : s.step fn x = some s') : s'.ordered = s.ordered := by
  obtain ⟨es, -, heffect⟩ := effect_of_step h
  cases heffect <;> rfl

theorem rank_start (zero : β) (hne : items ≠ []) (o : ProcessOptions) :
    (start zero items o).rank = 7 * items.length + 3 + o.workers.toNat := by
  simp [Sys.rank, start, hne, Main.rank, works, tally, Worker.rank]

/-- The log of a run. -/
def history (fn : α → Except GoError β) (s : Sys α β n) (xs : List (Action n)) :
    List (Event α β) :=
  collect (Sys.step fn) (events fn) s xs

theorem process_eq_map (zero : β) (fn : α → Except GoError β) (items : List α) (hne : items ≠ [])
    (opts : List Opt) {xs : List (Action (processOptions items.length opts).workers.toNat)}
    {s : Sys α β (processOptions items.length opts).workers.toNat}
    (hrun : run (Sys.step fn) (start zero items (processOptions items.length opts)) xs = some s)
    (hxs : ∀ err, .done err ∉ xs) :
    let o := processOptions items.length opts
    let log := history fn (start zero items o) xs
    -- every run is short, does not crash, and goes on until `Process` returns
    xs.length ≤ 7 * items.length + 3 + o.workers.toNat ∧ (∀ text, s.main ≠ .crashed text) ∧
      ((∃ outcome, s.main = .returned outcome) ∨
        ∃ x, (∀ err, x ≠ .done err) ∧ (s.step fn x).isSome) ∧
      (calls log).Subperm (works items) ∧
      ∀ outcome, s.main = .returned outcome →
        ((∀ item ∈ items, ∃ v, fn item = .ok v) →
          ∃ vals, outcome = (some vals, none) ∧
            (o.ordered = true → vals.map .ok = items.map fn) ∧
            (o.ordered = false → (vals.map .ok).Perm (items.map fn)) ∧
            (calls log).Perm (works items)) ∧
        ((∃ item ∈ items, ∃ e, fn item = .error e) →
          ∃ e, outcome = (none, some e) ∧ Returned fn items log e) := by
  have halong : Along (Sys.step fn) (fun _ x => ∀ err, x ≠ .done err)
      (start zero items (processOptions items.length opts)) xs :=
    along_of_forall fun x hx _ err hxe => hxs err (hxe ▸ hx)
  have hstart : Processing fn items (start zero items (processOptions items.length opts)) [] :=
    processing_start zero hne _
  have hp : Processing fn items s
      (history fn (start zero items (processOptions items.length opts)) xs) :=
    run_collect (fun _ _ _ _ hp hx h => hp.step hx h) hstart halong hrun
  have hord : s.ordered = (processOptions items.length opts).ordered :=
    run_forall (P := fun t : Sys α β _ => t.ordered = (processOptions items.length opts).ordered)
      (fun _ _ _ ht h => (ordered_of_step h).trans ht) rfl hrun
  have hlength := length_add_rank_le Sys.rank (P := Staged items)
    (fun _ _ _ hst hx h => ⟨hst.step h, rank_lt_of_step hst hx h⟩) hstart.staged halong hrun
  rw [rank_start zero hne] at hlength
  have hn := processOptions_workers_pos (List.length_pos_iff.mpr hne) opts
  refine ⟨by omega, hp.staged.alive, hp.staged.steps hp.balanced, hp.balanced.calls_subperm,
    fun outcome hm => ?_⟩
  obtain ⟨hall, hcalls⟩ := hp.balanced.finished hp.staged hn hm
  obtain rfl := hp.output.returned outcome hm
  constructor
  · intro hok
    have hf := hp.traced.firstErr_eq_none hok
    rw [hp.traced.unskipped hf, List.append_nil] at hcalls
    refine ⟨if s.ordered then s.out else s.unordered, by simp [Sys.outcome, hf], fun ho => ?_,
      fun ho => ?_, hcalls⟩
    · rw [hord, ho]
      exact hp.output.eq_map hp.traced hall hf (hord.trans ho)
    · rw [hord, ho]
      exact hp.output.perm_map hp.traced hall hf (hord.trans ho)
  · intro hfail
    obtain ⟨e, he⟩ := hp.traced.exists_firstErr hall hfail
    exact ⟨e, by simp [Sys.outcome, he], hp.traced.first e he⟩

/-- Two items, one worker, and the results in order. -/
def doublingRun : List (Action 1) :=
  [.feed, .receive 0, .feed, .check 0, .answer 0, .feed, .report 0, .receive 0, .collect, .check 0,
    .handle, .answer 0, .report 0, .receive 0, .closeResults, .collect, .handle, .collect]

def double (k : ℕ) : Except GoError ℕ := .ok (2 * k)

theorem doubling_processed :
    let o := processOptions 2 [.workers 1, .ordered true]
    ∃ s, run (Sys.step double) (start 0 [3, 4] o) doublingRun = some s ∧
      s.main = .returned (some [6, 8], none) ∧
      (calls (history double (start 0 [3, 4] o) doublingRun)).Perm (works [3, 4]) := by
  have hmain : (run (Sys.step double)
      (start 0 [3, 4] (processOptions 2 [.workers 1, .ordered true]))
      doublingRun).map Sys.main = some (.returned (some [6, 8], none)) := rfl
  obtain ⟨s, hrun, hm⟩ := Option.map_eq_some_iff.mp hmain
  have hdone (err : GoError) : .done err ∉ doublingRun := by simp [doublingRun]
  have hprocess := process_eq_map 0 double [3, 4] (by simp) [.workers 1, .ordered true] hrun hdone
  obtain ⟨vals, -, -, -, hcalls⟩ := (hprocess.2.2.2.2 _ hm).1 fun k _ => ⟨2 * k, rfl⟩
  exact ⟨s, hrun, hm, hcalls⟩

end Gkit.Pipeline
