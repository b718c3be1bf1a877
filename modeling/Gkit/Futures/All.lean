import Gkit.Futures.Await

/-!
# `All`

The helpers of one call of `All` on futures that nobody else awaits, with a
parent context that does not end.  Until `All` returns its derived context is not
done, so the helpers pass on what the computations have returned, each one once;
an error that comes from the cancel of `All` itself can only be latched after the
outcome has been decided.
-/

namespace Gkit.Futures

open Gkit.Lib

variable {φ ι κ α : Type}

/-- What may happen beside the call `k` of `All` on the futures `fs`. -/
def Alone (k : κ) (fs : List φ) : Action φ ι κ → Prop
  | .await _ f _ => f ∉ fs
  | .all k' fs' => k' = k ∧ fs' = fs ∨ k' ≠ k ∧ ∀ f ∈ fs', f ∉ fs
  | .race k' fs' => k' ≠ k ∧ ∀ f ∈ fs', f ∉ fs
  | .cancel k' _ => k' ≠ k
  | _ => True

/-! ## Who awaits the futures -/

def Thread.wait : Thread φ κ α → Option (Wait φ κ)
  | .idle => none
  | .entering w | .inside w | .leaving w | .returned w _ | .finished w _ => some w

structure Owned (k : κ) (fs : List φ) (s : Sys φ ι κ α) : Prop where
  helper : ∀ i w, (s.threads (.helper k i)).wait = some w → fs[i]? = some w.fut ∧ w.ctx = k
  owner : ∀ t w, (s.threads t).wait = some w → w.fut ∈ fs → ∃ i, t = .helper k i

variable {fn : φ → Result α} {zero : α} {k : κ} {fs : List φ} {s s' : Sys φ ι κ α}
  {x : Action φ ι κ}

theorem Owned.congr (ho : Owned k fs s) (h : ∀ t, (s'.threads t).wait = (s.threads t).wait) :
    Owned k fs s' :=
  ⟨fun i w hw => ho.helper i w (h _ ▸ hw), fun t w hw => ho.owner t w (h t ▸ hw)⟩

variable [DecidableEq φ] [DecidableEq ι] [DecidableEq κ]

omit [DecidableEq φ] in
theorem Owned.setThread (ho : Owned k fs s) {t : Tid ι κ} {old new : Thread φ κ α}
    (hw : s.threads t = old) (hthreads : s'.threads = Function.update s.threads t new)
    (hwait : new.wait = old.wait) : Owned k fs s' := by
  refine ho.congr fun t' => ?_
  rw [hthreads]
  by_cases ht : t' = t
  · rw [ht, Function.update_self, hwait, hw]
  · rw [Function.update_of_ne ht]

omit [DecidableEq φ] [DecidableEq ι] in
/-- Helpers are launched, those of the call at hand or others. -/
theorem Owned.launch (ho : Owned k fs s) {k' : κ} {fs' : List φ}
    (h : k' = k ∧ fs' = fs ∨ k' ≠ k ∧ ∀ f ∈ fs', f ∉ fs) :
    Owned k fs (s.launch k' fs') := by
  constructor
  · intro i w hw
    rcases launch_cases s k' fs' (.helper k i) with ht | ⟨j, f, htid, hf, ht⟩ <;> rw [ht] at hw
    · exact ho.helper i w hw
    · obtain ⟨rfl, rfl⟩ := Tid.helper.inj htid
      obtain rfl := Option.some.inj hw
      rcases h with ⟨-, rfl⟩ | ⟨hk, -⟩
      · exact ⟨hf, rfl⟩
      · exact absurd rfl hk
  · intro t w hw hmem
    rcases launch_cases s k' fs' t with ht | ⟨j, f, rfl, hf, ht⟩ <;> rw [ht] at hw
    · exact ho.owner t w hw hmem
    · obtain rfl := Option.some.inj hw
      rcases h with ⟨rfl, -⟩ | ⟨-, hout⟩
      · exact ⟨j, rfl⟩
      · exact absurd hmem (hout f (List.mem_of_getElem? hf))

theorem Owned.step (ho : Owned k fs s) (hx : Alone k fs x)
    (hstep : s.step fn zero x = some s') : Owned k fs s' := by
  cases effect_of_step hstep with
  | @awaited c f k' hidle =>
      constructor
      · intro i w hw
        exact ho.helper i w (by simpa [Sys.setThread] using hw)
      · intro t w hw hmem
        by_cases ht : t = .caller c
        · subst ht
          obtain rfl : ⟨f, k'⟩ = w := by simpa [Sys.setThread, Thread.wait] using hw
          exact absurd hmem hx
        · exact ho.owner t w (by simpa [Sys.setThread, ht] using hw) hmem
  | entered hw hfresh => exact ho.setThread hw rfl rfl
  | joined hw hdone => exact ho.setThread hw rfl rfl
  | received hw hbuf => exact ho.setThread hw rfl rfl
  | expired hw hdone => exact ho.setThread hw rfl rfl
  | left hw => exact ho.setThread hw rfl rfl
  | allStarted hcall => exact (ho.launch hx).congr fun _ => rfl
  | raceStarted hcall => exact (ho.launch (.inr hx)).congr fun _ => rfl
  | merged hw hcall => exact ho.setThread hw rfl rfl
  | offered hw hcall => exact ho.setThread hw rfl rfl
  | dropped hw hcall => exact ho.setThread hw rfl rfl
  | _ => exact ho.congr fun _ => rfl

/-! ## The results that are passed on -/

/-- The indices `got` have been collected, the others are in the channel or to
come. -/
structure Merging (k : κ) (s : Sys φ ι κ α) (n : ℕ) (merge : Chan (ℕ × Result α)) (left : ℕ)
    (results : List α) (got : List ℕ) : Prop where
  rounds : got.length + left = n
  length : results.length = n
  nodup : (got ++ merge.buf.map Prod.fst).Nodup
  passed : ∀ p ∈ merge.buf, ∃ w, s.threads (.helper k p.1) = .finished w p.2
  gathered : ∀ i ∈ got, ∃ w r, s.threads (.helper k i) = .finished w r ∧ r.err = none ∧
    results[i]? = some r.val

/-- What `All` is to return. -/
def Outcome (fn : φ → Result α) (fs : List φ) (results : Option (List α))
    (err : Option GoError) : Prop :=
  (∀ f ∈ fs, (fn f).err = none) ∧ results = some (fs.map fun f => (fn f).val) ∧ err = none ∨
    ∃ f ∈ fs, ∃ e, (fn f).err = some e ∧ results = none ∧ err = some e

def CallState (fn : φ → Result α) (k : κ) (fs : List φ) (s : Sys φ ι κ α) : Prop :=
  match s.calls k with
  | none => s.done k = none
  | some (.all merge (.collecting left results)) =>
      s.done k = none ∧ ∃ got, Merging k s fs.length merge left results got
  | some (.all _ (.returned results err)) => Outcome fn fs results err
  | some (.race _ _) => False

omit [DecidableEq φ] [DecidableEq ι] [DecidableEq κ] in
theorem Merging.congr {n left : ℕ} {merge : Chan (ℕ × Result α)} {results : List α} {got : List ℕ}
    (hm : Merging k s n merge left results got)
    (h : ∀ i w r, s.threads (.helper k i) = .finished w r →
      s'.threads (.helper k i) = .finished w r) :
    Merging k s' n merge left results got := by
  refine ⟨hm.rounds, hm.length, hm.nodup, fun p hp => ?_, fun i hi => ?_⟩
  · obtain ⟨w, hw⟩ := hm.passed p hp
    exact ⟨w, h _ w _ hw⟩
  · obtain ⟨w, r, hw, hr⟩ := hm.gathered i hi
    exact ⟨w, r, h i w r hw, hr⟩

omit [DecidableEq φ] in
/-- A helper that has passed its result on makes no further step. -/
theorem finished_update {t : Tid ι κ} {old : Thread φ κ α} (hw : s.threads t = old)
    (hold : ∀ w r, old ≠ .finished w r) (new : Thread φ κ α) (i : ℕ) (w : Wait φ κ) (r : Result α)
    (h : s.threads (.helper k i) = .finished w r) :
    Function.update s.threads t new (.helper k i) = .finished w r := by
  have ht : .helper k i ≠ t := by
    rintro rfl
    exact hold w r (hw ▸ h)
  rw [Function.update_of_ne ht, h]

omit [DecidableEq φ] [DecidableEq ι] [DecidableEq κ] in
/-- A step of others. -/
theorem CallState.keep (hc : CallState fn k fs s) (hcalls : s'.calls k = s.calls k)
    (hdone : s'.done k = s.done k)
    (hthreads : ∀ i w r, s.threads (.helper k i) = .finished w r →
      s'.threads (.helper k i) = .finished w r) : CallState fn k fs s' := by
  unfold CallState at hc ⊢
  rw [hcalls, hdone]
  split at hc
  · exact hc
  · obtain ⟨hnone, got, hm⟩ := hc
    exact ⟨hnone, got, hm.congr hthreads⟩
  · exact hc
  · exact hc

omit [DecidableEq φ] in
/-- A call of `Await` moves on, beside the result that it may have passed on. -/
theorem CallState.move (hc : CallState fn k fs s) {t : Tid ι κ} {old new : Thread φ κ α}
    (hw : s.threads t = old) (hthreads : s'.threads = Function.update s.threads t new)
    (hold : ∀ w r, old ≠ .finished w r) (hcalls : s'.calls k = s.calls k)
    (hdone : s'.done k = s.done k) : CallState fn k fs s' := by
  refine hc.keep hcalls hdone fun i w r h => ?_
  rw [hthreads]
  exact finished_update hw hold new i w r h

section

variable {merge : Chan (ℕ × Result α)} {left : ℕ} {results : List α}

omit [DecidableEq φ] [DecidableEq ι] [DecidableEq κ] in
theorem callState_collecting (hcall : s.calls k = some (.all merge (.collecting left results))) :
    CallState fn k fs s ↔
      s.done k = none ∧ ∃ got, Merging k s fs.length merge left results got := by
  simp only [CallState, hcall]

omit [DecidableEq φ] [DecidableEq ι] [DecidableEq κ] in
theorem callState_returned {results : Option (List α)} {err : Option GoError}
    (hcall : s.calls k = some (.all merge (.returned results err))) :
    CallState fn k fs s ↔ Outcome fn fs results err := by
  simp only [CallState, hcall]

omit [DecidableEq φ] [DecidableEq ι] [DecidableEq κ] in
theorem CallState.ne_race (hc : CallState fn k fs s) {k' : κ} {winner : Chan (Result α)}
    {main : RaceMain α} (hcall : s.calls k' = some (.race winner main)) : k' ≠ k := by
  rintro rfl
  simp only [CallState, hcall] at hc

end

omit [DecidableEq φ] in
/-- A helper has passed its result on. -/
theorem Merging.pass {n left i : ℕ} {merge : Chan (ℕ × Result α)} {results : List α}
    {got : List ℕ} {w : Wait φ κ} {r : Result α} (hm : Merging k s n merge left results got)
    (hw : s.threads (.helper k i) = .returned w r)
    (hthreads : s'.threads = Function.update s.threads (.helper k i) (.finished w r)) :
    Merging k s' n { merge with buf := merge.buf ++ [(i, r)] } left results got := by
  have hfinished (j : ℕ) (w' : Wait φ κ) (r' : Result α)
      (h : s.threads (.helper k j) = .finished w' r') :
      s'.threads (.helper k j) = .finished w' r' := by
    rw [hthreads]
    exact finished_update hw (by simp) _ j w' r' h
  have hi : i ∉ got ++ merge.buf.map Prod.fst := by
    intro hi
    rcases List.mem_append.mp hi with hi | hi
    · obtain ⟨w', r', hw', -⟩ := hm.gathered i hi
      simp [hw] at hw'
    · obtain ⟨p, hp, rfl⟩ := List.mem_map.mp hi
      obtain ⟨w', hw'⟩ := hm.passed p hp
      simp [hw] at hw'
  have hm' : Merging k s' n merge left results got := hm.congr hfinished
  refine ⟨hm.rounds, hm.length, ?_, fun p hp => ?_, hm'.gathered⟩
  · rw [List.map_append, ← List.append_assoc, List.map_singleton, ← List.concat_eq_append]
    exact hm.nodup.concat hi
  · rcases List.mem_append.mp hp with hp | hp
    · exact hm'.passed p hp
    · obtain rfl := List.mem_singleton.mp hp
      exact ⟨w, by rw [hthreads, Function.update_self]⟩

omit [DecidableEq φ] [DecidableEq ι] [DecidableEq κ] in
/-- A value has been collected. -/
theorem Merging.collect {n left i : ℕ} {merge : Chan (ℕ × Result α)} {results : List α}
    {got : List ℕ} {r : Result α} {buf : List (ℕ × Result α)}
    (hm : Merging k s n merge (left + 1) results got) (hbuf : merge.buf = (i, r) :: buf)
    (hok : r.err = none) (hi : i < n) :
    Merging k s n { merge with buf := buf } left (results.set i r.val) (got ++ [i]) := by
  have hnodup := hm.nodup
  rw [hbuf, List.map_cons, List.append_cons] at hnodup
  obtain ⟨w, hw⟩ := hm.passed (i, r) (by simp [hbuf])
  have hfresh : i ∉ got := by
    have := (List.nodup_append.mp (List.nodup_append.mp hnodup).1).2.2
    exact fun hmem => this i hmem i (by simp) rfl
  refine ⟨?_, by rw [List.length_set, hm.length], hnodup, fun p hp => ?_, fun j hj => ?_⟩
  · have := hm.rounds
    simp only [List.length_append, List.length_cons, List.length_nil]
    omega
  · exact hm.passed p (by rw [hbuf]; exact List.mem_cons_of_mem _ hp)
  · rcases List.mem_append.mp hj with hj | hj
    · obtain ⟨w', r', hw', hok', hval⟩ := hm.gathered j hj
      refine ⟨w', r', hw', hok', ?_⟩
      have hij : i ≠ j := fun hij => hfresh (by rwa [hij])
      rw [List.getElem?_set_ne hij, hval]
    · obtain rfl := List.mem_singleton.mp hj
      exact ⟨w, r, hw, hok, List.getElem?_set_self (by rw [hm.length]; exact hi)⟩

omit [DecidableEq φ] [DecidableEq ι] [DecidableEq κ] in
/-- What a helper has passed on belongs to the future at its index. -/
theorem Owned.passed (ho : Owned k fs s) (hg : Genuine fn (· ∈ fs) s) {i : ℕ} {w : Wait φ κ}
    {r : Result α} (hw : s.threads (.helper k i) = .finished w r) :
    ∃ f, fs[i]? = some f ∧ f ∈ fs ∧ r = fn f := by
  have hf := (ho.helper i w (by rw [hw]; rfl)).1
  have hmem := List.mem_of_getElem? hf
  exact ⟨w.fut, hf, hmem, hg.returned _ w r (by rw [hw]; rfl) hmem⟩

omit [DecidableEq φ] [DecidableEq ι] [DecidableEq κ] in
/-- With no rounds left, every index has been collected. -/
theorem Merging.outcome {merge : Chan (ℕ × Result α)} {results : List α} {got : List ℕ}
    (hm : Merging k s fs.length merge 0 results got) (ho : Owned k fs s)
    (hg : Genuine fn (· ∈ fs) s) : Outcome fn fs (some results) none := by
  have hgot (i : ℕ) (hi : i ∈ got) : ∃ f, fs[i]? = some f ∧ (fn f).err = none ∧
      results[i]? = some (fn f).val := by
    obtain ⟨w, r, hw, hok, hval⟩ := hm.gathered i hi
    obtain ⟨f, hf, -, rfl⟩ := ho.passed hg hw
    exact ⟨f, hf, hok, hval⟩
  have hall : ∀ i < fs.length, i ∈ got := by
    have hsub : got ⊆ List.range fs.length := fun i hi => by
      obtain ⟨f, hf, -⟩ := hgot i hi
      exact List.mem_range.mpr (List.getElem?_eq_some_iff.mp hf).1
    have hnodup := (List.nodup_append.mp hm.nodup).1
    have hperm : got.Perm (List.range fs.length) := by
      apply (List.subperm_of_subset hnodup hsub).perm_of_length_le
      rw [List.length_range]
      exact hm.rounds.ge
    exact fun i hi => hperm.mem_iff.mpr (List.mem_range.mpr hi)
  refine .inl ⟨fun f hf => ?_, ?_, rfl⟩
  · obtain ⟨i, hi, rfl⟩ := List.mem_iff_getElem.mp hf
    obtain ⟨f, hf, hok, -⟩ := hgot i (hall i hi)
    obtain rfl : fs[i] = f := by simpa [List.getElem?_eq_getElem hi] using hf
    exact hok
  · congr 1
    apply List.ext_getElem?
    intro i
    by_cases hi : i < fs.length
    · obtain ⟨f, hf, -, hval⟩ := hgot i (hall i hi)
      rw [hval, List.getElem?_map, hf]
      rfl
    · rw [List.getElem?_eq_none (by rw [hm.length]; exact not_lt.mp hi),
        List.getElem?_eq_none (by simpa using hi)]

omit [DecidableEq φ] [DecidableEq ι] in
/-- Another call moves on. -/
theorem CallState.other (hc : CallState fn k fs s) {k' : κ} (hk : k' ≠ k) {call : Call α}
    (hcalls : s'.calls = Function.update s.calls k' (some call))
    (hdone : s'.done = s.done ∨
      s'.done = Function.update s.done k' ((s.done k').or (some canceled)))
    (hthreads : s'.threads = s.threads) : CallState fn k fs s' := by
  refine hc.keep ?_ ?_ (hthreads ▸ fun _ _ _ h => h)
  · rw [hcalls, Function.update_of_ne hk.symm]
  · rcases hdone with hdone | hdone
    · rw [hdone]
    · rw [hdone, Function.update_of_ne hk.symm]

omit [DecidableEq φ] [DecidableEq ι] in
/-- Another call starts its helpers. -/
theorem CallState.launch (hc : CallState fn k fs s) {k' : κ} (hk : k' ≠ k) (fs' : List φ)
    (call : Call α) : CallState fn k fs ((s.launch k' fs').setCall k' call) := by
  refine hc.keep (Function.update_of_ne hk.symm ..) rfl fun i w r h => ?_
  rcases launch_cases s k' fs' (.helper k i) with ht | ⟨j, f, htid, -⟩
  · exact ht.trans h
  · exact absurd (Tid.helper.inj htid).1.symm hk

omit [DecidableEq φ] [DecidableEq ι] [DecidableEq κ] in
/-- What is next in the channel is the result of a listed future. -/
theorem Merging.head {n left i : ℕ} {merge : Chan (ℕ × Result α)} {results : List α}
    {got : List ℕ} {r : Result α} {buf : List (ℕ × Result α)}
    (hm : Merging k s n merge left results got) (ho : Owned k fs s)
    (hg : Genuine fn (· ∈ fs) s) (hbuf : merge.buf = (i, r) :: buf) :
    ∃ f, fs[i]? = some f ∧ f ∈ fs ∧ r = fn f := by
  obtain ⟨w, hw⟩ := hm.passed (i, r) (by simp [hbuf])
  exact ho.passed hg hw

theorem CallState.step (hc : CallState fn k fs s) (hx : Alone k fs x) (ho : Owned k fs s)
    (hg : s.done k = none → Genuine fn (· ∈ fs) s) (hstep : s.step fn zero x = some s') :
    CallState fn k fs s' := by
  cases effect_of_step hstep with
  | produced hsent => exact hc.keep rfl rfl fun _ _ _ h => h
  | awaited hidle => exact hc.move hidle rfl (by simp) rfl rfl
  | entered hw hfresh => exact hc.move hw rfl (by simp) rfl rfl
  | joined hw hdone => exact hc.move hw rfl (by simp) rfl rfl
  | received hw hbuf => exact hc.move hw rfl (by simp) rfl rfl
  | expired hw hdone => exact hc.move hw rfl (by simp) rfl rfl
  | left hw => exact hc.move hw rfl (by simp) rfl rfl
  | @allStarted k' fs' hcall =>
      rcases hx with ⟨rfl, rfl⟩ | ⟨hk, hout⟩
      · have hdone : s.done k' = none := by simpa only [CallState, hcall] using hc
        refine (callState_collecting (Function.update_self ..)).mpr ⟨hdone, [], ?_⟩
        exact ⟨by simp, by simp, by simp, by simp, by simp⟩
      · exact hc.launch hk fs' _
  | @raceStarted k' fs' hcall => exact hc.launch hx.1 fs' _
  | @merged k' i w r merge main hw hcall =>
      by_cases hk : k' = k
      · subst hk
        cases main with
        | collecting left results =>
            obtain ⟨hdone, got, hm⟩ := (callState_collecting hcall).mp hc
            exact (callState_collecting (Function.update_self ..)).mpr
              ⟨hdone, got, hm.pass hw rfl⟩
        | returned results err =>
            exact (callState_returned (Function.update_self ..)).mpr
              ((callState_returned hcall).mp hc)
      · exact hc.move hw rfl (by simp) (Function.update_of_ne (Ne.symm hk) ..) rfl
  | @offered k' i w r winner main hw hcall =>
      have hk := hc.ne_race hcall
      exact hc.move hw rfl (by simp) (Function.update_of_ne hk.symm ..) rfl
  | dropped hw hcall => exact hc.move hw rfl (by simp) rfl rfl
  | @collected k' merge left results i r buf hcall hbuf hok =>
      by_cases hk : k' = k
      · subst hk
        obtain ⟨hdone, got, hm⟩ := (callState_collecting hcall).mp hc
        obtain ⟨f, hf, -⟩ := hm.head ho (hg hdone) hbuf
        have hi : i < fs.length := (List.getElem?_eq_some_iff.mp hf).1
        exact (callState_collecting (Function.update_self ..)).mpr
          ⟨hdone, got ++ [i], (hm.collect hbuf hok hi).congr fun _ _ _ h => h⟩
      · exact hc.other hk rfl (.inl rfl) rfl
  | @failed k' merge left results i r buf err hcall hbuf herr =>
      by_cases hk : k' = k
      · subst hk
        obtain ⟨hdone, got, hm⟩ := (callState_collecting hcall).mp hc
        obtain ⟨f, -, hmem, rfl⟩ := hm.head ho (hg hdone) hbuf
        exact (callState_returned (Function.update_self ..)).mpr
          (.inr ⟨f, hmem, err, herr, rfl, rfl⟩)
      · exact hc.other hk rfl (.inr rfl) rfl
  | won hcall hbuf => exact hc.other (hc.ne_race hcall) rfl (.inr rfl) rfl
  | @allGaveUp k' merge left results err hdone hcall =>
      by_cases hk : k' = k
      · subst hk
        obtain ⟨hnone, -⟩ := (callState_collecting hcall).mp hc
        simp [hnone] at hdone
      · exact hc.other hk rfl (.inl rfl) rfl
  | raceGaveUp hdone hcall => exact hc.other (hc.ne_race hcall) rfl (.inl rfl) rfl
  | @allFinished k' merge results hcall =>
      by_cases hk : k' = k
      · subst hk
        obtain ⟨hdone, got, hm⟩ := (callState_collecting hcall).mp hc
        exact (callState_returned (Function.update_self ..)).mpr (hm.outcome ho (hg hdone))
      · exact hc.other hk rfl (.inr rfl) rfl
  | @cancelled k' err hk =>
      exact hc.keep rfl (Function.update_of_ne (Ne.symm hx) ..) fun _ _ _ h => h

/-! ## All runs -/

omit [DecidableEq φ] [DecidableEq ι] in
theorem done_of_cancelCall {k' : κ} {s₁ : Sys φ ι κ α} (hs₁ : s₁.done = s.done)
    (hdone : (s₁.cancelCall k').done k = none) : s.done k = none := by
  by_cases hk : k = k'
  · subst hk
    simp [Sys.cancelCall] at hdone
  · simpa [Sys.cancelCall, hk, hs₁] using hdone

/-- A context that has ended stays so. -/
theorem done_eq_none_of_step (hstep : s.step fn zero x = some s') (hdone : s'.done k = none) :
    s.done k = none := by
  cases effect_of_step hstep with
  | failed hcall hbuf herr => exact done_of_cancelCall rfl hdone
  | won hcall hbuf => exact done_of_cancelCall rfl hdone
  | allFinished hcall => exact done_of_cancelCall rfl hdone
  | @cancelled k' err hk' =>
      by_cases hk : k = k'
      · exact hk ▸ hk'
      · simpa [hk] using hdone
  | _ => exact hdone

theorem all_returns_computed (fn : φ → Result α) (zero : α) (k : κ) (fs : List φ)
    {xs : List (Action φ ι κ)} {s : Sys φ ι κ α}
    (hrun : run (Sys.step fn zero) (init zero) xs = some s) (hxs : ∀ x ∈ xs, Alone k fs x)
    {merge : Chan (ℕ × Result α)} {results : Option (List α)} {err : Option GoError}
    (hcall : s.calls k = some (.all merge (.returned results err))) :
    (results = some (fs.map fun f => (fn f).val) ∧ err = none ↔ ∀ f ∈ fs, (fn f).err = none) ∧
      (¬ (∀ f ∈ fs, (fn f).err = none) →
        results = none ∧ ∃ f ∈ fs, ∃ e, (fn f).err = some e ∧ err = some e) := by
  have halong : Along (Sys.step fn zero) (fun _ x => Alone k fs x) (init zero) xs :=
    along_of_forall fun x hx _ => hxs x hx
  obtain ⟨-, -, hc⟩ := run_invariant
    (P := fun s => Owned k fs s ∧ (s.done k = none → Genuine fn (· ∈ fs) s) ∧ CallState fn k fs s)
    (by
      rintro s x s' ⟨ho, hg, hc⟩ hx hstep
      refine ⟨ho.step hx hstep, fun hdone => ?_, hc.step hx ho hg hstep⟩
      have hdone' := done_eq_none_of_step hstep hdone
      refine (hg hdone').step (fun t w err _ hw hexpired hmem => ?_) hstep
      -- a call on a listed future has the derived context
      obtain ⟨i, rfl⟩ := ho.owner t w (by rw [hw]; rfl) hmem
      rw [(ho.helper i w (by rw [hw]; rfl)).2, hdone'] at hexpired
      cases hexpired)
    ⟨⟨by simp [init, Thread.wait], by simp [init, Thread.wait]⟩, fun _ => genuine_init, rfl⟩
    halong hrun
  rcases (callState_returned hcall).mp hc with ⟨hall, hresults, herr⟩ | ⟨f, hf, e, he, hnone, herr⟩
  · exact ⟨⟨fun _ => hall, fun _ => ⟨hresults, herr⟩⟩, fun hnot => absurd hall hnot⟩
  · have hnot : ¬ ∀ f ∈ fs, (fn f).err = none := fun hall => by simp [hall f hf] at he
    exact ⟨⟨fun h => by simp [hnone] at h, fun hall => absurd hall hnot⟩,
      fun _ => ⟨hnone, f, hf, e, he, herr⟩⟩

/-- Two futures, the second one first. -/
def allOfTwo : List (Action ℕ ℕ ℕ) :=
  [.all 0 [3, 4], .enter (.helper 0 0), .enter (.helper 0 1), .produce 4, .receive (.helper 0 1),
    .leave (.helper 0 1), .pass 0 1, .collect 0, .produce 3, .receive (.helper 0 0),
    .leave (.helper 0 0), .pass 0 0, .collect 0, .finish 0]

theorem all_of_two_computed :
    ∃ s results, run (Sys.step (fun f => ⟨10 * f, none⟩) 0) (init 0) allOfTwo = some s ∧
      s.calls 0 = some (.all ⟨[], 2, false⟩ (.returned results none)) ∧
      results = some [30, 40] := by
  have hcall : (run (Sys.step (fun f => ⟨10 * f, none⟩) 0) (init 0) allOfTwo).map
      (fun s => s.calls 0) =
        some (some (.all ⟨[], 2, false⟩ (.returned (some [30, 40]) none))) := rfl
  obtain ⟨s, hrun, hcall⟩ := Option.map_eq_some_iff.mp hcall
  have halone : ∀ x ∈ allOfTwo, Alone 0 [3, 4] x := by simp [allOfTwo, Alone]
  have hall := (all_returns_computed _ 0 0 [3, 4] hrun halone hcall).1.mpr fun _ _ => rfl
  exact ⟨s, _, hrun, hcall, hall.1⟩

end Gkit.Futures
