import Gkit.Futures.Model

/-!
# What a step on futures can do

One constructor for each outcome of each operation, with the condition under
which it comes about.
-/

namespace Gkit.Futures

open Gkit.Lib

variable {φ ι κ α : Type} [DecidableEq φ] [DecidableEq ι] [DecidableEq κ]

inductive Effect (fn : φ → Result α) (zero : α) (s : Sys φ ι κ α) :
    Action φ ι κ → Sys φ ι κ α → Prop where
  | produced {f : φ} (hsent : (s.futures f).sent = false) :
      Effect fn zero s (.produce f) (s.setFuture f { s.futures f with
        ch := { (s.futures f).ch with buf := (s.futures f).ch.buf ++ [fn f] }, sent := true })
  | awaited {c : ι} {f : φ} {k : κ} (hidle : s.threads (.caller c) = .idle) :
      Effect fn zero s (.await c f k) (s.setThread (.caller c) (.entering ⟨f, k⟩))
  | entered {t : Tid ι κ} {w : Wait φ κ} (hw : s.threads t = .entering w)
      (hfresh : (s.futures w.fut).once = .fresh) :
      Effect fn zero s (.enter t)
        ((s.setFuture w.fut { s.futures w.fut with once := .running }).setThread t (.inside w))
  | joined {t : Tid ι κ} {w : Wait φ κ} (hw : s.threads t = .entering w)
      (hdone : (s.futures w.fut).once = .done) :
      Effect fn zero s (.enter t) (s.setThread t (.leaving w))
  | received {t : Tid ι κ} {w : Wait φ κ} {r : Result α} {buf : List (Result α)}
      (hw : s.threads t = .inside w) (hbuf : (s.futures w.fut).ch.buf = r :: buf) :
      Effect fn zero s (.receive t) ((s.setFuture w.fut { s.futures w.fut with
        ch := { (s.futures w.fut).ch with buf := buf }, res := r, once := .done }).setThread t
          (.leaving w))
  | expired {t : Tid ι κ} {w : Wait φ κ} {err : GoError} (hw : s.threads t = .inside w)
      (hdone : s.done w.ctx = some err) :
      Effect fn zero s (.expire t) ((s.setFuture w.fut
        { s.futures w.fut with res := ⟨zero, some err⟩, once := .done }).setThread t (.leaving w))
  | left {t : Tid ι κ} {w : Wait φ κ} (hw : s.threads t = .leaving w) :
      Effect fn zero s (.leave t) (s.setThread t (.returned w (s.futures w.fut).res))
  | allStarted {k : κ} {fs : List φ} (hcall : s.calls k = none) :
      Effect fn zero s (.all k fs) ((s.launch k fs).setCall k (.all ⟨[], fs.length, false⟩
        (.collecting fs.length (List.replicate fs.length zero))))
  | raceStarted {k : κ} {fs : List φ} (hcall : s.calls k = none) :
      Effect fn zero s (.race k fs)
        ((s.launch k fs).setCall k (.race ⟨[], fs.length, false⟩ .waiting))
  | merged {k : κ} {i : ℕ} {w : Wait φ κ} {r : Result α} {merge : Chan (ℕ × Result α)}
      {main : AllMain α} (hw : s.threads (.helper k i) = .returned w r)
      (hcall : s.calls k = some (.all merge main)) :
      Effect fn zero s (.pass k i)
        ((s.setCall k (.all { merge with buf := merge.buf ++ [(i, r)] } main)).setThread
          (.helper k i) (.finished w r))
  | offered {k : κ} {i : ℕ} {w : Wait φ κ} {r : Result α} {winner : Chan (Result α)}
      {main : RaceMain α} (hw : s.threads (.helper k i) = .returned w r)
      (hcall : s.calls k = some (.race winner main)) :
      Effect fn zero s (.pass k i)
        ((s.setCall k (.race { winner with buf := winner.buf ++ [r] } main)).setThread
          (.helper k i) (.finished w r))
  | dropped {k : κ} {i : ℕ} {w : Wait φ κ} {r : Result α} {winner : Chan (Result α)}
      {main : RaceMain α} (hw : s.threads (.helper k i) = .returned w r)
      (hcall : s.calls k = some (.race winner main)) :
      Effect fn zero s (.pass k i) (s.setThread (.helper k i) (.finished w r))
  | collected {k : κ} {merge : Chan (ℕ × Result α)} {left : ℕ} {results : List α} {i : ℕ}
      {r : Result α} {buf : List (ℕ × Result α)}
      (hcall : s.calls k = some (.all merge (.collecting (left + 1) results)))
      (hbuf : merge.buf = (i, r) :: buf) (hok : r.err = none) :
      Effect fn zero s (.collect k) (s.setCall k
        (.all { merge with buf := buf } (.collecting left (results.set i r.val))))
  | failed {k : κ} {merge : Chan (ℕ × Result α)} {left : ℕ} {results : List α} {i : ℕ}
      {r : Result α} {buf : List (ℕ × Result α)} {err : GoError}
      (hcall : s.calls k = some (.all merge (.collecting (left + 1) results)))
      (hbuf : merge.buf = (i, r) :: buf) (herr : r.err = some err) :
      Effect fn zero s (.collect k) ((s.setCall k
        (.all { merge with buf := buf } (.returned none (some err)))).cancelCall k)
  | won {k : κ} {winner : Chan (Result α)} {r : Result α} {buf : List (Result α)}
      (hcall : s.calls k = some (.race winner .waiting)) (hbuf : winner.buf = r :: buf) :
      Effect fn zero s (.collect k)
        ((s.setCall k (.race { winner with buf := buf } (.returned r))).cancelCall k)
  | allGaveUp {k : κ} {merge : Chan (ℕ × Result α)} {left : ℕ} {results : List α} {err : GoError}
      (hdone : s.done k = some err)
      (hcall : s.calls k = some (.all merge (.collecting (left + 1) results))) :
      Effect fn zero s (.giveUp k) (s.setCall k (.all merge (.returned none (some err))))
  | raceGaveUp {k : κ} {winner : Chan (Result α)} {err : GoError} (hdone : s.done k = some err)
      (hcall : s.calls k = some (.race winner .waiting)) :
      Effect fn zero s (.giveUp k) (s.setCall k (.race winner (.returned ⟨zero, some err⟩)))
  | allFinished {k : κ} {merge : Chan (ℕ × Result α)} {results : List α}
      (hcall : s.calls k = some (.all merge (.collecting 0 results))) :
      Effect fn zero s (.finish k)
        ((s.setCall k (.all merge (.returned (some results) none))).cancelCall k)
  | cancelled {k : κ} {err : GoError} (hk : s.done k = none) :
      Effect fn zero s (.cancel k err) { s with done := Function.update s.done k (some err) }

variable {fn : φ → Result α} {zero : α} {s s' : Sys φ ι κ α}

theorem effect_produce {f : φ} (h : s.produce fn f = some s') :
    Effect fn zero s (.produce f) s' := by
  unfold Sys.produce at h
  split_ifs at h with hsent
  rcases (s.futures f).ch.send_cases (fn f) with ⟨-, hs⟩ | ⟨-, -, hs⟩ | ⟨-, -, hs⟩
  · simp [hs] at h
  · simp only [hs, Option.some.injEq] at h
    subst h
    exact .produced (Bool.eq_false_of_not_eq_true hsent)
  · simp [hs] at h

theorem effect_await {c : ι} {f : φ} {k : κ} (h : s.await c f k = some s') :
    Effect fn zero s (.await c f k) s' := by
  unfold Sys.await at h
  cases hw : s.threads (.caller c) with
  | idle =>
      simp only [hw, Option.some.injEq] at h
      subst h
      exact .awaited hw
  | _ => simp [hw] at h

theorem effect_enter {t : Tid ι κ} (h : s.enter t = some s') : Effect fn zero s (.enter t) s' := by
  unfold Sys.enter at h
  cases hw : s.threads t with
  | entering w =>
      cases honce : (s.futures w.fut).once with
      | fresh =>
          simp only [hw, honce, Option.some.injEq] at h
          subst h
          exact .entered hw honce
      | running => simp [hw, honce] at h
      | done =>
          simp only [hw, honce, Option.some.injEq] at h
          subst h
          exact .joined hw honce
  | _ => simp [hw] at h

theorem effect_receive {t : Tid ι κ} (h : s.receive t = some s') :
    Effect fn zero s (.receive t) s' := by
  unfold Sys.receive at h
  cases hw : s.threads t with
  | inside w =>
      rcases (s.futures w.fut).ch.recv_cases with ⟨r, buf, hbuf, hr⟩ | ⟨-, -, hr⟩ | ⟨-, -, hr⟩
      · simp only [hw, hr, Option.some.injEq] at h
        subst h
        exact .received hw hbuf
      · simp [hw, hr] at h
      · simp [hw, hr] at h
  | _ => simp [hw] at h

theorem effect_expire {t : Tid ι κ} (h : s.expire zero t = some s') :
    Effect fn zero s (.expire t) s' := by
  unfold Sys.expire at h
  cases hw : s.threads t with
  | inside w =>
      cases hdone : s.done w.ctx with
      | none => simp [hw, hdone] at h
      | some err =>
          simp only [hw, hdone, Option.some.injEq] at h
          subst h
          exact .expired hw hdone
  | _ => simp [hw] at h

theorem effect_leave {t : Tid ι κ} (h : s.leave t = some s') : Effect fn zero s (.leave t) s' := by
  unfold Sys.leave at h
  cases hw : s.threads t with
  | leaving w =>
      simp only [hw, Option.some.injEq] at h
      subst h
      exact .left hw
  | _ => simp [hw] at h

theorem effect_all {k : κ} {fs : List φ} (h : s.all zero k fs = some s') :
    Effect fn zero s (.all k fs) s' := by
  unfold Sys.all at h
  cases hcall : s.calls k with
  | none =>
      simp only [hcall, Option.some.injEq] at h
      subst h
      exact .allStarted hcall
  | some call => simp [hcall] at h

theorem effect_race {k : κ} {fs : List φ} (h : s.race k fs = some s') :
    Effect fn zero s (.race k fs) s' := by
  unfold Sys.race at h
  cases hcall : s.calls k with
  | none =>
      simp only [hcall, Option.some.injEq] at h
      subst h
      exact .raceStarted hcall
  | some call => simp [hcall] at h

theorem effect_pass {k : κ} {i : ℕ} (h : s.pass k i = some s') :
    Effect fn zero s (.pass k i) s' := by
  unfold Sys.pass at h
  cases hw : s.threads (.helper k i) with
  | returned w r =>
      cases hcall : s.calls k with
      | none => simp [hw, hcall] at h
      | some call =>
          cases call with
          | all merge main =>
              rcases merge.send_cases (i, r) with ⟨-, hs⟩ | ⟨-, -, hs⟩ | ⟨-, -, hs⟩
              · simp [hw, hcall, hs] at h
              · simp only [hw, hcall, hs, Option.some.injEq] at h
                subst h
                exact .merged hw hcall
              · simp [hw, hcall, hs] at h
          | race winner main =>
              rcases winner.send_cases r with ⟨-, hs⟩ | ⟨-, -, hs⟩ | ⟨-, -, hs⟩
              · simp only [hw, hcall, hs, Option.some.injEq] at h
                subst h
                exact .dropped hw hcall
              · simp only [hw, hcall, hs, Option.some.injEq] at h
                subst h
                exact .offered hw hcall
              · simp only [hw, hcall, hs, Option.some.injEq] at h
                subst h
                exact .dropped hw hcall
  | _ => simp [hw] at h

theorem effect_collect {k : κ} (h : s.collect k = some s') :
    Effect fn zero s (.collect k) s' := by
  unfold Sys.collect at h
  split at h
  · rename_i merge left results hcall
    rcases merge.recv_cases with ⟨⟨i, r⟩, buf, hbuf, hr⟩ | ⟨-, -, hr⟩ | ⟨-, -, hr⟩
    · cases herr : r.err with
      | none =>
          simp only [hr, herr, Option.some.injEq] at h
          subst h
          exact .collected hcall hbuf herr
      | some err =>
          simp only [hr, herr, Option.some.injEq] at h
          subst h
          exact .failed hcall hbuf herr
    · simp [hr] at h
    · simp [hr] at h
  · rename_i winner hcall
    rcases winner.recv_cases with ⟨r, buf, hbuf, hr⟩ | ⟨-, -, hr⟩ | ⟨-, -, hr⟩
    · simp only [hr, Option.some.injEq] at h
      subst h
      exact .won hcall hbuf
    · simp [hr] at h
    · simp [hr] at h
  · nomatch h

theorem effect_giveUp {k : κ} (h : s.giveUp zero k = some s') :
    Effect fn zero s (.giveUp k) s' := by
  unfold Sys.giveUp at h
  split at h
  · rename_i err merge left results hdone hcall
    obtain rfl := Option.some.inj h
    exact .allGaveUp hdone hcall
  · rename_i err winner hdone hcall
    obtain rfl := Option.some.inj h
    exact .raceGaveUp hdone hcall
  · nomatch h

theorem effect_finish {k : κ} (h : s.finish k = some s') : Effect fn zero s (.finish k) s' := by
  unfold Sys.finish at h
  split at h
  · rename_i merge results hcall
    obtain rfl := Option.some.inj h
    exact .allFinished hcall
  · nomatch h

theorem effect_cancel {k : κ} {err : GoError} (h : s.cancel k err = some s') :
    Effect fn zero s (.cancel k err) s' := by
  unfold Sys.cancel at h
  cases hk : s.done k with
  | none =>
      simp only [hk, Option.some.injEq] at h
      subst h
      exact .cancelled hk
  | some err' => simp [hk] at h

theorem effect_of_step {x : Action φ ι κ} (h : s.step fn zero x = some s') :
    Effect fn zero s x s' := by
  cases x with
  | produce f => exact effect_produce h
  | await c f k => exact effect_await h
  | enter t => exact effect_enter h
  | receive t => exact effect_receive h
  | expire t => exact effect_expire h
  | leave t => exact effect_leave h
  | all k fs => exact effect_all h
  | race k fs => exact effect_race h
  | pass k i => exact effect_pass h
  | collect k => exact effect_collect h
  | giveUp k => exact effect_giveUp h
  | finish k => exact effect_finish h
  | cancel k err => exact effect_cancel h

end Gkit.Futures
