import Gkit.JobQueue.Steps
import Gkit.JobQueue.Accounting

/-!
# The life of a job

From an empty table, whatever workers and producers do and wherever they crash,
a committed job is waiting for its next attempt, done, or dead.  The last two
are final.  No two workers run the handler of one job at the same time, and
without crashes a job that nobody holds has had as many calls of its handler as
it has attempts.
-/

namespace Gkit.JobQueue

open Gkit.Lib Gkit.Store

variable {U : Schema} {V ι : Type}

/-- Every call of `Enqueue` asks for at least one attempt. -/
def Role.Sane : Role V → Prop
  | .worker _ => True
  | .producer work => ∀ b ∈ work, b.Sane

/-- A server with no jobs, and its clients. -/
def launch (marshal : V → Except GoError String) (q : Queue U Unit) (u : U.Data)
    (roles : ι → Role V) : Sys (schema U) Unit ι Unit :=
  ⟨World.initial fun _ => ⟨Table.empty, u⟩, fun c => (roles c).code marshal q⟩

/-- The client is inside the handler of the job. -/
def Executing [DecidableEq ι] (s : Sys (schema U) Unit ι Unit) (c : ι) (id : ℕ) : Prop :=
  (s.prog c).ended = none ∧ inHandler c s.world.hist = some id

section Reachable

variable [DecidableEq ι] {marshal : V → Except GoError String} {q : Queue U Unit} {strict : Prop}
  {settled : JobRow → Prop} {s s' : Sys (schema U) Unit ι Unit}

omit [DecidableEq ι] in
theorem global_initial (u : U.Data) :
    Global strict (fun _ => False)
      (World.initial (ι := ι) fun _ => (⟨Table.empty, u⟩ : Tables U)) where
  wf := World.WF.initial _
  bound := fun hx => nomatch hx
  lawful := fun hrow => nomatch hrow
  settled := fun hf => hf.elim
  balanced := fun _ _ _ hrow => nomatch hrow
  near := fun _ _ _ hrow => nomatch hrow
  future := fun _ _ _ => ⟨rfl, rfl⟩

theorem outline_initial (u : U.Data) {roles : ι → Role V} (hroles : ∀ c, (roles c).Sane) :
    (outline marshal q strict fun _ => False).Inv (launch marshal q u roles) := by
  refine ⟨global_initial u, fun c => ?_⟩
  have hsane := hroles c
  change ∃ p : Phase U V, (roles c).code marshal q = Phase.code marshal q p ∧
    Phase.Local strict c p _
  cases hrole : roles c with
  | worker ticks => exact ⟨.polling ticks, rfl, rfl⟩
  | producer work => exact ⟨.producing work, rfl, rfl, by rwa [hrole] at hsane⟩

theorem launch_inv (hq : Outside q) {roles : ι → Role V} (hroles : ∀ c, (roles c).Sane)
    {u : U.Data} {xs : List (Action (schema U) ι)} (hxs : ∀ x ∈ xs, Steady strict x)
    (h : run Sys.step (launch marshal q u roles) xs = some s) :
    (outline marshal q strict fun _ => False).Inv s :=
  (outline_sound marshal hq).run_inv (outline_initial u hroles)
    (along_of_forall fun x hx _ => hxs x hx) h

/-- The clients do not care which of the settled rows one keeps an eye on. -/
theorem settled_stable (hq : Outside q) (hs : (outline marshal q strict settled).Inv s)
    {ys : List (Action (schema U) ι)} (hys : ∀ y ∈ ys, Steady strict y)
    (h : run Sys.step s ys = some s') {id : ℕ} {row : JobRow}
    (hrow : (s.world.committed ()).jobs.get id = some row) (hfinal : row.status ≠ .pending) :
    (s'.world.committed ()).jobs.get id = some row := by
  have hG : Global strict settled s.world := hs.1
  obtain rfl : row.id = id := (Table.get_eq_some.mp hrow).2
  have hwatch : (outline marshal q strict (· = row)).Inv s :=
    ⟨{ hG with settled := fun heq => heq ▸ ⟨hrow, hfinal⟩ }, hs.2⟩
  have hG' : Global strict (· = row) s'.world := ((outline_sound marshal hq).run_inv hwatch
    (along_of_forall fun y hy _ => hys y hy) h).1
  exact (hG'.settled rfl).1

theorem Executing.holds {c : ι} {id : ℕ} (hs : (outline marshal q strict settled).Inv s)
    (h : Executing s c id) :
    ∃ i x, s.world.txs i = some x ∧ x.owner = c ∧ Key.job id ∈ x.locks := by
  obtain ⟨hrun, hin⟩ := h
  obtain ⟨p, hcode, hL⟩ := hs.2 c
  change s.prog c = Phase.code marshal q p at hcode
  change Phase.Local strict c p s.world at hL
  cases p with
  | handling tx job p jobs n =>
      obtain ⟨hsome, -, -, x, hx⟩ := hL
      obtain rfl : job.id = id := Option.some.inj (hsome.symm.trans hin)
      exact ⟨tx.id, x, hx.tx, hx.owner, (hx.picked job List.mem_cons_self).1⟩
  | crashed => simp [hcode, Phase.code, Prog.ended] at hrun
  | polling => exact absurd (hL.symm.trans hin) (by simp)
  | selecting | executing | retrying | updating | producing | enqueuing | inserting | storing =>
      exact absurd (hL.1.symm.trans hin) (by simp)

theorem Executing.unique {b c : ι} {id : ℕ} (hs : (outline marshal q strict settled).Inv s)
    (hb : Executing s b id) (hc : Executing s c id) : b = c := by
  have hG : Global strict settled s.world := hs.1
  obtain ⟨i, x, hx, rfl, hlock⟩ := hb.holds hs
  obtain ⟨j, y, hy, rfl, hlock'⟩ := hc.holds hs
  obtain rfl := hG.wf.exclusive hx hy rfl hlock hlock'
  rw [hx] at hy
  cases hy
  rfl

end Reachable

theorem jobs_lifecycle [DecidableEq ι] (marshal : V → Except GoError String) {q : Queue U Unit}
    (hq : Outside q) {roles : ι → Role V} (hroles : ∀ c, (roles c).Sane) (u : U.Data)
    {xs : List (Action (schema U) ι)} {s : Sys (schema U) Unit ι Unit}
    (hxs : ∀ x ∈ xs, Steady False x) (h : run Sys.step (launch marshal q u roles) xs = some s) :
    -- Every committed job is waiting, done or dead, within its attempts.
    (∀ row ∈ (s.world.committed ()).jobs.rows, Lawful row) ∧
    -- A job that is done or dead is the same in every later state.
    (∀ ys s', (∀ y ∈ ys, Steady False y) → run Sys.step s ys = some s' →
      ∀ row ∈ (s.world.committed ()).jobs.rows, row.status ≠ .pending →
        row ∈ (s'.world.committed ()).jobs.rows) ∧
    -- Nobody runs the handler of a job that somebody else is running.
    (∀ b c id, Executing s b id → Executing s c id → b = c) ∧
    -- Without crashes, a job that is not held by an open transaction has been run as often as it
    -- says; for one that is, the call of that transaction may be missing.
    ((∀ x ∈ xs, Steady True x) → ∀ row ∈ (s.world.committed ()).jobs.rows,
      (¬(jobRows U).Held s.world () row.id →
        ((invocations s.world.hist).count row.id : ℤ) = row.attempts) ∧
      row.attempts ≤ (invocations s.world.hist).count row.id ∧
      (invocations s.world.hist).count row.id ≤ row.attempts + 1 ∧
      (successes s.world.hist).count row.id ≤ 1) := by
  have hinv := launch_inv hq hroles hxs h
  have hG : Global False (fun _ => False) s.world := hinv.1
  refine ⟨fun row hrow => ?_, fun ys s' hys hs' row hrow hfinal => ?_,
    fun b c id hb hc => hb.unique hinv hc, fun hcalm row hrow => ?_⟩
  · exact (hG.lawful (Table.get_eq_some.mpr ⟨hrow, rfl⟩)).1
  · have hget := settled_stable hq hinv hys hs' (Table.get_eq_some.mpr ⟨hrow, rfl⟩) hfinal
    exact (Table.get_eq_some.mp hget).1
  · have hG' : Global True (fun _ => False) s.world := (launch_inv hq hroles hcalm h).1
    have hget := Table.get_eq_some.mpr ⟨hrow, rfl⟩
    obtain ⟨calls, good, ⟨hcalls, hgood⟩, hle, hle', hone⟩ := hG'.near trivial hget
    exact ⟨fun hfree => (hG'.balanced trivial _ row hget hfree).1, by omega, by omega, by omega⟩

/-- A queue whose handlers leave the result to the outside. -/
def askingQueue : Queue notes Unit := ⟨(), fun type => some fun _ _ => .op (.ext (.ask type)) .ret⟩

theorem askingQueue_outside : Outside askingQueue :=
  fun _ => ⟨_, rfl, fun _ _ => ⟨trivial, fun _ => trivial⟩⟩

/-- A producer and two workers. -/
def mailRoles : Fin 3 → Role String
  | 0 => .producer [.direct ⟨"mail", "null", [withMaxAttempts 2]⟩]
  | _ => .worker 2

/-- One worker takes the job and fails, while the other one finds it locked; an
hour later the other one succeeds. -/
def retriedSteps : List (Action (schema notes) (Fin 3)) :=
  [(0, none), (0, none), (1, none), (1, none), (2, none), (2, none), (1, none),
    (1, some errDivision), (1, none), (2, none), (1, none), (1, none),
    (1, none)].map (fun (c, answer) =>
      .step c ⟨⟨10, id, answer, ()⟩, none⟩) ++
    List.replicate 7 (.step 2 ⟨⟨hour, id, none, ()⟩, none⟩)

theorem retried_lifecycle :
    ∃ s, run Sys.step (launch (.ok ·) askingQueue [] mailRoles) retriedSteps = some s ∧
      invocations s.world.hist = [1, 1] ∧ successes s.world.hist = [1] ∧
      ∀ row ∈ (s.world.committed ()).jobs.rows, Lawful row ∧
        (successes s.world.hist).count row.id ≤ 1 := by
  have hsane : ∀ c, (mailRoles c).Sane := by
    intro c
    fin_cases c
    · intro b hb
      obtain rfl := List.mem_singleton.mp hb
      change (1 : ℤ) ≤ 2
      decide
    · trivial
    · trivial
  have hrun : (run Sys.step (launch (.ok ·) askingQueue [] mailRoles) retriedSteps).map
      (fun s => (invocations s.world.hist, successes s.world.hist)) = some ([1, 1], [1]) := by
    decide
  obtain ⟨s, hs, hcounts⟩ := Option.map_eq_some_iff.mp hrun
  obtain ⟨hlaw, -, -, hcalls⟩ :=
    jobs_lifecycle (.ok ·) askingQueue_outside hsane [] (by decide) hs
  exact ⟨s, hs, (Prod.mk.inj hcounts).1, (Prod.mk.inj hcounts).2, fun row hrow =>
    ⟨hlaw row hrow, (hcalls (by decide) row hrow).2.2.2⟩⟩

end Gkit.JobQueue
