import Gkit.EventStore.Interleaved

/-!
# Which error the losing writer gets

Callers reload and retry on `ErrVersionConflict`.  An append that another one
overtakes between its version check and its first insert does not get that
error: its insert runs into the primary key and the driver's error comes back.
In all runs without such an overtaking commit the only error is
`ErrVersionConflict`, and an append with `ExpectedVersionAny` gets none.
-/

namespace Gkit.EventStore

open Gkit.Lib Gkit.Store

variable {V ι : Type} {codec : Codec V} {req : ι → AppendCall V}

/-- Every call that has returned has returned nil or, if it asked for a version,
`ErrVersionConflict`. -/
def ReportsConflicts (req : ι → AppendCall V) (s : Sys schema Unit ι (Option GoError)) : Prop :=
  ∀ c out, (s.prog c).ended = some out →
    out = .ret none ∨ ∃ err, out = .ret (some err) ∧ Retryable (req c) err

theorem reportsConflicts_of_inv {s : Sys schema Unit ι (Option GoError)}
    (hs : (outline codec req True).Inv s) : ReportsConflicts req s := by
  intro c out hout
  obtain ⟨p, hcode, hL⟩ := hs.2 c
  change s.prog c = Phase.code codec (req c) p at hcode
  rw [hcode] at hout
  rcases hL.ended_cases hout with ⟨-, -, rfl⟩ | ⟨r, rfl, rfl⟩ | rfl
  · exact .inl rfl
  · cases r with
    | none => exact .inl rfl
    | some err => exact .inr ⟨err, rfl, hL.2 trivial err rfl⟩
  · exact absurd trivial hL.2

theorem uniqueViolation_not_conflict (text : String) :
    (GoError.wrapping text errUniqueViolation).is errVersionConflict = false := by
  simp [GoError.wrapping, GoError.is, errUniqueViolation, errVersionConflict]

/-- A client that is about to insert its first event is in the phase that says so. -/
theorem phase_of_aboutToInsert {strict : Prop} {s : Sys schema Unit ι (Option GoError)} {b : ι}
    (hs : (outline codec req strict).Inv s) (h : aboutToInsert s b = true) :
    ∃ ty base ed doc rest y, s.prog b =
        Phase.code codec (req b) (.inserting ty base [] (ed :: rest)) ∧
      marshalEvent codec ed = .ok doc ∧ Holds b ty y s.world ∧ y.aborted = false ∧
      Inserting codec (req b) strict base [] (ed :: rest) y (s.world.committed ()).events := by
  obtain ⟨p, hcode, hL⟩ := hs.2 b
  change s.prog b = Phase.code codec (req b) p at hcode
  obtain ⟨tx, sid, v, type, data, metadata, k, x, hprog, hx, hlog⟩ :
      ∃ tx sid v type data metadata k x,
        s.prog b = .op (.exec tx (.insertEvent sid v type data metadata)) k ∧
        s.world.txs tx.id = some x ∧ x.log = [] := by
    simp only [aboutToInsert] at h
    split at h
    · rename_i tx sid v type data metadata k hprog
      obtain ⟨x, hx, hlog⟩ := Option.any_eq_true .. |>.mp h
      exact ⟨tx, sid, v, type, data, metadata, k, x, hprog, hx, by simpa using hlog⟩
    · simp at h
  rcases hL.op_cases (hcode.symm.trans hprog) with ⟨-, ho⟩ | ⟨ty, -, ho⟩ | ⟨ty, _, _, -, ho⟩ |
    ⟨ty, base, docs, ed, doc, rest, rfl, hdoc, ho⟩ | ⟨ty, err, -, ho⟩
  · cases ho
  · cases ho
  · cases ho
  · obtain ⟨-, y, hy, ha, hins⟩ := hL
    obtain rfl : ty = tx := by
      cases ho
      rfl
    obtain rfl : y = x := Option.some.inj (hy.open_.symm.trans hx)
    obtain rfl : docs = [] := by
      have hlen := congrArg List.length (hins.log.symm.trans hlog)
      cases docs with
      | nil => rfl
      | cons d ds => simp [rowsAt] at hlen
    exact ⟨ty, base, ed, doc, rest, y, hcode, hdoc, hy, ha, hins⟩
  · cases ho

theorem phase_of_aboutToCommit {strict : Prop} {s : Sys schema Unit ι (Option GoError)} {c : ι}
    (hs : (outline codec req strict).Inv s) (h : aboutToCommit s c = true) :
    ∃ tx base docs x, (req c).events ≠ [] ∧ Holds c tx x s.world ∧ x.aborted = false ∧
      Inserting codec (req c) strict base docs [] x (s.world.committed ()).events ∧
      s.prog c = Phase.code codec (req c) (.inserting tx base docs []) := by
  obtain ⟨p, hcode, hL⟩ := hs.2 c
  change s.prog c = Phase.code codec (req c) p at hcode
  obtain ⟨tx, k, hprog⟩ : ∃ tx k, s.prog c = .op (.commit tx) k := by
    simp only [aboutToCommit] at h
    split at h
    · exact ⟨_, _, ‹_›⟩
    · simp at h
  rcases hL.op_cases (hcode.symm.trans hprog) with ⟨-, ho⟩ | ⟨ty, -, ho⟩ |
    ⟨ty, base, docs, rfl, ho⟩ | ⟨ty, _, _, _, _, _, -, -, ho⟩ | ⟨ty, err, -, ho⟩
  · cases ho
  · cases ho
  · obtain ⟨hne, x, hx, ha, hins⟩ := hL
    exact ⟨ty, base, docs, x, hne, hx, ha, hins, hcode⟩
  · cases ho
  · cases ho

variable [DecidableEq ι]

/-- An append whose next version is taken fails on the primary key and has
returned the driver's error two steps later. -/
theorem insert_fails {s : Sys schema Unit ι (Option GoError)} {b : ι} {tx : Tx Unit} {base : ℤ}
    {docs : List Document} {ed : EventData V} {doc : Document} {rest : List (EventData V)}
    {x : TxState schema Unit ι} {e₁ : Tick schema}
    (hprog : s.prog b = Phase.code codec (req b) (.inserting tx base docs (ed :: rest)))
    (hdoc : marshalEvent codec ed = .ok doc) (hx : s.world.txs tx.id = some x)
    (ha : x.aborted = false) (he : e₁.fault = none)
    (hmem : base + 1 + docs.length ∈ versions (req b).streamID (s.world.view x).events)
    (e₂ : Tick schema) :
    ∃ s' text, run Sys.step s [.step b e₁, .step b e₂] = some s' ∧
      s'.prog b = .ret (some (.wrapping text errUniqueViolation)) := by
  rw [Phase.code_inserting_cons hdoc] at hprog
  obtain ⟨w₁, hinsert, hx₁⟩ : ∃ w₁, s.world.exec b e₁ (.exec tx (.insertEvent (req b).streamID
      (base + 1 + docs.length) doc.type doc.data doc.metadata)) =
        some (.error errUniqueViolation, w₁) ∧
      w₁.txs tx.id = some { x with aborted := true } := by
    refine ⟨_, World.exec_fail b hx ha he ?_, by simp⟩
    simp only [Stmt.run, hmem, if_true]
  obtain ⟨r, hrollback⟩ := w₁.exec_rollback b e₂ hx₁
  refine ⟨_, "eventstore: insert event " ++ quote ed.type ++ " v" ++
    toString (base + 1 + (docs.length : ℤ)), run_cons_eq_some.mpr ⟨_, Sys.step_eq hprog hinsert,
    run_cons_eq_some.mpr ⟨_, Sys.step_eq (Function.update_self _ _ _) hrollback, rfl⟩⟩, ?_⟩
  exact Function.update_self _ _ _

/-- A commit that overtakes an append takes the version it wants to insert. -/
theorem overtaken_fails {s s₁ : Sys schema Unit ι (Option GoError)} {b c : ι}
    {e e₁ : Tick schema} (hs : (outline codec req False).Inv s)
    (hc : aboutToCommit s c = true) (hstep : s.step (.step c e) = some s₁) (he : e.fault = none)
    (hb : b ≠ c) (hsid : (req b).streamID = (req c).streamID) (hab : aboutToInsert s b = true)
    (he₁ : e₁.fault = none) (e₂ : Tick schema) :
    ∃ s₂ text, run Sys.step s₁ [.step b e₁, .step b e₂] = some s₂ ∧
      s₂.prog b = .ret (some (.wrapping text errUniqueViolation)) := by
  have hG : Ordered codec req s.world := hs.1
  obtain ⟨ty, base', ed, doc, rest, y, hprog, hdoc, hy, hya, hins'⟩ := phase_of_aboutToInsert hs hab
  obtain ⟨tx, base, docs, x, hne, hx, ha, hins, hcode⟩ := phase_of_aboutToCommit hs hc
  obtain ⟨o, k, r, w₁, hop, hexec, rfl⟩ := Sys.step_step_eq_some hstep
  rw [hcode, Phase.code_inserting_nil] at hop
  cases hop
  have huntouched := hG.wf.untouched hexec (World.owner_of_target hx.open_ hx.owner rfl) hb
  refine insert_fails (by simpa [hb] using hprog) hdoc ((huntouched.txs hy.owner).mpr hy.open_)
    hya he₁ ?_ e₂
  rcases World.exec_commit_cases hexec hx.open_ ha with ⟨err, hf, -⟩ | ⟨-, rfl, rfl⟩
  · simp [he] at hf
  · obtain ⟨-, hdocs, heq⟩ := hins.complete hne
    obtain ⟨cs, -, hserial⟩ := hG.serial
    obtain ⟨cs', -, hserial'⟩ := (hG.commit hne hx (hG.wf.exec hexec) hins).serial
    have hlen : 0 < docs.length := List.length_pos_iff.mpr hdocs
    have hle := hsid ▸ hins'.le
    have hneg := hins'.neg_one_le
    rw [view_events [] (by simpa [rowsAt] using hins'.log), List.append_nil,
      hserial'.gapless.mem_versions, World.committed_record, committed_settle_events tx hins.log,
      heq, hsid, hserial.gapless.maxVersion_append, List.length_nil, Nat.cast_zero, add_zero]
    omega

/-- For appends whose events all marshal, on an empty database. -/
theorem appends_report_conflicts (codec : Codec V) (req : ι → AppendCall V)
    (hmarshal : ∀ c, ∀ ed ∈ (req c).events, ∃ doc, marshalEvent codec ed = .ok doc) :
    -- Without overtaking every reported error is a conflict that can be retried.
    (∀ xs s, Along Sys.step (Undisturbed req) (appends codec req) xs →
      run Sys.step (appends codec req) xs = some s → ReportsConflicts req s) ∧
    -- A commit that overtakes another append makes that one report something else.
    (∀ xs s s₁ b c e, run Sys.step (appends codec req) xs = some s →
      aboutToCommit s c = true → s.step (.step c e) = some s₁ → e.fault = none → b ≠ c →
      (req b).streamID = (req c).streamID → aboutToInsert s b = true →
      ∀ e₁ e₂, e₁.fault = none → ∃ s₂, run Sys.step s₁ [.step b e₁, .step b e₂] = some s₂ ∧
        ¬ReportsConflicts req s₂) := by
  constructor
  · intro xs s hA h
    refine reportsConflicts_of_inv ((outline_sound codec req fun _ => hmarshal).run_inv
      (outline_initial codec req True) ?_ h)
    exact hA.imp fun _ _ hx _ => hx
  · intro xs s s₁ b c e h hc hstep he hb hsid hab e₁ e₂ he₁
    have hinv := (outline_sound codec req (fun hf => hf.elim)).run_inv
      (outline_initial codec req False) (along_of_forall fun _ _ _ hf => hf.elim) h
    obtain ⟨s₂, text, hrun, hprog⟩ := overtaken_fails hinv hc hstep he hb hsid hab he₁ e₂
    refine ⟨s₂, hrun, fun hok => ?_⟩
    rcases hok b _ (by rw [hprog]; rfl) with hout | ⟨err, hout, hretry, -⟩
    · cases hout
    · cases hout
      rw [uniqueViolation_not_conflict] at hretry
      cases hretry

/-- Two appends that both want to start the stream. -/
def racing : Bool → AppendCall (Option String)
  | false => ⟨"order", [⟨"Placed", some "1", none⟩], expectedVersionNew⟩
  | true => ⟨"order", [⟨"Placed", some "2", none⟩], expectedVersionNew⟩

/-- Both have read before one of them commits. -/
def racingSteps : List (Action schema Bool) :=
  [false, true, false, true, false, false, true, true].map fun c => .step c ⟨0, none⟩

theorem racing_not_reportsConflicts :
    ∃ s, run Sys.step (appends textCodec racing) racingSteps = some s ∧
      ¬ReportsConflicts racing s := by
  have hend : (run Sys.step (appends textCodec racing) racingSteps).bind
      (fun s => (s.prog true).ended) = some (.ret (some (.wrapping
        "eventstore: insert event \"Placed\" v0" errUniqueViolation))) := by
    decide
  obtain ⟨s, hs, hout⟩ := Option.bind_eq_some_iff.mp hend
  refine ⟨s, hs, fun hok => ?_⟩
  rcases hok true _ hout with h | ⟨err, h, hretry, -⟩
  · cases h
  · cases h
    rw [uniqueViolation_not_conflict] at hretry
    cases hretry

/-- One after the other: the second one finds the stream and is told so. -/
def patientSteps : List (Action schema Bool) :=
  [false, false, false, false, true, true, true].map fun c => .step c ⟨0, none⟩

theorem patient_reportsConflicts :
    ∃ s, run Sys.step (appends textCodec racing) patientSteps = some s ∧
      ReportsConflicts racing s := by
  have hsome : (run Sys.step (appends textCodec racing) patientSteps).isSome = true := by decide
  obtain ⟨s, hs⟩ := Option.isSome_iff_exists.mp hsome
  refine ⟨s, hs, (appends_report_conflicts textCodec racing ?_).1 patientSteps s ?_ hs⟩
  · intro c ed hed
    cases c <;> obtain rfl := List.mem_singleton.mp hed <;> exact ⟨_, rfl⟩
  · decide

end Gkit.EventStore
