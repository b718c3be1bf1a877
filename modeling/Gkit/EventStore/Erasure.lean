import Gkit.EventStore.Callers
import Gkit.EventStore.Interleaved

/-!
# Appends and snapshots

Any number of clients, each with one top-level `Append` or `SaveSnapshot`.  A
statement of an append reads events only, so for the appends the run is the same
without the snapshots: whatever is known of runs of appends alone holds of the
events here.
-/

namespace Gkit.EventStore

open Gkit.Lib Gkit.Store

variable {V ι : Type}

/-- A call from outside any transaction. -/
inductive TopCall (V : Type) where
  | append (a : AppendCall V)
  | save (streamID : String) (version : ℤ) (state : V)

def TopCall.code (codec : Codec V) : TopCall V → GoProg schema Unit (Option GoError)
  | .append a => EventStore.append codec () .background a
  | .save sid v state => saveSnapshot codec () .background sid v state

/-- The clients before their first step, on an empty database. -/
def clients (codec : Codec V) (calls : ι → TopCall V) : Sys schema Unit ι (Option GoError) :=
  ⟨emptyDB, fun c => (calls c).code codec⟩

def TopCall.isAppend : TopCall V → Bool
  | .append _ => true
  | .save .. => false

/-- In place of a saved snapshot, an append of no events, which does nothing. -/
def TopCall.erased : TopCall V → AppendCall V
  | .append a => a
  | .save sid .. => ⟨sid, [], expectedVersionAny⟩

/-! ## Worlds that differ in their snapshots -/

/-- The two servers have the same open transactions, all of which have inserted
events only, and the same events. -/
structure Agree (w w' : World schema Unit ι) : Prop where
  txs : w'.txs = w.txs
  next : w'.next = w.next
  events : (w'.committed ()).events = (w.committed ()).events
  logs : ∀ i x, w.txs i = some x → ∃ rows : List Event, x.log = rows.map .event

section Agree

variable {w w' : World schema Unit ι}

theorem Agree.locked (h : Agree w w') (d : Unit) (self : Option ℕ) :
    w'.locked d self = w.locked d self := by
  funext k
  simp only [World.locked, h.txs, h.next]

theorem Agree.view_events (h : Agree w w') {i : ℕ} {x : TxState schema Unit ι}
    (hx : w.txs i = some x) : (w'.view x).events = (w.view x).events := by
  obtain ⟨rows, hrows⟩ := h.logs i x hx
  rw [EventStore.view_events rows hrows, EventStore.view_events rows hrows, h.events]

theorem Agree.record (h : Agree w w') (c c' : ι) (o o' : Op schema Unit) (r : o.Res)
    (r' : o'.Res) : Agree (w.record c o r) (w'.record c' o' r') where
  txs := h.txs
  next := h.next
  events := h.events
  logs := h.logs

theorem Agree.setTx (h : Agree w w') (i : ℕ) {x : Option (TxState schema Unit ι)}
    (hx : ∀ y ∈ x, ∃ rows : List Event, y.log = rows.map .event) :
    Agree (w.setTx i x) (w'.setTx i x) where
  txs := by simp [h.txs]
  next := h.next
  events := h.events
  logs := by
    intro j y hy
    rw [World.setTx_txs] at hy
    by_cases hj : j = i
    · subst hj
      exact hx y (by simpa using hy)
    · rw [Function.update_of_ne hj] at hy
      exact h.logs j y hy

theorem Agree.settle (h : Agree w w') {i : ℕ} {x : TxState schema Unit ι}
    (hx : w.txs i = some x) : Agree (w.settle i x) (w'.settle i x) where
  txs := by simp [h.txs]
  next := h.next
  events := by
    obtain ⟨⟩ := x.db
    rw [World.committed_settle, World.committed_settle]
    exact h.view_events hx
  logs := (h.setTx i (x := none) (by simp)).logs

/-- The statements of `Append`. -/
def Stmt.OnEvents : Stmt → Prop
  | .maxVersion _ => True
  | .insertEvent .. => True
  | _ => False

/-- The operations of `Append`. -/
def OnEvents : Op schema Unit → Prop
  | .begin _ => True
  | .exec _ s => s.OnEvents
  | .commit _ => True
  | .rollback _ => True
  | _ => False

theorem Stmt.run_congr {s : Stmt} (hs : s.OnEvents) (started now : ℤ) (n n' : ℕ)
    {d d' : Tables} (hd : d'.events = d.events) (locked : Key → Bool) :
    s.run ⟨started, now, n'⟩ d' locked = s.run ⟨started, now, n⟩ d locked := by
  cases s with
  | maxVersion sid => simp [Stmt.run, hd]
  | insertEvent sid v type data metadata => simp [Stmt.run, hd]
  | selectEvents | upsertSnapshot | selectSnapshot => exact hs.elim

theorem Stmt.writes_events {s : Stmt} (hs : s.OnEvents) {m : Moment ℤ} {d : Tables}
    {locked : Key → Bool} {r : s.Ret} {ws : List Write} {ks : List Key}
    (h : s.run m d locked = .done r ws ks) : ∃ rows : List Event, ws = rows.map .event := by
  cases s with
  | maxVersion sid =>
      cases h
      exact ⟨[], rfl⟩
  | insertEvent sid v type data metadata =>
      simp only [Stmt.run] at h
      split_ifs at h
      cases h
      exact ⟨[_], rfl⟩
  | selectEvents | upsertSnapshot | selectSnapshot => exact hs.elim

theorem Agree.perform_begin (h : Agree w w') {c : ι} {e : Tick schema} {d : Unit}
    {r : Except GoError (Tx Unit)} {w₁ : World schema Unit ι}
    (hp : w.perform c e (.begin d) = some (r, w₁)) :
    ∃ w₁', w'.perform c e (.begin d) = some (r, w₁') ∧ Agree w₁ w₁' := by
  simp only [World.perform, World.beginTx, h.next] at hp ⊢
  cases he : e.fault with
  | some err =>
      simp only [he] at hp ⊢
      cases hp
      exact ⟨w', rfl, h⟩
  | none =>
      simp only [he] at hp ⊢
      cases hp
      have hset := h.setTx w.next (x := some ⟨d, c, e.env, [], [], false⟩)
        fun y hy => ⟨[], by simp [← Option.mem_some.mp hy]⟩
      exact ⟨_, rfl, hset.txs, rfl, hset.events, hset.logs⟩

theorem Agree.perform_exec (h : Agree w w') {c : ι} {e : Tick schema} {t : Tx Unit} {s : Stmt}
    (hs : s.OnEvents) {r : Except GoError s.Ret} {w₁ : World schema Unit ι}
    (hp : w.perform c e (.exec t s) = some (r, w₁)) :
    ∃ w₁', w'.perform c e (.exec t s) = some (r, w₁') ∧ Agree w₁ w₁' := by
  simp only [World.perform, World.execTx, h.txs] at hp ⊢
  cases htx : w.txs t.id with
  | none =>
      simp only [htx] at hp ⊢
      cases hp
      exact ⟨w', rfl, h⟩
  | some x =>
      obtain ⟨rows, hrows⟩ := h.logs t.id x htx
      have habort := h.setTx t.id (x := some { x with aborted := true })
        fun y hy => ⟨rows, by simpa [← Option.mem_some.mp hy] using hrows⟩
      have hrun := Stmt.run_congr hs x.started e.env w.hist.length w'.hist.length
        (h.view_events htx) (w.locked x.db (some t.id))
      simp only [htx, h.locked, hrun] at hp ⊢
      by_cases ha : x.aborted = true
      · simp only [ha, if_true] at hp ⊢
        cases hp
        exact ⟨w', rfl, h⟩
      · simp only [ha, Bool.false_eq_true, if_false] at hp ⊢
        cases he : e.fault with
        | some err =>
            simp only [he] at hp ⊢
            cases hp
            exact ⟨_, rfl, habort⟩
        | none =>
            simp only [he] at hp ⊢
            cases hverdict : s.run ⟨x.started, e.env, w.hist.length⟩ (w.view x)
                (w.locked x.db (some t.id)) with
            | wait => simp [hverdict] at hp
            | fail err =>
                simp only [hverdict] at hp ⊢
                cases hp
                exact ⟨_, rfl, habort⟩
            | done ret ws ks =>
                simp only [hverdict] at hp ⊢
                cases hp
                obtain ⟨more, rfl⟩ := Stmt.writes_events hs hverdict
                refine ⟨_, rfl, h.setTx t.id fun y hy => ⟨rows ++ more, ?_⟩⟩
                simp [← Option.mem_some.mp hy, hrows]

theorem Agree.perform_commit (h : Agree w w') {c : ι} {e : Tick schema} {t : Tx Unit}
    {r : Except GoError Unit} {w₁ : World schema Unit ι}
    (hp : w.perform c e (.commit t) = some (r, w₁)) :
    ∃ w₁', w'.perform c e (.commit t) = some (r, w₁') ∧ Agree w₁ w₁' := by
  simp only [World.perform, World.commitTx, h.txs] at hp ⊢
  cases htx : w.txs t.id with
  | none =>
      simp only [htx] at hp ⊢
      cases hp
      exact ⟨w', rfl, h⟩
  | some x =>
      have hclosed : Agree (w.setTx t.id none) (w'.setTx t.id none) := h.setTx t.id (by simp)
      simp only [htx] at hp ⊢
      by_cases ha : x.aborted = true
      · simp only [ha, if_true] at hp ⊢
        cases hp
        exact ⟨_, rfl, hclosed⟩
      · simp only [ha, Bool.false_eq_true, if_false] at hp ⊢
        cases he : e.fault with
        | some err =>
            simp only [he] at hp ⊢
            cases hp
            exact ⟨_, rfl, hclosed⟩
        | none =>
            simp only [he] at hp ⊢
            cases hp
            exact ⟨_, rfl, h.settle htx⟩

theorem Agree.perform_rollback (h : Agree w w') {c : ι} {e : Tick schema} {t : Tx Unit}
    {r : Except GoError Unit} {w₁ : World schema Unit ι}
    (hp : w.perform c e (.rollback t) = some (r, w₁)) :
    ∃ w₁', w'.perform c e (.rollback t) = some (r, w₁') ∧ Agree w₁ w₁' := by
  have hclosed : Agree (w.setTx t.id none) (w'.setTx t.id none) := h.setTx t.id (by simp)
  simp only [World.perform, World.rollbackTx, h.txs] at hp ⊢
  cases htx : w.txs t.id with
  | none =>
      simp only [htx] at hp ⊢
      cases hp
      exact ⟨w', rfl, h⟩
  | some x =>
      simp only [htx] at hp ⊢
      cases he : e.fault with
      | some err =>
          simp only [he] at hp ⊢
          cases hp
          exact ⟨_, rfl, hclosed⟩
      | none =>
          simp only [he] at hp ⊢
          cases hp
          exact ⟨_, rfl, hclosed⟩

/-- An operation of `Append` goes the same way on both servers. -/
theorem Agree.exec (h : Agree w w') {c : ι} {e : Tick schema} {o : Op schema Unit} {r : o.Res}
    {w₁ : World schema Unit ι} (ho : OnEvents o) (hexec : w.exec c e o = some (r, w₁)) :
    ∃ w₁', w'.exec c e o = some (r, w₁') ∧ Agree w₁ w₁' := by
  obtain ⟨w₂, hp, rfl⟩ := World.exec_eq_some.mp hexec
  have hperform : ∃ w₂', w'.perform c e o = some (r, w₂') ∧ Agree w₂ w₂' := by
    cases o with
    | begin d => exact h.perform_begin hp
    | exec t s => exact h.perform_exec ho hp
    | commit t => exact h.perform_commit hp
    | rollback t => exact h.perform_rollback hp
    | pool | ext | observe => exact ho.elim
  obtain ⟨w₂', hp', hagree⟩ := hperform
  exact ⟨_, World.exec_eq_some.mpr ⟨w₂', hp', rfl⟩, hagree.record c c o o r r⟩

end Agree

/-! ## What a step does to the committed tables -/

/-- Events have been added, the snapshots are the same. -/
structure Grows (d d' : Tables) : Prop where
  snapshots : d'.snapshots = d.snapshots
  events : d.events <+: d'.events

theorem Grows.refl (d : Tables) : Grows d d := ⟨rfl, List.prefix_rfl⟩

theorem grows_of_change {w w' : World schema Unit ι} {c : ι} {i : ℕ}
    (hlogs : ∀ i x, w.txs i = some x → ∃ rows : List Event, x.log = rows.map .event)
    (h : World.Change w c (some i) w') : Grows (w.committed ()) (w'.committed ()) := by
  cases h with
  | none | aborted | wrote | closed => exact Grows.refl _
  | committed _ x hx =>
      obtain ⟨rows, hrows⟩ := hlogs i x hx
      have hcommitted := World.committed_settle w i x
      rw [World.view, hrows] at hcommitted
      rw [hcommitted]
      change Grows _ ((rows.map Write.event).foldl Tables.apply _)
      rw [foldl_events]
      exact ⟨rfl, List.prefix_append _ _⟩

theorem grows_of_exec {w w' : World schema Unit ι} {c : ι} {e : Tick schema}
    {o : Op schema Unit} {r : o.Res}
    (hlogs : ∀ i x, w.txs i = some x → ∃ rows : List Event, x.log = rows.map .event)
    (ho : OnEvents o) (hexec : w.exec c e o = some (r, w')) :
    Grows (w.committed ()) (w'.committed ()) := by
  obtain ⟨w₁, hp, rfl⟩ := World.exec_eq_some.mp hexec
  rw [World.committed_record]
  have hchange := World.perform_change hp
  cases o with
  | begin d =>
      rcases World.exec_begin_cases hexec with ⟨err, he, -⟩ | ⟨he, -⟩
      · simp only [World.perform, World.beginTx, he] at hp
        cases hp
        exact Grows.refl _
      · simp only [World.perform, World.beginTx, he] at hp
        cases hp
        exact Grows.refl _
  | exec t s => exact grows_of_change hlogs hchange
  | commit t => exact grows_of_change hlogs hchange
  | rollback t => exact grows_of_change hlogs hchange
  | pool | ext | observe => exact ho.elim

/-- An open transaction was begun by the client that takes the step or was there
before. -/
theorem owner_of_exec {w w' : World schema Unit ι} {c : ι} {e : Tick schema}
    {o : Op schema Unit} {r : o.Res} (hexec : w.exec c e o = some (r, w')) {i : ℕ}
    {x : TxState schema Unit ι} (hx : w'.txs i = some x) :
    x.owner = c ∨ ∃ y, w.txs i = some y ∧ y.owner = x.owner := by
  obtain ⟨w₁, hp, rfl⟩ := World.exec_eq_some.mp hexec
  rw [World.record_txs] at hx
  have hset : ∀ (j : ℕ) (z : Option (TxState schema Unit ι)),
      (∀ y ∈ z, y.owner = c ∨ ∃ y', w.txs j = some y' ∧ y'.owner = y.owner) →
      Function.update w.txs j z i = some x →
      x.owner = c ∨ ∃ y, w.txs i = some y ∧ y.owner = x.owner := by
    intro j z hz hupdate
    by_cases hi : i = j
    · subst hi
      exact hz x (by simpa using hupdate)
    · rw [Function.update_of_ne hi] at hupdate
      exact .inr ⟨x, hupdate, rfl⟩
  have hchange := World.perform_change hp
  generalize o.target = target at hchange
  cases hchange with
  | none | pooled => exact .inr ⟨x, hx, rfl⟩
  | opened d env => exact hset _ _ (fun y hy => .inl (by simp [← Option.mem_some.mp hy])) hx
  | aborted j y hy =>
      exact hset _ _ (fun z hz => .inr ⟨y, hy, by simp [← Option.mem_some.mp hz]⟩) hx
  | wrote j y ws ks hy =>
      exact hset _ _ (fun z hz => .inr ⟨y, hy, by simp [← Option.mem_some.mp hz]⟩) hx
  | closed j y hy => exact hset _ _ (by simp) hx
  | committed j y hy => exact hset _ _ (by simp) hx

/-- A snapshot that is saved goes to the table at once, unless the server
refuses. -/
theorem exec_upsert {w w' : World schema Unit ι} {c : ι} {e : Tick schema} {sid data : String}
    {v : ℤ} {r : Except GoError Unit}
    (h : w.exec c e (.pool () (.upsertSnapshot sid v data)) = some (r, w')) :
    w' = w.record c (.pool () (.upsertSnapshot sid v data)) r ∨
      w' = (w.persist () [Write.snapshot ⟨sid, v, data, e.env⟩]).record c
        (.pool () (.upsertSnapshot sid v data)) r := by
  rcases World.exec_pool_cases h with ⟨err, -, rfl, rfl⟩ | ⟨ret, ws, ks, -, hrun, rfl, rfl⟩
  · exact .inl rfl
  · have hws : ws = [Write.snapshot ⟨sid, v, data, e.env⟩] := by
      change Stmt.run ⟨e.env, e.env, w.hist.length⟩ (w.committed ()) (w.locked () none)
        (.upsertSnapshot sid v data) = _ at hrun
      simp only [Stmt.run] at hrun
      split_ifs at hrun
      cases hrun
      rfl
    rw [hws]
    exact .inr rfl

/-! ## Erasing the snapshots from a run -/

theorem onEvents_of_code {codec : Codec V} {req : ι → AppendCall V} {w : World schema Unit ι}
    {c : ι} {p : Phase V} {o : Op schema Unit} {k : o.Res → GoProg schema Unit (Option GoError)}
    (hL : Phase.Local codec req False c p w) (hcode : Phase.code codec (req c) p = .op o k) :
    OnEvents o := by
  rcases hL.op_cases hcode with ⟨-, rfl⟩ | ⟨tx, -, rfl⟩ | ⟨tx, base, docs, -, rfl⟩ |
    ⟨tx, base, docs, ed, doc, rest, -, -, rfl⟩ | ⟨tx, err, -, rfl⟩ <;> trivial

/-- The program of a client that saves a snapshot: not begun, or at its end. -/
def Saving (codec : Codec V) : TopCall V → GoProg schema Unit (Option GoError) → Prop
  | .append _, _ => True
  | .save sid v state, p => p = saveSnapshot codec () .background sid v state ∨ p.ended.isSome

/-- The second system is the first one without its snapshots. -/
structure Erases (codec : Codec V) (calls : ι → TopCall V)
    (s t : Sys schema Unit ι (Option GoError)) : Prop where
  agree : Agree s.world t.world
  owners : ∀ i x, s.world.txs i = some x → (calls x.owner).isAppend = true
  progs : ∀ c, (calls c).isAppend = true → t.prog c = s.prog c
  saving : ∀ c, Saving codec (calls c) (s.prog c)
  appends : (outline codec (fun c => (calls c).erased) False).Inv t

variable {codec : Codec V} {calls : ι → TopCall V} {s s' t : Sys schema Unit ι (Option GoError)}

theorem erases_clients (codec : Codec V) (calls : ι → TopCall V) :
    Erases codec calls (clients codec calls) (appends codec fun c => (calls c).erased) where
  agree := ⟨rfl, rfl, rfl, fun i x hx => nomatch hx⟩
  owners := fun i x hx => nomatch hx
  progs := by
    intro c hc
    cases hcall : calls c with
    | append a => simp [clients, EventStore.appends, hcall, TopCall.code, TopCall.erased]
    | save => simp [hcall, TopCall.isAppend] at hc
  saving := by
    intro c
    cases hcall : calls c with
    | append a => trivial
    | save sid v state => exact .inl (by simp [clients, hcall, TopCall.code])
  appends := outline_initial codec _ False

theorem Erases.gapless (h : Erases codec calls s t) : Gapless (s.world.committed ()).events := by
  have hG : Ordered codec (fun c => (calls c).erased) t.world := h.appends.1
  obtain ⟨cs, -, hserial⟩ := hG.serial
  rw [← h.agree.events]
  exact hserial.gapless

/-- What a step of the clients does to the tables: events are added, or a client
saves its snapshot. -/
def TablesMove (codec : Codec V) (calls : ι → TopCall V) (s : Sys schema Unit ι (Option GoError))
    (x : Action schema ι) (s' : Sys schema Unit ι (Option GoError)) : Prop :=
  Grows (s.world.committed ()) (s'.world.committed ()) ∨
    ∃ c e sid v state data, x = .step c e ∧ calls c = .save sid v state ∧
      codec.marshal state = .ok data ∧
      s'.world.committed () = (s.world.committed ()).apply (.snapshot ⟨sid, v, data, e.env⟩)

variable [DecidableEq ι]

theorem Erases.step_append (h : Erases codec calls s t) {c : ι} {e : Tick schema}
    (hc : (calls c).isAppend = true) (hstep : s.step (.step c e) = some s') :
    ∃ t', Erases codec calls s' t' ∧ Grows (s.world.committed ()) (s'.world.committed ()) := by
  obtain ⟨o, k, r, w, hprog, hexec, rfl⟩ := Sys.step_step_eq_some hstep
  have hprog' : t.prog c = .op o k := (h.progs c hc).trans hprog
  obtain ⟨p, hcode, hL⟩ := h.appends.2 c
  change Phase.Local codec (fun c => (calls c).erased) False c p t.world at hL
  have ho : OnEvents o := onEvents_of_code hL (hcode.symm.trans hprog')
  obtain ⟨w', hexec', hagree⟩ := h.agree.exec ho hexec
  have hstep' := Sys.step_eq hprog' hexec'
  refine ⟨⟨w', Function.update t.prog c (k r)⟩, ⟨hagree, ?_, ?_, ?_, ?_⟩,
    grows_of_exec h.agree.logs ho hexec⟩
  · intro i x hx
    rcases owner_of_exec hexec hx with rfl | ⟨y, hy, heq⟩
    · exact hc
    · exact heq ▸ h.owners i y hy
  · intro b hb
    by_cases hbc : b = c
    · subst hbc
      simp
    · simpa [hbc] using h.progs b hb
  · intro b
    by_cases hbc : b = c
    · subst hbc
      cases hcall : calls b with
      | append => trivial
      | save => simp [hcall, TopCall.isAppend] at hc
    · simpa [hbc] using h.saving b
  · exact (outline_sound codec _ fun hf => hf.elim).step_inv h.appends (fun hf => hf.elim) hstep'

theorem Erases.step_save (h : Erases codec calls s t) {c : ι} {e : Tick schema} {sid : String}
    {v : ℤ} {state : V} (hc : calls c = .save sid v state)
    (hstep : s.step (.step c e) = some s') :
    Erases codec calls s' t ∧ TablesMove codec calls s (.step c e) s' := by
  obtain ⟨o, k, r, w, hprog, hexec, rfl⟩ := Sys.step_step_eq_some hstep
  have hsaving := h.saving c
  rw [hc, hprog] at hsaving
  have hcode : saveSnapshot codec () .background sid v state = .op o k := by
    rcases hsaving with heq | hended
    · exact heq.symm
    · simp [Prog.ended] at hended
  cases hmarshal : codec.marshal state with
  | error err => simp [saveSnapshot, hmarshal] at hcode
  | ok data =>
      rw [saveSnapshot_eq hmarshal] at hcode
      cases hcode
      have hsame : w.txs = s.world.txs ∧ w.next = s.world.next ∧
          (w.committed ()).events = (s.world.committed ()).events := by
        rcases exec_upsert hexec with rfl | rfl
        · exact ⟨rfl, rfl, rfl⟩
        · refine ⟨rfl, rfl, ?_⟩
          rw [World.committed_record, World.committed_persist]
          rfl
      refine ⟨⟨⟨?_, ?_, ?_, ?_⟩, ?_, ?_, ?_, h.appends⟩, ?_⟩
      · exact h.agree.txs.trans hsame.1.symm
      · exact h.agree.next.trans hsame.2.1.symm
      · exact h.agree.events.trans hsame.2.2.symm
      · exact hsame.1 ▸ h.agree.logs
      · exact hsame.1 ▸ h.owners
      · intro b hb
        have hbc : b ≠ c := by
          rintro rfl
          simp [hc, TopCall.isAppend] at hb
        simpa [hbc] using h.progs b hb
      · intro b
        by_cases hbc : b = c
        · subst hbc
          rw [hc]
          exact .inr (by simp [Prog.ended])
        · simpa [hbc] using h.saving b
      · rcases exec_upsert hexec with rfl | rfl
        · exact .inl (Grows.refl _)
        · refine .inr ⟨c, e, sid, v, state, data, rfl, hc, hmarshal, ?_⟩
          rw [World.committed_record, World.committed_persist]
          rfl

theorem Erases.crash (h : Erases codec calls s t) {c : ι} (hstep : s.step (.crash c) = some s') :
    ∃ t', Erases codec calls s' t' ∧ Grows (s.world.committed ()) (s'.world.committed ()) := by
  obtain ⟨o, k, hprog, rfl⟩ := Sys.step_crash_eq_some hstep
  have hfilter : ∀ {i x}, (s.world.drop c).txs i = some x → s.world.txs i = some x :=
    fun hx => (Option.filter_eq_some_iff.mp hx).1
  have hsaving : ∀ b, Saving codec (calls b) (Function.update s.prog c (.panic crashed) b) := by
    intro b
    by_cases hbc : b = c
    · subst hbc
      cases hcall : calls b with
      | append => trivial
      | save => exact .inr (by simp [Prog.ended])
    · simpa [hbc] using h.saving b
  by_cases hc : (calls c).isAppend = true
  · have hstep' : t.step (.crash c) =
        some ⟨t.world.drop c, Function.update t.prog c (.panic crashed)⟩ := by
      simp [Sys.step, (h.progs c hc).trans hprog]
    refine ⟨⟨t.world.drop c, Function.update t.prog c (.panic crashed)⟩, ⟨⟨?_, h.agree.next,
      h.agree.events, fun i x hx => h.agree.logs i x (hfilter hx)⟩,
      fun i x hx => h.owners i x (hfilter hx), fun b hb => ?_, hsaving, ?_⟩, Grows.refl _⟩
    · simp only [World.drop, h.agree.txs]
    · by_cases hbc : b = c
      · subst hbc
        simp
      · simpa [hbc] using h.progs b hb
    · exact (outline_sound codec _ fun hf => hf.elim).step_inv h.appends (fun hf => hf.elim) hstep'
  · -- A client that saves a snapshot has no transaction that the crash could end.
    have hdrop : (s.world.drop c).txs = s.world.txs := by
      funext i
      cases hx : s.world.txs i with
      | none => simp [World.drop, hx]
      | some x =>
          have hne : x.owner ≠ c := by
            rintro rfl
            exact hc (h.owners i x hx)
          simp [World.drop, hx, hne]
    refine ⟨t, ⟨⟨h.agree.txs.trans hdrop.symm, h.agree.next, h.agree.events,
      fun i x hx => h.agree.logs i x (hfilter hx)⟩, fun i x hx => h.owners i x (hfilter hx),
      fun b hb => ?_, hsaving, h.appends⟩, Grows.refl _⟩
    have hbc : b ≠ c := by
      rintro rfl
      exact hc hb
    simpa [hbc] using h.progs b hb

theorem Erases.step (h : Erases codec calls s t) {x : Action schema ι}
    (hstep : s.step x = some s') :
    ∃ t', Erases codec calls s' t' ∧ TablesMove codec calls s x s' := by
  cases x with
  | crash c =>
      obtain ⟨t', herases, hgrows⟩ := h.crash hstep
      exact ⟨t', herases, .inl hgrows⟩
  | step c e =>
      cases hc : calls c with
      | append a =>
          obtain ⟨t', herases, hgrows⟩ := h.step_append (by simp [hc, TopCall.isAppend]) hstep
          exact ⟨t', herases, .inl hgrows⟩
      | save sid v state => exact ⟨t, h.step_save hc hstep⟩

end Gkit.EventStore
