import Gkit.Outbox.Model

/-!
# Relays and business transactions

The clients of an outbox: relays, which run one cycle after the other, and
business code, which runs transactions with calls of `Store` in them.  A
business callback may ignore errors, return one of its own, or panic.  A client
is at any time in one of the phases below, and the program that remains of it is
the code of its phase.
-/

namespace Gkit.Outbox

open Gkit.Lib Gkit.Store

variable {V : Type}

/-- What a business callback asks for. -/
inductive Request (V : Type) where
  | store (topic : String) (payload : V)
  | sql (text : String)

@[reducible] def Request.Rep : Request V → Type
  | .store .. => Option GoError
  | .sql _ => Except GoError String

abbrev Script (V : Type) := Prog (Request V) Request.Rep (Option GoError)

inductive Role (V : Type) where
  | relay (r : Relay Unit) (ticks : ℕ)
  | business (work : List (Script V))

section Programs

variable (marshal : V → Except GoError String)

def serve (ctx : Context Unit) (tx : Tx Unit) : (q : Request V) → GoProg schema Unit q.Rep
  | .store topic payload => store marshal ctx tx topic payload
  | .sql text => txExec (S := schema) tx (.business text)

def transact (script : Script V) : GoProg schema Unit (Option GoError) :=
  withTx () .background fun ctx tx => script.handle (serve marshal ctx tx)

def conduct : List (Script V) → GoProg schema Unit Unit
  | [] => return ()
  | script :: work => do
      let _ ← transact marshal script
      conduct work

def Role.code : Role V → GoProg schema Unit Unit
  | .relay r ticks => r.run .background ticks
  | .business work => conduct marshal work

end Programs

/-! ## Phases -/

/-- `publishing` has the events already sent and those still to be sent;
`closing` has the result of the callback. -/
inductive Phase (V : Type) where
  | polling (r : Relay Unit) (n : ℕ)
  | fetching (r : Relay Unit) (tx : Tx Unit) (n : ℕ)
  | publishing (r : Relay Unit) (tx : Tx Unit) (sent todo : List Event) (n : ℕ)
  | closing (r : Relay Unit) (tx : Tx Unit) (batch : List Event) (out : Option GoError) (n : ℕ)
  | working (work : List (Script V))
  | inside (tx : Tx Unit) (script : Script V) (work : List (Script V))
  | gone (v : String)

namespace Phase

variable (marshal : V → Except GoError String)

/-- End the transaction of a cycle after `p` and go on with the ticks. -/
def finish (r : Relay Unit) (tx : Tx Unit) (n : ℕ) (p : GoProg schema Unit (Option GoError)) :
    GoProg schema Unit Unit :=
  (p.attempt >>= endTx tx) >>= fun _ => r.run .background n

def code : Phase V → GoProg schema Unit Unit
  | .polling r n => r.run .background n
  | .fetching r tx n => finish r tx n (r.relayTx (contextWithTx .background tx) tx)
  | .publishing r tx sent todo n => finish r tx n
      (Relay.deliver tx ((sent ++ todo).map Event.id) todo)
  | .closing r tx _ out n => finish r tx n (.ret out)
  | .working work => conduct marshal work
  | .inside tx script work =>
      ((script.handle (serve marshal (contextWithTx .background tx) tx)).attempt >>= endTx tx) >>=
        fun _ => conduct marshal work
  | .gone v => .panic v

/-- The phase after the rows are read. -/
def afterFetch (r : Relay Unit) (tx : Tx Unit) (n : ℕ) : Except GoError (List Event) → Phase V
  | .error err => .closing r tx []
      (some (.wrapping (if err = errNegativeLimit then "scan" else "fetch") err)) n
  | .ok [] => .closing r tx [] none n
  | .ok (e :: events) => .publishing r tx [] (e :: events) n

/-- The phase after the answer of the publisher. -/
def afterPublish (r : Relay Unit) (tx : Tx Unit) (sent : List Event) (e : Event)
    (todo : List Event) (n : ℕ) : Option GoError → Phase V
  | some err => .closing r tx [] (some (.wrapping
      ("publish topic " ++ quote e.topic ++ " id " ++ toString e.id) err)) n
  | none => .publishing r tx (sent ++ [e]) todo n

def afterMark (r : Relay Unit) (tx : Tx Unit) (batch : List Event) (n : ℕ) :
    Except GoError Unit → Phase V
  | .error err => .closing r tx [] (some (.wrapping "mark published" err)) n
  | .ok _ => .closing r tx batch none n

variable {marshal}

theorem code_polling_succ (r : Relay Unit) (n : ℕ) :
    ∃ k, code marshal (.polling r (n + 1)) = .op (.begin r.db) k ∧
      (∀ tx, k (.ok tx) = code marshal (.fetching r tx n)) ∧
      ∀ err, k (.error err) = code marshal (.polling r n) := by
  simp only [code, Relay.run, Relay.relay, withTx_outermost r.db background_tx]
  exact ⟨_, rfl, fun tx => rfl, fun err => rfl⟩

theorem code_fetching (r : Relay Unit) (tx : Tx Unit) (n : ℕ) :
    ∃ k, code marshal (.fetching r tx n) = .op (.exec tx (.selectUnpublished r.batchSize)) k ∧
      ∀ res, k res = code marshal (afterFetch r tx n res) := by
  refine ⟨_, rfl, fun res => ?_⟩
  cases res with
  | error err => rfl
  | ok events => cases events <;> rfl

theorem code_publishing_cons (r : Relay Unit) (tx : Tx Unit) (sent : List Event) (e : Event)
    (todo : List Event) (n : ℕ) :
    ∃ k, code marshal (.publishing r tx sent (e :: todo) n) = .op (.ext (.publish e)) k ∧
      ∀ res, k res = code marshal (afterPublish r tx sent e todo n res) := by
  refine ⟨_, rfl, fun res => ?_⟩
  cases res with
  | some err => rfl
  | none =>
      simp only [afterPublish, code, List.append_assoc, List.singleton_append]
      rfl

theorem code_publishing_nil (r : Relay Unit) (tx : Tx Unit) (sent : List Event) (n : ℕ) :
    ∃ k, code marshal (.publishing r tx sent [] n) =
        .op (.exec tx (.markPublished (sent.map Event.id))) k ∧
      ∀ res, k res = code marshal (afterMark r tx sent n res) := by
  rw [code, List.append_nil]
  refine ⟨_, rfl, fun res => ?_⟩
  cases res <;> rfl

theorem code_closing_none (r : Relay Unit) (tx : Tx Unit) (batch : List Event) (n : ℕ) :
    code marshal (.closing r tx batch none n) =
      .op (.commit tx) fun _ => code marshal (.polling r n) := by
  refine congrArg (Prog.op _) (funext fun res => ?_)
  cases res <;> rfl

theorem code_closing_some (r : Relay Unit) (tx : Tx Unit) (batch : List Event) (err : GoError)
    (n : ℕ) : code marshal (.closing r tx batch (some err) n) =
      .op (.rollback tx) fun _ => code marshal (.polling r n) := rfl

theorem code_working_cons (script : Script V) (work : List (Script V)) :
    ∃ k, code marshal (.working (script :: work)) = .op (.begin ()) k ∧
      (∀ tx, k (.ok tx) = code marshal (.inside tx script work)) ∧
      ∀ err, k (.error err) = code marshal (.working work) := by
  simp only [code, conduct, transact, withTx_outermost () background_tx]
  exact ⟨_, rfl, fun tx => rfl, fun err => rfl⟩

/-- The next operation of a business callback.  A payload that does not marshal
is passed over without one. -/
theorem code_inside (tx : Tx Unit) (script : Script V) (work : List (Script V)) :
    (code marshal (.inside tx script work) =
        .op (.commit tx) fun _ => code marshal (.working work)) ∨
      (∃ p, (p = .working work ∨ ∃ v, p = .gone v) ∧
        code marshal (.inside tx script work) = .op (.rollback tx) fun _ => code marshal p) ∨
      (∃ topic raw k, code marshal (.inside tx script work) =
          .op (.exec tx (.insertEvent topic raw)) k ∧
        ∀ res, ∃ script', k res = code marshal (.inside tx script' work)) ∨
      ∃ text k, code marshal (.inside tx script work) = .op (.exec tx (.business text)) k ∧
        ∀ res, ∃ script', k res = code marshal (.inside tx script' work) := by
  induction script with
  | panic v => exact .inr (.inl ⟨.gone v, .inr ⟨v, rfl⟩, rfl⟩)
  | ret out =>
      cases out with
      | some err => exact .inr (.inl ⟨.working work, .inl rfl, rfl⟩)
      | none =>
          refine .inl (congrArg (Prog.op _) (funext fun res => ?_))
          cases res <;> rfl
  | op q k ih =>
      cases q with
      | sql text => exact .inr (.inr (.inr ⟨text, _, rfl, fun res => ⟨k res, rfl⟩⟩))
      | store topic payload =>
          cases hraw : marshal payload with
          | error err =>
              have hskip : code marshal (.inside tx (.op (.store topic payload) k) work) =
                  code marshal
                    (.inside tx (k (some (.wrapping "outbox: marshal payload" err))) work) := by
                simp only [code, Prog.handle, serve, store, hraw]
                rfl
              rw [hskip]
              exact ih _
          | ok raw =>
              refine .inr (.inr (.inl ⟨topic, raw, ?_⟩))
              simp only [code, Prog.handle, serve, store, hraw]
              refine ⟨_, rfl, fun res => ?_⟩
              cases res with
              | error err => exact ⟨k (some (.wrapping "outbox: insert event" err)), rfl⟩
              | ok _ => exact ⟨k none, rfl⟩

end Phase

end Gkit.Outbox
