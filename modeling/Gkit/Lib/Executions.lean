import Gkit.Lib.Runs
import Gkit.Lib.Locks

/-!
# Running programs: alone and interleaved

`solo` runs one program to its end with nobody else on the server.  `Sys` runs
any number of clients, one operation of one client at a time, and lets a client
crash between any two of its operations.

An `Outline` gives every client a set of phases, the program that remains in
each phase, what the client knows there, and what holds of the server
throughout.  When every operation leads from phase to phase and leaves what the
other clients know intact, the outline holds in every reachable state.
-/

namespace Gkit.Lib

variable {S : Schema} {δ ι α β : Type} [DecidableEq δ]

/-! ## One client alone -/

/-- Run a program to its end; `none` means that an operation waits for ever.
The `n`-th operation of the history is performed under the tick `env n`. -/
def Prog.solo (c : ι) (env : ℕ → Tick S) :
    GoProg S δ α → World S δ ι → Option (Outcome α × World S δ ι)
  | .ret x, w => some (.ret x, w)
  | .panic v, w => some (.panic v, w)
  | .op o k, w =>
      match w.exec c (env w.hist.length) o with
      | none => none
      | some (r, w') => (k r).solo c env w'

namespace Prog

variable {c : ι} {env : ℕ → Tick S}

@[simp] theorem solo_ret (x : α) (w : World S δ ι) :
    (ret x : GoProg S δ α).solo c env w = some (.ret x, w) := rfl

@[simp] theorem solo_panic (v : String) (w : World S δ ι) :
    (panic v : GoProg S δ α).solo c env w = some (.panic v, w) := rfl

theorem solo_op (o : Op S δ) (k : o.Res → GoProg S δ α) (w : World S δ ι) :
    (op o k).solo c env w =
      (w.exec c (env w.hist.length) o).bind fun p => (k p.1).solo c env p.2 := by
  cases h : w.exec c (env w.hist.length) o <;> simp [solo, h]

theorem solo_bind (p : GoProg S δ α) (f : α → GoProg S δ β) (w : World S δ ι) :
    (p >>= f).solo c env w = (p.solo c env w).bind fun q =>
      match q.1 with
      | .ret x => (f x).solo c env q.2
      | .panic v => some (.panic v, q.2) := by
  induction p generalizing w with
  | ret x => rfl
  | panic v => rfl
  | op o k ih =>
      simp only [op_bind, solo_op, Option.bind_assoc]
      congr 1
      funext q
      exact ih q.1 q.2

theorem solo_attempt (p : GoProg S δ α) (w : World S δ ι) :
    p.attempt.solo c env w = (p.solo c env w).map fun q => (.ret q.1, q.2) := by
  induction p generalizing w with
  | ret x => rfl
  | panic v => rfl
  | op o k ih =>
      simp only [attempt_op, solo_op]
      cases w.exec c (env w.hist.length) o with
      | none => rfl
      | some q => exact ih q.1 q.2

/-- A program that only performs operations that end at once and keep `I` runs
to its end and keeps `I`. -/
theorem Plain.solo (c : ι) (env : ℕ → Tick S) {P : Op S δ → Prop} {I : World S δ ι → Prop}
    (hop : ∀ o w, P o → I w → ∃ r w', w.exec c (env w.hist.length) o = some (r, w') ∧ I w')
    {p : GoProg S δ α} (hp : p.Plain P) {w : World S δ ι} (hw : I w) :
    ∃ x w', p.solo c env w = some (.ret x, w') ∧ I w' := by
  induction p generalizing w with
  | ret x => exact ⟨x, w, rfl, hw⟩
  | panic v => exact hp.elim
  | op o k ih =>
      obtain ⟨r, w₁, hexec, hw₁⟩ := hop o w hp.1 hw
      obtain ⟨x, w', hsolo, hw'⟩ := ih r (hp.2 r) hw₁
      exact ⟨x, w', by rw [solo_op, hexec]; exact hsolo, hw'⟩

end Prog

/-! ## The calls of a program that uses an interface -/

/-- A call that has been made: its result and the server before and after it. -/
structure Call (S : Schema) (δ ι : Type) (Req : Type) (Rep : Req → Type) where
  request : Req
  reply : Rep request
  before : World S δ ι
  after : World S δ ι

section Calls

variable {Req : Type} {Rep : Req → Type} (c : ι) (env : ℕ → Tick S)
  (h : (q : Req) → GoProg S δ (Rep q))

/-- Run a program over an interface and note its calls. -/
def Prog.calls : Prog Req Rep α → World S δ ι →
    Option (List (Call S δ ι Req Rep) × Outcome α × World S δ ι)
  | .ret x, w => some ([], .ret x, w)
  | .panic v, w => some ([], .panic v, w)
  | .op q k, w =>
      match (h q).solo c env w with
      | none => none
      | some (.panic v, w') => some ([], .panic v, w')
      | some (.ret r, w') => (calls (k r) w').map fun p => (⟨q, r, w, w'⟩ :: p.1, p.2)

theorem Prog.solo_handle (p : Prog Req Rep α) (w : World S δ ι) :
    (p.handle h).solo c env w = (p.calls c env h w).map Prod.snd := by
  induction p generalizing w with
  | ret x => rfl
  | panic v => rfl
  | op q k ih =>
      change ((h q) >>= fun r => (k r).handle h).solo c env w = _
      rw [solo_bind, calls]
      cases hq : (h q).solo c env w with
      | none => rfl
      | some p =>
          obtain ⟨out, w'⟩ := p
          cases out with
          | panic v => rfl
          | ret r => simpa [Function.comp_def] using ih r w'

/-- A program over an interface keeps what every call keeps: if `P` can be
re-established after each call, together with a fact `Q` about the call, it
holds at the end and `Q` holds of all calls. -/
theorem Prog.calls_spec {κ : Type} {P : κ → World S δ ι → Prop}
    {Q : κ → Call S δ ι Req Rep → κ → Prop}
    (hcall : ∀ q x w, P x w → ∃ r w' y, (h q).solo c env w = some (.ret r, w') ∧ P y w' ∧
      Q x ⟨q, r, w, w'⟩ y)
    (p : Prog Req Rep α) {x : κ} {w : World S δ ι} (hx : P x w) :
    ∃ calls out w' y, p.calls c env h w = some (calls, out, w') ∧ P y w' ∧
      Chained Q x calls y := by
  induction p generalizing x w with
  | ret r => exact ⟨[], .ret r, w, x, rfl, hx, .nil x⟩
  | panic v => exact ⟨[], .panic v, w, x, rfl, hx, .nil x⟩
  | op q k ih =>
      obtain ⟨r, w₁, x₁, hsolo, hx₁, hQ⟩ := hcall q x w hx
      obtain ⟨calls, out, w', y, hcalls, hy, hchain⟩ := ih r hx₁
      exact ⟨_ :: calls, out, w', y, by simp [Prog.calls, hsolo, hcalls], hy, .cons hQ hchain⟩

end Calls

/-! ## Interleaved clients -/

structure Sys (S : Schema) (δ ι α : Type) where
  world : World S δ ι
  prog : ι → GoProg S δ α

inductive Action (S : Schema) (ι : Type) where
  | step (c : ι) (e : Tick S)
  | crash (c : ι)

/-- How a program has ended, if it has. -/
def Prog.ended : GoProg S δ α → Option (Outcome α)
  | .ret x => some (.ret x)
  | .panic v => some (.panic v)
  | .op _ _ => none

/-- What is left of a client that has crashed. -/
def crashed : String := "crashed"

namespace Sys

variable [DecidableEq ι]

def step (s : Sys S δ ι α) : Action S ι → Option (Sys S δ ι α)
  | .step c e =>
      match s.prog c with
      | .op o k =>
          match s.world.exec c e o with
          | none => none
          | some (r, w) => some ⟨w, Function.update s.prog c (k r)⟩
      | _ => none
  | .crash c =>
      match s.prog c with
      | .op _ _ => some ⟨s.world.drop c, Function.update s.prog c (.panic crashed)⟩
      | _ => none

theorem step_step_eq_some {s s' : Sys S δ ι α} {c : ι} {e : Tick S}
    (h : s.step (.step c e) = some s') :
    ∃ o k r w, s.prog c = .op o k ∧ s.world.exec c e o = some (r, w) ∧
      s' = ⟨w, Function.update s.prog c (k r)⟩ := by
  cases hp : s.prog c with
  | ret x => simp [step, hp] at h
  | panic v => simp [step, hp] at h
  | op o k =>
      cases hx : s.world.exec c e o with
      | none => simp [step, hp, hx] at h
      | some q =>
          refine ⟨o, k, q.1, q.2, rfl, hx, ?_⟩
          simpa [step, hp, hx] using h.symm

theorem step_eq {s : Sys S δ ι α} {c : ι} {e : Tick S} {o : Op S δ} {k : o.Res → GoProg S δ α}
    {r : o.Res} {w : World S δ ι} (hp : s.prog c = .op o k)
    (hexec : s.world.exec c e o = some (r, w)) :
    s.step (.step c e) = some ⟨w, Function.update s.prog c (k r)⟩ := by
  simp [step, hp, hexec]

theorem step_crash_eq_some {s s' : Sys S δ ι α} {c : ι}
    (h : s.step (.crash c) = some s') :
    ∃ o k, s.prog c = .op o k ∧
      s' = ⟨s.world.drop c, Function.update s.prog c (.panic crashed)⟩ := by
  cases hp : s.prog c with
  | ret x => simp [step, hp] at h
  | panic v => simp [step, hp] at h
  | op o k => exact ⟨o, k, rfl, by simpa [step, hp] using h.symm⟩

end Sys

/-! ## Proof outlines -/

structure Outline (S : Schema) (δ ι α : Type) where
  Phase : Type
  code : ι → Phase → GoProg S δ α
  Global : World S δ ι → Prop
  Local : ι → Phase → World S δ ι → Prop

namespace Outline

variable [DecidableEq ι]

def Inv (O : Outline S δ ι α) (s : Sys S δ ι α) : Prop :=
  O.Global s.world ∧ ∀ c, ∃ p, s.prog c = O.code c p ∧ O.Local c p s.world

omit [DecidableEq δ] in
theorem Inv.update {O : Outline S δ ι α} {s : Sys S δ ι α} {w : World S δ ι} {c : ι}
    {t : GoProg S δ α} {q : O.Phase}
    (hs : O.Inv s) (hG : O.Global w) (hq : t = O.code c q) (hL : O.Local c q w)
    (hothers : ∀ b q, b ≠ c → s.prog b = O.code b q → O.Local b q s.world → O.Local b q w) :
    O.Inv ⟨w, Function.update s.prog c t⟩ := by
  refine ⟨hG, fun b => ?_⟩
  by_cases hb : b = c
  · subst hb
    exact ⟨q, by simpa using hq, hL⟩
  · obtain ⟨p, hp, hpL⟩ := hs.2 b
    exact ⟨p, by simpa [Function.update_of_ne hb] using hp, hothers b p hb hp hpL⟩

/-- A step of the client to the world `w` and the program `t`: it moves to a phase
whose assertion holds, keeps the global part, and does not interfere with any
assertion of another client. -/
structure Advances (O : Outline S δ ι α) (s : Sys S δ ι α) (c : ι) (w : World S δ ι)
    (t : GoProg S δ α) : Prop where
  keeps : O.Global w
  moves : ∃ q, t = O.code c q ∧ O.Local c q w
  spares : ∀ b q, b ≠ c → s.prog b = O.code b q → O.Local b q s.world → O.Local b q w

/-- The obligations of an outline for the steps that meet `A`.  They speak of
one client at a time. -/
structure Sound (O : Outline S δ ι α) (A : Sys S δ ι α → Action S ι → Prop) : Prop where
  step : ∀ {s : Sys S δ ι α} {w c e p o k r}, O.Inv s → A s (.step c e) → s.prog c = O.code c p →
    O.Local c p s.world → O.code c p = .op o k → s.world.exec c e o = some (r, w) →
    O.Advances s c w (k r)
  crash : ∀ {s : Sys S δ ι α} {c p o k}, O.Inv s → A s (.crash c) → O.Local c p s.world →
    O.code c p = .op o k →
    O.Global (s.world.drop c) ∧
      (∃ q, O.code c q = .panic crashed ∧ O.Local c q (s.world.drop c)) ∧
      ∀ b q, b ≠ c → O.Local b q s.world → O.Local b q (s.world.drop c)

variable {O : Outline S δ ι α} {A : Sys S δ ι α → Action S ι → Prop}

theorem Sound.step_inv (hO : O.Sound A) {s s' : Sys S δ ι α} {x : Action S ι}
    (hs : O.Inv s) (hx : A s x) (h : s.step x = some s') : O.Inv s' := by
  cases x with
  | step c e =>
      obtain ⟨o, k, r, w, hp, hexec, rfl⟩ := Sys.step_step_eq_some h
      obtain ⟨p, hcode, hL⟩ := hs.2 c
      obtain ⟨hG, ⟨q, hq, hqL⟩, hothers⟩ := hO.step hs hx hcode hL (hcode ▸ hp) hexec
      exact hs.update hG hq hqL hothers
  | crash c =>
      obtain ⟨o, k, hp, rfl⟩ := Sys.step_crash_eq_some h
      obtain ⟨p, hcode, hL⟩ := hs.2 c
      obtain ⟨hG, ⟨q, hq, hqL⟩, hothers⟩ := hO.crash hs hx hL (hcode ▸ hp)
      exact hs.update hG hq.symm hqL fun b q hb _ => hothers b q hb

/-- A sound outline holds in every state reached by steps that meet `A`. -/
theorem Sound.run_inv (hO : O.Sound A) {s s' : Sys S δ ι α} {xs : List (Action S ι)}
    (hs : O.Inv s) (hA : Along Sys.step A s xs) (h : run Sys.step s xs = some s') : O.Inv s' :=
  run_invariant (fun _ _ _ hi hx ht => hO.step_inv hi hx ht) hs hA h

end Outline

end Gkit.Lib
