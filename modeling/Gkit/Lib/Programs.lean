import Mathlib

/-!
# Programs with effects

A Go function that talks to the outside is a tree of operations.  Each node
names one operation and continues with its result, so the same program can be
run alone or interleaved, one operation at a time, with other programs.  A
panic is a third kind of leaf; `attempt` turns it into a value, which is what a
deferred `recover` sees.
-/

namespace Gkit.Lib

/-- How a function call ends. -/
inductive Outcome (α : Type) where
  | ret (x : α)
  | panic (value : String)
  deriving DecidableEq, Repr

inductive Prog (Op : Type) (Res : Op → Type) (α : Type) : Type where
  | ret (x : α)
  | panic (value : String)
  | op (o : Op) (k : Res o → Prog Op Res α)

namespace Prog

variable {Op : Type} {Res : Op → Type} {α β γ : Type}

def bind : Prog Op Res α → (α → Prog Op Res β) → Prog Op Res β
  | ret x, f => f x
  | panic v, _ => panic v
  | op o k, f => op o fun r => (k r).bind f

instance : Monad (Prog Op Res) where
  pure := ret
  bind := bind

/-- Run a call under a deferred `recover`. -/
def attempt : Prog Op Res α → Prog Op Res (Outcome α)
  | ret x => ret (.ret x)
  | panic v => ret (.panic v)
  | op o k => op o fun r => (k r).attempt

/-- Perform every operation by running the program that implements it. -/
def handle {Op' : Type} {Res' : Op' → Type} (h : (o : Op') → Prog Op Res (Res' o)) :
    Prog Op' Res' α → Prog Op Res α
  | ret x => ret x
  | panic v => panic v
  | op o k => (h o).bind fun r => (k r).handle h

@[simp] theorem pure_eq (x : α) : (pure x : Prog Op Res α) = ret x := rfl

@[simp] theorem ret_bind (x : α) (f : α → Prog Op Res β) : (ret x >>= f) = f x := rfl

@[simp] theorem panic_bind (v : String) (f : α → Prog Op Res β) :
    ((panic v : Prog Op Res α) >>= f) = panic v := rfl

@[simp] theorem op_bind (o : Op) (k : Res o → Prog Op Res α) (f : α → Prog Op Res β) :
    (op o k >>= f) = op o fun r => k r >>= f := rfl

@[simp] theorem attempt_ret (x : α) :
    (ret x : Prog Op Res α).attempt = ret (.ret x) := rfl

@[simp] theorem attempt_panic (v : String) :
    (panic v : Prog Op Res α).attempt = ret (.panic v) := rfl

@[simp] theorem attempt_op (o : Op) (k : Res o → Prog Op Res α) :
    (op o k).attempt = op o fun r => (k r).attempt := rfl

/-- The program performs only operations that satisfy `P`, and returns. -/
def Plain (P : Op → Prop) : Prog Op Res α → Prop
  | ret _ => True
  | panic _ => False
  | op o k => P o ∧ ∀ r, (k r).Plain P

@[simp] theorem plain_ret (P : Op → Prop) (x : α) : (ret x : Prog Op Res α).Plain P := trivial

@[simp] theorem plain_op (P : Op → Prop) (o : Op) (k : Res o → Prog Op Res α) :
    (op o k).Plain P ↔ P o ∧ ∀ r, (k r).Plain P := Iff.rfl

end Prog

end Gkit.Lib
