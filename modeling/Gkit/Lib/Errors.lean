import Mathlib

/-!
# Go error chains

An error is a text together with the chain of errors it wraps.  `errors.Is`
walks that chain; `fmt.Errorf` with a `%w` verb adds one link whose text is the
formatted one.
-/

namespace Gkit.Lib

inductive GoError where
  | new (text : String)
  | wrap (text : String) (cause : GoError)
  deriving DecidableEq, Repr

namespace GoError

/-- The `Error` method. -/
def error : GoError → String
  | new text => text
  | wrap text _ => text

/-- `errors.Is err target`. -/
def is : GoError → GoError → Bool
  | new text, target => decide (new text = target)
  | wrap text cause, target => decide (wrap text cause = target) || cause.is target

/-- `fmt.Errorf (text + ": %w")` applied to the cause. -/
def wrapping (text : String) (cause : GoError) : GoError :=
  wrap (text ++ ": " ++ cause.error) cause

@[simp] theorem is_self (err : GoError) : err.is err = true := by
  cases err <;> simp [is]

theorem wrap_is {cause target : GoError} (text : String) (h : cause.is target = true) :
    (wrap text cause).is target = true := by
  simp [is, h]

end GoError

/-- One rune of the `%q` verb.  Runes above ASCII are taken as printable. -/
def quoteRune (c : Char) : String :=
  if c = '"' then "\\\""
  else if c = '\\' then "\\\\"
  else if c = '\n' then "\\n"
  else if c = '\r' then "\\r"
  else if c = '\t' then "\\t"
  else if c.toNat = 7 then "\\a"
  else if c.toNat = 8 then "\\b"
  else if c.toNat = 11 then "\\v"
  else if c.toNat = 12 then "\\f"
  else if c.toNat < 32 ∨ c.toNat = 127 then
    "\\x" ++ String.ofList [Nat.digitChar (c.toNat / 16), Nat.digitChar (c.toNat % 16)]
  else String.ofList [c]

/-- The `%q` verb on a string. -/
def quote (s : String) : String :=
  "\"" ++ String.join (s.toList.map quoteRune) ++ "\""

end Gkit.Lib
