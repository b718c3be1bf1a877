import Gkit.Lib.Rounding
import Gkit.Validation.Model

/-!
# The rules `min=` and `max=`

The bound is parsed as a float, and what it is compared with is converted to one.
A finite float is its value.  Of `ParseFloat` the integers in decimal notation
are modelled; the other notations and the verb `%v` are parameters.
-/

namespace Gkit.Validation

open Gkit.Lib

/-! ## Floats -/

inductive Double where
  | finite (q : ℚ)
  | inf (negative : Bool)
  | nan
  deriving DecidableEq

namespace Double

/-- The operator `<`, which is false where a side is not a number. -/
def lt : Double → Double → Bool
  | .finite a, .finite b => a < b
  | .finite _, .inf negative => !negative
  | .inf negative, .finite _ => negative
  | .inf negative, .inf negative' => negative && !negative'
  | _, _ => false

/-- The conversion of an integer of 64 bits. -/
def ofInt (n : ℤ) : Double := .finite (roundInt 53 n)

theorem ofInt_lt_ofInt (m n : ℤ) :
    (ofInt m).lt (ofInt n) = true ↔ roundInt 53 m < roundInt 53 n := by
  simp [ofInt, lt]

end Double

def unsigned (s : Text) : Option ℕ :=
  if s ≠ [] ∧ s.all Char.isDigit then some (Nat.ofDigitChars 10 s 0) else none

/-- An integer in decimal notation. -/
def decimal : Text → Option ℤ
  | '-' :: s => (unsigned s).map fun m : ℕ => -(m : ℤ)
  | '+' :: s => (unsigned s).map fun m : ℕ => (m : ℤ)
  | s => (unsigned s).map fun m : ℕ => (m : ℤ)

structure Library where
  /-- `ParseFloat` of what is not an integer in decimal notation. -/
  parseOther : Text → Option Double
  format : Double → Text

/-- `strconv.ParseFloat`; from `2 ^ 1024` on it is out of range. -/
def parseFloat (lib : Library) (s : Text) : Option Double :=
  match decimal s with
  | some n => if (roundInt 53 n).natAbs < 2 ^ 1024 then some (.ofInt n) else none
  | none => lib.parseOther s

theorem unsigned_toDigits (m : ℕ) : unsigned (Nat.toDigits 10 m) = some m := by
  have hne : Nat.toDigits 10 m ≠ [] := Nat.toDigits_ne_nil
  have hdigits : (Nat.toDigits 10 m).all Char.isDigit = true :=
    List.all_eq_true.mpr fun c hc => Nat.isDigit_of_mem_toDigits (by decide) (by decide) hc
  rw [unsigned, if_pos ⟨hne, hdigits⟩, Nat.ofDigitChars_toDigits (by decide) (by decide)]

theorem decimal_of_digit {s : Text} (h : ∀ c ∈ s, c.isDigit = true) :
    decimal s = (unsigned s).map fun m : ℕ => (m : ℤ) := by
  unfold decimal
  split
  · exact absurd (h '-' List.mem_cons_self) (by decide)
  · exact absurd (h '+' List.mem_cons_self) (by decide)
  · rfl

/-- Every integer has a decimal notation. -/
theorem decimal_repr (n : ℤ) : decimal n.repr.toList = some n := by
  cases n with
  | ofNat m =>
      have htext : (Int.ofNat m).repr.toList = Nat.toDigits 10 m := by
        simp [Int.repr, Nat.repr]
      have hdigit : ∀ c ∈ Nat.toDigits 10 m, c.isDigit = true :=
        fun c hc => Nat.isDigit_of_mem_toDigits (by decide) (by decide) hc
      rw [htext, decimal_of_digit hdigit, unsigned_toDigits]
      rfl
  | negSucc m =>
      have htext : (Int.negSucc m).repr.toList = '-' :: Nat.toDigits 10 (m + 1) := by
        simp [Int.repr, Nat.repr]
      rw [htext, decimal, unsigned_toDigits]
      rfl

/-! ## The checks -/

/-- A value as its kind shows it to the two rules. -/
inductive Operand where
  | string (runes : ℕ)
  | sized (len : ℕ)
  | int (n : Int64)
  | uint (n : UInt64)
  | float (f : Double)
  | other
  deriving DecidableEq

/-- What the two checks have in common: the comparison that fails and the messages
for the kinds of values. -/
def checkBound (fails : Double → Bool) (characters items number : Text) : Operand → Text
  | .string runes => if fails (.ofInt runes) then characters else []
  | .sized len => if fails (.ofInt len) then items else []
  | .int x => if fails (.ofInt x.toInt) then number else []
  | .uint x => if fails (.ofInt x.toNat) then number else []
  | .float x => if fails x then number else []
  | .other => []

def checkMin (format : Double → Text) (fv : Operand) (n : Double) : Text :=
  checkBound (fun x => x.lt n) ("must be at least ".toList ++ format n ++ " characters".toList)
    ("must have at least ".toList ++ format n ++ " items".toList)
    ("must be ≥ ".toList ++ format n) fv

def checkMax (format : Double → Text) (fv : Operand) (n : Double) : Text :=
  checkBound (fun x => n.lt x) ("must be at most ".toList ++ format n ++ " characters".toList)
    ("must have at most ".toList ++ format n ++ " items".toList)
    ("must be ≤ ".toList ++ format n) fv

/-- A bound that does not parse is no bound. -/
def withBound (lib : Library) (check : Double → Text) (arg : Text) : Text :=
  match parseFloat lib arg with
  | some n => check n
  | none => []

/-- The rules over values of which `reflect` says the kind. -/
def Checks.withBounds (checks : Checks) (lib : Library) (reflect : Value → Operand) : Checks :=
  { checks with
    checkMin := fun fv => withBound lib (Validation.checkMin lib.format (reflect fv))
    checkMax := fun fv => withBound lib (Validation.checkMax lib.format (reflect fv)) }

theorem applyRule_min (checks : Checks) (arg : Text) (fv : Value) :
    applyRule checks ("min=".toList ++ arg) fv = checks.checkMin fv arg := by
  simp [applyRule, Text.startsWith, Text.withoutStart]

theorem applyRule_max (checks : Checks) (arg : Text) (fv : Value) :
    applyRule checks ("max=".toList ++ arg) fv = checks.checkMax fv arg := by
  simp [applyRule, Text.startsWith, Text.withoutStart]

/-! ## Integer fields -/

def Operand.integer : Operand → Option ℤ
  | .int n => some n.toInt
  | .uint n => some n.toNat
  | _ => none

theorem ite_ne_nil {b : Bool} {msg : Text} (hmsg : msg ≠ []) :
    (if b = true then msg else []) ≠ [] ↔ b = true := by
  cases b with
  | false => simp
  | true => simpa using hmsg

theorem checkBound_integer {fails : Double → Bool} {characters items number : Text} {fv : Operand}
    {x : ℤ} (h : fv.integer = some x) (hnumber : number ≠ []) :
    checkBound fails characters items number fv ≠ [] ↔ fails (.ofInt x) = true := by
  cases fv with
  | int y =>
      obtain rfl := Option.some.inj h
      exact ite_ne_nil hnumber
  | uint y =>
      obtain rfl := Option.some.inj h
      exact ite_ne_nil hnumber
  | _ => nomatch h

theorem parseFloat_decimal {lib : Library} {text : Text} {N : ℤ} (htext : decimal text = some N)
    (hparse : (parseFloat lib text).isSome) : parseFloat lib text = some (.ofInt N) := by
  unfold parseFloat at hparse ⊢
  rw [htext] at hparse ⊢
  simp only at hparse ⊢
  split_ifs at hparse ⊢ with hrange
  · rfl
  · nomatch hparse

/-- Both rules are exact for a value and a bound exactly if these are equal or
round to different floats. -/
theorem bounds_exact_iff {checks : Checks} {lib : Library} {reflect : Value → Operand} {fv : Value}
    {text : Text} {N x : ℤ} (htext : decimal text = some N)
    (hparse : (parseFloat lib text).isSome) (hx : (reflect fv).integer = some x) :
    ((applyRule (checks.withBounds lib reflect) ("min=".toList ++ text) fv ≠ [] ↔ x < N) ∧
        (applyRule (checks.withBounds lib reflect) ("max=".toList ++ text) fv ≠ [] ↔ N < x)) ↔
      x = N ∨ roundInt 53 x ≠ roundInt 53 N := by
  have hn := parseFloat_decimal htext hparse
  have hmin : applyRule (checks.withBounds lib reflect) ("min=".toList ++ text) fv ≠ [] ↔
      roundInt 53 x < roundInt 53 N := by
    rw [applyRule_min, ← Double.ofInt_lt_ofInt]
    simp only [Checks.withBounds, withBound, hn]
    exact checkBound_integer hx (List.append_ne_nil_of_left_ne_nil (by decide) _)
  have hmax : applyRule (checks.withBounds lib reflect) ("max=".toList ++ text) fv ≠ [] ↔
      roundInt 53 N < roundInt 53 x := by
    rw [applyRule_max, ← Double.ofInt_lt_ofInt]
    simp only [Checks.withBounds, withBound, hn]
    exact checkBound_integer hx (List.append_ne_nil_of_left_ne_nil (by decide) _)
  rw [hmin, hmax]
  rcases lt_trichotomy x N with hlt | rfl | hlt
  · have hround := roundInt_lt_iff (p := 53) (by decide) hlt
    have hmono := roundInt_mono (p := 53) (by decide) hlt.le
    simp only [hlt, hlt.not_gt, hlt.ne, hmono.not_gt, hround, iff_true, and_true, false_or]
  · simp
  · have hround := roundInt_lt_iff (p := 53) (by decide) hlt
    have hmono := roundInt_mono (p := 53) (by decide) hlt.le
    simp only [hlt, hlt.not_gt, hlt.ne', hmono.not_gt, hround, iff_true, true_and, false_or]
    exact ne_comm

theorem apart_of_small {N x : ℤ} (hN : N.natAbs ≤ 2 ^ 53) (hx : x.natAbs ≤ 2 ^ 53) :
    x = N ∨ roundInt 53 x ≠ roundInt 53 N := by
  rw [roundInt_eq_self (by decide) hN, roundInt_eq_self (by decide) hx]
  exact eq_or_ne x N

/-- No other notations of floats, and no text for them. -/
def plainLibrary : Library := ⟨fun _ => none, fun _ => []⟩

/-- Everything passes but the bounds. -/
def lenient : Checks :=
  ⟨fun _ => .ok fun _ => true, fun _ => [], fun _ => [], fun _ _ => [], fun _ _ => []⟩

/-- The bound `2 ^ 53 + 1` and the value `2 ^ 53` are one float, and so are the
bound `2 ^ 53` and the value `2 ^ 53 + 1`. -/
theorem bounds_inexact :
    decimal "9007199254740993".toList = some (2 ^ 53 + 1) ∧
    applyRule (lenient.withBounds plainLibrary fun _ => .int 9007199254740992)
      ("min=".toList ++ "9007199254740993".toList) (.scalar (.other false)) = [] ∧
    applyRule (lenient.withBounds plainLibrary fun _ => .uint 9007199254740993)
      ("max=".toList ++ "9007199254740992".toList) (.scalar (.other false)) = [] := by
  refine ⟨by decide, ?_, ?_⟩
  · rw [applyRule_min]
    decide +kernel
  · rw [applyRule_max]
    decide +kernel

theorem bounds_exact_at_eighteen :
    (applyRule (lenient.withBounds plainLibrary fun _ => .int 17)
        ("min=".toList ++ "18".toList) (.scalar (.other false)) ≠ [] ↔ (17 : ℤ) < 18) ∧
      (applyRule (lenient.withBounds plainLibrary fun _ => .int 17)
        ("max=".toList ++ "18".toList) (.scalar (.other false)) ≠ [] ↔ (18 : ℤ) < 17) :=
  (bounds_exact_iff (by decide) (by decide +kernel) (by decide)).mpr
    (apart_of_small (by decide) (by decide))

end Gkit.Validation
