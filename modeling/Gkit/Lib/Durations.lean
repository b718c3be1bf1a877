import Mathlib

/-!
# Durations

A `time.Duration` is a number of nanoseconds.  Instants are nanoseconds too,
counted from the zero time.  Sums do not overflow here; a package in which they
can says so.
-/

namespace Gkit.Lib

def millisecond : ℤ := 1000000

/-- The decimals of `v / 10 ^ width` behind the point, without trailing zeros. -/
def decimals (v width : ℕ) : String :=
  let digits := (List.range width).map fun i => Nat.digitChar (v / 10 ^ (width - 1 - i) % 10)
  match (digits.reverse.dropWhile (· = '0')).reverse with
  | [] => ""
  | ds => "." ++ String.ofList ds

/-- `Duration.String`. -/
def durationString (d : ℤ) : String :=
  let u := d.natAbs
  let sign := if d < 0 then "-" else ""
  if u = 0 then "0s"
  else if u < 10 ^ 3 then sign ++ toString u ++ "ns"
  else if u < 10 ^ 6 then sign ++ toString (u / 10 ^ 3) ++ decimals (u % 10 ^ 3) 3 ++ "µs"
  else if u < 10 ^ 9 then sign ++ toString (u / 10 ^ 6) ++ decimals (u % 10 ^ 6) 6 ++ "ms"
  else
    let s := u / 10 ^ 9
    let minutes := s / 60
    let hours := minutes / 60
    sign ++ (if hours = 0 then "" else toString hours ++ "h") ++
      (if minutes = 0 then "" else toString (minutes % 60) ++ "m") ++
      toString (s % 60) ++ decimals (u % 10 ^ 9) 9 ++ "s"

/-- `Duration.Truncate` for a positive unit. -/
def truncateTo (unit d : ℤ) : ℤ := d - d.tmod unit

end Gkit.Lib
