/-!
The decimal with the fewest digits inside an interval. An interval stands for the numbers that a
rounded value takes in; on every grid of multiples of a power of ten only the two neighbours of the
value can be the nearest point, so the coarsest grid with a neighbour inside gives the answer.
-/

namespace ModelHost

/-- A positive value with the ends of an interval around it, all over one denominator. -/
structure Interval where
  low : Nat
  value : Nat
  high : Nat
  denominator : Nat
  closed : Bool

def Interval.holds (closed : Bool) (low high point : Nat) : Bool :=
  if closed then low ≤ point && point ≤ high else low < point && point < high

/-- The multiple of ten to the `exponent` inside the interval that is nearest to the value; of two
equally near ones the greater. -/
def Interval.onGrid (i : Interval) (exponent : Int) : Option Nat :=
  let up := Nat.pow 10 (-exponent).toNat
  let step := i.denominator * Nat.pow 10 exponent.toNat
  let value := i.value * up
  let inside := Interval.holds i.closed (i.low * up) (i.high * up)
  let n := value / step
  match inside (n * step), inside ((n + 1) * step) with
  | false, false => none
  | true, false => some n
  | false, true => some (n + 1)
  | true, true => if value - n * step < (n + 1) * step - value then some n else some (n + 1)

/-- Tries the grids from the `exponent` down, as many as `count`. -/
def Interval.coarsest (i : Interval) : Nat → Int → Option (Nat × Int)
  | 0, _ => none
  | count + 1, exponent =>
    match i.onGrid exponent with
    | some n => some (n, exponent)
    | none => i.coarsest count (exponent - 1)

def positional (digits : Nat) (exponent : Int) : List Char :=
  let text := Nat.toDigits 10 digits
  if 0 ≤ exponent then text ++ List.replicate exponent.toNat '0'
  else
    let places := (-exponent).toNat
    let padded := List.replicate (places + 1 - text.length) '0' ++ text
    padded.take (padded.length - places) ++ '.' :: padded.drop (padded.length - places)

end ModelHost
