import ModelHost.Number.Single
import ModelHost.Text.Basic

/-!
Numbers as they are written in decimal, and the binary numbers they stand for. A written number is
cut to the leading digits that fit a word of 64 bits; the digits left over count as a power of ten,
by which the word is then multiplied or divided in double precision. A number beyond the range of
double precision stands for nothing, one below it for zero.
-/

namespace ModelHost

inductive Numeral where
  | integer (negative : Bool) (magnitude : Nat)
  /-- Digits of a fraction, a power of ten, or both. -/
  | decimal (negative : Bool) (whole : Nat) (fraction : List Nat) (exponent : Option Int)
deriving DecidableEq, Repr

namespace Numeral

def below? (limit : Nat) : Numeral → Option Nat
  | .integer false magnitude => if magnitude < limit then some magnitude else none
  | _ => none

/-- Appends digits to a value while it stays in 64 bits; also the count of digits left over. -/
def appendDigits : Nat → List Nat → Nat × Nat
  | value, [] => (value, 0)
  | value, d :: rest =>
    if value * 10 + d < UInt64.size then appendDigits (value * 10 + d) rest
    else (value, rest.length + 1)

def leading (whole : Nat) (fraction : List Nat) : Nat × Int :=
  let (value, beyond) := appendDigits 0 ((Nat.toDigits 10 whole).map Text.digitValue)
  let (value, dropped) := appendDigits value fraction
  (value, (beyond : Int) - (fraction.length - dropped : Nat))

def powerOfTen (n : Nat) : Float := Float.ofScientific 1 false n

def scale? (f : Float) (exponent : Int) : Option Float :=
  if exponent.natAbs ≤ 308 then
    if 0 ≤ exponent then
      let product := f * powerOfTen exponent.natAbs
      if product.isInf then none else some product
    else some (f / powerOfTen exponent.natAbs)
  else if f == 0 then some f
  else if 0 ≤ exponent then none
  else scale? (f / powerOfTen 308) (exponent + 308)
termination_by exponent.natAbs
decreasing_by omega

/-- The greatest power of ten, with either sign, that is worked out digit by digit. -/
def exponentLimit : Nat := 2147483647

def unsignedFloat? (whole : Nat) (fraction : List Nat) (exponent : Int) : Option Float :=
  let (value, shift) := leading whole fraction
  if exponentLimit < exponent.natAbs then
    if value ≠ 0 ∧ 0 < exponent then none else some 0
  else scale? value.toUInt64.toFloat (shift + exponent)

def toFloat? : Numeral → Option Float
  | .integer negative magnitude => signed negative (unsignedFloat? magnitude [] 0)
  | .decimal negative whole fraction exponent =>
    signed negative (unsignedFloat? whole fraction (exponent.getD 0))
where
  signed (negative : Bool) (f : Option Float) : Option Float :=
    if negative then f.map (-·) else f

/-- The number in single precision. A whole number that fits a word is rounded once, any other by
way of double precision. -/
def toSingle? : Numeral → Option Single
  | .integer false magnitude =>
    if magnitude < UInt64.size then some (Single.ofWhole magnitude.toUInt64)
    else (Numeral.integer false magnitude).toFloat?.map Single.ofFloat
  | .integer true magnitude =>
    if 0 < magnitude ∧ magnitude ≤ UInt64.size / 2 then
      some ⟨(Single.ofWhole magnitude.toUInt64).bits ||| 0x80000000⟩
    else (Numeral.integer true magnitude).toFloat?.map Single.ofFloat
  | n => n.toFloat?.map Single.ofFloat

end Numeral

end ModelHost
