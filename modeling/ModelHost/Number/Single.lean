import ModelHost.Number.Shortest

/-!
Numbers of single precision, kept as their bits: a sign, eight bits of exponent and twenty-three of
fraction. Two orders are in use. `rank` is the total order, in which every pattern has a place of
its own; `le` and `lt` compare values, so that the zeros are equal and no comparison with a NaN
holds.
-/

namespace ModelHost

structure Single where
  bits : UInt32
deriving DecidableEq, Repr, Inhabited

namespace Single

def zero : Single := ⟨0⟩

def one : Single := ⟨0x3F800000⟩

def infinity : Single := ⟨0x7F800000⟩

def magnitude (x : Single) : UInt32 := x.bits &&& 0x7FFFFFFF

def isNegative (x : Single) : Bool := 0x80000000 ≤ x.bits

def isNaN (x : Single) : Bool := 0x7F800000 < x.magnitude

def isFinite (x : Single) : Bool := x.magnitude < 0x7F800000

def isZero (x : Single) : Bool := x.magnitude = 0

/-- The place in the total order: negative NaNs first, then the numbers with the negative zero
before the positive one, then the positive NaNs. -/
def rank (x : Single) : Int :=
  if x.isNegative then -(x.magnitude.toNat : Int) - 1 else x.magnitude.toNat

/-- The place of a number among the values, where the zeros share one place. -/
def position (x : Single) : Int :=
  if x.isNegative then -(x.magnitude.toNat : Int) else x.magnitude.toNat

def le (x y : Single) : Bool := !x.isNaN && !y.isNaN && x.position ≤ y.position

def lt (x y : Single) : Bool := !x.isNaN && !y.isNaN && x.position < y.position

def toFloat32 (x : Single) : Float32 := Float32.ofBits x.bits

def quiet (x : Single) : Single := ⟨x.bits ||| 0x00400000⟩

/-- The result of an operation that has none, such as the difference of two infinities. -/
def invalid : Single := ⟨0xFFC00000⟩

def ofFloat32 (f : Float32) : Single :=
  let x : Single := ⟨f.toBits⟩
  if x.isNaN then invalid else x

/-- An operation on numbers; the first of its NaN operands is handed on. -/
def lift (op : Float32 → Float32 → Float32) (x y : Single) : Single :=
  if x.isNaN then x.quiet
  else if y.isNaN then y.quiet
  else ofFloat32 (op x.toFloat32 y.toFloat32)

def add : Single → Single → Single := lift (· + ·)
def sub : Single → Single → Single := lift (· - ·)
def mul : Single → Single → Single := lift (· * ·)
def div : Single → Single → Single := lift (· / ·)

def exp (x : Single) : Single :=
  if x.isNaN then x.quiet else ofFloat32 x.toFloat32.exp

def ofCount (n : UInt32) : Single := ofFloat32 n.toFloat32

def ofWhole (n : UInt64) : Single := ofFloat32 n.toFloat32

def ofFloat (f : Float) : Single := ofFloat32 f.toFloat32

def fractionCount : Nat := 0x800000

/-- The numbers that round to a finite number other than zero, in quarters of its last place. The
gap below a power of two is half the gap above. -/
def interval (x : Single) : Interval :=
  let field : Nat := x.magnitude.toNat / fractionCount
  let fraction : Nat := x.magnitude.toNat % fractionCount
  let (whole, power) : Nat × Int :=
    if field = 0 then (fraction, -151) else (fraction + fractionCount, (field : Int) - 152)
  let below := if fraction = 0 ∧ 1 < field then 1 else 2
  let scale := 1 <<< power.toNat
  { low := (4 * whole - below) * scale
    value := 4 * whole * scale
    high := (4 * whole + 2) * scale
    denominator := 1 <<< (-power).toNat
    closed := whole % 2 = 0 }

/-- The fewest digits that read back as the number; the least of its numbers other than zero is
above ten to the minus 46. -/
def unsignedText (x : Single) : List Char :=
  if x.magnitude = 0 then ['0']
  else if x.magnitude = 0x7F800000 then ['i', 'n', 'f']
  else
    match x.interval.coarsest 86 39 with
    | some (digits, exponent) => positional digits exponent
    | none => []

def text (x : Single) : String :=
  if x.isNaN then "NaN"
  else if x.isNegative then "-" ++ String.ofList x.unsignedText
  else String.ofList x.unsignedText

end Single

end ModelHost
