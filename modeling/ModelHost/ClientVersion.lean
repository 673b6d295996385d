import ModelHost.Text.Basic

/-!
Client versions. A version is a row of numbers with dots between them; versions are ordered by their
first difference, and one that another goes on from comes before it. A model may ask for a client
within bounds, which themselves belong to the range.
-/

namespace ModelHost

inductive VersionError where
  | invalid (version : String)
  | tooOld (client minimum : String)
  | tooNew (client maximum : String)
deriving DecidableEq, Repr

def VersionError.message : VersionError → String
  | .invalid version => s!"invalid version '{version}'"
  | .tooOld client minimum =>
    s!"client version {client} is older than the minimum {minimum} required by this model"
  | .tooNew client maximum =>
    s!"client version {client} is newer than the maximum {maximum} supported by this model"

namespace ClientVersion

def numbers? (version : String) : Option (List Nat) :=
  (Text.splitAt '.' (Text.trim version.toList)).mapM fun part =>
    (Text.readUnsigned UInt64.size part).toOption

def order : List Nat → List Nat → Ordering
  | [], [] => .eq
  | [], _ :: _ => .lt
  | _ :: _, [] => .gt
  | m :: ms, n :: ns => (compare m n).then (order ms ns)

def read (version : String) : Except VersionError (List Nat) :=
  match numbers? version with
  | some numbers => .ok numbers
  | none => .error (.invalid version)

def compare (a b : String) : Except VersionError Ordering := do
  return order (← read a) (← read b)

def check (client : String) (minimum maximum : Option String) : Except VersionError Unit := do
  if let some minimum := minimum then
    if (← compare client minimum) = .lt then throw (.tooOld client minimum)
  if let some maximum := maximum then
    if (← compare client maximum) = .gt then throw (.tooNew client maximum)

end ClientVersion

end ModelHost
