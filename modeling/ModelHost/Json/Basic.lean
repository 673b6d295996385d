import ModelHost.Number.Numeral

/-!
JSON values. A string or a key may hold half of a surrogate pair, which no text can; it is then kept
as `none`, so that a value nobody asks for can still be passed over. The members of an object stay
in the order they are written in, repeated keys included.
-/

namespace ModelHost

inductive Json where
  | null
  | bool (value : Bool)
  | number (value : Numeral)
  | string (value : Option String)
  | array (items : List Json)
  | object (members : List (Option String × Json))
deriving Repr, Inhabited

namespace Json

def ofString (s : String) : Json := .string (some s)

def ofNat (n : Nat) : Json := .number (.integer false n)

def ofBool (b : Bool) : Json := .bool b

def record (members : List (String × Json)) : Json :=
  .object (members.map fun (key, value) => (some key, value))

def ofOption (encode : α → Json) : Option α → Json
  | none => .null
  | some a => encode a

def ofList (encode : α → Json) (items : List α) : Json := .array (items.map encode)

def string? : Json → Option String
  | .string value => value
  | _ => none

def bool? : Json → Option Bool
  | .bool value => some value
  | _ => none

def items? : Json → Option (List Json)
  | .array items => some items
  | _ => none

def below? (limit : Nat) : Json → Option Nat
  | .number value => value.below? limit
  | _ => none

def uint32? (json : Json) : Option UInt32 := (json.below? UInt32.size).map Nat.toUInt32

def uint64? (json : Json) : Option UInt64 := (json.below? UInt64.size).map Nat.toUInt64

def single? : Json → Option Single
  | .number value => value.toSingle?
  | _ => none

def list? (decode : Json → Option α) (json : Json) : Option (List α) :=
  json.items?.bind (·.mapM decode)

end Json

end ModelHost
