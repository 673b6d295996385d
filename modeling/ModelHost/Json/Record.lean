import ModelHost.Json.Basic

/-!
Reading the fields of a record. A record is written as an object, whose unknown keys are passed
over, or as an array that lists its fields in order and may stop early. An object that repeats a
known key, and an array with more items than there are fields, are refused.
-/

namespace ModelHost.Json

/-- The value of a key, which must not be repeated: `none` when it is, or when it is not there,
the latter inside the outer `some`. -/
def unique? (members : List (String × Json)) (key : String) : Option (Option Json) :=
  match members.filter (·.1 = key) with
  | [] => some none
  | [member] => some (some member.2)
  | _ => none

def namedMembers? (members : List (Option String × Json)) : Option (List (String × Json)) :=
  members.mapM fun (key, value) => key.map (·, value)

def fields? (names : List String) : Json → Option (List (Option Json))
  | .object members => (namedMembers? members).bind fun members => names.mapM (unique? members)
  | .array items =>
    if items.length ≤ names.length then
      some (items.map some ++ List.replicate (names.length - items.length) none)
    else none
  | _ => none

def required (decode : Json → Option α) : Option Json → Option α
  | none => none
  | some json => decode json

def defaulted (value : α) (decode : Json → Option α) : Option Json → Option α
  | none => some value
  | some json => decode json

def optional (decode : Json → Option α) : Option Json → Option (Option α)
  | none => some none
  | some .null => some none
  | some json => (decode json).map some

/-- A name out of a list of choices, also as the only key of an object with the value null. -/
def choice? (choices : List (String × α)) : Json → Option α
  | .string (some name) => choices.lookup name
  | .object [(some name, .null)] => choices.lookup name
  | _ => none

def onlyMember? : Json → Option (String × Json)
  | .object [(some key, value)] => some (key, value)
  | _ => none

end ModelHost.Json
