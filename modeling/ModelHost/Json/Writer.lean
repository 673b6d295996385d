import ModelHost.Json.Basic

/-!
Writing JSON text on one line, without blanks. In a string the quote, the backslash and the control
characters are escaped, and nothing else.
-/

namespace ModelHost.Json

def hexDigit (n : Nat) : Char := Nat.digitChar n

def escape (c : Char) : List Char :=
  match c with
  | '"' => ['\\', '"']
  | '\\' => ['\\', '\\']
  | '\n' => ['\\', 'n']
  | '\r' => ['\\', 'r']
  | '\t' => ['\\', 't']
  | '\x08' => ['\\', 'b']
  | '\x0c' => ['\\', 'f']
  | c =>
    if c.toNat < 0x20 then
      ['\\', 'u', '0', '0', hexDigit (c.toNat / 16), hexDigit (c.toNat % 16)]
    else [c]

def writeString (s : String) : String :=
  "\"" ++ String.ofList (s.toList.flatMap escape) ++ "\""

/-- A string that no text can hold is written as null. -/
def writeText : Option String → String
  | none => "null"
  | some s => writeString s

def writeNumeral : Numeral → String
  | .integer negative magnitude => sign negative ++ toString magnitude
  | .decimal negative whole fraction exponent =>
    sign negative ++ toString whole ++
      (if fraction = [] then "" else "." ++ String.join (fraction.map toString)) ++
      (match exponent with
        | none => ""
        | some e => "e" ++ toString e)
where
  sign (negative : Bool) : String := if negative then "-" else ""

mutual

def write : Json → String
  | .null => "null"
  | .bool true => "true"
  | .bool false => "false"
  | .number n => writeNumeral n
  | .string s => writeText s
  | .array items => "[" ++ ",".intercalate (writeItems items) ++ "]"
  | .object members => "\x7b" ++ ",".intercalate (writeMembers members) ++ "\x7d"

def writeItems : List Json → List String
  | [] => []
  | item :: items => write item :: writeItems items

def writeMembers : List (Option String × Json) → List String
  | [] => []
  | (key, value) :: members => (writeText key ++ ":" ++ write value) :: writeMembers members

end

end ModelHost.Json
