import ModelHost.Json.Basic

/-!
Reading JSON text. The functions take the text from a place on and give back what they read with
the text after it. Blanks are the space, the tab, the line feed and the carriage return; a string
holds no raw control character. The count that values, items and members pass on bounds how deep
they can nest; twice the length of the text is always enough.
-/

namespace ModelHost.Json

def skipBlanks : List Char → List Char :=
  List.dropWhile fun c => c = ' ' || c = '\t' || c = '\n' || c = '\r'

def hexValue? (c : Char) : Option Nat :=
  if c.isDigit then some (c.toNat - '0'.toNat)
  else if 'a' ≤ c ∧ c ≤ 'f' then some (c.toNat - 'a'.toNat + 10)
  else if 'A' ≤ c ∧ c ≤ 'F' then some (c.toNat - 'A'.toNat + 10)
  else none

def hexUnit? (a b c d : Char) : Option Nat := do
  return (((← hexValue? a) * 16 + (← hexValue? b)) * 16 + (← hexValue? c)) * 16 + (← hexValue? d)

/-- A piece of a string: a character as it stands, or a unit of sixteen bits from an escape. -/
inductive Piece where
  | char (c : Char)
  | unit (value : Nat)

def escaped? : Char → Option Char
  | '"' => some '"'
  | '\\' => some '\\'
  | '/' => some '/'
  | 'b' => some '\x08'
  | 'f' => some '\x0c'
  | 'n' => some '\n'
  | 'r' => some '\r'
  | 't' => some '\t'
  | _ => none

/-- Reads the rest of a string; `read` holds the pieces before, the last one first. -/
def readPieces (read : List Piece) : List Char → Option (List Piece × List Char)
  | [] => none
  | '"' :: rest => some (read.reverse, rest)
  | '\\' :: 'u' :: a :: b :: c :: d :: rest =>
    match hexUnit? a b c d with
    | some value => readPieces (.unit value :: read) rest
    | none => none
  | '\\' :: c :: rest =>
    match escaped? c with
    | some c => readPieces (.char c :: read) rest
    | none => none
  | c :: rest => if c.toNat < 0x20 then none else readPieces (.char c :: read) rest

/-- The text that pieces spell, behind the characters `before` in reverse. Units of a surrogate pair
make one character; one of them alone makes none. -/
def spell (before : List Char) : List Piece → Option (List Char)
  | [] => some before.reverse
  | .char c :: rest => spell (c :: before) rest
  | .unit high :: .unit low :: rest =>
    if 0xD800 ≤ high ∧ high < 0xDC00 then
      if 0xDC00 ≤ low ∧ low < 0xE000 then
        spell (Char.ofNat (0x10000 + (high - 0xD800) * 0x400 + (low - 0xDC00)) :: before) rest
      else none
    else if 0xDC00 ≤ high ∧ high < 0xE000 then none
    else spell (Char.ofNat high :: before) (.unit low :: rest)
  | .unit value :: rest =>
    if 0xD800 ≤ value ∧ value < 0xE000 then none else spell (Char.ofNat value :: before) rest

def readString (text : List Char) : Option (Option String × List Char) :=
  (readPieces [] text).map fun (pieces, rest) => ((spell [] pieces).map String.ofList, rest)

def readDigits (text : List Char) : List Char × List Char :=
  (text.takeWhile Char.isDigit, text.dropWhile Char.isDigit)

def readWhole : List Char → Option (Nat × List Char)
  | '0' :: rest => if (rest.head?.map Char.isDigit).getD false then none else some (0, rest)
  | text =>
    let (digits, rest) := readDigits text
    if digits = [] then none else some (Nat.ofDigitChars 10 digits 0, rest)

def readFraction : List Char → Option (List Nat × List Char)
  | '.' :: rest =>
    let (digits, rest) := readDigits rest
    if digits = [] then none else some (digits.map Text.digitValue, rest)
  | rest => some ([], rest)

def readSign : List Char → Bool × List Char
  | '-' :: rest => (true, rest)
  | '+' :: rest => (false, rest)
  | rest => (false, rest)

def readExponent : List Char → Option (Option Int × List Char)
  | [] => some (none, [])
  | c :: rest =>
    if c = 'e' ∨ c = 'E' then
      let (negative, rest) := readSign rest
      let (digits, rest) := readDigits rest
      if digits = [] then none
      else
        let value : Int := Nat.ofDigitChars 10 digits 0
        some (some (if negative then -value else value), rest)
    else some (none, c :: rest)

def readNumeral (text : List Char) : Option (Numeral × List Char) := do
  let (negative, text) := match text with
    | '-' :: rest => (true, rest)
    | text => (false, text)
  let (whole, text) ← readWhole text
  let (fraction, text) ← readFraction text
  let (exponent, text) ← readExponent text
  if fraction = [] ∧ exponent = none then return (.integer negative whole, text)
  else return (.decimal negative whole fraction exponent, text)

mutual

def readValue : Nat → List Char → Option (Json × List Char)
  | 0, _ => none
  | depth + 1, text =>
    match skipBlanks text with
    | 'n' :: 'u' :: 'l' :: 'l' :: rest => some (.null, rest)
    | 't' :: 'r' :: 'u' :: 'e' :: rest => some (.bool true, rest)
    | 'f' :: 'a' :: 'l' :: 's' :: 'e' :: rest => some (.bool false, rest)
    | '"' :: rest => (readString rest).map fun (s, rest) => (.string s, rest)
    | '[' :: rest =>
      match skipBlanks rest with
      | ']' :: rest => some (.array [], rest)
      | rest => (readItems depth rest).map fun (items, rest) => (.array items, rest)
    | '\x7b' :: rest =>
      match skipBlanks rest with
      | '\x7d' :: rest => some (.object [], rest)
      | rest => (readMembers depth rest).map fun (members, rest) => (.object members, rest)
    | rest => (readNumeral rest).map fun (n, rest) => (.number n, rest)

def readItems : Nat → List Char → Option (List Json × List Char)
  | 0, _ => none
  | depth + 1, text =>
    match readValue depth text with
    | none => none
    | some (item, rest) =>
      match skipBlanks rest with
      | ']' :: rest => some ([item], rest)
      | ',' :: rest => (readItems depth rest).map fun (items, rest) => (item :: items, rest)
      | _ => none

def readMembers : Nat → List Char → Option (List (Option String × Json) × List Char)
  | 0, _ => none
  | depth + 1, text =>
    match skipBlanks text with
    | '"' :: rest =>
      match readString rest with
      | none => none
      | some (key, rest) =>
        match skipBlanks rest with
        | ':' :: rest =>
          match readValue depth rest with
          | none => none
          | some (value, rest) =>
            match skipBlanks rest with
            | '\x7d' :: rest => some ([(key, value)], rest)
            | ',' :: rest =>
              (readMembers depth rest).map fun (members, rest) => ((key, value) :: members, rest)
            | _ => none
        | _ => none
    | _ => none

end

def read? (text : String) : Option Json :=
  let chars := text.toList
  match readValue (2 * chars.length + 2) chars with
  | some (json, rest) => if skipBlanks rest = [] then some json else none
  | none => none

end ModelHost.Json
