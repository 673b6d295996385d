import ModelHost.Text.Basic

/-!
Paths. A path is a text whose segments the slash separates; it starts at the root when the text
starts with a slash. Empty segments and dots do not count, apart from a dot at the very start.
-/

namespace ModelHost

structure Path where
  text : String
deriving DecidableEq, Repr, Inhabited

namespace Path

def isRooted (p : Path) : Bool := p.text.toList.head? = some '/'

def segments (p : Path) : List String := (Text.splitAt '/' p.text.toList).map String.ofList

def isIdle (segment : String) : Bool := segment = "" || segment = "."

/-- The segments without the idle ones at the end; the first one always stays. -/
def trimmed : List String → List String
  | [] => []
  | first :: rest => first :: (rest.reverse.dropWhile isIdle).reverse

def ofSegments : List String → Path
  | [""] => ⟨"/"⟩
  | segments => ⟨"/".intercalate segments⟩

def fileName? (p : Path) : Option String :=
  match (trimmed p.segments).getLast? with
  | none => none
  | some last => if last = "" ∨ last = "." ∨ last = ".." then none else some last

/-- The path without its last segment; the root and the empty path have none. -/
def parent? (p : Path) : Option Path :=
  match trimmed p.segments with
  | [] => none
  | [first] => if first = "" then none else some ⟨""⟩
  | segments => some (ofSegments (trimmed segments.dropLast))

/-- A path seen from another one; a rooted path stays as it is. -/
def join (base : Path) (p : Path) : Path :=
  if p.isRooted then p
  else if base.text = "" ∨ base.text.toList.getLast? = some '/' then ⟨base.text ++ p.text⟩
  else ⟨base.text ++ "/" ++ p.text⟩

def withFileName (p : Path) (name : String) : Path :=
  let base := if p.fileName?.isSome then p.parent?.getD p else p
  base.join ⟨name⟩

end Path

end ModelHost
