import ModelHost.Path
import Std.Data.TreeMap

/-!
A disk. Every place has a location, the names that lead to it from the root, the innermost one
first. What a file holds is kept apart from the place it has, under the number of the file, so that
a file that is moved or removed while someone writes to it stays the same file. Links are followed
wherever a path is resolved; `resolve` and `resolveFile` follow a link at the end of the path too,
`site` does not.
-/

namespace ModelHost

abbrev Location := List String

inductive Entry where
  | directory
  | file (number : Nat)
  | link (target : Path)
  /-- A device that has no room for a single byte. -/
  | full
  /-- A device that takes every byte and keeps none. -/
  | null
deriving DecidableEq, Repr

inductive Fault where
  | absent
  | busy
  | exists
  | notDirectory
  | isDirectory
  | invalid
  | noSpace
  | longName
  | notEmpty
  | manyLinks
  | nulInName
  | noRoot
deriving DecidableEq, Repr

def Fault.code? : Fault → Option (String × Nat)
  | .absent => some ("No such file or directory", 2)
  | .busy => some ("Device or resource busy", 16)
  | .exists => some ("File exists", 17)
  | .notDirectory => some ("Not a directory", 20)
  | .isDirectory => some ("Is a directory", 21)
  | .invalid => some ("Invalid argument", 22)
  | .noSpace => some ("No space left on device", 28)
  | .longName => some ("File name too long", 36)
  | .notEmpty => some ("Directory not empty", 39)
  | .manyLinks => some ("Too many levels of symbolic links", 40)
  | .nulInName => none
  | .noRoot => none

def Fault.message (fault : Fault) : String :=
  match fault.code? with
  | some (name, code) => s!"{name} (os error {code})"
  | none =>
    if fault = .noRoot then "failed to create whole tree"
    else "file name contained an unexpected NUL byte"

structure Disk where
  entries : Std.TreeMap Location Entry
  contents : Std.TreeMap Nat ByteArray
  /-- A number that no file has. -/
  unused : Nat
  /-- Where the paths start that do not start at the root. -/
  working : Location

namespace Disk

def nameLimit : Nat := 255

def pathLimit : Nat := 4095

def linkLimit : Nat := 40

def firstEntries : List (Location × Entry) :=
  [([], .directory), (["dev"], .directory), (["full", "dev"], .full), (["null", "dev"], .null),
   (["work"], .directory)]

def empty : Disk where
  entries := Std.TreeMap.ofList firstEntries
  contents := ∅
  unused := 0
  working := ["work"]

def origin (p : Path) (location : Location) : Location := if p.isRooted then [] else location

/-- Goes from a directory along names. The end of the way may be free, which gives its location
without an entry; `follow` goes on at a link. On the way to a file that is to be written, `writing`,
a last name with slashes after it is refused, since it can only be that of a directory. -/
def walkWith (disk : Disk) (writing : Bool)
    (follow : Location → List String → Except Fault (Location × Option Entry))
    (location : Location) : List String → Except Fault (Location × Option Entry)
  | [] => .ok (location, disk.entries[location]?)
  | segment :: rest =>
    if segment = "" ∨ segment = "." then disk.walkWith writing follow location rest
    else if segment = ".." then disk.walkWith writing follow location.tail rest
    else if writing ∧ rest ≠ [] ∧ rest.all (· = "") then .error .isDirectory
    else if nameLimit < segment.utf8ByteSize then .error .longName
    else
      let place := segment :: location
      match disk.entries[place]? with
      | none => if rest = [] then .ok (place, none) else .error .absent
      | some .directory => disk.walkWith writing follow place rest
      | some (.link target) => follow (origin target location) (target.segments ++ rest)
      | some entry => if rest = [] then .ok (place, some entry) else .error .notDirectory

def walk (disk : Disk) (writing : Bool) :
    Nat → Location → List String → Except Fault (Location × Option Entry)
  | 0 => disk.walkWith writing fun _ _ => .error .manyLinks
  | links + 1 => disk.walkWith writing (disk.walk writing links)

def check (p : Path) : Except Fault Unit :=
  if p.text.toList.contains (Char.ofNat 0) then .error .nulInName
  else if p.text = "" then .error .absent
  else if pathLimit < p.text.utf8ByteSize then .error .longName
  else .ok ()

def resolve (disk : Disk) (p : Path) : Except Fault (Location × Option Entry) := do
  check p
  disk.walk false linkLimit (origin p disk.working) p.segments

def resolveFile (disk : Disk) (p : Path) : Except Fault (Location × Option Entry) := do
  check p
  disk.walk true linkLimit (origin p disk.working) p.segments

def entry? (disk : Disk) (p : Path) : Option Entry :=
  match disk.resolve p with
  | .ok (_, entry) => entry
  | .error _ => none

def has (disk : Disk) (p : Path) : Bool := (disk.entry? p).isSome

def hasDirectory (disk : Disk) (p : Path) : Bool := disk.entry? p = some .directory

def content (disk : Disk) (number : Nat) : ByteArray := disk.contents.getD number .empty

def read (disk : Disk) (p : Path) : Except Fault ByteArray := do
  match (← disk.resolve p).2 with
  | some .directory => .error .isDirectory
  | some (.file number) => .ok (disk.content number)
  | some .full | some .null => .ok .empty
  | some (.link _) => .error .manyLinks
  | none => .error .absent

/-- The end of a path, seen from the directory it is in. -/
inductive Site where
  | name (directory : Location) (name : String) (slash : Bool)
  /-- The path ends in a dot, in two dots, or at the root. -/
  | special
deriving Repr

def withoutSlashes (segments : List String) : List String :=
  (segments.reverse.dropWhile (· = "")).reverse

/-- The place a path names, without following a link that is there. -/
def site (disk : Disk) (p : Path) : Except Fault Site := do
  check p
  let segments := withoutSlashes p.segments
  match segments.getLast? with
  | none => .ok .special
  | some last =>
    match ← disk.walk false linkLimit (origin p disk.working) segments.dropLast with
    | (directory, some .directory) =>
      if last = "." ∨ last = ".." then .ok .special
      else if nameLimit < last.utf8ByteSize then .error .longName
      else .ok (.name directory last (segments.length < p.segments.length))
    | (_, some _) => .error .notDirectory
    | (_, none) => .error .absent

def children (disk : Disk) (directory : Location) : List (String × Entry) :=
  disk.entries.toList.filterMap fun (location, entry) =>
    match location with
    | [] => none
    | name :: rest => if rest = directory then some (name, entry) else none

/-- Everything below a directory that is reached through as many levels as `depth`, where `above` is
the path of the directory with a slash at its end: the paths, a directory with a slash at its end
and before what it holds. A link counts as what it leads to. -/
def listingBelow (disk : Disk) : Nat → Location → String → List (String × Option ByteArray)
  | 0, _, _ => []
  | depth + 1, directory, above =>
    (disk.children directory).flatMap fun (name, entry) =>
      let path := above ++ name
      let (location, found) := match disk.resolve ⟨path⟩ with
        | .ok (location, some found) => (location, found)
        | _ => (name :: directory, entry)
      match found with
      | .directory => (path ++ "/", none) :: disk.listingBelow depth location (path ++ "/")
      | .file number => [(path, some (disk.content number))]
      | _ => [(path, some .empty)]

def listing (disk : Disk) : List (String × Option ByteArray) :=
  disk.listingBelow pathLimit disk.working ""

end Disk

end ModelHost
