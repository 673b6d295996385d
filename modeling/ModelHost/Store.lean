import ModelHost.Descriptor
import ModelHost.Disk.Basic
import ModelHost.Json.Reader
import ModelHost.Text.Utf8

/-!
The store of model descriptors, one for each name. Descriptors can be read from a file that holds
an array of them; a file that cannot be read, or that has a single bad entry, changes nothing.
-/

namespace ModelHost

structure Store where
  descriptors : Std.TreeMap String Descriptor

namespace Store

def empty : Store := ⟨∅⟩

def lookup (s : Store) (name : String) : Option Descriptor := s.descriptors[name]?

def insert (s : Store) (d : Descriptor) : Store := ⟨s.descriptors.insert d.name d⟩

@[simp] theorem lookup_empty (name : String) : empty.lookup name = none := by
  simp [lookup, empty]

theorem lookup_insert (s : Store) (d : Descriptor) (name : String) :
    (s.insert d).lookup name = if d.name = name then some d else s.lookup name := by
  simp [lookup, insert, Std.TreeMap.getElem?_insert]

def insertMany (s : Store) (ds : List Descriptor) : Store := ds.foldl insert s

def ofDescriptors (ds : List Descriptor) : Store := empty.insertMany ds

def remove (s : Store) (name : String) : Option Descriptor × Store :=
  (s.lookup name, ⟨s.descriptors.erase name⟩)

theorem lookup_remove (s : Store) (name other : String) :
    (s.remove name).2.lookup other = if name = other then none else s.lookup other := by
  simp [lookup, remove, Std.TreeMap.getElem?_erase]

def names (s : Store) : List String := s.descriptors.keys

inductive LoadError where
  | unreadable (path : Path)
  | malformed (path : Path)
deriving DecidableEq, Repr

def LoadError.message : LoadError → String
  | .unreadable path => s!"Failed to read descriptor file {path.text}"
  | .malformed path => s!"Failed to parse descriptor file {path.text}"

def parse? (text : String) : Option (List Descriptor) :=
  (Json.read? text).bind (Json.list? Descriptor.ofJson?)

def readContent (path : Path) (content : Option ByteArray) : Except LoadError (List Descriptor) :=
  match content.bind fun bytes => Text.Utf8.decodeText? bytes with
  | none => .error (.unreadable path)
  | some text =>
    match parse? text with
    | none => .error (.malformed path)
    | some ds => .ok ds

def load (s : Store) (disk : Disk) (path : Path) : Except LoadError (Nat × Store) :=
  match readContent path (disk.read path).toOption with
  | .error e => .error e
  | .ok ds => .ok (ds.length, s.insertMany ds)

end Store

end ModelHost
