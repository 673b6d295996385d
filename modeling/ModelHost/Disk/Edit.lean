import ModelHost.Disk.Basic

/-!
Operations that change a disk. Each gives the disk afterwards or the fault that stopped it, in which
case the disk is as before; only the making of several directories can stop half way, and then what
it made before stays.
-/

namespace ModelHost.Disk

def makeDirectory (disk : Disk) (p : Path) : Except Fault Disk := do
  match ← disk.site p with
  | .special => .error .exists
  | .name directory name _ =>
    match disk.entries[name :: directory]? with
    | some _ => .error .exists
    | none => .ok { disk with entries := disk.entries.insert (name :: directory) .directory }

def provideDirectory (disk : Disk) (p : Path) : Except Fault Disk :=
  match disk.makeDirectory p with
  | .ok disk => .ok disk
  | .error fault => if disk.hasDirectory p then .ok disk else .error fault

/-- Makes a directory and those above it that are missing, at most as many as `levels`; also the
disk as it is when that fails. -/
def makeDirectoriesWithin (disk : Disk) : Nat → Path → Except Fault Unit × Disk
  | 0, _ => (.error .noRoot, disk)
  | levels + 1, p =>
    if p.text = "" then (.ok (), disk)
    else
      match disk.makeDirectory p with
      | .ok disk => (.ok (), disk)
      | .error .absent =>
        match p.parent? with
        | none => (.error .noRoot, disk)
        | some parent =>
          match disk.makeDirectoriesWithin levels parent with
          | (.error fault, disk) => (.error fault, disk)
          | (.ok (), disk) =>
            match disk.provideDirectory p with
            | .ok disk => (.ok (), disk)
            | .error fault => (.error fault, disk)
      | .error fault => (if disk.hasDirectory p then .ok () else .error fault, disk)

def makeDirectories (disk : Disk) (p : Path) : Except Fault Unit × Disk :=
  disk.makeDirectoriesWithin (p.segments.length + 1) p

inductive Handle where
  | file (number : Nat)
  | full
  | null
deriving DecidableEq, Repr

def create (disk : Disk) (p : Path) : Except Fault (Handle × Disk) := do
  match ← disk.resolveFile p with
  | (_, some .directory) => .error .isDirectory
  | (_, some (.file number)) =>
    .ok (.file number, { disk with contents := disk.contents.insert number .empty })
  | (_, some .full) => .ok (.full, disk)
  | (_, some .null) => .ok (.null, disk)
  | (_, some (.link _)) => .error .manyLinks
  | (location, none) =>
    .ok (.file disk.unused,
      { disk with
        entries := disk.entries.insert location (.file disk.unused)
        contents := disk.contents.insert disk.unused .empty
        unused := disk.unused + 1 })

def overwrite (content : ByteArray) (offset : Nat) (bytes : ByteArray) : ByteArray :=
  let front := content.extract 0 offset
  let gap : ByteArray := ⟨Array.replicate (offset - front.size) 0⟩
  front ++ gap ++ bytes ++ content.extract (offset + bytes.size) content.size

def write (disk : Disk) (handle : Handle) (offset : Nat) (bytes : ByteArray) :
    Except Fault Disk :=
  if bytes.isEmpty then .ok disk
  else
    match handle with
    | .full => .error .noSpace
    | .null => .ok disk
    | .file number =>
      let content := overwrite (disk.content number) offset bytes
      .ok { disk with contents := disk.contents.insert number content }

def provideFile (disk : Disk) (p : Path) (content : ByteArray) : Except Fault Disk := do
  let (made, disk) := disk.makeDirectories (p.parent?.getD ⟨""⟩)
  made
  let (handle, disk) ← disk.create p
  disk.write handle 0 content

def remove (disk : Disk) (p : Path) : Except Fault Disk := do
  match ← disk.site p with
  | .special => .error .isDirectory
  | .name directory name slash =>
    match disk.entries[name :: directory]? with
    | none => .error .absent
    | some .directory => .error .isDirectory
    | some _ =>
      if slash then .error .notDirectory
      else .ok { disk with entries := disk.entries.erase (name :: directory) }

def isWithin (directory location : Location) : Bool := directory.isSuffixOf location

def clear (disk : Disk) (place : Location) : Disk :=
  { disk with entries := disk.entries.filter fun location _ => !isWithin place location }

def removeAll (disk : Disk) (p : Path) : Except Fault Disk := do
  match ← disk.site p with
  | .special => .error .busy
  | .name directory name _ => .ok (disk.clear (name :: directory))

/-- Gives a directory with all that is below it another location, which must be free. -/
def relocate (disk : Disk) (source target : Location) : Disk :=
  let moved := disk.entries.toList.filter fun (location, _) => isWithin source location
  let cleared := disk.clear source
  { cleared with
    entries := moved.foldl (fun entries (location, entry) =>
      entries.insert (location.take (location.length - source.length) ++ target) entry)
      cleared.entries }

def renameFault? (disk : Disk) (source target : Location) (slashed : Bool) :
    Entry → Option Entry → Option Fault
  | .directory, found =>
    if isWithin source target then some .invalid
    else
      match found with
      | none => none
      | some .directory => if (disk.children target).isEmpty then none else some .notEmpty
      | some _ => some .notDirectory
  | _, found =>
    if slashed then some .notDirectory
    else if isWithin target source then some .notEmpty
    else if found = some .directory then some .isDirectory
    else none

def rename (disk : Disk) (source target : Path) : Except Fault Disk := do
  match ← disk.site source, ← disk.site target with
  | .name sourceDirectory sourceName sourceSlash, .name targetDirectory targetName targetSlash =>
    let source := sourceName :: sourceDirectory
    let target := targetName :: targetDirectory
    match disk.entries[source]? with
    | none => .error .absent
    | some entry =>
      if source = target then .ok disk
      else
        match disk.renameFault? source target (sourceSlash || targetSlash) entry
            disk.entries[target]? with
        | some fault => .error fault
        | none =>
          if entry = .directory then .ok (relocate (disk.clear target) source target)
          else .ok { disk with entries := (disk.entries.erase source).insert target entry }
  | _, _ => .error .busy

def provideLink (disk : Disk) (p : Path) (target : Path) : Except Fault Disk := do
  let (made, disk) := disk.makeDirectories (p.parent?.getD ⟨""⟩)
  made
  match ← disk.site p with
  | .special => .error .exists
  | .name directory name _ =>
    match disk.entries[name :: directory]? with
    | some _ => .error .exists
    | none => .ok { disk with entries := disk.entries.insert (name :: directory) (.link target) }

end ModelHost.Disk
