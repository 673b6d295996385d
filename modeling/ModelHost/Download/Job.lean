import ModelHost.Descriptor
import ModelHost.Digest.Sha256
import ModelHost.Disk.Edit
import ModelHost.Download.Record

/-!
Download jobs. A job brings the weights of one model to their target. Everything is received in a
part file beside the target, and only a part file that is complete, and has the expected digest
where there is one, is moved in the target's place. A job goes from phase to phase on its own,
except that it waits while the transfer runs.
-/

namespace ModelHost.Download

inductive Phase where
  | verifyTarget
  | checkVersion
  | prepareDirectory
  | beginTransfer
  | transferring
  | verifyPart
  /-- Takes the part file away and fails. -/
  | discardPart (failure : Failure)
  | install
  | completed
  | failed (failure : Failure)
deriving DecidableEq, Repr

structure Job where
  model : String
  source : Source
  target : Path
  client : String
  oldestClient : Option String
  newestClient : Option String
  phase : Phase
deriving DecidableEq, Repr

structure Fetch where
  model : String
  url : String
  destination : Path
deriving DecidableEq, Repr

def partName (target : Path) : String := target.fileName?.getD "" ++ ".part"

def partFile (target : Path) : Path := target.withFileName (partName target)

def verified (disk : Disk) (p : Path) (expected : String) : Bool :=
  match disk.read p with
  | .ok content => Sha256.agrees content expected
  | .error _ => false

/-- The disk without a file, if it can be taken away. -/
def discard (disk : Disk) (p : Path) : Disk :=
  match disk.remove p with
  | .ok disk => disk
  | .error _ => disk

namespace Job

def part (j : Job) : Path := partFile j.target

def next (j : Job) (phase : Phase) : Job := { j with phase }

def fetch (j : Job) : Fetch := ⟨j.model, j.source.url, j.part⟩

def outcome? (j : Job) : Option (Except Failure Unit) :=
  match j.phase with
  | .completed => some (.ok ())
  | .failed failure => some (.error failure)
  | _ => none

def advance (j : Job) (disk : Disk) : Job × Disk :=
  match j.phase with
  | .verifyTarget =>
    match j.source.digest with
    | none => (j.next .checkVersion, disk)
    | some expected =>
      if verified disk j.target expected then (j.next .completed, disk)
      else (j.next .checkVersion, disk)
  | .checkVersion =>
    match ClientVersion.check j.client j.oldestClient j.newestClient with
    | .error error => (j.next (.failed (.version error)), disk)
    | .ok () => (j.next .prepareDirectory, disk)
  | .prepareDirectory =>
    match j.target.parent? with
    | none => (j.next .beginTransfer, disk)
    | some directory =>
      match disk.makeDirectories directory with
      | (.error fault, disk) => (j.next (.failed (.directory fault)), disk)
      | (.ok (), disk) => (j.next .beginTransfer, disk)
  | .beginTransfer => (j.next .transferring, disk)
  | .transferring => (j, disk)
  | .verifyPart =>
    match j.source.digest with
    | none => (j.next .install, disk)
    | some expected =>
      if verified disk j.part expected then (j.next .install, disk)
      else (j.next (.discardPart (.digest j.target)), disk)
  | .discardPart failure => (j.next (.failed failure), discard disk j.part)
  | .install =>
    match disk.rename j.part j.target with
    | .error fault => (j.next (.failed (.install fault)), disk)
    | .ok disk => (j.next .completed, disk)
  | .completed | .failed _ => (j, disk)

def transferEnded (j : Job) : Except Cause Unit → Job
  | .error cause => j.next (.discardPart (.transfer cause))
  | .ok () => j.next .verifyPart

end Job

end ModelHost.Download
