import ModelHost.Disk.Basic
import ModelHost.Inference.Backend
import ModelHost.Json.Record
import ModelHost.ClientVersion

/-!
Download records: what is known about the weights of one model, from the first request for them on.
-/

namespace ModelHost.Download

inductive Status where
  | notStarted
  | inProgress
  | completed
  | failed
deriving DecidableEq, Repr

namespace Status

def isTerminal : Status → Bool
  | .completed | .failed => true
  | .notStarted | .inProgress => false

def name : Status → String
  | .notStarted => "NotStarted"
  | .inProgress => "InProgress"
  | .completed => "Completed"
  | .failed => "Failed"

def toJson (s : Status) : Json := .ofString s.name

def ofJson? : Json → Option Status :=
  Json.choice?
    [("NotStarted", .notStarted), ("InProgress", .inProgress), ("Completed", .completed),
     ("Failed", .failed)]

end Status

inductive Failure where
  | noSource
  | version (error : VersionError)
  | directory (fault : Fault)
  | transfer (cause : Cause)
  | digest (target : Path)
  | install (fault : Fault)
deriving DecidableEq, Repr

def Failure.message : Failure → String
  | .noSource => "missing download url"
  | .version error => s!"version mismatch: {error.message}"
  | .directory fault => s!"Failed to create models directory: {fault.message}"
  | .transfer cause => s!"transfer failed: {cause.message}"
  | .digest target => s!"SHA256 verification failed for {target.text}"
  | .install fault => s!"Failed to move download into place: {fault.message}"

/-- A reading of the clock. -/
abbrev Stamp := Nat

structure Record where
  model : String
  status : Status := .notStarted
  failure : Option Failure := none
  /-- Where the weights are, or will be. -/
  file : Option Path := none
  received : UInt64 := 0
  total : Option UInt64 := none
  startedAt : Option Stamp := none
  finishedAt : Option Stamp := none
deriving DecidableEq, Repr

namespace Record

def notStarted (model : String) : Record := { model }

def errorText (r : Record) : String := (r.failure.map Failure.message).getD ""

def percent (r : Record) : Option Single :=
  match r.total with
  | none => none
  | some total =>
    if total = 0 then none
    else
      let parts := r.received.toFloat / total.toFloat * 100
      some (Single.ofFloat (if parts < 100 then parts else 100))

def finish (r : Record) (now : Stamp) : Except Failure Unit → Record
  | .ok () => { r with status := .completed, finishedAt := some now }
  | .error failure =>
    { r with status := .failed, failure := some failure, finishedAt := some now }

end Record

end ModelHost.Download
