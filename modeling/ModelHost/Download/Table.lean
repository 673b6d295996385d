import ModelHost.Download.Job
import ModelHost.Text.Alphanumeric
import Std.Data.TreeSet

/-!
The table of downloads has one record for each model name. The first request for a name makes the
record, and starts a job unless the record is finished at once; every later request gets the record
as it is then. The jobs go on in any order, one phase at a time, and are told how their transfers
fare. Each job leaves a handle when it starts, and only by its handle can it be let go of.
-/

namespace ModelHost.Download

structure Table where
  modelsDirectory : Path
  client : String
  records : Std.TreeMap String Record
  /-- The jobs that have not ended, in the order they were started. -/
  jobs : List Job
  /-- The names whose jobs have left a handle since handles were last taken. A job that ends leaves
  its handle behind. -/
  handles : Std.TreeSet String

def isNameChar (c : Char) : Bool := Text.isAlphanumeric c || c = '-' || c = '_' || c = '.'

/-- A model name with a dash for every character that cannot stand in a file name. -/
def fileStem (name : String) : String :=
  String.ofList (name.toList.map fun c => if isNameChar c then c else '-')

namespace Table

def start (modelsDirectory : Path) (client : String) : Table :=
  ⟨modelsDirectory, client, ∅, [], ∅⟩

def target (t : Table) (d : Descriptor) : Path :=
  match d.source.bind (·.cacheFile) with
  | some path => path
  | none => t.modelsDirectory.join ⟨fileStem d.name ++ ".gguf"⟩

/-- The record of a name; one that is not started when there is none. -/
def record (t : Table) (name : String) : Record :=
  (t.records[name]?).getD (.notStarted name)

def hasRecord (t : Table) (name : String) : Bool := t.records.contains name

/-- Whether there is a file at the target decides, with the expected digest and the source, how a
record is born. -/
def birth (t : Table) (disk : Disk) (now : Stamp) (d : Descriptor) : Record × Option Job :=
  let target := t.target d
  let present := disk.has target
  let record : Record :=
    { model := d.name, file := some target, startedAt := some now }
  if present && d.expectedDigest.isNone then (record.finish now (.ok ()), none)
  else
    match d.source with
    | none => (record.finish now (.error .noSource), none)
    | some source =>
      let job : Job :=
        { model := d.name
          source
          target
          client := t.client
          oldestClient := d.oldestClient
          newestClient := d.newestClient
          phase := if present then .verifyTarget else .checkVersion }
      ({ record with status := .inProgress }, some job)

def request (t : Table) (disk : Disk) (now : Stamp) (d : Descriptor) : Record × Table :=
  match t.records[d.name]? with
  | some record => (record, t)
  | none =>
    let (record, job) := t.birth disk now d
    (record,
      { t with
        records := t.records.insert d.name record
        jobs := t.jobs ++ job.toList
        handles := job.elim t.handles fun job => t.handles.insert job.model })

def job? (t : Table) (name : String) : Option Job := t.jobs.find? (·.model = name)

def replaceJob (t : Table) (job : Job) : Table :=
  { t with jobs := t.jobs.map fun j => if j.model = job.model then job else j }

def updateRecord (t : Table) (name : String) (f : Record → Record) : Table :=
  match t.records[name]? with
  | none => t
  | some record => { t with records := t.records.insert name (f record) }

/-- Writes the end of a job down and lets go of the job. -/
def conclude (t : Table) (now : Stamp) (name : String) (outcome : Except Failure Unit) : Table :=
  { t.updateRecord name (·.finish now outcome) with jobs := t.jobs.filter (·.model ≠ name) }

def advance (t : Table) (disk : Disk) (now : Stamp) (name : String) :
    Table × Disk × Option Fetch :=
  match t.job? name with
  | none => (t, disk, none)
  | some job =>
    let request := if job.phase = .beginTransfer then some job.fetch else none
    let (job, disk) := job.advance disk
    match job.outcome? with
    | some outcome => (t.conclude now name outcome, disk, request)
    | none => (t.replaceJob job, disk, request)

def transfer? (t : Table) (name : String) : Option Job :=
  (t.job? name).filter (·.phase = .transferring)

def report (t : Table) (name : String) (received : UInt64) (total : Option UInt64) : Table :=
  match t.transfer? name with
  | none => t
  | some _ => t.updateRecord name fun record => { record with received, total }

def transferEnded (t : Table) (name : String) (result : Except Cause Unit) : Table :=
  match t.transfer? name with
  | none => t
  | some job => t.replaceJob (job.transferEnded result)

/-- Takes every handle and lets go of its job. The records stay as they are. -/
def abandon (t : Table) : Table :=
  { t with jobs := t.jobs.filter fun job => !t.handles.contains job.model, handles := ∅ }

end Table

end ModelHost.Download
