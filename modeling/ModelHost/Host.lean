import ModelHost.Completion.Run
import ModelHost.Download.Table
import ModelHost.Settings
import ModelHost.Store
import ModelHost.TextVector

/-!
The host. It keeps at most one model resident, with the one context that was opened from it. A
request for another model looks it up, asks for its weights, lets go of the resident model and loads
the other one. Each operation gives its answer, the host afterwards, and what the program that runs
models has seen.
-/

namespace ModelHost

/-- The model that is loaded, with the descriptor it was loaded by and the file it came from. -/
structure Resident (M C : Type) where
  name : String
  descriptor : Descriptor
  weights : Path
  model : M
  context : C

structure Host (S M C : Type) where
  settings : Settings
  store : Store
  downloads : Download.Table
  state : S
  resident : Option (Resident M C)

inductive Event where
  | load (weights : Path) (gpuLayers : Option UInt32) (loaded : Bool)
  | openContext (weights : Path) (options : ContextOptions) (opened : Bool)
  | call (call : Call)
  | closeContext (weights : Path)
  | unload (weights : Path)
deriving DecidableEq, Repr

structure Reply (S M C α : Type) where
  answer : α
  host : Host S M C
  events : List Event

namespace Host

variable {S M C : Type}

def start (settings : Settings) (store : Store) (state : S) : Host S M C where
  settings
  store
  downloads := .start settings.modelsDirectory settings.client
  state
  resident := none

def residentName (host : Host S M C) : Option String := host.resident.map (·.name)

def releaseEvents : Option (Resident M C) → List Event
  | none => []
  | some r => [.closeContext r.weights, .unload r.weights]

def contextOptions (host : Host S M C) (d : Descriptor) : ContextOptions where
  window := d.window
  threads := .ofSetting host.settings.threads
  batchThreads := .ofSetting host.settings.threads
  vectors := d.mode = .embedding

def requestRecord (host : Host S M C) (disk : Disk) (now : Download.Stamp) (d : Descriptor) :
    Download.Record × Host S M C :=
  let (record, downloads) := host.downloads.request disk now d
  (record, { host with downloads })

/-- The file with the weights of a model. Only where there is no local one are the downloads
asked. -/
def weightsFor (host : Host S M C) (disk : Disk) (now : Download.Stamp) (d : Descriptor) :
    Except HostError Path × Host S M C :=
  match d.localFile with
  | some file => (.ok file, host)
  | none =>
    let (record, host) := host.requestRecord disk now d
    match record.status with
    | .completed => (.ok (record.file.getD (host.downloads.target d)), host)
    | .failed => (.error (.downloadFailed d.name record.errorText), host)
    | .inProgress | .notStarted => (.error (.stillDownloading d.name), host)

/-- Loads a model into the empty place of the resident one. -/
def install (b : Backend S M C) (host : Host S M C) (name : String) (d : Descriptor)
    (weights : Path) : Reply S M C (Except HostError Unit) :=
  let layers := host.settings.gpuLayers
  match b.load host.state weights layers with
  | (.error cause, state) =>
    { answer := .error (.loadFailed s!"{name} ({weights.text}): {cause.message}")
      host := { host with state }
      events := [.load weights layers false] }
  | (.ok model, state) =>
    let options := host.contextOptions d
    match b.openContext state model options with
    | (.error cause, state) =>
      { answer := .error (.loadFailed s!"Failed to create context for {name}: {cause.message}")
        host := { host with state }
        events :=
          [.load weights layers true, .openContext weights options false, .unload weights] }
    | (.ok context, state) =>
      { answer := .ok ()
        host := { host with state, resident := some ⟨name, d, weights, model, context⟩ }
        events := [.load weights layers true, .openContext weights options true] }

def makeResident (b : Backend S M C) (host : Host S M C) (disk : Disk) (now : Download.Stamp)
    (name : String) : Reply S M C (Except HostError Unit) :=
  if host.residentName = some name then ⟨.ok (), host, []⟩
  else
    match host.store.lookup name with
    | none => ⟨.error (.unknownModel name), host, []⟩
    | some d =>
      match host.weightsFor disk now d with
      | (.error error, host) => ⟨.error error, host, []⟩
      | (.ok weights, host) =>
        let reply := install b { host with resident := none } name d weights
        { reply with events := releaseEvents host.resident ++ reply.events }

def use (b : Backend S M C) (host : Host S M C) (disk : Disk) (now : Download.Stamp) (name : String)
    (refuse : HostError → α) (work : Resident M C → α × C × List Call) : Reply S M C α :=
  let reply := host.makeResident b disk now name
  match reply.answer, reply.host.resident with
  | .error error, _ => ⟨refuse error, reply.host, reply.events⟩
  | .ok (), none => ⟨refuse (.notResident name), reply.host, reply.events⟩
  | .ok (), some r =>
    let (answer, context, calls) := work r
    { answer
      host := { reply.host with resident := some { r with context } }
      events := reply.events ++ calls.map .call }

structure Stream where
  chunks : List String
  result : Except HostError Completion.Outcome

def stream (b : Backend S M C) (host : Host S M C) (disk : Disk) (now : Download.Stamp)
    (name : String) (r : Completion.Request) : Reply S M C Stream :=
  match r.check with
  | .error error => ⟨⟨[], .error error⟩, host, []⟩
  | .ok () =>
    host.use b disk now name (fun error => ⟨[], .error error⟩) fun resident =>
      let run := Completion.run b.toInference resident.model resident.descriptor.outputLimit r
        resident.context
      (⟨run.chunks, run.result.mapError fun failure => .noAnswer failure.message⟩, run.context,
        run.calls)

def complete (b : Backend S M C) (host : Host S M C) (disk : Disk) (now : Download.Stamp)
    (name : String) (r : Completion.Request) :
    Reply S M C (Except HostError Completion.Response) :=
  let reply := host.stream b disk now name r
  { reply with
    answer := reply.answer.result.map fun outcome =>
      { text := outcome.text
        model := name
        promptTokens := outcome.promptTokens
        outputTokens := outcome.outputTokens
        finish := outcome.finish } }

def completeText (b : Backend S M C) (host : Host S M C) (disk : Disk) (now : Download.Stamp)
    (name : String) (r : Completion.Request) : Reply S M C (Except HostError String) :=
  let reply := host.stream b disk now name r
  { reply with answer := reply.answer.result.map (·.text) }

def embed (b : Backend S M C) (host : Host S M C) (disk : Disk) (now : Download.Stamp)
    (name : String) (input : TextVector.Input) :
    Reply S M C (Except HostError TextVector.Response) :=
  host.use b disk now name .error fun resident =>
    let run := TextVector.run b.toInference resident.model name input resident.context
    (run.result.mapError fun failure => .noAnswer failure.message, run.context, run.calls)

def requestWeights (host : Host S M C) (disk : Disk) (now : Download.Stamp) (name : String) :
    Except HostError Download.Record × Host S M C :=
  match host.store.lookup name with
  | none => (.error (.unknownModel name), host)
  | some d =>
    let (record, host) := host.requestRecord disk now d
    (.ok record, host)

def release (host : Host S M C) : Reply S M C (Option String) :=
  ⟨host.residentName, { host with resident := none }, releaseEvents host.resident⟩

def shutdown (host : Host S M C) : Reply S M C Unit :=
  { answer := ()
    host := { host with resident := none, downloads := host.downloads.abandon }
    events := releaseEvents host.resident }

end Host

end ModelHost
