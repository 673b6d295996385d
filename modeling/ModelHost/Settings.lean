import ModelHost.Descriptor
import ModelHost.Disk.Basic
import ModelHost.Json.Reader
import ModelHost.Text.Basic
import ModelHost.Text.Utf8

/-!
The settings of a host. Fields that nobody sets have standard values; a file can give any of them,
and variables of the environment override four.
-/

namespace ModelHost

structure Environment where
  lookup : String → Option String
  home : Option String := none

/-- The environment with the given variables. One whose bytes are no text is as good as unset. -/
def Environment.ofVariables (vars : String → Option ByteArray) (home : Option String) :
    Environment where
  lookup name := (vars name).bind Text.Utf8.decodeText?
  home

def Environment.nonempty? (environment : Environment) (name : String) : Option String :=
  (environment.lookup name).filter (· ≠ "")

structure Settings where
  modelsDirectory : Path
  client : String := "0.1.0"
  threads : Option UInt32 := none
  gpuLayers : Option UInt32 := none
  downloadTimeout : UInt64 := 3600
  connectTimeout : UInt64 := 30
deriving DecidableEq, Repr

namespace Settings

def dataDirectory (environment : Environment) : Path :=
  match (environment.lookup "XDG_DATA_HOME").map Path.mk |>.filter Path.isRooted with
  | some directory => directory
  | none =>
    match environment.nonempty? "HOME" <|> environment.home with
    | some home => ((Path.mk home).join ⟨".local"⟩).join ⟨"share"⟩
    | none => ⟨"."⟩

def standardModelsDirectory (environment : Environment) : Path :=
  ((dataDirectory environment).join ⟨"local-llm-engine"⟩).join ⟨"models"⟩

def standard (environment : Environment) : Settings :=
  { modelsDirectory := standardModelsDirectory environment }

def keptIn (s : Settings) (directory : Path) : Settings :=
  { s with modelsDirectory := directory }

def forClient (s : Settings) (version : String) : Settings := { s with client := version }

def toJson (s : Settings) : Json :=
  .record
    [("models_dir", s.modelsDirectory.toJson),
     ("client_version", .ofString s.client),
     ("n_threads", .ofOption (fun n => .ofNat n.toNat) s.threads),
     ("n_gpu_layers", .ofOption (fun n => .ofNat n.toNat) s.gpuLayers),
     ("download_timeout_secs", .ofNat s.downloadTimeout.toNat),
     ("connect_timeout_secs", .ofNat s.connectTimeout.toNat)]

def fieldNames : List String :=
  ["models_dir", "client_version", "n_threads", "n_gpu_layers", "download_timeout_secs",
   "connect_timeout_secs"]

def ofJson? (standard : Settings) (json : Json) : Option Settings :=
  match json.fields? fieldNames with
  | some [directory, version, threads, layers, downloadTimeout, connectTimeout] => do
    return {
      modelsDirectory := ← Json.defaulted standard.modelsDirectory Path.ofJson? directory
      client := ← Json.defaulted standard.client Json.string? version
      threads := ← Json.optional Json.uint32? threads
      gpuLayers := ← Json.optional Json.uint32? layers
      downloadTimeout := ← Json.defaulted standard.downloadTimeout Json.uint64? downloadTimeout
      connectTimeout := ← Json.defaulted standard.connectTimeout Json.uint64? connectTimeout }
  | _ => none

inductive Failure where
  | unreadable (path : Path)
  | malformed (path : Path)
  | badThreads (value : String) (reason : Text.NumberError)
  | badGpuLayers (value : String) (reason : Text.NumberError)
deriving DecidableEq, Repr

def Failure.message : Failure → String
  | .unreadable path => s!"Failed to read config {path.text}"
  | .malformed path => s!"Failed to parse config {path.text}"
  | .badThreads value reason =>
    s!"LLM_ENGINE_THREADS must be a positive integer, got '{value}': {reason.message}"
  | .badGpuLayers value reason =>
    s!"LLM_ENGINE_GPU_LAYERS must be a non-negative integer, got '{value}': {reason.message}"

def load (standard : Settings) (disk : Disk) (path : Path) : Except Failure Settings :=
  match (disk.read path).toOption.bind Text.Utf8.decodeText? with
  | none => .error (.unreadable path)
  | some text =>
    match (Json.read? text).bind (ofJson? standard) with
    | none => .error (.malformed path)
    | some s => .ok s

def readCount (text : String) : Except Text.NumberError UInt32 :=
  (Text.readUnsigned UInt32.size (Text.trim text.toList)).map Nat.toUInt32

def overrideCount (current : Option UInt32) (setting : Option String)
    (refuse : String → Text.NumberError → Failure) : Except Failure (Option UInt32) :=
  match setting with
  | none => .ok current
  | some text =>
    match readCount text with
    | .ok n => .ok (some n)
    | .error reason => .error (refuse text reason)

def override (s : Settings) (environment : Environment) : Except Failure Settings := do
  let threads ←
    overrideCount s.threads (environment.nonempty? "LLM_ENGINE_THREADS") .badThreads
  let gpuLayers ←
    overrideCount s.gpuLayers (environment.nonempty? "LLM_ENGINE_GPU_LAYERS") .badGpuLayers
  return { s with
    modelsDirectory :=
      ((environment.nonempty? "LLM_ENGINE_MODELS_DIR").map Path.mk).getD s.modelsDirectory
    client := (environment.nonempty? "LLM_ENGINE_CLIENT_VERSION").getD s.client
    threads
    gpuLayers }

end Settings

end ModelHost
