import ModelHost.Json.Record
import ModelHost.Path

/-!
Model descriptors: what a model is called, what it is for, how large its window and its answers may
be, and where its weights are or can be fetched from.
-/

namespace ModelHost

inductive Mode where
  | chat
  | embedding
deriving DecidableEq, Repr

namespace Mode

def name : Mode → String
  | .chat => "chat"
  | .embedding => "embedding"

def toJson (m : Mode) : Json := .ofString m.name

def ofJson? : Json → Option Mode :=
  Json.choice? [("chat", .chat), ("embedding", .embedding)]

end Mode

structure Source where
  url : String
  digest : Option String := none
  /-- Where the weights are kept, if not in the directory for all models. -/
  cacheFile : Option Path := none
deriving DecidableEq, Repr

def Path.toJson (p : Path) : Json := .ofString p.text

def Path.ofJson? (json : Json) : Option Path := json.string?.map Path.mk

namespace Source

def toJson (s : Source) : Json :=
  .record
    [("url", .ofString s.url),
     ("sha256", .ofOption .ofString s.digest),
     ("cache_path", .ofOption Path.toJson s.cacheFile)]

def ofJson? (json : Json) : Option Source :=
  match json.fields? ["url", "sha256", "cache_path"] with
  | some [url, digest, cacheFile] => do
    return {
      url := ← Json.required Json.string? url
      digest := ← Json.optional Json.string? digest
      cacheFile := ← Json.optional Path.ofJson? cacheFile }
  | _ => none

end Source

structure Descriptor where
  name : String
  mode : Mode := .chat
  window : UInt32 := 4096
  outputLimit : UInt32 := 1024
  localFile : Option Path := none
  source : Option Source := none
  oldestClient : Option String := none
  newestClient : Option String := none
deriving DecidableEq, Repr

namespace Descriptor

def ofName (name : String) : Descriptor := { name }

def storedAt (d : Descriptor) (file : Path) : Descriptor := { d with localFile := some file }

def fetchedFrom (d : Descriptor) (url : String) (digest : Option String) : Descriptor :=
  { d with source := some { url, digest } }

/-- Changes nothing where there is nothing to fetch. -/
def cachedAt (d : Descriptor) (file : Path) : Descriptor :=
  { d with source := d.source.map fun source => { source with cacheFile := some file } }

def limitedTo (d : Descriptor) (window outputLimit : UInt32) : Descriptor :=
  { d with window, outputLimit }

def usedFor (d : Descriptor) (mode : Mode) : Descriptor := { d with mode }

def forClients (d : Descriptor) (oldest newest : Option String) : Descriptor :=
  { d with oldestClient := oldest, newestClient := newest }

def expectedDigest (d : Descriptor) : Option String := d.source.bind (·.digest)

def toJson (d : Descriptor) : Json :=
  .record
    [("name", .ofString d.name),
     ("mode", d.mode.toJson),
     ("context_window", .ofNat d.window.toNat),
     ("max_output_tokens", .ofNat d.outputLimit.toNat),
     ("local_path", .ofOption Path.toJson d.localFile),
     ("download", .ofOption Source.toJson d.source),
     ("min_client_version", .ofOption .ofString d.oldestClient),
     ("max_client_version", .ofOption .ofString d.newestClient)]

def fieldNames : List String :=
  ["name", "mode", "context_window", "max_output_tokens", "local_path", "download",
   "min_client_version", "max_client_version"]

def ofJson? (json : Json) : Option Descriptor :=
  match json.fields? fieldNames with
  | some [name, mode, window, outputLimit, localFile, source, oldest, newest] => do
    return {
      name := ← Json.required Json.string? name
      mode := ← Json.defaulted .chat Mode.ofJson? mode
      window := ← Json.defaulted 4096 Json.uint32? window
      outputLimit := ← Json.defaulted 1024 Json.uint32? outputLimit
      localFile := ← Json.optional Path.ofJson? localFile
      source := ← Json.optional Source.ofJson? source
      oldestClient := ← Json.optional Json.string? oldest
      newestClient := ← Json.optional Json.string? newest }
  | _ => none

end Descriptor

end ModelHost
