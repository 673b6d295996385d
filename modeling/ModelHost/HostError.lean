import ModelHost.Json.Record

/-! What a host reports when it cannot do what it was asked for. -/

namespace ModelHost

inductive HostError where
  | unknownModel (model : String)
  | stillDownloading (model : String)
  | downloadFailed (model reason : String)
  | loadFailed (reason : String)
  | notResident (model : String)
  | noAnswer (reason : String)
  | badRequest (reason : String)
  | badSetup (reason : String)
deriving DecidableEq, Repr

namespace HostError

def message : HostError → String
  | .unknownModel model => s!"Model not found: {model}"
  | .stillDownloading model => s!"Model is downloading: {model}"
  | .downloadFailed model reason => s!"Download failed for {model}: {reason}"
  | .loadFailed reason => s!"Failed to load model: {reason}"
  | .notResident model => s!"Model not loaded: {model}"
  | .noAnswer reason => s!"Generation failed: {reason}"
  | .badRequest reason => s!"Invalid request: {reason}"
  | .badSetup reason => s!"Configuration error: {reason}"

/-- Says whether the same call can succeed later without anyone stepping in. -/
def canRetry : HostError → Bool
  | .stillDownloading _ => true
  | _ => false

def kind : HostError → String
  | .unknownModel _ => "ModelNotFound"
  | .stillDownloading _ => "ModelDownloading"
  | .downloadFailed _ _ => "ModelDownloadFailed"
  | .loadFailed _ => "ModelLoadFailed"
  | .notResident _ => "ModelNotLoaded"
  | .noAnswer _ => "GenerationFailed"
  | .badRequest _ => "InvalidRequest"
  | .badSetup _ => "Config"

def payload : HostError → Json
  | .unknownModel text | .stillDownloading text | .loadFailed text | .notResident text
  | .noAnswer text | .badRequest text | .badSetup text => .ofString text
  | .downloadFailed model reason =>
    .record [("model", .ofString model), ("reason", .ofString reason)]

def toJson (e : HostError) : Json := .record [(e.kind, e.payload)]

def downloadFailedOfJson? (json : Json) : Option HostError :=
  match json.fields? ["model", "reason"] with
  | some [model, reason] => do
    return .downloadFailed (← Json.required Json.string? model)
      (← Json.required Json.string? reason)
  | _ => none

def ofJson? (json : Json) : Option HostError := do
  let (kind, payload) ← json.onlyMember?
  match kind with
  | "ModelNotFound" => payload.string?.map .unknownModel
  | "ModelDownloading" => payload.string?.map .stillDownloading
  | "ModelDownloadFailed" => downloadFailedOfJson? payload
  | "ModelLoadFailed" => payload.string?.map .loadFailed
  | "ModelNotLoaded" => payload.string?.map .notResident
  | "GenerationFailed" => payload.string?.map .noAnswer
  | "InvalidRequest" => payload.string?.map .badRequest
  | "Config" => payload.string?.map .badSetup
  | _ => none

end HostError

end ModelHost
