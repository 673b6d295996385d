import ModelHost.Json.Record

/-! Answers to requests for a completion. -/

namespace ModelHost.Completion

inductive Finish where
  | stop
  | length
deriving DecidableEq, Repr

namespace Finish

def name : Finish → String
  | .stop => "stop"
  | .length => "length"

def toJson (f : Finish) : Json := .ofString f.name

def ofJson? : Json → Option Finish :=
  Json.choice? [("stop", .stop), ("length", .length)]

end Finish

structure Response where
  text : String
  model : String
  promptTokens : UInt32
  outputTokens : UInt32
  finish : Finish
deriving DecidableEq, Repr

namespace Response

def toJson (r : Response) : Json :=
  .record
    [("content", .ofString r.text),
     ("model", .ofString r.model),
     ("prompt_tokens", .ofNat r.promptTokens.toNat),
     ("completion_tokens", .ofNat r.outputTokens.toNat),
     ("finish_reason", r.finish.toJson)]

def fieldNames : List String :=
  ["content", "model", "prompt_tokens", "completion_tokens", "finish_reason"]

def ofJson? (json : Json) : Option Response :=
  match json.fields? fieldNames with
  | some [text, model, promptTokens, outputTokens, finish] => do
    return {
      text := ← Json.required Json.string? text
      model := ← Json.required Json.string? model
      promptTokens := ← Json.required Json.uint32? promptTokens
      outputTokens := ← Json.required Json.uint32? outputTokens
      finish := ← Json.required Finish.ofJson? finish }
  | _ => none

end Response

end ModelHost.Completion
