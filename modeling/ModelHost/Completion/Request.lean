import ModelHost.HostError

/-! Requests for a completion: a prompt to continue, with the options of the continuation. -/

namespace ModelHost.Completion

structure Request where
  prompt : String
  tokenLimit : Option UInt32 := none
  temperature : Option Single := none
  topP : Option Single := none
  /-- What a token loses for each time it was there. -/
  frequency : Option Single := none
  /-- What a token loses for having been there at all. -/
  presence : Option Single := none
  stops : Option (List String) := none
deriving DecidableEq, Repr

namespace Request

def checkFinite (name : String) : Option Single → Except HostError Unit
  | none => .ok ()
  | some x => if x.isFinite then .ok () else .error (.badRequest s!"{name} must be finite")

def checkTopP : Option Single → Except HostError Unit
  | none => .ok ()
  | some p =>
    if Single.zero.le p && p.le Single.one then .ok ()
    else .error (.badRequest s!"top_p must be within [0, 1], got {p.text}")

def check (r : Request) : Except HostError Unit := do
  checkTopP r.topP
  checkFinite "temperature" r.temperature
  checkFinite "frequency_penalty" r.frequency
  checkFinite "presence_penalty" r.presence

def fieldNames : List String :=
  ["prompt", "max_tokens", "temperature", "top_p", "frequency_penalty", "presence_penalty", "stop"]

def ofJson? (json : Json) : Option Request :=
  match json.fields? fieldNames with
  | some [prompt, tokenLimit, temperature, topP, frequency, presence, stops] => do
    return {
      prompt := ← Json.required Json.string? prompt
      tokenLimit := ← Json.optional Json.uint32? tokenLimit
      temperature := ← Json.optional Json.single? temperature
      topP := ← Json.optional Json.single? topP
      frequency := ← Json.optional Json.single? frequency
      presence := ← Json.optional Json.single? presence
      stops := ← Json.optional (Json.list? Json.string?) stops }
  | _ => none

end Request

end ModelHost.Completion
