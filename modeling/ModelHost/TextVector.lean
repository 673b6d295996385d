import ModelHost.Inference.Backend
import ModelHost.Json.Record

/-!
Embeddings. A text is taken in as one batch, and the vector that the context then offers is cut to
the width of the model. Several texts are joined and give one vector.
-/

namespace ModelHost.TextVector

inductive Input where
  | single (text : String)
  | batch (texts : List String)
deriving DecidableEq, Repr

namespace Input

def text : Input → String
  | .single text => text
  | .batch texts => String.join texts

def toJson : Input → Json
  | .single text => .ofString text
  | .batch texts => .ofList .ofString texts

def ofJson? : Json → Option Input
  | .string text => text.map .single
  | json => (json.list? Json.string?).map .batch

end Input

structure Response where
  model : String
  vector : List Single
  promptTokens : UInt32
deriving DecidableEq, Repr

def Response.ofJson? (json : Json) : Option Response :=
  match json.fields? ["model", "embedding", "prompt_tokens"] with
  | some [model, vector, promptTokens] => do
    return {
      model := ← Json.required Json.string? model
      vector := ← Json.required (Json.list? Json.single?) vector
      promptTokens := ← Json.required Json.uint32? promptTokens }
  | _ => none

inductive Failure where
  | tokenize (cause : Cause)
  | noTokens
  | tooLong (tokens : Nat) (window : UInt32)
  | decode (cause : Cause)
  | noVector (model : String)
  | tooShort (found expected : Nat)
deriving DecidableEq, Repr

def Failure.message : Failure → String
  | .tokenize cause => s!"Failed to tokenize input: {cause.message}"
  | .noTokens => "Input produced no tokens"
  | .tooLong tokens window =>
    s!"Input of {tokens} tokens does not fit the context window of {window}"
  | .decode cause => s!"Embedding decode failed: {cause.message}"
  | .noVector model => s!"{model} produced no embedding"
  | .tooShort found expected => s!"Embedding has {found} values, expected {expected}"

structure Run (C : Type) where
  context : C
  result : Except Failure Response
  calls : List Call

variable {M C : Type}

def vectorOf (inference : Inference M C) (name : String) (width : Nat) (context : C) :
    Except Failure (List Single) :=
  match inference.vector context with
  | none => .error (.noVector name)
  | some values =>
    if values.length < width then .error (.tooShort values.length width)
    else .ok (values.take width)

def run (inference : Inference M C) (model : M) (name : String) (input : Input) (context : C) :
    Run C :=
  match inference.tokenize model input.text with
  | .error cause => ⟨context, .error (.tokenize cause), []⟩
  | .ok [] => ⟨context, .error .noTokens, []⟩
  | .ok tokens =>
    let length := UInt32.ofNat tokens.length
    let window := inference.window context
    if window < length then ⟨context, .error (.tooLong tokens.length window), []⟩
    else
      let calls := [Call.clear, .decode (Batch.ofPrompt tokens)]
      match inference.decode (inference.clear context) (Batch.ofPrompt tokens) with
      | (.error cause, context) => ⟨context, .error (.decode cause), calls⟩
      | (.ok (), context) =>
        let result := (vectorOf inference name (inference.width model) context).map fun vector =>
          { model := name, vector, promptTokens := length }
        ⟨context, result, calls⟩

end ModelHost.TextVector
