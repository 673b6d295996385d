import ModelHost.Completion.Response
import ModelHost.Completion.Sampler
import ModelHost.Inference.Backend
import ModelHost.Text.Stops
import ModelHost.Text.Utf8

/-!
The tokens of an answer. One token after the other is sampled, spelled out and taken in, until the
model ends the text, a stop text appears, or no token is left to spend. The last token is never
taken in. Text is handed on in chunks while it grows; what has been handed on stays valid when a
later call fails. Counts are words, and what is sampled is written once for every way to count with
them; answers are made with words that wrap around.
-/

namespace ModelHost.Completion

inductive Failure where
  | tokenize (cause : Cause)
  | noTokens
  | tooLong (tokens window : UInt32)
  | takeIn (cause : Cause)
  | noLogits (index : Nat)
  | emptyLogits
  | spell (token : Token) (cause : Cause)
  | decode (position : UInt32) (cause : Cause)
deriving DecidableEq, Repr

def Failure.message : Failure → String
  | .tokenize cause => s!"Failed to tokenize prompt: {cause.message}"
  | .noTokens => "Prompt produced no tokens"
  | .tooLong tokens window =>
    s!"Prompt of {tokens} tokens does not fit the context window of {window}"
  | .takeIn cause => s!"Prompt decode failed: {cause.message}"
  | .noLogits index => s!"No logits for batch index {index}"
  | .emptyLogits => "Empty logits vector"
  | .spell token cause => s!"Failed to detokenize {token}: {cause.message}"
  | .decode position cause => s!"Decode failed at pos {position}: {cause.message}"

/-- A way to add counts, which are words, and to take one from another. -/
structure Counting (m : Type → Type) where
  add : UInt32 → UInt32 → m UInt32
  sub : UInt32 → UInt32 → m UInt32

def Counting.wrapping : Counting Id where
  add a b := a + b
  sub a b := a - b

/-- Where an answer stands between two tokens. -/
structure State (C : Type) where
  context : C
  sampler : Sampler
  joiner : Text.Joiner
  gate : Text.StopGate
  /-- The entry of the last batch that has the logits. -/
  index : Nat
  position : UInt32
  spent : UInt32

inductive Ending where
  /-- A stop text appeared; nothing that is held is handed on. -/
  | stopped
  /-- The model ended the text, or no token was left to spend; what is held still counts. -/
  | ended (finish : Finish)
  | failed (failure : Failure)
deriving DecidableEq, Repr

/-- What a stretch of an answer leaves behind: where it stands at its end, and in their order the
chunks it handed on, the tokens it sampled and the calls it made. -/
structure Trail (C : Type) where
  state : State C
  ending : Ending
  chunks : List String
  sampled : List Token
  calls : List Call

/-- A text as it is handed on; an empty one is not. -/
def chunk (ready : List Char) : List String :=
  if ready = [] then [] else [String.ofList ready]

variable {M C : Type} {m : Type → Type} [Monad m]

namespace State

def pick (inference : Inference M C) (s : State C) : Except Failure Token :=
  match inference.logits s.context s.index with
  | none => .error (.noLogits s.index)
  | some logits =>
    match s.sampler.sample logits with
    | none => .error .emptyLogits
    | some token => .ok token

def accept (s : State C) (token : Token) : State C :=
  { s with sampler := s.sampler.accept token }

def spellWith (counting : Counting m) (s : State C) (bytes : List UInt8) :
    m (Text.Passage × State C) := do
  let (fragment, joiner) := s.joiner.push bytes
  let (passage, gate) := s.gate.push fragment
  let spent ← counting.add s.spent 1
  return (passage, { s with joiner, gate, spent })

def feedWith (counting : Counting m) (inference : Inference M C) (s : State C) (token : Token) :
    m (Except Failure Unit × State C) :=
  match inference.decode s.context (Batch.ofToken token s.position) with
  | (.error cause, context) => return (.error (.decode s.position cause), { s with context })
  | (.ok (), context) => do
    let position ← counting.add s.position 1
    return (.ok (), { s with context, position, index := 0 })

def spell (s : State C) (bytes : List UInt8) : Text.Passage × State C :=
  Id.run (s.spellWith .wrapping bytes)

def feed (inference : Inference M C) (s : State C) (token : Token) :
    Except Failure Unit × State C :=
  Id.run (s.feedWith .wrapping inference token)

/-- What is left to hand on at the end of an answer that no stop text ended. -/
def flush (s : State C) : Text.Passage :=
  match s.gate.push s.joiner.finish with
  | (.onward ready, gate) => .onward (ready ++ gate.finish)
  | (.closed ready, _) => .closed ready

end State

def sampleTokensWith (counting : Counting m) (inference : Inference M C) (model : M) :
    Nat → State C → m (Trail C)
  | 0, s => return ⟨s, .ended .length, [], [], []⟩
  | left + 1, s =>
    let asked := Call.logits s.index
    match s.pick inference with
    | .error failure => return ⟨s, .failed failure, [], [], [asked]⟩
    | .ok token =>
      let s := s.accept token
      if token = inference.endToken model then return ⟨s, .ended .stop, [], [token], [asked]⟩
      else
        match inference.piece model token with
        | .error cause => return ⟨s, .failed (.spell token cause), [], [token], [asked]⟩
        | .ok bytes => do
          match ← s.spellWith counting bytes with
          | (.closed ready, s) => return ⟨s, .stopped, chunk ready, [token], [asked]⟩
          | (.onward ready, s) =>
            if left = 0 then return ⟨s, .ended .length, chunk ready, [token], [asked]⟩
            else
              let fed := Call.decode (Batch.ofToken token s.position)
              match ← s.feedWith counting inference token with
              | (.error failure, s) =>
                return ⟨s, .failed failure, chunk ready, [token], [asked, fed]⟩
              | (.ok (), s) =>
                let rest ← sampleTokensWith counting inference model left s
                return { rest with
                  chunks := chunk ready ++ rest.chunks
                  sampled := token :: rest.sampled
                  calls := asked :: fed :: rest.calls }

def sampleTokens (inference : Inference M C) (model : M) (left : Nat) (s : State C) : Trail C :=
  Id.run (sampleTokensWith .wrapping inference model left s)

/-- What a trail comes to, with the chunks that are handed on at its end. -/
def Trail.conclude (trail : Trail C) : Except Failure Finish × List String :=
  match trail.ending with
  | .failed failure => (.error failure, [])
  | .stopped => (.ok .stop, [])
  | .ended finish =>
    match trail.state.flush with
    | .onward ready => (.ok finish, chunk ready)
    | .closed ready => (.ok .stop, chunk ready)

end ModelHost.Completion
