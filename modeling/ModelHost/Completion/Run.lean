import ModelHost.Completion.Trail

/-!
Completions. The context takes in the prompt as one batch, and the answer is sampled from there. A
prompt leaves room for at least one more token in the context; the last token of an answer takes no
room, so an answer can have one token more than there is room for.
-/

namespace ModelHost.Completion

structure Outcome where
  text : String
  promptTokens : UInt32
  outputTokens : UInt32
  finish : Finish
deriving DecidableEq, Repr

structure Run (C : Type) where
  context : C
  result : Except Failure Outcome
  chunks : List String
  sampled : List Token
  calls : List Call

variable {M C : Type} {m : Type → Type} [Monad m]

/-- A run that ends before the first token is sampled. -/
def Run.early (context : C) (result : Except Failure Outcome) (calls : List Call) : Run C :=
  ⟨context, result, [], [], calls⟩

def Request.budget (r : Request) (outputLimit : UInt32) : UInt32 :=
  match r.tokenLimit with
  | none => outputLimit
  | some limit => min limit outputLimit

def State.afterPrompt (r : Request) (tokens : List Token) (context : C) : State C where
  context
  sampler := tokens.foldl Sampler.accept (Sampler.ofRequest r)
  joiner := .start
  gate := .ofStops ((r.stops.getD []).map String.toList)
  index := tokens.length - 1
  position := UInt32.ofNat tokens.length
  spent := 0

def Trail.toRun (trail : Trail C) (promptTokens : UInt32) (calls : List Call) : Run C :=
  let (result, last) := trail.conclude
  let chunks := trail.chunks ++ last
  { context := trail.state.context
    result := result.map fun finish =>
      { text := String.join chunks, promptTokens, outputTokens := trail.state.spent, finish }
    chunks
    sampled := trail.sampled
    calls := calls ++ trail.calls }

def answerWith (counting : Counting m) (inference : Inference M C) (model : M)
    (budget promptTokens : UInt32) (start : State C) (calls : List Call) : m (Run C) := do
  let trail ← sampleTokensWith counting inference model budget.toNat start
  return trail.toRun promptTokens calls

def answer (inference : Inference M C) (model : M) (budget promptTokens : UInt32)
    (start : State C) (calls : List Call) : Run C :=
  Id.run (answerWith .wrapping inference model budget promptTokens start calls)

theorem answer_eq (inference : Inference M C) (model : M) (budget promptTokens : UInt32)
    (start : State C) (calls : List Call) :
    answer inference model budget promptTokens start calls =
      (sampleTokens inference model budget.toNat start).toRun promptTokens calls := rfl

def runWith (counting : Counting m) (inference : Inference M C) (model : M) (outputLimit : UInt32)
    (r : Request) (context : C) : m (Run C) :=
  let budget := r.budget outputLimit
  if budget = 0 then return Run.early context (.ok ⟨"", 0, 0, .length⟩) []
  else
    match inference.tokenize model r.prompt with
    | .error cause => return Run.early context (.error (.tokenize cause)) []
    | .ok [] => return Run.early context (.error .noTokens) []
    | .ok tokens =>
      let length := UInt32.ofNat tokens.length
      let window := inference.window context
      if window ≤ length then return Run.early context (.error (.tooLong length window)) []
      else do
        let left ← counting.sub window length
        let room ← counting.add left 1
        let calls := [Call.clear, .decode (Batch.ofPrompt tokens)]
        match inference.decode (inference.clear context) (Batch.ofPrompt tokens) with
        | (.error cause, context) => return Run.early context (.error (.takeIn cause)) calls
        | (.ok (), context) =>
          answerWith counting inference model (min budget room) length
            (State.afterPrompt r tokens context) calls

def run (inference : Inference M C) (model : M) (outputLimit : UInt32) (r : Request)
    (context : C) : Run C :=
  Id.run (runWith .wrapping inference model outputLimit r context)

end ModelHost.Completion
