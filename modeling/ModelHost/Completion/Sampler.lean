import ModelHost.Completion.Request
import ModelHost.Inference.Backend
import Std.Data.TreeMap

/-!
Choosing the next token. Tokens that were there before lose part of their logit; then the smallest
set of likely tokens with enough weight is kept; then the logits are divided by a temperature; of
what is left, the first token with the greatest logit is taken. Logits are compared in their total
order throughout, so there is a choice for any logits, NaNs included. The stages are written over
the operations on numbers that they take; the choice itself is made in single precision.
-/

namespace ModelHost

/-- The operations on numbers that choosing a token takes. -/
structure Arithmetic where
  ofCount : UInt32 → Single
  add : Single → Single → Single
  sub : Single → Single → Single
  mul : Single → Single → Single
  div : Single → Single → Single
  exp : Single → Single

def Arithmetic.single : Arithmetic where
  ofCount := Single.ofCount
  add := Single.add
  sub := Single.sub
  mul := Single.mul
  div := Single.div
  exp := Single.exp

namespace Completion

structure Candidate where
  token : Token
  logit : Single
deriving DecidableEq, Repr

structure Sampler where
  frequency : Single
  presence : Single
  topP : Option Single
  temperature : Option Single
  counts : Std.TreeMap Token UInt32

namespace Sampler

def ofRequest (r : Request) : Sampler where
  frequency := r.frequency.getD Single.zero
  presence := r.presence.getD Single.zero
  topP := r.topP
  temperature := r.temperature
  counts := ∅

def accept (s : Sampler) (token : Token) : Sampler :=
  { s with counts := s.counts.insert token (s.counts.getD token 0 + 1) }

def candidates (logits : List Single) : List Candidate :=
  logits.mapIdx fun i logit => ⟨Int32.ofNat i, logit⟩

/-- The candidates by falling logit, equal ones in the order they had. -/
def ranked (cs : List Candidate) : List Candidate :=
  cs.mergeSort fun a b => b.logit.rank ≤ a.logit.rank

def better (a b : Candidate) : Candidate := if a.logit.rank < b.logit.rank then b else a

/-- The first candidate with the greatest logit. -/
def best? : List Candidate → Option Candidate
  | [] => none
  | c :: rest => some (rest.foldl better c)

section Stages

variable (ops : Arithmetic)

def penalizedWith (s : Sampler) (c : Candidate) : Single :=
  match s.counts[c.token]? with
  | none => c.logit
  | some count =>
    ops.sub c.logit (ops.add (ops.mul (ops.ofCount count) s.frequency) s.presence)

def penalizeWith (s : Sampler) (cs : List Candidate) : List Candidate :=
  if s.frequency.isZero && s.presence.isZero then cs
  else cs.map fun c => { c with logit := s.penalizedWith ops c }

/-- How many weights it takes, added up one by one as parts of the total, to reach `p`. -/
def countToReachWith (p total : Single) : Single → List Single → Nat
  | _, [] => 0
  | sum, weight :: rest =>
    let sum := ops.add sum (ops.div weight total)
    if p.le sum then 1 else countToReachWith p total sum rest + 1

/-- Keeps the likeliest candidates whose weights together reach `p`, and at least one. -/
def keepTopWith (p : Single) (cs : List Candidate) : List Candidate :=
  if Single.one.le p then cs
  else
    match ranked cs with
    | [] => []
    | [c] => [c]
    | top :: rest =>
      let weights := (top :: rest).map fun c => ops.exp (ops.sub c.logit top.logit)
      let total := weights.foldl ops.add Single.zero
      (top :: rest).take (max (countToReachWith ops p total Single.zero weights) 1)

/-- Divides the logits; a temperature that is zero or less leaves the best candidate only. -/
def heatWith (temperature : Single) (cs : List Candidate) : List Candidate :=
  if temperature.le Single.zero then (best? cs).toList
  else cs.map fun c => { c with logit := ops.div c.logit temperature }

def remainingWith (s : Sampler) (logits : List Single) : List Candidate :=
  let cs := s.penalizeWith ops (candidates logits)
  let cs := match s.topP with
    | none => cs
    | some p => keepTopWith ops p cs
  match s.temperature with
  | none => cs
  | some temperature => heatWith ops temperature cs

def sampleWith (s : Sampler) (logits : List Single) : Option Token :=
  (best? (s.remainingWith ops logits)).map (·.token)

end Stages

def sample (s : Sampler) (logits : List Single) : Option Token := s.sampleWith .single logits

end Sampler

end Completion

end ModelHost
