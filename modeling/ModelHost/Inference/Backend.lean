import ModelHost.Number.Single
import ModelHost.Path

/-!
What a host asks of the program that runs models. Loading weights gives a model, a model opens
contexts, and a context takes in batches and keeps the logits and the vector of the last one. Every
entry of a batch has a place in the sequence and says whether the context shall keep its logits.
Models of type `M` do not change; contexts of type `C` change with every call; `S` is what the
program itself keeps from one load to the next.
-/

namespace ModelHost

abbrev Token := Int32

structure Batch.Entry where
  token : Token
  position : UInt32
  scored : Bool
deriving DecidableEq, Repr

structure Batch where
  entries : List Batch.Entry
deriving DecidableEq, Repr

namespace Batch

/-- Tokens from position zero on, with logits for the last one. -/
def ofPrompt (tokens : List Token) : Batch :=
  let count := tokens.length
  ⟨tokens.mapIdx fun i token => ⟨token, UInt32.ofNat i, i + 1 = count⟩⟩

def ofToken (token : Token) (position : UInt32) : Batch := ⟨[⟨token, position, true⟩]⟩

def size (b : Batch) : Nat := b.entries.length

def isEmpty (b : Batch) : Bool := b.entries.isEmpty

theorem size_ofPrompt (tokens : List Token) : (ofPrompt tokens).size = tokens.length := by
  simp [ofPrompt, size]

end Batch

/-- Why a call failed: what was tried, then what stopped it, down to the first cause. -/
structure Cause where
  chain : List String
deriving DecidableEq, Repr

def Cause.message (c : Cause) : String := ": ".intercalate c.chain

inductive ThreadCount where
  | fixed (count : UInt32)
  | machine
deriving DecidableEq, Repr

/-- Zero threads are as good as none asked for. -/
def ThreadCount.ofSetting : Option UInt32 → ThreadCount
  | none => .machine
  | some count => if count = 0 then .machine else .fixed count

structure ContextOptions where
  window : UInt32
  threads : ThreadCount
  batchThreads : ThreadCount
  vectors : Bool
deriving DecidableEq, Repr

structure Inference (M C : Type) where
  tokenize : M → String → Except Cause (List Token)
  piece : M → Token → Except Cause (List UInt8)
  endToken : M → Token
  /-- How many numbers an embedding of the model has. -/
  width : M → Nat
  window : C → UInt32
  clear : C → C
  decode : C → Batch → Except Cause Unit × C
  logits : C → Nat → Option (List Single)
  vector : C → Option (List Single)

structure Backend (S M C : Type) extends Inference M C where
  load : S → Path → Option UInt32 → Except Cause M × S
  openContext : S → M → ContextOptions → Except Cause C × S

inductive Call where
  | clear
  | decode (batch : Batch)
  | logits (index : Nat)
deriving DecidableEq, Repr

end ModelHost
