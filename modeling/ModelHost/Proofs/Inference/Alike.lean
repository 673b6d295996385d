import ModelHost.Proofs.Inference.Session

/-!
Contexts that cannot be told apart. A context shows its window, its logits, its vector, and whether
it takes in a batch. Two contexts are alike if they show the same and go on to do so, whatever is
called of both of them.
-/

namespace ModelHost

namespace Inference

variable {M C : Type} (inference : Inference M C)

structure SameView (c c' : C) : Prop where
  window : inference.window c = inference.window c'
  decode : ∀ b, (inference.decode c b).1 = (inference.decode c' b).1
  logits : ∀ index, inference.logits c index = inference.logits c' index
  vector : inference.vector c = inference.vector c'

def Alike (c c' : C) : Prop :=
  ∀ calls, inference.SameView (inference.after c calls) (inference.after c' calls)

variable {inference} {c c' c'' : C}

namespace SameView

theorem symm (h : inference.SameView c c') : inference.SameView c' c where
  window := h.window.symm
  decode b := (h.decode b).symm
  logits index := (h.logits index).symm
  vector := h.vector.symm

theorem trans (h : inference.SameView c c') (h' : inference.SameView c' c'') :
    inference.SameView c c'' where
  window := h.window.trans h'.window
  decode b := (h.decode b).trans (h'.decode b)
  logits index := (h.logits index).trans (h'.logits index)
  vector := h.vector.trans h'.vector

end SameView

namespace Alike

theorem now (h : inference.Alike c c') : inference.SameView c c' := h []

theorem symm (h : inference.Alike c c') : inference.Alike c' c := fun calls => (h calls).symm

theorem trans (h : inference.Alike c c') (h' : inference.Alike c' c'') : inference.Alike c c'' :=
  fun calls => (h calls).trans (h' calls)

theorem afterCall (h : inference.Alike c c') (call : Call) :
    inference.Alike (inference.afterCall c call) (inference.afterCall c' call) :=
  fun calls => h (call :: calls)

theorem decode (h : inference.Alike c c') {b : Batch} {result : Except Cause Unit} {taken : C}
    (hdecode : inference.decode c b = (result, taken)) :
    ∃ taken', inference.decode c' b = (result, taken') ∧ inference.Alike taken taken' := by
  have hresult := h.now.decode b
  have htaken := h.afterCall (.decode b)
  rw [hdecode] at hresult
  simp only [Inference.afterCall, hdecode] at htaken
  exact ⟨(inference.decode c' b).2, Prod.ext hresult.symm rfl, htaken⟩

end Alike

variable (inference)

/-- What a context is made for: the window stays, and one that is cleared, whatever was called of it
before, is like a fresh one. -/
structure Renewable (fresh : C) : Prop where
  window : ∀ calls, inference.window (inference.after fresh calls) = inference.window fresh
  clear : ∀ calls, inference.Alike (inference.clear (inference.after fresh calls)) fresh

end Inference

namespace Ledger

theorem alike_of_session {l l' : Ledger} (h : l.session = l'.session) :
    inference.Alike l l' := by
  intro calls
  induction calls generalizing l l' with
  | nil =>
    constructor
    · rfl
    · intro b
      simp only [Inference.after_nil, inference, take, h]
      split <;> rfl
    · intro index
      simp only [Inference.after_nil, inference, h]
    · simp only [Inference.after_nil, inference, h]
  | cons call calls ih =>
    apply ih
    cases call with
    | clear => rfl
    | logits => exact h
    | decode b =>
      simp only [Inference.afterCall, inference, take, h]
      split <;> rfl

theorem renewable : inference.Renewable {} where
  window _ := rfl
  clear _ := alike_of_session rfl

end Ledger

end ModelHost
