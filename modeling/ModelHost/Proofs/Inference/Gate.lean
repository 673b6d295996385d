import ModelHost.Proofs.Completion.Spending
import ModelHost.Proofs.TextVector

/-!
The gate before a context. A text gets past it by its length as far as 32 bits hold it: what is too
long by that measure is refused before the context is called, and anything else is taken in whole.
For a text of fewer than `2 ^ 32` tokens the measure is its length. A longer one gets past if what
is left of its length fits, and is then counted by what is left.
-/

namespace ModelHost

/-- What a run does with a text of some tokens that it takes for so long, and that has to leave
places of a window spare: it fails without a call if there is no room, takes in the whole text if
there is, and counts it as that long in its result. -/
structure Gated {E A : Type} (window : UInt32) (spare length : Nat) (tokens : List Token)
    (count : A → UInt32) (calls : List Call) (result : Except E A) : Prop where
  keptOut : tokens = [] ∨ window.toNat < length + spare →
    calls = [] ∧ ∃ failure, result = .error failure
  letIn : tokens ≠ [] → length + spare ≤ window.toNat →
    ∃ later, calls = .clear :: .decode (Batch.ofPrompt tokens) :: later
  counted : ∀ a, result = .ok a → (count a).toNat = length

section Gated

variable {E A : Type} {window : UInt32} {spare length : Nat} {tokens : List Token}
  {count : A → UInt32} {calls : List Call} {result : Except E A}

private theorem Gated.of_letIn (hsome : tokens ≠ []) (hroom : length + spare ≤ window.toNat)
    (hcalls : ∃ later, calls = .clear :: .decode (Batch.ofPrompt tokens) :: later)
    (hcount : ∀ a, result = .ok a → (count a).toNat = length) :
    Gated window spare length tokens count calls result where
  keptOut := by
    rintro (hnone | hlong)
    · exact absurd hnone hsome
    · omega
  letIn _ _ := hcalls
  counted := hcount

private theorem Gated.of_keptOut (hfull : ¬ (tokens ≠ [] ∧ length + spare ≤ window.toNat))
    (failure : E) :
    Gated window spare length tokens count [] (.error failure : Except E A) where
  keptOut _ := ⟨rfl, failure, rfl⟩
  letIn hsome hroom := absurd ⟨hsome, hroom⟩ hfull
  counted _ h := by cases h

end Gated

variable {M C : Type} {inference : Inference M C} {model : M} {context : C} {tokens : List Token}

namespace Completion

variable {outputLimit : UInt32} {r : Request}

theorem Request.Passes.calls (h : r.Passes inference model outputLimit context tokens) :
    ∃ later, (run inference model outputLimit r context).calls =
      .clear :: .decode (Batch.ofPrompt tokens) :: later := by
  rw [h.run_eq]
  dsimp only
  split
  next => exact ⟨[], rfl⟩
  next => exact ⟨_, rfl⟩

theorem Request.Passes.promptTokens (h : r.Passes inference model outputLimit context tokens)
    {outcome : Outcome} (hok : (run inference model outputLimit r context).result = .ok outcome) :
    outcome.promptTokens.toNat = heldLength tokens := by
  rw [h.run_eq] at hok
  dsimp only at hok
  split at hok
  next => cases hok
  next => rw [(answer_counts hok).1, toNat_ofNat_length]

theorem gated (context : C) (hbudget : r.budget outputLimit ≠ 0)
    (htokens : inference.tokenize model r.prompt = .ok tokens) :
    let run := run inference model outputLimit r context
    Gated (inference.window context) 1 (heldLength tokens) tokens Outcome.promptTokens run.calls
      run.result := by
  by_cases hpasses : r.Passes inference model outputLimit context tokens
  · exact .of_letIn hpasses.nonempty hpasses.room hpasses.calls fun _ => hpasses.promptTokens
  · have hnone : ∀ prompt, ¬ r.Passes inference model outputLimit context prompt := by
      intro prompt h
      obtain rfl := Except.ok.inj (htokens.symm.trans h.tokenized)
      exact hpasses h
    obtain ⟨result, hrun, hfailed, -⟩ := run_kept_out hnone
    obtain ⟨failure, rfl⟩ := hfailed hbudget
    dsimp only
    rw [hrun]
    exact .of_keptOut (fun ⟨hsome, hroom⟩ => hpasses ⟨hbudget, htokens, hsome, hroom⟩) failure

end Completion

namespace TextVector

variable {name : String} {input : Input}

theorem Input.Passes.promptTokens (h : input.Passes inference model context tokens)
    {response : Response} (hok : (run inference model name input context).result = .ok response) :
    response.promptTokens.toNat = heldLength tokens := by
  rcases hdecode : inference.decode (inference.clear context) (Batch.ofPrompt tokens) with
    ⟨cause | ⟨⟩, taken⟩
  · rw [run_of_refused h hdecode] at hok
    cases hok
  · rw [run_of_taken h hdecode] at hok
    obtain ⟨vector, -, rfl⟩ := map_eq_ok_iff.mp hok
    exact toNat_ofNat_length tokens

theorem gated (name : String) (context : C)
    (htokens : inference.tokenize model input.text = .ok tokens) :
    let run := run inference model name input context
    Gated (inference.window context) 0 (heldLength tokens) tokens Response.promptTokens run.calls
      run.result := by
  by_cases hpasses : input.Passes inference model context tokens
  · exact .of_letIn hpasses.nonempty hpasses.room ⟨[], calls_of_passes hpasses⟩ fun _ =>
      hpasses.promptTokens
  · have hnone : ∀ text, ¬ input.Passes inference model context text := by
      intro text h
      obtain rfl := Except.ok.inj (htokens.symm.trans h.tokenized)
      exact hpasses h
    obtain ⟨failure, hrun⟩ := run_kept_out name hnone
    dsimp only
    rw [hrun]
    exact .of_keptOut (fun ⟨hsome, hroom⟩ => hpasses ⟨htokens, hsome, hroom⟩) failure

end TextVector

/-- Whatever its length, a text is let in or kept out by what 32 bits hold of it, and counted by
that. A text of fewer than `2 ^ 32` tokens is so by its own length; of a window, a prompt has to
leave one place spare and a text to embed none. -/
theorem gated_by_held_length (inference : Inference M C) (model : M) (context : C)
    (tokens : List Token) :
    (∀ outputLimit (r : Completion.Request), r.budget outputLimit ≠ 0 →
      inference.tokenize model r.prompt = .ok tokens →
        let run := Completion.run inference model outputLimit r context
        let TakenFor := fun length => Gated (inference.window context) 1 length tokens
          Completion.Outcome.promptTokens run.calls run.result
        TakenFor (heldLength tokens) ∧ (tokens.length < UInt32.size → TakenFor tokens.length)) ∧
    ∀ name (input : TextVector.Input), inference.tokenize model input.text = .ok tokens →
      let run := TextVector.run inference model name input context
      let TakenFor := fun length => Gated (inference.window context) 0 length tokens
        TextVector.Response.promptTokens run.calls run.result
      TakenFor (heldLength tokens) ∧ (tokens.length < UInt32.size → TakenFor tokens.length) := by
  refine ⟨fun outputLimit r hbudget htokens => ?_, fun name input htokens => ?_⟩
  · have hgated := Completion.gated context hbudget htokens
    refine ⟨hgated, fun hshort => ?_⟩
    rw [heldLength_eq hshort] at hgated
    exact hgated
  · have hgated := TextVector.gated name context htokens
    refine ⟨hgated, fun hshort => ?_⟩
    rw [heldLength_eq hshort] at hgated
    exact hgated

def lenientInference : Inference Unit Unit where
  tokenize _ text := .ok (text.toList.map fun c => Int32.ofNat c.toNat)
  piece _ _ := .ok []
  endToken _ := 0
  width _ := 1
  window _ := 4
  clear _ := ()
  decode _ _ := (.ok (), ())
  logits _ _ := none
  vector _ := some [.one]

/-- A text of `2 ^ 32 + 1` tokens goes through as if it were one token long, although the window
holds four: it reaches the context, and is counted as one token. -/
theorem long_text_let_in :
    let text := String.ofList (List.replicate 4294967297 'a')
    let tokens : List Token := List.replicate 4294967297 97
    let prompted := Completion.run lenientInference () 8 { prompt := text } ()
    let embedded := TextVector.run lenientInference () "m" (.single text) ()
    lenientInference.tokenize () text = .ok tokens ∧ tokens.length = 4294967297 ∧
      lenientInference.window () = 4 ∧
      ¬ Gated 4 1 tokens.length tokens Completion.Outcome.promptTokens prompted.calls
        prompted.result ∧
      ¬ Gated 4 0 tokens.length tokens TextVector.Response.promptTokens embedded.calls
        embedded.result ∧
      (∃ later, prompted.calls = .clear :: .decode (Batch.ofPrompt tokens) :: later) ∧
      embedded.calls = [.clear, .decode (Batch.ofPrompt tokens)] ∧
      embedded.result = .ok ⟨"m", [.one], 1⟩ := by
  intro text tokens prompted embedded
  have hlength : tokens.length = 4294967297 := List.length_replicate
  have htokens : lenientInference.tokenize () text = .ok tokens := by
    refine congrArg Except.ok ?_
    rw [String.toList_ofList, List.map_replicate]
    rfl
  clear_value text tokens
  have hheld : heldLength tokens = 1 := by
    rw [heldLength, hlength]
    rfl
  have hsome : tokens ≠ [] := List.ne_nil_of_length_pos (by omega)
  have hprompt : Completion.Request.Passes { prompt := text } lenientInference () 8 () tokens :=
    ⟨show (8 : UInt32) ≠ 0 by decide, htokens, hsome, by rw [hheld]; decide⟩
  have hinput : (TextVector.Input.single text).Passes lenientInference () () tokens :=
    ⟨htokens, hsome, by rw [hheld]; decide⟩
  obtain ⟨later, hcalls⟩ : ∃ later, prompted.calls = _ := hprompt.calls
  have hembedded : embedded = ⟨(), .ok ⟨"m", [.one], UInt32.ofNat tokens.length⟩,
      [.clear, .decode (Batch.ofPrompt tokens)]⟩ := TextVector.run_of_taken hinput rfl
  have hcount : UInt32.ofNat tokens.length = 1 :=
    UInt32.toNat_inj.mp ((toNat_ofNat_length tokens).trans hheld)
  have hresult : embedded.result = .ok ⟨"m", [.one], 1⟩ := by rw [hembedded, hcount]
  refine ⟨htokens, hlength, rfl, fun h => ?_, fun h => ?_, ⟨later, hcalls⟩,
    congrArg TextVector.Run.calls hembedded, hresult⟩
  · have hnone := (h.keptOut (.inr (by rw [hlength]; decide))).1
    rw [hcalls] at hnone
    cases hnone
  · have hclaimed := h.counted _ hresult
    rw [hlength] at hclaimed
    exact absurd hclaimed (by decide)

end ModelHost
