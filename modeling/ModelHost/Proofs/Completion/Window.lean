import ModelHost.Proofs.Completion.Counts

/-!
A run keeps to the window of its context. Every batch it gives the context goes on where the one
before it ended and stays in the window; logits are asked for only where they are kept; and no count
wraps around, however large the window is. So a context that does all that is in order can not be
what a run fails for.
-/

namespace ModelHost.Completion

variable {M C : Type}

/-- For prompts whose length is a word, the calls of a run are in order if it gets to any, and they
are all that happens to the context. -/
theorem run_in_window (inference : Inference M C) (model : M) (outputLimit : UInt32) (r : Request)
    (context : C) (htokens : ∀ tokens, inference.tokenize model r.prompt = .ok tokens →
      tokens.length < UInt32.size) :
    let run := run inference model outputLimit r context
    run.context = inference.after context run.calls ∧
      (∀ prompt, r.Fits inference model outputLimit context prompt →
        ∃ text, run.Takes (inference.window context) prompt text) ∧
      ((∀ prompt, ¬ r.Fits inference model outputLimit context prompt) → run.calls = []) ∧
      runExactly inference model outputLimit r context = some run ∧
      (inference.Serves context →
        ∀ failure, run.result = .error failure → failure.ofContext = false) := by
  intro run
  refine ⟨context_run inference model outputLimit r context, fun prompt hfits => hfits.takes, ?_,
    runExactly_eq htokens, ?_⟩
  · intro hnone
    obtain ⟨result, hrun, -⟩ := run_early htokens hnone
    exact congrArg Run.calls hrun
  · intro hserves failure hfailed
    by_cases hfits : ∃ prompt, r.Fits inference model outputLimit context prompt
    · obtain ⟨prompt, hfits⟩ := hfits
      exact hfits.served hserves hfailed
    · obtain ⟨result, hrun, hresult⟩ := run_early htokens (not_exists.mp hfits)
      exact hresult failure ((congrArg Run.result hrun).symm.trans hfailed)

def ledgerRequest : Request := { prompt := "abc" }

theorem run_in_window_full :
    let run := run Ledger.inference () 8 ledgerRequest {}
    (∀ tokens, Ledger.inference.tokenize () ledgerRequest.prompt = .ok tokens →
        tokens.length < UInt32.size) ∧
      Ledger.inference.Serves {} ∧
      ledgerRequest.Fits Ledger.inference () 8 {} [97, 98, 99] ∧
      run.calls = [.clear, .decode (Batch.ofPrompt [97, 98, 99]), .logits 2,
        .decode (Batch.ofToken 1 3), .logits 0] ∧
      run.sampled = [1, 1] ∧
      (∃ text, run.Takes 4 [97, 98, 99] text) ∧
      runExactly Ledger.inference () 8 ledgerRequest {} = some run ∧
      ∀ failure, run.result = .error failure → failure.ofContext = false := by
  intro run
  have htokens : ∀ tokens, Ledger.inference.tokenize () ledgerRequest.prompt = .ok tokens →
      tokens.length < UInt32.size := by
    rintro tokens ⟨⟩
    decide
  have hfits : ledgerRequest.Fits Ledger.inference () 8 {} [97, 98, 99] :=
    ⟨by decide, rfl, by simp, by decide⟩
  obtain ⟨-, htakes, -, hexactly, hserved⟩ :=
    run_in_window Ledger.inference () 8 ledgerRequest {} htokens
  exact ⟨htokens, Ledger.serves {}, hfits, by decide +kernel, by decide +kernel,
    htakes _ hfits, hexactly, hserved (Ledger.serves {})⟩

end ModelHost.Completion
