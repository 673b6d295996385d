import ModelHost.Proofs.Completion.Renewal
import ModelHost.Proofs.Traverse

/-!
Embeddings. An input is embedded exactly if its text makes at least one token and no more than the
window holds, the cleared context takes them in as one batch, and the vector that it then offers is
wide enough. Where the tokens do not fit, the context is not called. Only the joined text of an
input counts, not how it is cut into several.
-/

namespace ModelHost.TextVector

variable {M C : Type}

namespace Input

def texts : Input → List String
  | .single text => [text]
  | .batch texts => texts

theorem toList_text (input : Input) : input.text.toList = input.texts.flatMap String.toList := by
  cases input with
  | single text => simp [Input.text, texts]
  | batch list => simp [Input.text, texts]

structure Fits (input : Input) (inference : Inference M C) (model : M) (context : C)
    (tokens : List Token) : Prop where
  tokenized : inference.tokenize model input.text = .ok tokens
  nonempty : tokens ≠ []
  room : tokens.length ≤ (inference.window context).toNat

structure Passes (input : Input) (inference : Inference M C) (model : M) (context : C)
    (tokens : List Token) : Prop where
  tokenized : inference.tokenize model input.text = .ok tokens
  nonempty : tokens ≠ []
  room : heldLength tokens ≤ (inference.window context).toNat

theorem Fits.passes {inference : Inference M C} {model : M} {context : C} {tokens : List Token}
    {input : Input} (h : input.Fits inference model context tokens) :
    input.Passes inference model context tokens :=
  ⟨h.tokenized, h.nonempty, Nat.le_trans (Nat.mod_le _ _) h.room⟩

end Input

variable {inference : Inference M C} {model : M} {name : String} {input : Input} {context : C}
  {tokens : List Token}

theorem vectorOf_eq_ok_iff {width : Nat} {vector : List Single} :
    vectorOf inference name width context = .ok vector ↔
      ∃ values, inference.vector context = some values ∧ width ≤ values.length ∧
        vector = values.take width := by
  unfold vectorOf
  cases inference.vector context with
  | none => simp
  | some values =>
    by_cases hshort : values.length < width
    · simp [hshort, Nat.not_le_of_lt hshort]
    · simp [hshort, Nat.le_of_not_lt hshort, eq_comm]

section Passes

variable (h : input.Passes inference model context tokens)

include h

theorem Input.Passes.free : ¬ inference.window context < UInt32.ofNat tokens.length := by
  rw [UInt32.lt_iff_toNat_lt, toNat_ofNat_length]
  exact Nat.not_lt_of_le h.room

theorem run_of_refused {cause : Cause} {taken : C}
    (hdecode : inference.decode (inference.clear context) (Batch.ofPrompt tokens) =
      (.error cause, taken)) :
    run inference model name input context =
      ⟨taken, .error (.decode cause), [.clear, .decode (Batch.ofPrompt tokens)]⟩ := by
  obtain ⟨first, more, rfl⟩ := List.exists_cons_of_ne_nil h.nonempty
  simp only [run, h.tokenized, if_neg h.free, hdecode]

theorem run_of_taken {taken : C}
    (hdecode : inference.decode (inference.clear context) (Batch.ofPrompt tokens) =
      (.ok (), taken)) :
    run inference model name input context =
      ⟨taken, (vectorOf inference name (inference.width model) taken).map fun vector =>
        ⟨name, vector, UInt32.ofNat tokens.length⟩, [.clear, .decode (Batch.ofPrompt tokens)]⟩ := by
  obtain ⟨first, more, rfl⟩ := List.exists_cons_of_ne_nil h.nonempty
  simp only [run, h.tokenized, if_neg h.free, hdecode]

theorem calls_of_passes :
    (run inference model name input context).calls = [.clear, .decode (Batch.ofPrompt tokens)] := by
  rcases hdecode : inference.decode (inference.clear context) (Batch.ofPrompt tokens) with
    ⟨cause | ⟨⟩, taken⟩
  · rw [run_of_refused h hdecode]
  · rw [run_of_taken h hdecode]

end Passes

theorem calls_of_fits (h : input.Fits inference model context tokens) :
    (run inference model name input context).calls = [.clear, .decode (Batch.ofPrompt tokens)] :=
  calls_of_passes h.passes

theorem run_kept_out (name : String)
    (h : ∀ tokens, ¬ input.Passes inference model context tokens) :
    ∃ failure, run inference model name input context = ⟨context, .error failure, []⟩ := by
  unfold run
  split
  next => exact ⟨_, rfl⟩
  next => exact ⟨_, rfl⟩
  next tokens hne htokens =>
    have hlong : inference.window context < UInt32.ofNat tokens.length := by
      rw [UInt32.lt_iff_toNat_lt, toNat_ofNat_length]
      exact Nat.lt_of_not_le fun hroom => h tokens ⟨htokens, by simpa using hne, hroom⟩
    exact ⟨_, if_pos hlong⟩

theorem run_early (name : String)
    (hword : ∀ tokens, inference.tokenize model input.text = .ok tokens →
      tokens.length < UInt32.size)
    (h : ∀ tokens, ¬ input.Fits inference model context tokens) :
    ∃ failure, run inference model name input context = ⟨context, .error failure, []⟩ := by
  apply run_kept_out name
  intro tokens hpasses
  refine h tokens ⟨hpasses.tokenized, hpasses.nonempty, ?_⟩
  rw [← heldLength_eq (hword tokens hpasses.tokenized)]
  exact hpasses.room

/-- What an embedding comes to is decided by whether the tokens fit, by the one batch that the
cleared context takes in, and by the vector that it offers then. -/
theorem result_eq_ok_iff
    (hword : ∀ tokens, inference.tokenize model input.text = .ok tokens →
      tokens.length < UInt32.size)
    (response : Response) :
    (run inference model name input context).result = .ok response ↔
      ∃ tokens taken values, input.Fits inference model context tokens ∧
        inference.decode (inference.clear context) (Batch.ofPrompt tokens) = (.ok (), taken) ∧
        inference.vector taken = some values ∧ inference.width model ≤ values.length ∧
        response = ⟨name, values.take (inference.width model), UInt32.ofNat tokens.length⟩ := by
  constructor
  · intro hresult
    obtain ⟨tokens, hfits⟩ : ∃ tokens, input.Fits inference model context tokens := by
      refine Classical.byContradiction fun hnone => ?_
      obtain ⟨failure, hrun⟩ := run_early name hword fun tokens hfits =>
        hnone ⟨tokens, hfits⟩
      rw [hrun] at hresult
      cases hresult
    rcases hdecode : inference.decode (inference.clear context) (Batch.ofPrompt tokens) with
      ⟨cause | ⟨⟩, taken⟩
    · rw [run_of_refused hfits.passes hdecode] at hresult
      cases hresult
    · rw [run_of_taken hfits.passes hdecode] at hresult
      obtain ⟨vector, hvector, rfl⟩ := map_eq_ok_iff.mp hresult
      obtain ⟨values, hvalues, hwide, rfl⟩ := vectorOf_eq_ok_iff.mp hvector
      exact ⟨tokens, taken, values, hfits, hdecode, hvalues, hwide, rfl⟩
  · rintro ⟨tokens, taken, values, hfits, hdecode, hvalues, hwide, rfl⟩
    rw [run_of_taken hfits.passes hdecode]
    exact map_eq_ok_iff.mpr ⟨_, vectorOf_eq_ok_iff.mpr ⟨values, hvalues, hwide, rfl⟩, rfl⟩

/-- An embedding comes to the first values of the vector that the cleared context offers once it has
taken in the tokens as one batch, which fits the window and keeps only the logits of its end. If the
tokens do not fit the context is not called, and how a text is cut into several does not count. -/
theorem run_embeds (inference : Inference M C) (model : M) (name : String) (input : Input)
    (context : C)
    (hword : ∀ tokens, inference.tokenize model input.text = .ok tokens →
      tokens.length < UInt32.size) :
    let run := run inference model name
    let Fits := input.Fits inference model context
    (∀ response, (run input context).result = .ok response ↔
      ∃ tokens taken values, Fits tokens ∧
        inference.decode (inference.clear context) (Batch.ofPrompt tokens) = (.ok (), taken) ∧
        inference.vector taken = some values ∧ inference.width model ≤ values.length ∧
        response.model = name ∧ response.vector = values.take (inference.width model) ∧
        response.promptTokens.toNat = tokens.length) ∧
      (run input context).context = inference.after context (run input context).calls ∧
      (∀ tokens, Fits tokens →
        (run input context).calls = [.clear, .decode (Batch.ofPrompt tokens)] ∧
        (Batch.ofPrompt tokens).Holds tokens 0 ∧
        (Batch.ofPrompt tokens).Continues (inference.window context) 0) ∧
      ((∀ tokens, ¬ Fits tokens) → (run input context).calls = []) ∧
      ∀ other : Input,
        other.texts.flatMap String.toList = input.texts.flatMap String.toList →
          run other context = run input context := by
  intro run Fits
  refine ⟨?_, context_run .., ?_, ?_, ?_⟩
  · intro response
    refine (result_eq_ok_iff hword response).trans ?_
    refine exists_congr fun tokens => exists_congr fun taken => exists_congr fun values => ?_
    refine and_congr_right fun hfits => and_congr_right fun _ => and_congr_right fun _ =>
      and_congr_right fun _ => ?_
    have hcount := toNat_length hfits.room
    obtain ⟨model, vector, promptTokens⟩ := response
    simp only [Response.mk.injEq, ← UInt32.toNat_inj, hcount]
  · intro tokens hfits
    exact ⟨calls_of_fits hfits,
      Batch.holds_ofPrompt hfits.nonempty
        (Nat.lt_of_le_of_lt hfits.room (UInt32.toNat_lt_size _)),
      Batch.continues_ofPrompt hfits.room⟩
  · intro hnone
    obtain ⟨failure, hrun⟩ := run_early name hword hnone
    exact congrArg Run.calls hrun
  · intro other hother
    have htext : other.text = input.text := by
      apply String.toList_injective
      rw [Input.toList_text, Input.toList_text, hother]
    show TextVector.run .. = TextVector.run ..
    unfold TextVector.run
    rw [htext]

/-- A program that offers vectors of three numbers, of which a model has two. -/
def wideInference : Inference Unit Ledger :=
  { Ledger.inference with
    width := fun _ => 2
    vector := fun l => l.session.latest.map fun _ => [.one, .zero, .one] }

theorem run_embeds_full_window :
    let used : Ledger := ⟨⟨3, some (Batch.ofPrompt [1, 2, 3])⟩, 7⟩
    let run := run wideInference () "m"
    (∀ tokens, wideInference.tokenize () (Input.batch ["ab", "", "cd"]).text = .ok tokens →
      tokens.length < UInt32.size) ∧
      (Input.batch ["ab", "", "cd"]).Fits wideInference () used [97, 98, 99, 100] ∧
      (run (.batch ["ab", "", "cd"]) used).result = .ok ⟨"m", [.one, .zero], 4⟩ ∧
      (run (.batch ["ab", "", "cd"]) used).calls =
        [.clear, .decode (Batch.ofPrompt [97, 98, 99, 100])] ∧
      run (.single "abcd") used = run (.batch ["ab", "", "cd"]) used := by
  intro used run
  have htokens : wideInference.tokenize () (Input.batch ["ab", "", "cd"]).text =
      .ok [97, 98, 99, 100] := rfl
  have hword : ∀ tokens, wideInference.tokenize () (Input.batch ["ab", "", "cd"]).text =
      .ok tokens → tokens.length < UInt32.size := by
    intro tokens h
    cases htokens.symm.trans h
    decide
  have hfits : (Input.batch ["ab", "", "cd"]).Fits wideInference () used [97, 98, 99, 100] :=
    ⟨htokens, by decide, by decide⟩
  have hadmits : (wideInference.clear used).session.Admits 4
      (.decode (Batch.ofPrompt [97, 98, 99, 100])) := by decide +kernel
  obtain ⟨hresult, -, hcalls, -, hsplit⟩ :=
    run_embeds wideInference () "m" (.batch ["ab", "", "cd"]) used hword
  exact ⟨hword, hfits,
    (hresult _).mpr ⟨_, _, _, hfits, Ledger.take_of_admits hadmits, rfl, by decide, rfl, rfl, rfl⟩,
    (hcalls _ hfits).1, hsplit (.single "abcd") (by decide)⟩

end ModelHost.TextVector
