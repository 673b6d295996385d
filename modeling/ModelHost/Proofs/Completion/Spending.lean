import ModelHost.Proofs.Completion.Counts
import ModelHost.Proofs.Completion.Output

/-!
What an answer spends. Every token that is sampled counts but the one that ends the text, and no
more are sampled than may be spent. An answer is said to end for its length exactly if it has spent
all of that and neither the model nor a stop text has ended it, the text that is flushed at its end
included.
-/

namespace ModelHost.Completion

variable {M C : Type} {inference : Inference M C} {model : M}

structure Trail.Spends (endToken : Token) (left : Nat) (s : State C) (trail : Trail C) : Prop where
  spent : trail.state.spent.toNat =
    s.spent.toNat + (trail.sampled.filter (· ≠ endToken)).length
  within : trail.sampled.length ≤ left
  length : trail.ending = .ended .length → trail.sampled.length = left ∧ endToken ∉ trail.sampled
  stop : trail.ending = .ended .stop → endToken ∈ trail.sampled

private theorem State.toNat_spent {s spelt : State C} {token : Token} {bytes : List UInt8}
    {passage : Text.Passage} (hspell : (s.accept token).spell bytes = (passage, spelt)) {left : Nat}
    (h : s.spent.toNat + (left + 1) < UInt32.size) : spelt.spent.toNat = s.spent.toNat + 1 := by
  rw [(spell_keeps hspell).2.2]
  exact toNat_add_one (by simp only [accept]; omega)

theorem sampleTokens_spends (left : Nat) (s : State C) (hspent : s.spent.toNat + left < UInt32.size)
    (hend : ∀ failure, (sampleTokens inference model left s).ending ≠ .failed failure) :
    (sampleTokens inference model left s).Spends (inference.endToken model) left s := by
  -- A turn takes one from `left` and adds one to what is spent, so `hspent` keeps the count a word.
  induction left, s using sampleTokens_induction inference model with
  | spent => exact ⟨rfl, Nat.le_refl 0, fun _ => ⟨rfl, List.not_mem_nil⟩, by simp⟩
  | unpicked | unspelt | unfed => exact absurd rfl (hend _)
  | ended _ _ _ _ hlast =>
    exact ⟨by simp [hlast]; rfl, by simp, by simp, fun _ => List.mem_singleton.mpr hlast.symm⟩
  | stopped _ _ _ _ _ _ _ hmore _ hspell =>
    exact ⟨by simp [State.toNat_spent hspell hspent, hmore], by simp, by simp, by simp⟩
  | last _ _ _ _ _ _ hmore _ hspell =>
    exact ⟨by simp [State.toNat_spent hspell hspent, hmore], by simp,
      fun _ => ⟨rfl, by simpa using Ne.symm hmore⟩, by simp⟩
  | turn _ s _ _ _ _ fed _ hmore _ hspell _ hfeed rest ih =>
    have hcount := State.toNat_spent hspell hspent
    rw [← (State.feed_ok hfeed).2.2] at hcount
    have hrest := ih (by omega) hend
    refine ⟨?_, Nat.succ_le_succ hrest.within, ?_, ?_⟩
    · have hlater : rest.state.spent.toNat = fed.spent.toNat +
          (rest.sampled.filter (· ≠ inference.endToken model)).length := hrest.spent
      rw [List.filter_cons_of_pos (by simpa using hmore), List.length_cons]
      change rest.state.spent.toNat = _
      omega
    · intro hended
      obtain ⟨hall, hnone⟩ := hrest.length hended
      exact ⟨congrArg Nat.succ hall, by simpa [Ne.symm hmore] using hnone⟩
    · exact fun hended => List.mem_cons_of_mem _ (hrest.stop hended)

theorem Trail.Spends.ending_eq {endToken : Token} {left : Nat} {s : State C} {trail : Trail C}
    (h : trail.Spends endToken left s) (hend : ∀ failure, trail.ending ≠ .failed failure)
    (hopen : trail.ending ≠ .stopped) (hmore : endToken ∉ trail.sampled) :
    trail.ending = .ended .length := by
  cases hending : trail.ending with
  | stopped => exact absurd hending hopen
  | failed failure => exact absurd hending (hend failure)
  | ended finish =>
    cases finish with
    | length => rfl
    | stop => exact absurd (h.stop hending) hmore

namespace Trail.Passes

variable {stops : List (List Char)} {s : State C} {trail : Trail C} {pieces : List (List UInt8)}
  {readies : List (List Char)} (h : trail.Passes inference model s pieces readies)
  (hjoiner : s.joiner = .start) (hgate : s.gate = .ofStops stops)

include h hjoiner hgate

private theorem ending_ne_stopped
    (hnone : ∀ i, ¬ Text.StopAt stops (Text.Joiner.fragments pieces).flatten i) :
    trail.ending ≠ .stopped := by
  intro hstopped
  obtain ⟨i, hcut, -⟩ := h.cutAt_of_stopped hjoiner hgate hstopped
  exact hnone i hcut.stopAt_flatten

private theorem finish_eq_length_iff_ending {finish : Finish} {last : List String}
    (hconclude : trail.conclude = (.ok finish, last)) :
    finish = .length ↔ trail.ending = .ended .length ∧
      ∀ i, ¬ Text.StopAt stops (Text.Joiner.fragments pieces).flatten i := by
  unfold Trail.conclude at hconclude
  split at hconclude
  next => simp at hconclude
  next hstopped =>
    obtain rfl := Except.ok.inj (Prod.mk.inj hconclude).1
    simp [hstopped]
  next hended =>
    have hopen : trail.ending ≠ .stopped := by simp [hended]
    split at hconclude
    next ready hflush =>
      obtain rfl := Except.ok.inj (Prod.mk.inj hconclude).1
      have hnone := (h.flush_onward hjoiner hgate hopen hflush).2
        (Text.Joiner.fragments pieces).length
      rw [List.take_length] at hnone
      simp [hended, hnone]
    next ready hflush =>
      obtain rfl := Except.ok.inj (Prod.mk.inj hconclude).1
      obtain ⟨i, hcut, -⟩ := h.flush_closed hjoiner hgate hopen hflush
      constructor
      · nofun
      · exact fun ⟨_, hnone⟩ => absurd hcut.stopAt_flatten (hnone i)

theorem finish_eq_length_iff {left : Nat}
    (hspends : trail.Spends (inference.endToken model) left s) {finish : Finish}
    {last : List String} (hconclude : trail.conclude = (.ok finish, last)) :
    finish = .length ↔ trail.sampled.length = left ∧ inference.endToken model ∉ trail.sampled ∧
      ∀ i, ¬ Text.StopAt stops (Text.Joiner.fragments pieces).flatten i := by
  rw [h.finish_eq_length_iff_ending hjoiner hgate hconclude]
  constructor
  · rintro ⟨hended, hnone⟩
    obtain ⟨hall, hmore⟩ := hspends.length hended
    exact ⟨hall, hmore, hnone⟩
  · rintro ⟨-, hmore, hnone⟩
    have hopen := h.ending_ne_stopped hjoiner hgate hnone
    exact ⟨hspends.ending_eq (Trail.ending_ne_failed hconclude) hopen hmore, hnone⟩

end Trail.Passes

theorem answer_counts {budget promptTokens : UInt32} {start : State C} {calls : List Call}
    {outcome : Outcome}
    (h : (answer inference model budget promptTokens start calls).result = .ok outcome) :
    outcome.promptTokens = promptTokens ∧
      outcome.outputTokens = (sampleTokens inference model budget.toNat start).state.spent := by
  obtain ⟨finish, -, rfl⟩ := map_eq_ok_iff.mp h
  exact ⟨rfl, rfl⟩

theorem exists_trail_of_run {outputLimit : UInt32} {r : Request} {context : C} {outcome : Outcome}
    (htokens : ∀ tokens, inference.tokenize model r.prompt = .ok tokens →
      tokens.length < UInt32.size) (hbudget : r.budget outputLimit ≠ 0)
    (hrun : (run inference model outputLimit r context).result = .ok outcome) :
    ∃ prompt taken last, r.Fits inference model outputLimit context prompt ∧
      let trail := sampleTokens inference model
        (r.allowance outputLimit (inference.window context) prompt).toNat
        (State.afterPrompt r prompt taken)
      (run inference model outputLimit r context).sampled = trail.sampled ∧
        trail.conclude = (.ok outcome.finish, last) ∧
        outcome.promptTokens.toNat = prompt.length ∧
        outcome.outputTokens = trail.state.spent := by
  obtain ⟨prompt, taken, htokenized, hnonempty, hfree, -, hanswer⟩ := run_eq_answer hbudget hrun
  have hlength : (UInt32.ofNat prompt.length).toNat = prompt.length :=
    UInt32.toNat_ofNat_of_lt' (htokens prompt htokenized)
  rw [UInt32.lt_iff_toNat_lt, hlength] at hfree
  rw [hanswer] at hrun ⊢
  obtain ⟨finish, last, hconclude, -, rfl, -⟩ := answer_ok hrun
  obtain ⟨hprompt, hspent⟩ := answer_counts hrun
  exact ⟨prompt, taken, last, ⟨hbudget, htokenized, hnonempty, hfree⟩, rfl, hconclude,
    by rw [hprompt, hlength], hspent⟩

theorem Request.toNat_budget (r : Request) (outputLimit : UInt32) :
    (r.budget outputLimit).toNat =
      r.tokenLimit.elim outputLimit.toNat fun limit => min limit.toNat outputLimit.toNat := by
  unfold budget
  cases r.tokenLimit with
  | none => rfl
  | some limit => exact toNat_min limit outputLimit

theorem Request.toNat_budget_eq_zero_iff {r : Request} {outputLimit : UInt32} :
    (r.budget outputLimit).toNat = 0 ↔ r.budget outputLimit = 0 := by
  rw [← UInt32.toNat_zero, UInt32.toNat_inj]

/-- A request with no tokens to spend comes to nothing, whatever it is asked of. Any other counts
the tokens of its prompt and of its answer, which are no more than there is room for, and ends for
its length exactly if it has sampled all of them and neither the model nor a stop text ends it. -/
theorem run_spending (inference : Inference M C) (model : M) (outputLimit : UInt32) (r : Request)
    (context : C) (htokens : ∀ tokens, inference.tokenize model r.prompt = .ok tokens →
      tokens.length < UInt32.size) :
    let run := Completion.run inference model outputLimit r context
    let tokens := run.sampled.filter (· ≠ inference.endToken model)
    let stops := (r.stops.getD []).map String.toList
    let budget := r.tokenLimit.elim outputLimit.toNat fun limit => min limit.toNat outputLimit.toNat
    (budget = 0 → ∀ other : Inference M C, Completion.run other model outputLimit r context =
      Run.early context (.ok ⟨"", 0, 0, .length⟩) []) ∧
    (budget ≠ 0 → ∀ outcome, run.result = .ok outcome →
      ∃ prompt pieces, inference.tokenize model r.prompt = .ok prompt ∧
        tokens.mapM (inference.piece model) = .ok pieces ∧
        let window := (inference.window context).toNat
        let limit := min budget (window - prompt.length + 1)
        prompt.length < window ∧ outcome.promptTokens.toNat = prompt.length ∧
          outcome.outputTokens.toNat = tokens.length ∧ tokens.length ≤ limit ∧
          (outcome.finish = .length ↔ run.sampled.length = limit ∧
            inference.endToken model ∉ run.sampled ∧
            ∀ i, ¬ Text.StopAt stops (Text.Joiner.fragments pieces).flatten i) ∧
          (outcome.finish = .length → outcome.outputTokens.toNat = limit)) := by
  intro run tokens stops budget
  have hlimit : (r.budget outputLimit).toNat = budget := r.toNat_budget outputLimit
  have hzero : budget = 0 ↔ r.budget outputLimit = 0 := by
    rw [← hlimit, Request.toNat_budget_eq_zero_iff]
  constructor
  · intro hbudget other
    unfold Completion.run runWith
    simp only [if_pos (hzero.mp hbudget)]
    rfl
  intro hbudget outcome hrun
  obtain ⟨prompt, taken, last, hfits, hsampled, hconclude, hprompt, hspent⟩ :=
    exists_trail_of_run htokens (mt hzero.mpr hbudget) hrun
  have hend := Trail.ending_ne_failed hconclude
  obtain ⟨pieces, readies, hpasses⟩ := sampleTokens_passes _ _ hend
  have hspends := sampleTokens_spends _ _ (hfits.bounded taken).spent hend
  have hlength := hpasses.finish_eq_length_iff rfl rfl hspends hconclude
  have hwithin := hspends.within
  have hcount : outcome.outputTokens.toNat = tokens.length := by
    have hstart : (State.afterPrompt r prompt taken).spent.toNat = 0 := rfl
    rw [hspent, hspends.spent, hstart, Nat.zero_add, ← hsampled]
  rw [← hsampled, hfits.toNat_allowance, hlimit] at hwithin hlength
  refine ⟨prompt, pieces, hfits.tokenized, ?_, hfits.room, hprompt, hcount,
    Nat.le_trans (List.length_filter_le _ _) hwithin, hlength, ?_⟩
  · simpa only [← hsampled] using hpasses.spelt
  · intro hfinish
    obtain ⟨hall, hmore, -⟩ := hlength.mp hfinish
    have hself : tokens = run.sampled := by
      apply List.filter_eq_self.mpr
      intro token hmem
      exact decide_eq_true fun htoken => hmore (htoken ▸ hmem)
    rw [hcount, hself, hall]

/-- The last token that may be spent leaves the start of a stop text, which is flushed. -/
theorem run_spending_cut_short :
    let run := run cutting () 2 cuttingRequest 0
    (∀ tokens, cutting.tokenize () cuttingRequest.prompt = .ok tokens →
        tokens.length < UInt32.size) ∧
      cuttingRequest.tokenLimit.elim 2 (fun limit => min limit.toNat 2) ≠ 0 ∧
      run.result = .ok ⟨"aéE", 1, 2, .length⟩ ∧
      ∃ prompt pieces, cutting.tokenize () cuttingRequest.prompt = .ok prompt ∧
        (run.sampled.filter (· ≠ 0)).mapM (cutting.piece ()) = .ok pieces ∧
        run.sampled.length = min 2 (16 - prompt.length + 1) ∧ 0 ∉ run.sampled ∧
        ∀ i, ¬ Text.StopAt ["END".toList, []] (Text.Joiner.fragments pieces).flatten i := by
  intro run
  have htokens : ∀ tokens, cutting.tokenize () cuttingRequest.prompt = .ok tokens →
      tokens.length < UInt32.size := by
    rintro tokens ⟨⟩
    decide
  have hbudget : cuttingRequest.tokenLimit.elim 2 (fun limit => min limit.toNat 2) ≠ 0 := by decide
  have hoption : run.result.toOption = some ⟨"aéE", 1, 2, .length⟩ := by decide +kernel
  have hrun : run.result = .ok ⟨"aéE", 1, 2, .length⟩ := by
    cases hresult : run.result with
    | error failure => simp [hresult, Except.toOption] at hoption
    | ok outcome =>
      rw [hresult] at hoption
      rw [Option.some.inj hoption]
  obtain ⟨prompt, pieces, hprompt, hpieces, -, -, -, -, hlength, -⟩ :=
    (run_spending cutting () 2 cuttingRequest 0 htokens).2 hbudget _ hrun
  exact ⟨htokens, hbudget, hrun, prompt, pieces, hprompt, hpieces, hlength.mp rfl⟩

end ModelHost.Completion
