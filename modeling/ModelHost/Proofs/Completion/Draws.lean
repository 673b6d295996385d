import ModelHost.Proofs.Completion.Counts
import ModelHost.Proofs.Completion.Selection

/-!
Where the tokens of an answer come from. Each is the choice of a sampler that has counted the prompt
and all tokens before it, by the logits that the context has for the last of them once it has taken
in just these, each at its own place. Whether a run comes to an answer or fails makes no difference.
-/

namespace ModelHost

structure Batch.ScoresLast (b : Batch) (index : Nat) : Prop where
  scored : b.scored = [index]
  last : index + 1 = b.size

theorem Batch.scoresLast_ofToken (token : Token) (position : UInt32) :
    (Batch.ofToken token position).ScoresLast 0 := ⟨rfl, rfl⟩

theorem Batch.scoresLast_ofPrompt {tokens : List Token} (h : tokens ≠ []) :
    (Batch.ofPrompt tokens).ScoresLast (tokens.length - 1) where
  scored := Batch.scored_ofPrompt h
  last := by
    rw [Batch.size_ofPrompt]
    exact Nat.sub_add_cancel (List.length_pos_iff.mpr h)

private theorem Batch.HoldEach.flatMap {batches : List Batch} {text : List Token} {place : Nat}
    (h : Batch.HoldEach batches text place) :
    (batches.flatMap (·.entries.map (·.token))) = text ∧
      (batches.flatMap (·.entries.map (·.position.toNat))) = List.range' place text.length := by
  induction h with
  | nil => exact ⟨rfl, rfl⟩
  | cons hfirst _ ih =>
    obtain ⟨htokens, hplaces⟩ := ih
    rw [List.flatMap_cons, List.flatMap_cons, hfirst.tokens, hfirst.places, htokens, hplaces]
    exact ⟨rfl, rfl⟩

namespace Inference

variable {M C : Type} (inference : Inference M C)

def DoesAll (context : C) : List Call → Prop
  | [] => True
  | call :: calls => inference.Does context call ∧ DoesAll (inference.afterCall context call) calls

/-- Says that some calls clear a context and have it take in a text, every token at its place, and
that the logits it keeps then are those of the last token, at an index of the last batch. -/
structure TakesIn (context : C) (calls : List Call) (text : List Token) (index : Nat) : Prop where
  done : inference.DoesAll context calls
  cleared : ∃ later, calls = .clear :: later ∧ .clear ∉ later
  tokens : (Call.batches calls).flatMap (·.entries.map (·.token)) = text
  places : (Call.batches calls).flatMap (·.entries.map (·.position.toNat)) = List.range text.length
  latest : ∃ b, (Call.batches calls).getLast? = some b ∧ b.ScoresLast index

end Inference

namespace Completion

variable {M C : Type} {inference : Inference M C} {model : M}

namespace State

private theorem sampler_turn {s spelt fed : State C} {token : Token} {bytes : List UInt8}
    {passage : Text.Passage} {result : Except Failure Unit}
    (hspell : (s.accept token).spell bytes = (passage, spelt))
    (hfeed : spelt.feed inference token = (result, fed)) :
    fed.sampler = s.sampler.accept token := by
  have hspelt : spelt.sampler = s.sampler.accept token := by
    obtain ⟨-, rfl⟩ := Prod.mk.inj hspell
    rfl
  exact (feed_keeps hfeed).1.trans hspelt

end State

theorem length_sampled_le (left : Nat) (s : State C) :
    (sampleTokens inference model left s).sampled.length ≤ left := by
  induction left, s using sampleTokens_induction inference model with
  | spent | unpicked => exact Nat.zero_le _
  | ended | unspelt | stopped | last | unfed => exact Nat.succ_le_succ (Nat.zero_le _)
  | turn _ _ _ _ _ _ _ _ _ _ _ _ _ _ ih => exact Nat.succ_le_succ ih

/-- Where a token comes from that a trail samples: what has been called of the context until then,
and the logits it was chosen by, at an index of the latest batch. -/
structure Trail.Draws (inference : Inference M C) (s : State C) (latest : Batch) (trail : Trail C)
    (before : List Token) (token : Token) (past : List Call) (index : Nat) (logits : List Single) :
    Prop where
  asked : past ++ [.logits index] <+: trail.calls
  done : inference.DoesAll s.context past
  uncleared : .clear ∉ past
  batches : Batch.HoldEach (Call.batches past) before s.position.toNat
  latest : ((Call.batches past).getLast?.getD latest).ScoresLast index
  given : inference.logits (inference.after s.context past) index = some logits
  chosen : (before.foldl Sampler.accept s.sampler).sample logits = some token

private theorem draws_first {s : State C} {latest : Batch} {trail : Trail C} {token : Token}
    (hlatest : latest.ScoresLast s.index) (hpick : s.pick inference = .ok token)
    (hcalls : [.logits s.index] <+: trail.calls) :
    ∃ past index logits, trail.Draws inference s latest [] token past index logits := by
  obtain ⟨logits, hlogits, hsample⟩ := State.pick_ok hpick
  exact ⟨[], s.index, logits, hcalls, trivial, by simp, .nil, hlatest, hlogits, hsample⟩

private theorem draws_only {s : State C} {latest : Batch} {trail : Trail C} {only token : Token}
    {k : Nat} (hlatest : latest.ScoresLast s.index) (hpick : s.pick inference = .ok only)
    (hsampled : trail.sampled = [only]) (hcalls : [.logits s.index] <+: trail.calls)
    (htoken : trail.sampled[k]? = some token) :
    ∃ past index logits,
      trail.Draws inference s latest (trail.sampled.take k) token past index logits := by
  rw [hsampled] at htoken ⊢
  obtain ⟨rfl, rfl⟩ : k = 0 ∧ only = token := by simpa [List.getElem?_singleton] using htoken
  exact draws_first hlatest hpick hcalls

private theorem Trail.Draws.turn {s spelt fed : State C} {latest : Batch} {rest trail : Trail C}
    {first token : Token} {before : List Token} {past : List Call} {index : Nat}
    {logits : List Single} {bytes : List UInt8} {passage : Text.Passage}
    (h : rest.Draws inference fed (Batch.ofToken first s.position) before token past index logits)
    (hpick : s.pick inference = .ok first)
    (hspell : (s.accept first).spell bytes = (passage, spelt))
    (hfeed : spelt.feed inference first = (.ok (), fed))
    (hplace : s.position.toNat + 1 < UInt32.size)
    (hcalls : trail.calls =
      .logits s.index :: .decode (Batch.ofToken first s.position) :: rest.calls) :
    trail.Draws inference s latest (first :: before) token
      (.logits s.index :: .decode (Batch.ofToken first s.position) :: past) index logits := by
  have hcontext : spelt.context = s.context := (State.spell_keeps hspell).1
  have hposition : spelt.position = s.position := (State.spell_keeps hspell).2.1
  have hfed := State.context_of_feed hfeed
  have hdoes := State.does_of_feed hfeed
  have hplaced := (State.feed_ok hfeed).1
  rw [hcontext, hposition] at hfed hdoes
  rw [hposition] at hplaced
  constructor
  · rw [hcalls]
    exact (List.prefix_cons_inj _).mpr ((List.prefix_cons_inj _).mpr h.asked)
  · exact ⟨State.does_of_pick hpick, hdoes, hfed ▸ h.done⟩
  · simpa using h.uncleared
  · have hrest := h.batches
    rw [hplaced, toNat_add_one hplace] at hrest
    exact .cons (Batch.holds_ofToken first s.position) hrest
  · rw [show Call.batches (.logits s.index :: .decode (Batch.ofToken first s.position) :: past) =
      Batch.ofToken first s.position :: Call.batches past from rfl, List.getLast?_cons]
    exact h.latest
  · have hgiven := h.given
    rw [hfed] at hgiven
    exact hgiven
  · have hchosen := h.chosen
    rw [State.sampler_turn hspell hfeed] at hchosen
    exact hchosen

theorem sampleTokens_draws {window : UInt32} {latest : Batch} (left : Nat) (s : State C)
    (hlatest : latest.ScoresLast s.index) (hroom : s.position.toNat + left ≤ window.toNat + 1)
    {k : Nat} {token : Token}
    (htoken : (sampleTokens inference model left s).sampled[k]? = some token) :
    ∃ past index logits, (sampleTokens inference model left s).Draws inference s latest
      ((sampleTokens inference model left s).sampled.take k) token past index logits := by
  induction left, s using sampleTokens_induction inference model generalizing k latest with
  | spent | unpicked => cases htoken
  | ended _ _ _ hpick | unspelt _ _ _ _ hpick | stopped _ _ _ _ _ _ hpick
  | last _ _ _ _ _ hpick =>
    exact draws_only hlatest hpick rfl (List.prefix_refl _) htoken
  | unfed _ _ _ _ _ _ _ _ hpick => exact draws_only hlatest hpick rfl ⟨_, rfl⟩ htoken
  | turn _ s first _ _ spelt fed hpick _ _ hspell hleft hfeed rest ih =>
    cases k with
    | zero =>
      obtain rfl : first = token := by simpa using htoken
      exact draws_first hlatest hpick ⟨_, rfl⟩
    | succ k =>
      have hplace : s.position < window := UInt32.lt_iff_toNat_lt.mpr (by omega)
      have hword := add_one_lt_size hplace
      obtain ⟨hplaced, hindex, -⟩ := State.feed_ok hfeed
      have hposition : spelt.position = s.position := (State.spell_keeps hspell).2.1
      rw [hposition] at hplaced
      have hlater : (Batch.ofToken first s.position).ScoresLast fed.index :=
        hindex ▸ Batch.scoresLast_ofToken first s.position
      obtain ⟨past, index, logits, hrest⟩ :=
        ih hlater (by rw [hplaced, toNat_add_one hword]; omega) htoken
      refine ⟨_, index, logits, hrest.turn hpick hspell hfeed hword ?_⟩
      rw [← hposition]

section Run

variable {outputLimit : UInt32} {r : Request} {context : C} {prompt : List Token}

/-- Where a token comes from that a run samples after a text: the sampler has counted the text, and
the context has taken it in before it is asked for the logits. -/
structure Run.Draws (inference : Inference M C) (r : Request) (context : C) (run : Run C)
    (text : List Token) (token : Token) : Prop where
  counted : ∀ other, ((Sampler.ofHistory r text).counts.getD other 0).toNat = text.count other
  chosen : ∃ past index logits, past ++ [.logits index] <+: run.calls ∧
    inference.TakesIn context past text index ∧
    inference.logits (inference.after context past) index = some logits ∧
    (Sampler.ofHistory r text).sample logits = some token

private theorem context_afterPrompt {taken : C}
    (hdecode :
      inference.decode (inference.clear context) (Batch.ofPrompt prompt) = (.ok (), taken)) :
    (State.afterPrompt r prompt taken).context =
      inference.after context [.clear, .decode (Batch.ofPrompt prompt)] :=
  congrArg Prod.snd hdecode.symm

theorem Trail.Draws.takesIn {taken : C} {trail : Trail C} {before : List Token} {token : Token}
    {past : List Call} {index : Nat} {logits : List Single}
    (hfits : r.Fits inference model outputLimit context prompt)
    (hdecode : inference.decode (inference.clear context) (Batch.ofPrompt prompt) = (.ok (), taken))
    (h : trail.Draws inference (State.afterPrompt r prompt taken) (Batch.ofPrompt prompt) before
      token past index logits) :
    inference.TakesIn context (.clear :: .decode (Batch.ofPrompt prompt) :: past)
      (prompt ++ before) index := by
  have hdone := h.done
  rw [context_afterPrompt hdecode] at hdone
  have hfirst : (Batch.ofPrompt prompt).Holds prompt 0 :=
    Batch.holds_ofPrompt hfits.nonempty (Nat.lt_trans hfits.room (UInt32.toNat_lt_size _))
  have hbatches : Call.batches (.clear :: .decode (Batch.ofPrompt prompt) :: past) =
      Batch.ofPrompt prompt :: Call.batches past := rfl
  have hplace : (State.afterPrompt r prompt taken).position.toNat = prompt.length :=
    toNat_length (Nat.le_of_lt hfits.room)
  obtain ⟨htokens, hplaces⟩ := h.batches.flatMap
  rw [hplace] at hplaces
  constructor
  · exact ⟨trivial, congrArg Prod.fst hdecode, hdone⟩
  · exact ⟨_, rfl, by simpa using h.uncleared⟩
  · rw [hbatches, List.flatMap_cons, hfirst.tokens, htokens]
  · rw [hbatches, List.flatMap_cons, hfirst.places, hplaces, List.length_append,
      List.range_eq_range', ← List.range'_append_1, Nat.zero_add]
  · exact ⟨_, by rw [hbatches, List.getLast?_cons], h.latest⟩

theorem Request.Fits.draws (h : r.Fits inference model outputLimit context prompt) {k : Nat}
    {token : Token}
    (htoken : (run inference model outputLimit r context).sampled[k]? = some token) :
    (run inference model outputLimit r context).Draws inference r context
      (prompt ++ (run inference model outputLimit r context).sampled.take k) token := by
  rw [h.run_eq] at htoken ⊢
  dsimp only at htoken ⊢
  split at htoken
  next => nomatch htoken
  next taken hdecode =>
    -- The run samples what its trail samples.
    simp only [answer_eq, Trail.toRun] at htoken ⊢
    have hplace : (State.afterPrompt r prompt taken).position.toNat = prompt.length :=
      toNat_length (Nat.le_of_lt h.room)
    have hroom := h.length_add_allowance_le
    generalize (r.allowance outputLimit (inference.window context) prompt).toNat = left
      at htoken hroom ⊢
    rw [← hplace] at hroom
    obtain ⟨past, index, logits, hdraws⟩ := sampleTokens_draws left _
      (Batch.scoresLast_ofPrompt h.nonempty) hroom htoken
    have hless : k < left :=
      Nat.lt_of_lt_of_le (List.getElem?_eq_some_iff.mp htoken).1 (length_sampled_le _ _)
    constructor
    · intro other
      apply Sampler.toNat_getD_counts_ofHistory
      refine Nat.lt_of_le_of_lt List.count_le_length (Nat.lt_of_le_of_lt ?_
        (inference.window context).toNat_lt_size)
      rw [List.length_append, List.length_take]
      omega
    · refine ⟨_, index, logits, ?_, hdraws.takesIn h hdecode, ?_, ?_⟩
      · exact (List.prefix_cons_inj _).mpr ((List.prefix_cons_inj _).mpr hdraws.asked)
      · have hgiven := hdraws.given
        rw [context_afterPrompt hdecode] at hgiven
        exact hgiven
      · rw [Sampler.ofHistory, List.foldl_append]
        exact hdraws.chosen

end Run

/-- For prompts whose length is a word, every token of a run, the one that ends the text among them,
is drawn after the prompt and the tokens that were sampled before it, each of them counted once. -/
theorem run_draws (inference : Inference M C) (model : M) (outputLimit : UInt32) (r : Request)
    (context : C) (htokens : ∀ tokens, inference.tokenize model r.prompt = .ok tokens →
      tokens.length < UInt32.size) :
    let run := run inference model outputLimit r context
    ∀ k token, run.sampled[k]? = some token → ∃ prompt,
      inference.tokenize model r.prompt = .ok prompt ∧
      run.Draws inference r context (prompt ++ run.sampled.take k) token := by
  intro run k token htoken
  by_cases hfits : ∃ prompt, r.Fits inference model outputLimit context prompt
  · obtain ⟨prompt, hfits⟩ := hfits
    exact ⟨prompt, hfits.tokenized, hfits.draws htoken⟩
  · obtain ⟨result, hrun, -⟩ := run_early htokens (not_exists.mp hfits)
    have hnone : run.sampled = [] := congrArg Run.sampled hrun
    simp [hnone] at htoken

def penalizedLedgerRequest : Request := { prompt := "abc", frequency := some ⟨0x40000000⟩ }

theorem run_draws_penalized :
    let run := run Ledger.inference () 8 penalizedLedgerRequest {}
    (∀ tokens, Ledger.inference.tokenize () penalizedLedgerRequest.prompt = .ok tokens →
        tokens.length < UInt32.size) ∧
      run.sampled = [1, 0] ∧
      run.Draws Ledger.inference penalizedLedgerRequest {} [97, 98, 99] 1 ∧
      run.Draws Ledger.inference penalizedLedgerRequest {} [97, 98, 99, 1] 0 := by
  intro run
  have htokens : ∀ tokens,
      Ledger.inference.tokenize () penalizedLedgerRequest.prompt = .ok tokens →
        tokens.length < UInt32.size := by
    rintro tokens ⟨⟩
    decide
  have hsampled : run.sampled = [1, 0] := by decide +kernel
  have hdraws : ∀ k token, ([1, 0] : List Token)[k]? = some token →
      run.Draws Ledger.inference penalizedLedgerRequest {} ([97, 98, 99] ++ [1, 0].take k)
        token := by
    intro k token htoken
    rw [← hsampled] at htoken ⊢
    obtain ⟨prompt, ⟨⟩, hdraws⟩ :=
      run_draws Ledger.inference () 8 penalizedLedgerRequest {} htokens k token htoken
    exact hdraws
  exact ⟨htokens, hsampled, hdraws 0 1 rfl, hdraws 1 0 rfl⟩

end Completion

end ModelHost
