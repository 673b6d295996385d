import ModelHost.Proofs.Completion.Calls
import ModelHost.Proofs.Inference.Alike
import ModelHost.TextVector

/-!
Answers from a context that was used before. Every run that touches its context clears it first, so
what it comes to depends on nothing that was there: neither on earlier answers and embeddings, nor
on where one of them failed.
-/

namespace ModelHost

variable {M C : Type} {inference : Inference M C} {model : M}

namespace Completion

def State.on (s : State C) (context : C) : State C := { s with context }

def Trail.on (trail : Trail C) (context : C) : Trail C :=
  { trail with state := trail.state.on context }

def Run.on (run : Run C) (context : C) : Run C := { run with context }

namespace State

private theorem pick_on {s : State C} {c : C} (h : inference.Alike s.context c) :
    (s.on c).pick inference = s.pick inference := by
  unfold pick
  simp only [on, ← h.now.logits s.index]

private theorem spellWith_on {s spelt : State C} {token : Token} {bytes : List UInt8}
    {passage : Text.Passage} (c : C) (h : (s.accept token).spell bytes = (passage, spelt)) :
    ((s.on c).accept token).spellWith .wrapping bytes = pure (passage, spelt.on c) := by
  obtain ⟨rfl, rfl⟩ := Prod.mk.inj h
  rfl

private theorem alike_of_spell {s spelt : State C} {c : C} {token : Token} {bytes : List UInt8}
    {passage : Text.Passage} (h : inference.Alike s.context c)
    (hspell : (s.accept token).spell bytes = (passage, spelt)) :
    inference.Alike spelt.context c := by
  rw [(spell_keeps hspell).1]
  exact h

private theorem feedWith_on {s fed : State C} {c : C} {token : Token} {result : Except Failure Unit}
    (h : inference.Alike s.context c) (hfeed : s.feed inference token = (result, fed)) :
    (s.on c).feedWith .wrapping inference token =
      pure (result, fed.on
        (inference.afterCall c (.decode (Batch.ofToken token s.position)))) := by
  obtain ⟨cause, taken, hdecode, rfl, rfl⟩ | ⟨taken, hdecode, rfl, rfl⟩ := feed_cases hfeed
  · obtain ⟨taken', hdecode', -⟩ := h.decode hdecode
    simp only [feedWith, on, Inference.afterCall, hdecode']
  · obtain ⟨taken', hdecode', -⟩ := h.decode hdecode
    simp only [feedWith, on, Inference.afterCall, hdecode']
    rfl

end State

theorem sampleTokens_on (left : Nat) {s : State C} {c : C} (h : inference.Alike s.context c) :
    sampleTokens inference model left (s.on c) =
      (sampleTokens inference model left s).on
        (inference.after c (sampleTokens inference model left s).calls) := by
  -- Alike contexts answer alike, so both sides take the same branch at every turn.
  change sampleTokensWith .wrapping inference model left (s.on c) = pure _
  induction left, s using sampleTokens_induction inference model generalizing c with
  | spent => rfl
  | unpicked _ _ _ hpick =>
    simp only [sampleTokensWith, State.pick_on h, hpick]
    rfl
  | ended _ _ _ hpick hlast =>
    simp only [sampleTokensWith, State.pick_on h, hpick, if_pos hlast]
    rfl
  | unspelt _ _ _ _ hpick hmore hpiece =>
    simp only [sampleTokensWith, State.pick_on h, hpick, if_neg hmore, hpiece]
    rfl
  | stopped _ _ _ _ _ _ hpick hmore hpiece hspell | last _ _ _ _ _ hpick hmore hpiece hspell =>
    simp only [sampleTokensWith, State.pick_on h, hpick, if_neg hmore, hpiece,
      State.spellWith_on c hspell, pure_bind]
    rfl
  | unfed _ _ _ _ _ _ _ _ hpick hmore hpiece hspell hleft hfeed =>
    have hspelt := State.alike_of_spell h hspell
    simp only [sampleTokensWith, State.pick_on h, hpick, if_neg hmore, hpiece,
      State.spellWith_on c hspell, if_neg hleft, State.feedWith_on hspelt hfeed, pure_bind]
    rfl
  | turn _ _ token _ _ spelt _ hpick hmore hpiece hspell hleft hfeed rest ih =>
    have hspelt := State.alike_of_spell h hspell
    have hfed := hspelt.afterCall (.decode (Batch.ofToken token spelt.position))
    rw [← State.context_of_feed hfeed] at hfed
    simp only [sampleTokensWith, State.pick_on h, hpick, if_neg hmore, hpiece,
      State.spellWith_on c hspell, if_neg hleft, State.feedWith_on hspelt hfeed, ih hfed, pure_bind]
    rfl

theorem answer_on {budget promptTokens : UInt32} {start : State C} {calls : List Call} {c : C}
    (h : inference.Alike start.context c) :
    answer inference model budget promptTokens (start.on c) calls =
      (answer inference model budget promptTokens start calls).on
        (inference.after c (sampleTokens inference model budget.toNat start).calls) := by
  rw [answer_eq, sampleTokens_on budget.toNat h]
  rfl

/-- A run depends on its context only through the window and through what is left by clearing. -/
theorem run_on {outputLimit : UInt32} {r : Request} {c c' : C}
    (hwindow : inference.window c = inference.window c')
    (h : inference.Alike (inference.clear c) (inference.clear c')) :
    run inference model outputLimit r c' =
      (run inference model outputLimit r c).on
        (inference.after c' (run inference model outputLimit r c).calls) := by
  unfold run runWith
  rw [← hwindow]
  dsimp only
  split
  next => rfl
  next =>
    rcases inference.tokenize model r.prompt with cause | ⟨⟩ | ⟨first, more⟩
    · rfl
    · rfl
    · dsimp only
      split
      next => rfl
      next =>
        rcases hdecode : inference.decode (inference.clear c) (Batch.ofPrompt (first :: more)) with
          ⟨cause | ⟨⟩, taken⟩
        · obtain ⟨taken', hdecode', -⟩ := h.decode hdecode
          simp [hdecode', Run.early, Run.on, Inference.afterCall]
        · obtain ⟨taken', hdecode', htaken⟩ := h.decode hdecode
          have hstart : inference.Alike (State.afterPrompt r (first :: more) taken).context
              taken' := htaken
          have hcalls : ∀ more', inference.after taken' more' = inference.after c'
              ([.clear, .decode (Batch.ofPrompt (first :: more))] ++ more') := by
            intro more'
            simp [Inference.afterCall, hdecode']
          rw [hdecode']
          dsimp only
          refine (answer_on hstart).trans ?_
          rw [hcalls]
          rfl

end Completion

namespace TextVector

def Run.on (run : Run C) (context : C) : Run C := { run with context }

theorem context_run (inference : Inference M C) (model : M) (name : String) (input : Input)
    (context : C) :
    (run inference model name input context).context =
      inference.after context (run inference model name input context).calls := by
  unfold run
  split
  next => rfl
  next => rfl
  next =>
    dsimp only
    split
    next => rfl
    next =>
      split
      next hdecode => simp [Inference.afterCall, hdecode]
      next hdecode => simp [Inference.afterCall, hdecode]

private theorem vectorOf_alike {name : String} {width : Nat} {c c' : C} (h : inference.Alike c c') :
    vectorOf inference name width c = vectorOf inference name width c' := by
  unfold vectorOf
  rw [h.now.vector]

theorem run_on {name : String} {input : Input} {c c' : C}
    (hwindow : inference.window c = inference.window c')
    (h : inference.Alike (inference.clear c) (inference.clear c')) :
    run inference model name input c' =
      (run inference model name input c).on
        (inference.after c' (run inference model name input c).calls) := by
  unfold run
  rw [← hwindow]
  rcases inference.tokenize model input.text with cause | ⟨⟩ | ⟨first, more⟩
  · rfl
  · rfl
  · dsimp only
    split
    next => rfl
    next =>
      rcases hdecode : inference.decode (inference.clear c) (Batch.ofPrompt (first :: more)) with
        ⟨cause | ⟨⟩, taken⟩
      · obtain ⟨taken', hdecode', -⟩ := h.decode hdecode
        simp [hdecode', Run.on, Inference.afterCall]
      · obtain ⟨taken', hdecode', htaken⟩ := h.decode hdecode
        simp [hdecode', Run.on, Inference.afterCall, vectorOf_alike htaken]

end TextVector

inductive Use where
  | complete (outputLimit : UInt32) (r : Completion.Request)
  | embed (name : String) (input : TextVector.Input)

namespace Use

def after (inference : Inference M C) (model : M) (context : C) : Use → C
  | .complete outputLimit r => (Completion.run inference model outputLimit r context).context
  | .embed name input => (TextVector.run inference model name input context).context

def afterAll (inference : Inference M C) (model : M) (context : C) (uses : List Use) : C :=
  uses.foldl (after inference model) context

private theorem exists_calls (inference : Inference M C) (model : M) (context : C)
    (uses : List Use) :
    ∃ calls, afterAll inference model context uses = inference.after context calls := by
  induction uses generalizing context with
  | nil => exact ⟨[], rfl⟩
  | cons use uses ih =>
    have huse : ∃ calls, use.after inference model context = inference.after context calls := by
      cases use with
      | complete => exact ⟨_, Completion.context_run ..⟩
      | embed => exact ⟨_, TextVector.context_run ..⟩
    obtain ⟨calls, hcalls⟩ := huse
    obtain ⟨more, hmore⟩ := ih (use.after inference model context)
    refine ⟨calls ++ more, ?_⟩
    rw [Inference.after_append, ← hcalls]
    exact hmore

/-- What a context was used for before shows neither in what a completion hands on and comes to nor
in an embedding, if clearing the context makes it like a fresh one. -/
theorem answers_alike (inference : Inference M C) (model : M) {fresh : C}
    (hfresh : inference.Renewable fresh) (past past' : List Use) :
    let c := afterAll inference model fresh past
    let c' := afterAll inference model fresh past'
    (∀ outputLimit r,
      let run := Completion.run inference model outputLimit r
      (run c').chunks = (run c).chunks ∧ (run c').result = (run c).result) ∧
      ∀ name input, (TextVector.run inference model name input c').result =
        (TextVector.run inference model name input c).result := by
  intro c c'
  obtain ⟨calls, hcalls⟩ : ∃ calls, c = inference.after fresh calls := exists_calls ..
  obtain ⟨calls', hcalls'⟩ : ∃ calls, c' = inference.after fresh calls := exists_calls ..
  have hwindow : inference.window c = inference.window c' := by
    rw [hcalls, hcalls', hfresh.window calls, hfresh.window calls']
  have hcleared : inference.Alike (inference.clear c) (inference.clear c') := by
    rw [hcalls, hcalls']
    exact (hfresh.clear calls).trans (hfresh.clear calls').symm
  constructor
  · intro outputLimit r run
    have hrun : run c' = (run c).on _ := Completion.run_on hwindow hcleared
    rw [hrun]
    exact ⟨rfl, rfl⟩
  · intro name input
    rw [TextVector.run_on hwindow hcleared]
    rfl

theorem answers_alike_after_failure :
    let r : Completion.Request := { prompt := "abc" }
    let past : List Use := [.complete 8 { prompt := "ab" }, .embed "m" (.single "abcd")]
    let c := afterAll Ledger.inference () {} past
    let run := Completion.run Ledger.inference () 8 r
    Ledger.inference.Renewable {} ∧
      (Completion.run Ledger.inference () 8 { prompt := "ab" } {}).result.toOption = none ∧
      c = ⟨⟨4, some (Batch.ofPrompt [97, 98, 99, 100])⟩, 4⟩ ∧
      (run {}).chunks = ["a", "a"] ∧
      (run c).chunks = (run {}).chunks ∧ (run c).result = (run {}).result := by
  intro r past c run
  have halike := (answers_alike Ledger.inference () Ledger.renewable [] past).1 8 r
  exact ⟨Ledger.renewable, by decide +kernel, by decide +kernel, by decide +kernel, halike⟩

end Use

end ModelHost
