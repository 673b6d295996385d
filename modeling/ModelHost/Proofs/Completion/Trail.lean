import ModelHost.Completion.Trail
import ModelHost.Proofs.Completion.Sampler
import ModelHost.Proofs.Inference.Session

/-!
One turn of an answer, and all of them. A token is picked by the logits that the context has,
spelled out, and taken in at the next place; what each of these changes, and when it fails, is said
here once. What holds of every way that a turn can end then holds of a whole trail.
-/

namespace ModelHost.Completion

variable {M C : Type} {inference : Inference M C} {model : M}

namespace State

variable {s s' : State C} {token : Token}

theorem pick_ok (h : s.pick inference = .ok token) :
    ∃ logits, inference.logits s.context s.index = some logits ∧
      s.sampler.sample logits = some token := by
  unfold pick at h
  split at h
  next => nomatch h
  next logits hlogits =>
    split at h
    next => nomatch h
    next chosen hchosen => exact ⟨logits, hlogits, hchosen.trans (congrArg some (Except.ok.inj h))⟩

theorem does_of_pick (h : s.pick inference = .ok token) :
    inference.Does s.context (.logits s.index) := by
  obtain ⟨logits, hlogits, hsample⟩ := pick_ok h
  refine ⟨logits, hlogits, fun hnone => ?_⟩
  rw [s.sampler.sample_eq_none_iff.mpr hnone] at hsample
  nomatch hsample

theorem refused_of_pick {failure : Failure} (h : s.pick inference = .error failure) :
    inference.logits s.context s.index = none ∧ failure = .noLogits s.index ∨
      inference.logits s.context s.index = some [] ∧ failure = .emptyLogits := by
  unfold pick at h
  split at h
  next hlogits => exact .inl ⟨hlogits, (Except.error.inj h).symm⟩
  next logits hlogits =>
    split at h
    next hsample =>
      rw [s.sampler.sample_eq_none_iff.mp hsample] at hlogits
      exact .inr ⟨hlogits, (Except.error.inj h).symm⟩
    next => nomatch h

theorem pick_error {failure : Failure} (h : s.pick inference = .error failure) :
    ¬ inference.Does s.context (.logits s.index) := by
  rintro ⟨logits, hlogits, hsome⟩
  rcases refused_of_pick h with ⟨hnone, -⟩ | ⟨hempty, -⟩
  · exact Option.some_ne_none _ (hlogits.symm.trans hnone)
  · exact hsome (Option.some.inj (hlogits.symm.trans hempty))

theorem spell_keeps {bytes : List UInt8} {passage : Text.Passage}
    (h : s.spell bytes = (passage, s')) :
    s'.context = s.context ∧ s'.position = s.position ∧ s'.spent = s.spent + 1 := by
  obtain ⟨-, rfl⟩ := Prod.mk.inj h
  exact ⟨rfl, rfl, rfl⟩

theorem spell_eq {bytes : List UInt8} {passage : Text.Passage}
    (h : s.spell bytes = (passage, s')) :
    s.gate.push (s.joiner.push bytes).1 = (passage, s'.gate) ∧
      s'.joiner = (s.joiner.push bytes).2 := by
  obtain ⟨rfl, rfl⟩ := Prod.mk.inj h
  exact ⟨rfl, rfl⟩

theorem feed_cases {result : Except Failure Unit}
    (h : s.feed inference token = (result, s')) :
    (∃ cause context,
      inference.decode s.context (Batch.ofToken token s.position) = (.error cause, context) ∧
        result = .error (.decode s.position cause) ∧ s' = { s with context }) ∨
    ∃ context, inference.decode s.context (Batch.ofToken token s.position) = (.ok (), context) ∧
      result = .ok () ∧ s' = { s with context, position := s.position + 1, index := 0 } := by
  unfold feed feedWith at h
  split at h
  next cause context hdecode =>
    obtain ⟨rfl, rfl⟩ := Prod.mk.inj h
    exact .inl ⟨cause, context, hdecode, rfl, rfl⟩
  next context hdecode =>
    obtain ⟨rfl, rfl⟩ := Prod.mk.inj h
    exact .inr ⟨context, hdecode, rfl, rfl⟩

theorem feed_keeps {result : Except Failure Unit} (h : s.feed inference token = (result, s')) :
    s'.sampler = s.sampler ∧ s'.joiner = s.joiner ∧ s'.gate = s.gate := by
  obtain ⟨_, _, -, -, rfl⟩ | ⟨_, -, -, rfl⟩ := feed_cases h <;> exact ⟨rfl, rfl, rfl⟩

theorem context_of_feed {result : Except Failure Unit}
    (h : s.feed inference token = (result, s')) :
    s'.context = inference.afterCall s.context (.decode (Batch.ofToken token s.position)) := by
  obtain ⟨_, _, hdecode, -, rfl⟩ | ⟨_, hdecode, -, rfl⟩ := feed_cases h
  · exact congrArg Prod.snd hdecode.symm
  · exact congrArg Prod.snd hdecode.symm

theorem feed_ok (h : s.feed inference token = (.ok (), s')) :
    s'.position = s.position + 1 ∧ s'.index = 0 ∧ s'.spent = s.spent := by
  obtain ⟨_, _, -, herror, -⟩ | ⟨_, -, -, rfl⟩ := feed_cases h
  · cases herror
  · exact ⟨rfl, rfl, rfl⟩

theorem does_of_feed (h : s.feed inference token = (.ok (), s')) :
    inference.Does s.context (.decode (Batch.ofToken token s.position)) := by
  obtain ⟨_, _, -, herror, -⟩ | ⟨_, hdecode, -, -⟩ := feed_cases h
  · cases herror
  · exact congrArg Prod.fst hdecode

theorem feed_error {failure : Failure} (h : s.feed inference token = (.error failure, s')) :
    ¬ inference.Does s.context (.decode (Batch.ofToken token s.position)) := by
  obtain ⟨_, _, hdecode, -, -⟩ | ⟨_, -, hok, -⟩ := feed_cases h
  · simp [Inference.Does, hdecode]
  · cases hok

end State

/-- What holds of every end that a turn can come to, and of a turn with what goes on from it, holds
of a whole trail. -/
theorem sampleTokens_induction (inference : Inference M C) (model : M)
    {motive : Nat → State C → Trail C → Prop}
    (spent : ∀ s, motive 0 s ⟨s, .ended .length, [], [], []⟩)
    (unpicked : ∀ left s failure, s.pick inference = .error failure →
      motive (left + 1) s ⟨s, .failed failure, [], [], [.logits s.index]⟩)
    (ended : ∀ left s token, s.pick inference = .ok token → token = inference.endToken model →
      motive (left + 1) s ⟨s.accept token, .ended .stop, [], [token], [.logits s.index]⟩)
    (unspelt : ∀ left s token cause, s.pick inference = .ok token →
      token ≠ inference.endToken model → inference.piece model token = .error cause →
      motive (left + 1) s
        ⟨s.accept token, .failed (.spell token cause), [], [token], [.logits s.index]⟩)
    (stopped : ∀ left s token bytes ready spelt, s.pick inference = .ok token →
      token ≠ inference.endToken model → inference.piece model token = .ok bytes →
      (s.accept token).spell bytes = (.closed ready, spelt) →
      motive (left + 1) s ⟨spelt, .stopped, chunk ready, [token], [.logits s.index]⟩)
    (last : ∀ s token bytes ready spelt, s.pick inference = .ok token →
      token ≠ inference.endToken model → inference.piece model token = .ok bytes →
      (s.accept token).spell bytes = (.onward ready, spelt) →
      motive 1 s ⟨spelt, .ended .length, chunk ready, [token], [.logits s.index]⟩)
    (unfed : ∀ left s token bytes ready spelt failure fed, s.pick inference = .ok token →
      token ≠ inference.endToken model → inference.piece model token = .ok bytes →
      (s.accept token).spell bytes = (.onward ready, spelt) → left ≠ 0 →
      spelt.feed inference token = (.error failure, fed) →
      motive (left + 1) s ⟨fed, .failed failure, chunk ready, [token],
        [.logits s.index, .decode (Batch.ofToken token spelt.position)]⟩)
    (turn : ∀ left s token bytes ready spelt fed, s.pick inference = .ok token →
      token ≠ inference.endToken model → inference.piece model token = .ok bytes →
      (s.accept token).spell bytes = (.onward ready, spelt) → left ≠ 0 →
      spelt.feed inference token = (.ok (), fed) → ∀ rest : Trail C, motive left fed rest →
      motive (left + 1) s { rest with
        chunks := chunk ready ++ rest.chunks
        sampled := token :: rest.sampled
        calls := .logits s.index :: .decode (Batch.ofToken token spelt.position) :: rest.calls })
    (left : Nat) (s : State C) : motive left s (sampleTokens inference model left s) := by
  induction left generalizing s with
  | zero => exact spent s
  | succ left ih =>
    unfold sampleTokens sampleTokensWith
    cases hpick : s.pick inference with
    | error failure => exact unpicked left s failure hpick
    | ok token =>
      dsimp only
      split
      next hlast => exact ended left s token hpick hlast
      next hmore =>
        cases hpiece : inference.piece model token with
        | error cause => exact unspelt left s token cause hpick hmore hpiece
        | ok bytes =>
          rcases hspell : (s.accept token).spell bytes with ⟨ready | ready, spelt⟩
          all_goals have hspelt : (s.accept token).spellWith .wrapping bytes = pure _ := hspell
          all_goals simp only [hspelt, pure_bind]
          · split
            next hzero =>
              subst hzero
              exact last s token bytes ready spelt hpick hmore hpiece hspell
            next hleft =>
              rcases hfeed : spelt.feed inference token with ⟨failure | ⟨⟩, fed⟩
              all_goals have hfed : spelt.feedWith .wrapping inference token = pure _ := hfeed
              all_goals simp only [hfed, pure_bind]
              · exact unfed left s token bytes ready spelt failure fed hpick hmore hpiece hspell
                  hleft hfeed
              · exact turn left s token bytes ready spelt fed hpick hmore hpiece hspell hleft hfeed
                  _ (ih fed)
          · exact stopped left s token bytes ready spelt hpick hmore hpiece hspell

end ModelHost.Completion
