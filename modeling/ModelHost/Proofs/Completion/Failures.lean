import ModelHost.Proofs.Completion.Draws
import ModelHost.Proofs.Completion.Output
import ModelHost.Proofs.Inference.Dialogue

/-!
Runs that fail. A run is what a careful dialogue with the model and the context comes to: a refusal
ends it at once, with nothing handed on after it. So a run that fails has handed on what any run
hands on by then that is given the same replies.
-/

namespace ModelHost.Completion

variable {M C : Type}

def Failure.Reports : Failure → Exchange → Prop
  | .tokenize cause, x => ∃ text, x = ⟨.tokenize text, .error cause⟩
  | .noTokens, x => ∃ text, x = ⟨.tokenize text, .ok []⟩
  | .tooLong tokens window, x => x = ⟨.window, window⟩ ∧ window ≤ tokens
  | .takeIn cause, x => ∃ b, x = ⟨.call (.decode b), .error cause⟩
  | .noLogits index, x => x = ⟨.call (.logits index), none⟩
  | .emptyLogits, x => ∃ index, x = ⟨.call (.logits index), some []⟩
  | .spell token cause, x => x = ⟨.piece token, .error cause⟩
  | .decode position cause, x =>
    ∃ token, x = ⟨.call (.decode (Batch.ofToken token position)), .error cause⟩

def State.apart (s : State C) : State Unit := { s with context := () }

section Course

def closing (promptTokens : UInt32) (s : State Unit) (spoken : List String) (finish : Finish)
    (ready : List Char) : Dialogue (Except Failure Outcome) :=
  .tells (chunk ready)
    (.conclude (.ok ⟨String.join (spoken ++ chunk ready), promptTokens, s.spent, finish⟩))

def flushing (promptTokens : UInt32) (s : State Unit) (spoken : List String) (finish : Finish) :
    Dialogue (Except Failure Outcome) :=
  match s.flush with
  | .onward ready => closing promptTokens s spoken finish ready
  | .closed ready => closing promptTokens s spoken .stop ready

def taking (promptTokens : UInt32) (left : Nat)
    (next : State Unit → List String → Dialogue (Except Failure Outcome)) (s : State Unit)
    (spoken : List String) (token : Token) : Dialogue (Except Failure Outcome) :=
  if left = 0 then flushing promptTokens s spoken .length
  else
    .ask (.call (.decode (Batch.ofToken token s.position))) fun
      | .error cause => .conclude (.error (.decode s.position cause))
      | .ok () => next { s with position := s.position + 1, index := 0 } spoken

def saying (last : Token) (promptTokens : UInt32) (left : Nat)
    (next : State Unit → List String → Dialogue (Except Failure Outcome)) (s : State Unit)
    (spoken : List String) (token : Token) : Dialogue (Except Failure Outcome) :=
  if token = last then flushing promptTokens s spoken .stop
  else
    .ask (.piece token) fun
      | .error cause => .conclude (.error (.spell token cause))
      | .ok bytes =>
        match s.spell bytes with
        | (.closed ready, s) => closing promptTokens s spoken .stop ready
        | (.onward ready, s) =>
          .tells (chunk ready) (taking promptTokens left next s (spoken ++ chunk ready) token)

def sampling (last : Token) (promptTokens : UInt32) :
    Nat → State Unit → List String → Dialogue (Except Failure Outcome)
  | 0, s, spoken => flushing promptTokens s spoken .length
  | left + 1, s, spoken =>
    .ask (.call (.logits s.index)) fun
      | none => .conclude (.error (.noLogits s.index))
      | some logits =>
        match s.sampler.sample logits with
        | none => .conclude (.error .emptyLogits)
        | some token =>
          saying last promptTokens left (sampling last promptTokens left) (s.accept token) spoken
            token

def beginning (allowance : UInt32) (r : Request) (prompt : List Token) :
    Dialogue (Except Failure Outcome) :=
  .ask (.call (.decode (Batch.ofPrompt prompt))) fun
    | .error cause => .conclude (.error (.takeIn cause))
    | .ok () =>
      .ask .endToken fun last =>
        sampling last (UInt32.ofNat prompt.length) allowance.toNat (State.afterPrompt r prompt ())
          []

def prompting (budget : UInt32) (r : Request) (prompt : List Token) :
    Dialogue (Except Failure Outcome) :=
  let length := UInt32.ofNat prompt.length
  .ask .window fun (window : UInt32) =>
    if window ≤ length then .conclude (.error (.tooLong length window))
    else .ask (.call .clear) fun _ => beginning (min budget (window - length + 1)) r prompt

def dialogue (outputLimit : UInt32) (r : Request) : Dialogue (Except Failure Outcome) :=
  let budget := r.budget outputLimit
  if budget = 0 then .conclude (.ok ⟨"", 0, 0, .length⟩)
  else
    .ask (.tokenize r.prompt) fun
      | .error cause => .conclude (.error (.tokenize cause))
      | .ok [] => .conclude (.error .noTokens)
      | .ok prompt => prompting budget r prompt

private theorem careful_closing (promptTokens : UInt32) (s : State Unit) (spoken : List String)
    (finish : Finish) (ready : List Char) :
    (closing promptTokens s spoken finish ready).Careful Failure.Reports :=
  Dialogue.careful_tells trivial

private theorem careful_flushing (promptTokens : UInt32) (s : State Unit) (spoken : List String)
    (finish : Finish) : (flushing promptTokens s spoken finish).Careful Failure.Reports := by
  unfold flushing
  split <;> exact careful_closing ..

section Turn

variable {last : Token} {promptTokens : UInt32} {left : Nat}
  {next : State Unit → List String → Dialogue (Except Failure Outcome)}
  (hnext : ∀ s spoken, (next s spoken).Careful Failure.Reports) (s : State Unit)
  (spoken : List String) (token : Token)

include hnext

private theorem careful_taking :
    (taking promptTokens left next s spoken token).Careful Failure.Reports := by
  unfold taking
  split
  next => exact careful_flushing ..
  next =>
    rintro (cause | ⟨⟩)
    · exact ⟨trivial, fun _ => ⟨.decode s.position cause, ⟨token, rfl⟩, rfl⟩⟩
    · exact ⟨hnext _ _, nofun⟩

private theorem careful_saying :
    (saying last promptTokens left next s spoken token).Careful Failure.Reports := by
  unfold saying
  split
  next => exact careful_flushing ..
  next =>
    rintro (cause | bytes)
    · exact ⟨trivial, fun _ => ⟨.spell token cause, rfl, rfl⟩⟩
    refine ⟨?_, nofun⟩
    dsimp only
    split
    next => exact careful_closing ..
    next => exact Dialogue.careful_tells (careful_taking hnext ..)

end Turn

private theorem careful_sampling (last : Token) (promptTokens : UInt32) (left : Nat)
    (s : State Unit) (spoken : List String) :
    (sampling last promptTokens left s spoken).Careful Failure.Reports := by
  induction left generalizing s spoken with
  | zero => exact careful_flushing ..
  | succ left ih =>
    rintro (none | logits)
    · exact ⟨trivial, fun _ => ⟨.noLogits s.index, rfl, rfl⟩⟩
    dsimp only
    cases hsample : s.sampler.sample logits with
    | none =>
      obtain rfl := s.sampler.sample_eq_none_iff.mp hsample
      exact ⟨trivial, fun _ => ⟨.emptyLogits, ⟨s.index, rfl⟩, rfl⟩⟩
    | some token =>
      refine ⟨careful_saying ih _ _ _, ?_⟩
      rintro (hnone | hempty)
      · nomatch hnone
      · rw [Option.some.inj hempty, s.sampler.sample_eq_none_iff.mpr rfl] at hsample
        nomatch hsample

private theorem careful_beginning (allowance : UInt32) (r : Request) (prompt : List Token) :
    (beginning allowance r prompt).Careful Failure.Reports := by
  rintro (cause | ⟨⟩)
  · exact ⟨trivial, fun _ => ⟨.takeIn cause, ⟨_, rfl⟩, rfl⟩⟩
  · exact ⟨fun last => ⟨careful_sampling .., nofun⟩, nofun⟩

private theorem careful_prompting (budget : UInt32) (r : Request) (prompt : List Token) :
    (prompting budget r prompt).Careful Failure.Reports := by
  refine fun window => ⟨?_, nofun⟩
  dsimp only
  split
  next => trivial
  next => exact fun _ => ⟨careful_beginning _ r prompt, nofun⟩

theorem careful_dialogue (outputLimit : UInt32) (r : Request) :
    (dialogue outputLimit r).Careful Failure.Reports := by
  unfold dialogue
  dsimp only
  split
  next => trivial
  next =>
    rintro (cause | ⟨⟩ | ⟨first, more⟩)
    · exact ⟨trivial, fun _ => ⟨.tokenize cause, ⟨r.prompt, rfl⟩, rfl⟩⟩
    · exact ⟨trivial, nofun⟩
    · exact ⟨careful_prompting (r.budget outputLimit) r (first :: more), nofun⟩

end Course

section Play

variable {inference : Inference M C} {model : M} {promptTokens : UInt32} {spoken : List String}

structure Trail.Shown (promptTokens : UInt32) (spoken : List String) (trail : Trail C)
    (p : Dialogue.Played (Except Failure Outcome)) : Prop where
  result : p.result = trail.conclude.1.map fun finish =>
    ⟨String.join (spoken ++ (trail.chunks ++ trail.conclude.2)), promptTokens, trail.state.spent,
      finish⟩
  chunks : p.chunks = trail.chunks ++ trail.conclude.2
  calls : p.calls = trail.calls

private theorem shown_failed (s : State C) (failure : Failure) (sampled : List Token) :
    (⟨s, .failed failure, [], sampled, []⟩ : Trail C).Shown promptTokens spoken
      ⟨.error failure, []⟩ :=
  ⟨rfl, rfl, rfl⟩

private theorem shown_closing (s : State C) (ready : List Char) (sampled : List Token)
    (context : C) :
    (⟨s, .stopped, chunk ready, sampled, []⟩ : Trail C).Shown promptTokens spoken
      ((closing promptTokens s.apart spoken .stop ready).play inference model context) := by
  rw [closing, Dialogue.play_tells]
  constructor
  · simp [Trail.conclude, Dialogue.play, Dialogue.Played.after, Except.map, State.apart]
  · rw [Dialogue.Played.chunks_told]
    rfl
  · rw [Dialogue.Played.calls_told]
    rfl

private theorem shown_flushing (s : State C) (finish : Finish) (sampled : List Token)
    (context : C) :
    (⟨s, .ended finish, [], sampled, []⟩ : Trail C).Shown promptTokens spoken
      ((flushing promptTokens s.apart spoken finish).play inference model context) := by
  have hflush : s.apart.flush = s.flush := rfl
  rw [flushing, hflush]
  cases hpassage : s.flush <;>
  · dsimp only
    rw [closing, Dialogue.play_tells]
    constructor
    · simp [Trail.conclude, hpassage, Dialogue.play, Dialogue.Played.after, Except.map, State.apart]
    · rw [Dialogue.Played.chunks_told]
      simp [Trail.conclude, hpassage]
      rfl
    · rw [Dialogue.Played.calls_told]
      rfl

private theorem Trail.Shown.told {trail : Trail C} {p : Dialogue.Played (Except Failure Outcome)}
    {told chunks : List String} (h : trail.Shown promptTokens (spoken ++ told) p)
    (hchunks : chunks = told ++ trail.chunks) :
    { trail with chunks }.Shown promptTokens spoken (p.after (told.map .told)) := by
  subst hchunks
  constructor
  · have hresult := h.result
    simp only [List.append_assoc] at hresult ⊢
    exact hresult
  · rw [Dialogue.Played.chunks_told, h.chunks, List.append_assoc]
    rfl
  · rw [Dialogue.Played.calls_told, h.calls]

private theorem Trail.Shown.asked {trail : Trail C} {p : Dialogue.Played (Except Failure Outcome)}
    (h : trail.Shown promptTokens spoken p) (x : Exchange) :
    { trail with calls := x.call?.toList ++ trail.calls }.Shown promptTokens spoken
      (p.after [.asked x]) where
  result := h.result
  chunks := (Dialogue.Played.chunks_asked p x).trans h.chunks
  calls := by rw [Dialogue.Played.calls_asked, h.calls]

private theorem Trail.Shown.picked {left : Nat} {s : State C} {token : Token} (trail : Trail C)
    (hpick : s.pick inference = .ok token)
    (h : trail.Shown promptTokens spoken ((saying (inference.endToken model) promptTokens left
      (sampling (inference.endToken model) promptTokens left) (s.accept token).apart spoken
        token).play inference model s.context)) :
    { trail with calls := .logits s.index :: trail.calls }.Shown promptTokens spoken
      ((sampling (inference.endToken model) promptTokens (left + 1) s.apart spoken).play inference
        model s.context) := by
  obtain ⟨logits, hlogits, hsample⟩ := State.pick_ok hpick
  have hreply : inference.reply model s.context (.call (.logits s.apart.index)) = some logits :=
    hlogits
  have hchosen : s.apart.sampler.sample logits = some token := hsample
  rw [sampling, Dialogue.play_ask inference model hreply]
  dsimp only
  rw [hchosen]
  exact h.asked ⟨.call (.logits s.index), some logits⟩

namespace State

private theorem spell_apart {s spelt : State C} {bytes : List UInt8} {passage : Text.Passage}
    (h : s.spell bytes = (passage, spelt)) : s.apart.spell bytes = (passage, spelt.apart) := by
  obtain ⟨rfl, rfl⟩ := Prod.mk.inj h
  rfl

private theorem apart_of_feed {s fed : State C} {token : Token}
    (h : s.feed inference token = (.ok (), fed)) :
    fed.apart = { s.apart with position := s.position + 1, index := 0 } := by
  obtain ⟨_, _, -, herror, -⟩ | ⟨_, -, -, rfl⟩ := feed_cases h
  · cases herror
  · rfl

private theorem refused_of_feed {s fed : State C} {token : Token} {failure : Failure}
    (h : s.feed inference token = (.error failure, fed)) :
    ∃ cause, (inference.decode s.context (Batch.ofToken token s.position)).1 = .error cause ∧
      failure = .decode s.position cause := by
  obtain ⟨cause, _, hdecode, hfailure, -⟩ | ⟨_, -, hok, -⟩ := feed_cases h
  · exact ⟨cause, congrArg Prod.fst hdecode, Except.error.inj hfailure⟩
  · cases hok

end State

private theorem Trail.Shown.onward {left : Nat} {s spelt : State C} {token : Token}
    {bytes : List UInt8}
    {ready : List Char} {next : State Unit → List String → Dialogue (Except Failure Outcome)}
    (trail : Trail C) (hlast : token ≠ inference.endToken model)
    (hpiece : inference.piece model token = .ok bytes)
    (hspell : s.spell bytes = (.onward ready, spelt))
    (h : trail.Shown promptTokens (spoken ++ chunk ready)
      ((taking promptTokens left next spelt.apart (spoken ++ chunk ready) token).play inference
        model s.context)) {chunks : List String} (hchunks : chunks = chunk ready ++ trail.chunks) :
    { trail with chunks }.Shown promptTokens spoken
      ((saying (inference.endToken model) promptTokens left next s.apart spoken token).play
        inference model s.context) := by
  have hreply : inference.reply model s.context (.piece token) = Except.ok bytes := hpiece
  rw [saying, if_neg hlast, Dialogue.play_ask inference model hreply]
  dsimp only
  rw [State.spell_apart hspell]
  dsimp only
  rw [Dialogue.play_tells]
  exact (h.told hchunks).asked ⟨.piece token, .ok bytes⟩

theorem shown_sampling (left : Nat) (s : State C) (spoken : List String) :
    (sampleTokens inference model left s).Shown promptTokens spoken
      ((sampling (inference.endToken model) promptTokens left s.apart spoken).play inference model
        s.context) := by
  induction left, s using sampleTokens_induction inference model generalizing spoken with
  | spent s => exact shown_flushing s .length [] s.context
  | unpicked _ s failure hpick =>
    rw [sampling]
    rcases State.refused_of_pick hpick with ⟨hlogits, rfl⟩ | ⟨hlogits, rfl⟩
    · have hreply : inference.reply model s.context (.call (.logits s.apart.index)) = none :=
        hlogits
      rw [Dialogue.play_ask inference model hreply]
      exact (shown_failed ..).asked ⟨.call (.logits s.index), none⟩
    · have hreply : inference.reply model s.context (.call (.logits s.apart.index)) = some [] :=
        hlogits
      rw [Dialogue.play_ask inference model hreply]
      dsimp only
      rw [s.apart.sampler.sample_eq_none_iff.mpr rfl]
      exact (shown_failed ..).asked ⟨.call (.logits s.index), some []⟩
  | ended _ s token hpick hlast =>
    refine Trail.Shown.picked ⟨_, _, _, _, []⟩ hpick ?_
    rw [saying, if_pos hlast]
    exact shown_flushing ..
  | unspelt _ s token cause hpick hmore hpiece =>
    refine Trail.Shown.picked ⟨_, _, _, _, []⟩ hpick ?_
    have hreply : inference.reply model s.context (.piece token) = Except.error cause := hpiece
    rw [saying, if_neg hmore, Dialogue.play_ask inference model hreply]
    exact (shown_failed ..).asked ⟨.piece token, .error cause⟩
  | stopped _ s token bytes ready spelt hpick hmore hpiece hspell =>
    refine Trail.Shown.picked ⟨_, _, _, _, []⟩ hpick ?_
    have hreply : inference.reply model s.context (.piece token) = Except.ok bytes := hpiece
    rw [saying, if_neg hmore, Dialogue.play_ask inference model hreply]
    dsimp only
    rw [State.spell_apart hspell]
    exact (shown_closing ..).asked ⟨.piece token, .ok bytes⟩
  | last s token bytes ready spelt hpick hmore hpiece hspell =>
    refine Trail.Shown.picked ⟨_, _, _, _, []⟩ hpick ?_
    refine Trail.Shown.onward ⟨_, _, [], _, _⟩ hmore hpiece hspell ?_ (List.append_nil _).symm
    rw [taking, if_pos rfl]
    exact shown_flushing ..
  | unfed _ s token bytes ready spelt failure fed hpick hmore hpiece hspell hleft hfeed =>
    refine Trail.Shown.picked ⟨_, _, _, _, [_]⟩ hpick ?_
    refine Trail.Shown.onward ⟨_, _, [], _, _⟩ hmore hpiece hspell ?_ (List.append_nil _).symm
    obtain ⟨cause, hdecode, rfl⟩ := State.refused_of_feed hfeed
    rw [(State.spell_keeps hspell).1] at hdecode
    have hreply : inference.reply model (s.accept token).context
      (.call (.decode (Batch.ofToken token spelt.apart.position))) = Except.error cause := hdecode
    rw [taking, if_neg hleft, Dialogue.play_ask inference model hreply]
    exact (shown_failed ..).asked ⟨.call (.decode _), .error cause⟩
  | turn _ s token bytes ready spelt fed hpick hmore hpiece hspell hleft hfeed rest ih =>
    refine Trail.Shown.picked ⟨_, _, _, _, _ :: _⟩ hpick ?_
    refine Trail.Shown.onward ⟨_, _, rest.chunks, _, _⟩ hmore hpiece hspell ?_ rfl
    have hcontext := State.context_of_feed hfeed
    have hdecode := State.does_of_feed hfeed
    rw [(State.spell_keeps hspell).1] at hcontext hdecode
    have hreply : inference.reply model (s.accept token).context
      (.call (.decode (Batch.ofToken token spelt.apart.position))) = Except.ok () := hdecode
    have hrest := ih (spoken ++ chunk ready)
    rw [hcontext, State.apart_of_feed hfeed] at hrest
    rw [taking, if_neg hleft, Dialogue.play_ask inference model hreply]
    have hshown := hrest.asked ⟨.call (.decode (Batch.ofToken token spelt.position)), .ok ()⟩
    exact ⟨hshown.result, hshown.chunks, hshown.calls⟩

/-- Says that a dialogue shows a run: they come to the same, and hand on and call the same. -/
structure Run.Shown (run : Run C) (p : Dialogue.Played (Except Failure Outcome)) : Prop where
  result : p.result = run.result
  chunks : p.chunks = run.chunks
  calls : p.calls = run.calls

private theorem Run.Shown.asked {run : Run C} {p : Dialogue.Played (Except Failure Outcome)}
    (h : run.Shown p) (x : Exchange) :
    { run with calls := x.call?.toList ++ run.calls }.Shown (p.after [.asked x]) where
  result := h.result
  chunks := (Dialogue.Played.chunks_asked p x).trans h.chunks
  calls := by rw [Dialogue.Played.calls_asked, h.calls]

private theorem Run.Shown.learned {run : Run C} {p : Dialogue.Played (Except Failure Outcome)}
    (h : run.Shown p) {x : Exchange} (hcall : x.call? = none) :
    run.Shown (p.after [.asked x]) := by
  have hasked := h.asked x
  rw [hcall] at hasked
  exact hasked

private theorem shown_early (context : C) (result : Except Failure Outcome) :
    (Run.early context result []).Shown ⟨result, []⟩ := ⟨rfl, rfl, rfl⟩

private theorem shown_answer (budget promptTokens : UInt32) (start : State C) :
    (answer inference model budget promptTokens start []).Shown
      ((sampling (inference.endToken model) promptTokens budget.toNat start.apart []).play inference
        model start.context) := by
  have hshown : (sampleTokens inference model budget.toNat start).Shown promptTokens [] _ :=
    shown_sampling budget.toNat start []
  exact ⟨hshown.result, hshown.chunks, hshown.calls⟩

private theorem shown_beginning_error {prompt : List Token} {context taken : C} {cause : Cause}
    (hdecode : inference.decode context (Batch.ofPrompt prompt) = (.error cause, taken))
    (allowance : UInt32) (r : Request) :
    (Run.early taken (.error (.takeIn cause)) [.decode (Batch.ofPrompt prompt)]).Shown
      ((beginning allowance r prompt).play inference model context) := by
  have hreply : inference.reply model context (.call (.decode (Batch.ofPrompt prompt))) =
    Except.error cause := congrArg Prod.fst hdecode
  rw [beginning, Dialogue.play_ask inference model hreply]
  exact (shown_early ..).asked ⟨.call (.decode _), .error cause⟩

private theorem shown_beginning_ok {prompt : List Token} {context taken : C}
    (hdecode : inference.decode context (Batch.ofPrompt prompt) = (.ok (), taken))
    (allowance : UInt32) (r : Request) :
    (answer inference model allowance (UInt32.ofNat prompt.length)
      (State.afterPrompt r prompt taken) [.decode (Batch.ofPrompt prompt)]).Shown
      ((beginning allowance r prompt).play inference model context) := by
  have hreply : inference.reply model context (.call (.decode (Batch.ofPrompt prompt))) =
    Except.ok () := congrArg Prod.fst hdecode
  have htaken : inference.afterQuestion context (.call (.decode (Batch.ofPrompt prompt))) = taken :=
    congrArg Prod.snd hdecode
  rw [beginning, Dialogue.play_ask inference model hreply, htaken]
  have hanswer : (answer inference model allowance (UInt32.ofNat prompt.length)
    (State.afterPrompt r prompt taken) []).Shown _ := shown_answer ..
  exact (hanswer.learned rfl).asked ⟨.call (.decode _), .ok ()⟩

/-- A run is what its dialogue comes to. -/
theorem shown_run (inference : Inference M C) (model : M) (outputLimit : UInt32) (r : Request)
    (context : C) :
    (run inference model outputLimit r context).Shown
      ((dialogue outputLimit r).play inference model context) := by
  unfold run runWith dialogue
  dsimp only
  by_cases hbudget : r.budget outputLimit = 0
  · rw [if_pos hbudget, if_pos hbudget]
    exact shown_early ..
  · rw [if_neg hbudget, if_neg hbudget]
    rcases htokenized : inference.tokenize model r.prompt with cause | ⟨⟩ | ⟨first, more⟩ <;>
      dsimp only <;>
      rw [Dialogue.play_ask inference model
        (show inference.reply model context (.tokenize r.prompt) = _ from htokenized)]
    · exact (shown_early ..).learned rfl
    · exact (shown_early ..).learned rfl
    · refine Run.Shown.learned ?_ rfl
      change Run.Shown _ ((prompting _ r (first :: more)).play inference model context)
      generalize first :: more = prompt
      refine Run.Shown.learned ?_ rfl
      change Run.Shown _
        (Dialogue.play inference model (if inference.window context ≤ _ then _ else _) context)
      split
      next => exact shown_early ..
      next =>
        rcases hdecode : inference.decode (inference.clear context) (Batch.ofPrompt prompt) with
          ⟨cause | ⟨⟩, taken⟩
        · exact (shown_beginning_error hdecode _ r).asked ⟨.call .clear, ()⟩
        · exact (shown_beginning_ok hdecode _ r).asked ⟨.call .clear, ()⟩

end Play

section Refused

variable {M' C' : Type}

/-- A run that is refused something fails for it at once: it has handed on all by then that it ever
hands on. Any other run that is given the same replies up to the refusal has handed on the same by
then, so what it hands on in all begins with it, whatever it is given instead. -/
theorem run_refused (inference : Inference M C) (model : M) (context : C)
    (inference' : Inference M' C') (model' : M') (context' : C') (outputLimit : UInt32)
    (r : Request) {before after : List Dialogue.Event} {x : Exchange} {reply : x.question.Reply}
    (hlog : ((dialogue outputLimit r).play inference model context).log =
      before ++ .asked x :: after)
    (hrefused : x.Refused)
    (halike : inference'.Gives model' context'
      (before.filterMap Dialogue.Event.exchange? ++ [⟨x.question, reply⟩])) :
    let failing := run inference model outputLimit r context
    let other := run inference' model' outputLimit r context'
    let played := (dialogue outputLimit r).play inference' model' context'
    failing.Shown ((dialogue outputLimit r).play inference model context) ∧
      other.Shown played ∧
      (∃ after', played.log = before ++ .asked ⟨x.question, reply⟩ :: after') ∧
      after = [] ∧
      failing.chunks = before.filterMap Dialogue.Event.chunk? ∧
      (∃ failure, failing.result = .error failure ∧ failure.Reports x) ∧
      failing.chunks <+: other.chunks := by
  intro failing other played
  have hfailing : failing.Shown _ := shown_run inference model outputLimit r context
  have hother : other.Shown played := shown_run inference' model' outputLimit r context'
  obtain ⟨rfl, failure, hreports, hresult⟩ :=
    (careful_dialogue outputLimit r).refused hlog hrefused
  obtain ⟨after', hlog'⟩ := Dialogue.play_alike hlog halike
  have hchunks : failing.chunks = before.filterMap Dialogue.Event.chunk? := by
    rw [← hfailing.chunks, Dialogue.Played.chunks, hlog, List.filterMap_append]
    exact List.append_nil _
  have hchunks' : other.chunks = before.filterMap Dialogue.Event.chunk? ++
      after'.filterMap Dialogue.Event.chunk? := by
    rw [← hother.chunks, Dialogue.Played.chunks, hlog', List.filterMap_append]
    rfl
  refine ⟨hfailing, hother, ⟨after', hlog'⟩, rfl, hchunks, ⟨failure, ?_, hreports⟩, ?_⟩
  · rw [← hfailing.result, hresult]
  · rw [hchunks, hchunks']
    exact List.prefix_append ..

end Refused

/-- A context that refuses its third batch. -/
def breaking : Inference Unit Nat :=
  { cutting with
    decode := fun taken b =>
      if taken = 2 then (.error ⟨["gone"]⟩, taken) else cutting.decode taken b }

def openRequest : Request := { prompt := "x", stops := some ["EX"] }

def breakingEvents : List Dialogue.Event :=
  [.asked ⟨.tokenize "x", .ok [4]⟩, .asked ⟨.window, (16 : UInt32)⟩, .asked ⟨.call .clear, ()⟩,
    .asked ⟨.call (.decode (Batch.ofPrompt [4])), .ok ()⟩, .asked ⟨.endToken, (0 : Token)⟩,
    .asked ⟨.call (.logits 0), cutting.logits 1 0⟩, .asked ⟨.piece 1, .ok [0x61, 0xC3]⟩, .told "a",
    .asked ⟨.call (.decode (Batch.ofToken 1 1)), .ok ()⟩,
    .asked ⟨.call (.logits 0), cutting.logits 2 0⟩, .asked ⟨.piece 2, .ok [0xA9, 0x45]⟩, .told "é"]

theorem run_refused_breaking :
    let x : Exchange := ⟨.call (.decode (Batch.ofToken 2 2)), .error ⟨["gone"]⟩⟩
    ((dialogue 8 openRequest).play breaking () 0).log = breakingEvents ++ [.asked x] ∧
      x.Refused ∧
      cutting.Gives () 0 (breakingEvents.filterMap Dialogue.Event.exchange? ++
        [⟨x.question, .ok ()⟩]) ∧
      (run breaking () 8 openRequest 0).chunks = ["a", "é"] ∧
      (∃ failure, (run breaking () 8 openRequest 0).result = .error failure ∧
        failure.Reports x) ∧
      (run cutting () 8 openRequest 0).chunks = ["a", "é", "END", "ND"] := by
  intro x
  have hlog : ((dialogue 8 openRequest).play breaking () 0).log =
      breakingEvents ++ [.asked x] := by
    decide +kernel
  have hrefused : x.Refused := ⟨⟨["gone"]⟩, rfl⟩
  have halike : cutting.Gives () 0 (breakingEvents.filterMap Dialogue.Event.exchange? ++
      [⟨x.question, .ok ()⟩]) := by
    decide +kernel
  obtain ⟨-, -, -, -, hchunks, hresult, -⟩ :=
    run_refused breaking () 0 cutting () 0 8 openRequest hlog hrefused halike
  exact ⟨hlog, hrefused, halike, hchunks, hresult, by decide +kernel⟩

end ModelHost.Completion
