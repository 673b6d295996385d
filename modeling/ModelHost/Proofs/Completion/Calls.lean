import ModelHost.Completion.Run
import ModelHost.Proofs.Completion.Trail

/-!
The calls of an answer. A context that has taken in the prompt is asked for the logits of its last
token; every token that is sampled after it, but the last one, is taken in by itself at the next
place, and then asked for in its turn. Nothing but these calls changes the context, so an answer
that the context does not serve ends with the call that failed.
-/

namespace ModelHost

inductive Batch.HoldEach : List Batch → List Token → Nat → Prop
  | nil {place : Nat} : HoldEach [] [] place
  | cons {b : Batch} {batches : List Batch} {token : Token} {text : List Token} {place : Nat}
      (hfirst : b.Holds [token] place) (hrest : HoldEach batches text (place + 1)) :
    HoldEach (b :: batches) (token :: text) place

namespace Completion

variable {M C : Type} {inference : Inference M C} {model : M}

/-- Says whether it was the context that failed: it refused a batch, or it had no logits. -/
def Failure.ofContext : Failure → Bool
  | .takeIn _ | .noLogits _ | .emptyLogits | .decode .. => true
  | .tokenize _ | .noTokens | .tooLong .. | .spell .. => false

/-- What the calls of a trail are like that goes on from a state, with the tokens it takes in. -/
structure Trail.Takes (window : UInt32) (left : Nat) (s : State C) (text : List Token)
    (trail : Trail C) : Prop where
  inOrder : ∀ latest : Batch, latest.scored = [s.index] →
    Session.InOrder window ⟨s.position.toNat, some latest⟩ trail.calls
  uncleared : .clear ∉ trail.calls
  batches : Batch.HoldEach (Call.batches trail.calls) text s.position.toNat
  sampled : trail.sampled = text ∨ ∃ last, trail.sampled = text ++ [last]
  /-- The last token of an answer is not taken in. -/
  last : left ≠ 0 → (∀ failure, trail.ending ≠ .failed failure) →
    ∃ last, trail.sampled = text ++ [last]

private theorem inOrder_logits {window : UInt32} {taken index : Nat} {latest : Batch}
    (h : latest.scored = [index]) :
    Session.InOrder window ⟨taken, some latest⟩ [.logits index] :=
  ⟨⟨latest, rfl, h⟩, trivial⟩

private theorem inOrder_turn {window place : UInt32} {index : Nat} {latest : Batch} {token : Token}
    {calls : List Call} (h : latest.scored = [index]) (hplace : place < window)
    (hcalls : Session.InOrder window ⟨place.toNat + 1, some (Batch.ofToken token place)⟩ calls) :
    Session.InOrder window ⟨place.toNat, some latest⟩
      (.logits index :: .decode (Batch.ofToken token place) :: calls) :=
  ⟨⟨latest, rfl, h⟩, Batch.continues_ofToken token hplace, hcalls⟩

private theorem takes_of_asked {window : UInt32} {left : Nat} {s : State C} {trail : Trail C}
    (hcalls : trail.calls = [.logits s.index]) {token : Token}
    (hsampled : trail.sampled = [token]) :
    trail.Takes window left s [] where
  inOrder latest hlatest := by
    rw [hcalls]
    exact inOrder_logits hlatest
  uncleared := by simp [hcalls]
  batches := by
    rw [hcalls]
    exact .nil
  sampled := .inr ⟨token, hsampled⟩
  last _ _ := ⟨token, hsampled⟩

private theorem takes_of_refused {window : UInt32} {left : Nat} {s : State C} {trail : Trail C}
    (hplace : s.position < window) {token : Token} {failure : Failure}
    (hending : trail.ending = .failed failure) (hsampled : trail.sampled = [token])
    (hcalls : trail.calls = [.logits s.index, .decode (Batch.ofToken token s.position)]) :
    trail.Takes window left s [token] where
  inOrder latest hlatest := by
    rw [hcalls]
    exact inOrder_turn hlatest hplace trivial
  uncleared := by simp [hcalls]
  batches := by
    rw [hcalls]
    exact .cons (Batch.holds_ofToken token s.position) .nil
  sampled := .inl hsampled
  last _ h := absurd hending (h failure)

theorem toNat_add_one {count : UInt32} (h : count.toNat + 1 < UInt32.size) :
    (count + 1).toNat = count.toNat + 1 := by
  rw [UInt32.toNat_add]
  exact Nat.mod_eq_of_lt h

theorem add_one_lt_size {place window : UInt32} (h : place < window) :
    place.toNat + 1 < UInt32.size := by
  have hlt := UInt32.lt_iff_toNat_lt.mp h
  have hsize := window.toNat_lt_size
  omega

private theorem Trail.Takes.turn {window : UInt32} {left : Nat} {s fed : State C}
    {text : List Token} {rest trail : Trail C} (h : rest.Takes window left fed text)
    (hleft : left ≠ 0) (hplace : s.position < window) (hindex : fed.index = 0)
    (hposition : fed.position = s.position + 1) {token : Token}
    (hending : trail.ending = rest.ending)
    (hsampled : trail.sampled = token :: rest.sampled)
    (hcalls : trail.calls =
      .logits s.index :: .decode (Batch.ofToken token s.position) :: rest.calls) :
    trail.Takes window (left + 1) s (token :: text) := by
  have hplaces : fed.position.toNat = s.position.toNat + 1 := by
    rw [hposition, toNat_add_one (add_one_lt_size hplace)]
  constructor
  · intro latest hlatest
    have hrest := h.inOrder (Batch.ofToken token s.position) (by simp [hindex])
    rw [hplaces] at hrest
    rw [hcalls]
    exact inOrder_turn hlatest hplace hrest
  · simpa [hcalls] using h.uncleared
  · have hrest := h.batches
    rw [hplaces] at hrest
    rw [hcalls]
    exact .cons (Batch.holds_ofToken token s.position) hrest
  · rw [hsampled]
    rcases h.sampled with hall | ⟨last, hlast⟩
    · exact .inl (by rw [hall])
    · exact .inr ⟨last, by rw [hlast]; rfl⟩
  · intro _ hended
    rw [hending] at hended
    obtain ⟨last, hlast⟩ := h.last hleft hended
    exact ⟨last, by rw [hsampled, hlast]; rfl⟩

theorem sampleTokens_takes {window : UInt32} (left : Nat) (s : State C)
    (hroom : s.position.toNat + left ≤ window.toNat + 1) :
    ∃ text, (sampleTokens inference model left s).Takes window left s text := by
  -- Only a turn with a token left to spend after it takes one in, so `hroom` keeps its place in the
  -- window.
  induction left, s using sampleTokens_induction inference model with
  | spent s => exact ⟨[], fun _ _ => trivial, by simp, .nil, .inl rfl, by simp⟩
  | unpicked =>
    exact ⟨[], fun _ => inOrder_logits, by simp, .nil, .inl rfl, fun _ h => absurd rfl (h _)⟩
  | ended | unspelt | stopped | last => exact ⟨[], takes_of_asked rfl rfl⟩
  | unfed _ s token _ _ spelt _ _ _ _ _ hspell hleft _ =>
    have hplace : s.position < window := UInt32.lt_iff_toNat_lt.mpr (by omega)
    have hspelt : spelt.position = s.position := (State.spell_keeps hspell).2.1
    exact ⟨[token], takes_of_refused hplace rfl rfl (by rw [← hspelt])⟩
  | turn _ s token _ _ spelt fed _ _ _ hspell hleft hfeed rest ih =>
    have hplace : s.position < window := UInt32.lt_iff_toNat_lt.mpr (by omega)
    have hspelt : spelt.position = s.position := (State.spell_keeps hspell).2.1
    obtain ⟨hposition, hindex, -⟩ := State.feed_ok hfeed
    rw [hspelt] at hposition
    have hplaces := toNat_add_one (add_one_lt_size hplace)
    obtain ⟨text, hrest⟩ := ih (by rw [hposition]; omega)
    refine ⟨token :: text, hrest.turn hleft hplace hindex hposition rfl rfl ?_⟩
    rw [← hspelt]

theorem context_sampleTokens (left : Nat) (s : State C) :
    (sampleTokens inference model left s).state.context =
      inference.after s.context (sampleTokens inference model left s).calls := by
  induction left, s using sampleTokens_induction inference model with
  | spent | unpicked | ended | unspelt => rfl
  | stopped _ _ _ _ _ _ _ _ _ hspell | last _ _ _ _ _ _ _ _ hspell =>
    exact (State.spell_keeps hspell).1
  | unfed _ _ _ _ _ _ _ _ _ _ _ hspell _ hfeed =>
    rw [State.context_of_feed hfeed, (State.spell_keeps hspell).1]
    rfl
  | turn _ _ _ _ _ _ _ _ _ _ hspell _ hfeed rest ih =>
    rw [State.context_of_feed hfeed, (State.spell_keeps hspell).1] at ih
    exact ih

theorem sampleTokens_failed {left : Nat} {s : State C} {failure : Failure}
    (hfailed : (sampleTokens inference model left s).ending = .failed failure)
    (hcontext : failure.ofContext = true) :
    ∃ past call, (sampleTokens inference model left s).calls = past ++ [call] ∧
      ¬ inference.Does (inference.after s.context past) call := by
  induction left, s using sampleTokens_induction inference model with
  | spent | ended | stopped | last => cases hfailed
  | unspelt =>
    obtain rfl := Ending.failed.inj hfailed
    cases hcontext
  | unpicked _ s _ hpick => exact ⟨[], .logits s.index, rfl, State.pick_error hpick⟩
  | unfed _ s token _ _ spelt _ _ _ _ _ hspell _ hfeed =>
    have hrefused := State.feed_error hfeed
    rw [(State.spell_keeps hspell).1] at hrefused
    exact ⟨[.logits s.index], .decode (Batch.ofToken token spelt.position), rfl, hrefused⟩
  | turn _ s token _ _ spelt _ _ _ _ hspell _ hfeed rest ih =>
    obtain ⟨past, call, hcalls, hrefused⟩ := ih hfailed
    rw [State.context_of_feed hfeed, (State.spell_keeps hspell).1] at hrefused
    exact ⟨.logits s.index :: .decode (Batch.ofToken token spelt.position) :: past, call,
      by simp [hcalls], hrefused⟩

theorem answer_eq_error_iff {budget promptTokens : UInt32} {start : State C} {calls : List Call}
    {failure : Failure} :
    (answer inference model budget promptTokens start calls).result = .error failure ↔
      (sampleTokens inference model budget.toNat start).ending = .failed failure := by
  simp only [answer_eq, Trail.toRun, Trail.conclude]
  split
  next => simp_all [Except.map]
  next => simp_all [Except.map]
  next => split <;> simp_all [Except.map]

section Run

/-- Says that there are tokens to spend on a request, and that its prompt comes to tokens that leave
room in the window. -/
structure Request.Fits (r : Request) (inference : Inference M C) (model : M) (outputLimit : UInt32)
    (context : C) (prompt : List Token) : Prop where
  budget : r.budget outputLimit ≠ 0
  tokenized : inference.tokenize model r.prompt = .ok prompt
  nonempty : prompt ≠ []
  room : prompt.length < (inference.window context).toNat

/-- Says the same of the length as far as 32 bits hold it, which is all that a run goes by. -/
structure Request.Passes (r : Request) (inference : Inference M C) (model : M)
    (outputLimit : UInt32) (context : C) (prompt : List Token) : Prop where
  budget : r.budget outputLimit ≠ 0
  tokenized : inference.tokenize model r.prompt = .ok prompt
  nonempty : prompt ≠ []
  room : heldLength prompt < (inference.window context).toNat

variable {outputLimit : UInt32} {r : Request} {context : C} {prompt : List Token}

/-- The most tokens that there is room for, with the last one that takes none. -/
def Request.allowance (r : Request) (outputLimit window : UInt32) (prompt : List Token) : UInt32 :=
  min (r.budget outputLimit) (window - UInt32.ofNat prompt.length + 1)

private theorem toNat_sub_length {window : UInt32} (h : prompt.length < window.toNat) :
    (window - UInt32.ofNat prompt.length).toNat = window.toNat - prompt.length := by
  have hlength := toNat_length (Nat.le_of_lt h)
  have hle : UInt32.ofNat prompt.length ≤ window := by
    rw [UInt32.le_iff_toNat_le, hlength]
    omega
  rw [UInt32.toNat_sub_of_le _ _ hle, hlength]

theorem sub_length_lt {window : UInt32} (h : prompt.length < window.toNat) (hsome : prompt ≠ []) :
    window - UInt32.ofNat prompt.length < window := by
  have hpos := List.length_pos_iff.mpr hsome
  rw [UInt32.lt_iff_toNat_lt, toNat_sub_length h]
  omega

private theorem toNat_room {window : UInt32} (h : prompt.length < window.toNat)
    (hsome : prompt ≠ []) :
    (window - UInt32.ofNat prompt.length + 1).toNat = window.toNat - prompt.length + 1 := by
  rw [toNat_add_one (add_one_lt_size (sub_length_lt h hsome)), toNat_sub_length h]

theorem toNat_min (a b : UInt32) : (min a b).toNat = min a.toNat b.toNat := by
  change (if a ≤ b then a else b).toNat = _
  split
  next h => rw [Nat.min_eq_left (UInt32.le_iff_toNat_le.mp h)]
  next h => rw [Nat.min_eq_right (Nat.le_of_not_le (mt UInt32.le_iff_toNat_le.mpr h))]

theorem Request.Passes.run_eq (h : r.Passes inference model outputLimit context prompt) :
    run inference model outputLimit r context =
    let calls := [.clear, .decode (Batch.ofPrompt prompt)]
    match inference.decode (inference.clear context) (Batch.ofPrompt prompt) with
    | (.error cause, taken) => Run.early taken (.error (.takeIn cause)) calls
    | (.ok (), taken) =>
      answer inference model (r.allowance outputLimit (inference.window context) prompt)
        (UInt32.ofNat prompt.length) (State.afterPrompt r prompt taken) calls := by
  obtain ⟨first, more, rfl⟩ := List.exists_cons_of_ne_nil h.nonempty
  have hfree : ¬ inference.window context ≤ UInt32.ofNat (first :: more).length := by
    rw [UInt32.le_iff_toNat_le, toNat_ofNat_length]
    exact Nat.not_le_of_lt h.room
  unfold run runWith
  simp only [if_neg h.budget, h.tokenized, if_neg hfree]
  rfl

namespace Request.Fits

variable (h : r.Fits inference model outputLimit context prompt)

include h

theorem toNat_allowance :
    (r.allowance outputLimit (inference.window context) prompt).toNat =
      min (r.budget outputLimit).toNat ((inference.window context).toNat - prompt.length + 1) := by
  rw [Request.allowance, toNat_min, toNat_room h.room h.nonempty]

theorem allowance_pos :
    0 < (r.allowance outputLimit (inference.window context) prompt).toNat := by
  have hbudget : (r.budget outputLimit).toNat ≠ 0 := fun hzero =>
    h.budget (UInt32.toNat_inj.mp (hzero.trans UInt32.toNat_zero.symm))
  rw [h.toNat_allowance]
  omega

theorem length_add_allowance_le :
    prompt.length + (r.allowance outputLimit (inference.window context) prompt).toNat ≤
      (inference.window context).toNat + 1 := by
  have hroom := h.room
  rw [h.toNat_allowance]
  omega

theorem passes : r.Passes inference model outputLimit context prompt :=
  ⟨h.budget, h.tokenized, h.nonempty, Nat.lt_of_le_of_lt (Nat.mod_le _ _) h.room⟩

theorem run_eq : run inference model outputLimit r context =
    let calls := [.clear, .decode (Batch.ofPrompt prompt)]
    match inference.decode (inference.clear context) (Batch.ofPrompt prompt) with
    | (.error cause, taken) => Run.early taken (.error (.takeIn cause)) calls
    | (.ok (), taken) =>
      answer inference model (r.allowance outputLimit (inference.window context) prompt)
        (UInt32.ofNat prompt.length) (State.afterPrompt r prompt taken) calls := h.passes.run_eq

end Request.Fits

/-- A run of a request that does not pass ends before the context is touched. -/
theorem run_kept_out (h : ∀ prompt, ¬ r.Passes inference model outputLimit context prompt) :
    ∃ result, run inference model outputLimit r context = Run.early context result [] ∧
      (r.budget outputLimit ≠ 0 → ∃ failure, result = .error failure) ∧
      ∀ failure, result = .error failure → failure.ofContext = false := by
  unfold run runWith
  dsimp only
  split
  next hnone => exact ⟨_, rfl, fun hsome => absurd hnone hsome, nofun⟩
  next hbudget =>
    split
    next => exact ⟨_, rfl, fun _ => ⟨_, rfl⟩, fun _ heq => by cases heq; rfl⟩
    next => exact ⟨_, rfl, fun _ => ⟨_, rfl⟩, fun _ heq => by cases heq; rfl⟩
    next prompt hsome htokenized =>
      have hfull : inference.window context ≤ UInt32.ofNat prompt.length := by
        rw [UInt32.le_iff_toNat_le, toNat_ofNat_length]
        apply Nat.le_of_not_lt
        intro hroom
        exact h prompt ⟨hbudget, htokenized, by simpa using hsome, hroom⟩
      rw [if_pos hfull]
      exact ⟨_, rfl, fun _ => ⟨_, rfl⟩, fun _ heq => by cases heq; rfl⟩

theorem run_early (hlength : ∀ prompt, inference.tokenize model r.prompt = .ok prompt →
      prompt.length < UInt32.size)
    (h : ∀ prompt, ¬ r.Fits inference model outputLimit context prompt) :
    ∃ result, run inference model outputLimit r context = Run.early context result [] ∧
      ∀ failure, result = .error failure → failure.ofContext = false := by
  have hnone : ∀ prompt, ¬ r.Passes inference model outputLimit context prompt := by
    intro prompt hpasses
    refine h prompt ⟨hpasses.budget, hpasses.tokenized, hpasses.nonempty, ?_⟩
    rw [← heldLength_eq (hlength prompt hpasses.tokenized)]
    exact hpasses.room
  obtain ⟨result, hrun, -, hresult⟩ := run_kept_out hnone
  exact ⟨result, hrun, hresult⟩

structure Run.Takes (window : UInt32) (prompt text : List Token) (run : Run C) : Prop where
  inOrder : Session.InOrder window {} run.calls
  cleared : ∃ calls, run.calls = .clear :: calls ∧ .clear ∉ calls
  batches : ∃ first more, Call.batches run.calls = first :: more ∧ first.Holds prompt 0 ∧
    Batch.HoldEach more text prompt.length
  sampled : run.sampled = text ∨ ∃ last, run.sampled = text ++ [last]
  last : ∀ outcome, run.result = .ok outcome → ∃ last, run.sampled = text ++ [last]

theorem Request.Fits.takes (h : r.Fits inference model outputLimit context prompt) :
    ∃ text, (run inference model outputLimit r context).Takes (inference.window context) prompt
      text := by
  have hfirst : (Batch.ofPrompt prompt).Continues (inference.window context) 0 :=
    Batch.continues_ofPrompt (Nat.le_of_lt h.room)
  have hholds : (Batch.ofPrompt prompt).Holds prompt 0 :=
    Batch.holds_ofPrompt h.nonempty (Nat.lt_trans h.room (UInt32.toNat_lt_size _))
  rw [h.run_eq]
  dsimp only
  split
  next =>
    exact ⟨[], ⟨trivial, hfirst, trivial⟩, ⟨_, rfl, by simp⟩, ⟨_, _, rfl, hholds, .nil⟩, .inl rfl,
      nofun⟩
  next taken _ =>
    generalize hallowance : r.allowance outputLimit (inference.window context) prompt = allowance
    have hplace : (State.afterPrompt r prompt taken).position.toNat = prompt.length :=
      toNat_length (Nat.le_of_lt h.room)
    have htakes : ∃ text, (sampleTokens inference model allowance.toNat
        (State.afterPrompt r prompt taken)).Takes (inference.window context) allowance.toNat
        (State.afterPrompt r prompt taken) text := by
      apply sampleTokens_takes
      rw [hplace, ← hallowance]
      exact h.length_add_allowance_le
    obtain ⟨text, htrail⟩ := htakes
    have hinOrder := htrail.inOrder (Batch.ofPrompt prompt) hholds.scored
    have hbatches := htrail.batches
    rw [hplace] at hinOrder hbatches
    rw [answer_eq]
    refine ⟨text, ⟨trivial, hfirst, ?_⟩, ⟨_, rfl, ?_⟩, ⟨_, _, rfl, hholds, hbatches⟩,
      htrail.sampled, ?_⟩
    · simpa [Session.after, Batch.size_ofPrompt] using hinOrder
    · simpa using htrail.uncleared
    · intro outcome hok
      apply htrail.last (hallowance ▸ Nat.ne_of_gt h.allowance_pos)
      intro failure hfailed
      rw [← answer_eq, answer_eq_error_iff.mpr hfailed] at hok
      cases hok

theorem context_run (inference : Inference M C) (model : M) (outputLimit : UInt32) (r : Request)
    (context : C) :
    (run inference model outputLimit r context).context =
      inference.after context (run inference model outputLimit r context).calls := by
  by_cases hpasses : ∃ prompt, r.Passes inference model outputLimit context prompt
  · obtain ⟨prompt, h⟩ := hpasses
    rw [h.run_eq]
    dsimp only
    split
    next hdecode => simp [Run.early, Inference.afterCall, hdecode]
    next taken hdecode =>
      simp only [answer_eq, Trail.toRun, context_sampleTokens, Inference.after_append]
      simp [State.afterPrompt, Inference.afterCall, hdecode]
  · obtain ⟨result, hrun, -⟩ := run_kept_out (not_exists.mp hpasses)
    rw [hrun]
    rfl

theorem Request.Fits.failed (h : r.Fits inference model outputLimit context prompt)
    {failure : Failure}
    (hfailed : (run inference model outputLimit r context).result = .error failure)
    (hcontext : failure.ofContext = true) :
    ∃ past call, (run inference model outputLimit r context).calls = .clear :: (past ++ [call]) ∧
      ¬ inference.Does (inference.after (inference.clear context) past) call := by
  rw [h.run_eq] at hfailed ⊢
  dsimp only at hfailed ⊢
  split at hfailed
  next hdecode =>
    exact ⟨[], .decode (Batch.ofPrompt prompt), rfl, by simp [Inference.Does, hdecode]⟩
  next taken hdecode =>
    obtain ⟨past, call, hcalls, hrefused⟩ :=
      sampleTokens_failed (answer_eq_error_iff.mp hfailed) hcontext
    refine ⟨.decode (Batch.ofPrompt prompt) :: past, call, ?_, ?_⟩
    · simp [answer_eq, Trail.toRun, hcalls]
    · simpa [State.afterPrompt, Inference.afterCall, hdecode] using hrefused

theorem Request.Fits.served (h : r.Fits inference model outputLimit context prompt)
    (hserves : inference.Serves context) {failure : Failure}
    (hfailed : (run inference model outputLimit r context).result = .error failure) :
    failure.ofContext = false := by
  obtain ⟨text, htakes⟩ := h.takes
  apply eq_false_of_ne_true
  intro hcontext
  obtain ⟨past, call, hcalls, hrefused⟩ := h.failed hfailed hcontext
  have hinOrder := htakes.inOrder
  rw [hcalls] at hinOrder
  exact hrefused (hserves past call hinOrder.2)

end Run

end Completion

end ModelHost
