import ModelHost.Proofs.Completion.Calls
import ModelHost.Proofs.Text.Stops
import ModelHost.Proofs.Text.Utf8
import ModelHost.Proofs.Traverse

/-!
The text of an answer. What a trail hands on is what a gate lets through of the fragments that the
bytes of its tokens complete. So the text of an answer is the reading of all bytes of its tokens,
unless a stop text appears in it: then it is the part before the first one.
-/

namespace ModelHost.Completion

variable {M C : Type}

theorem flatMap_chunk_toList (readies : List (List Char)) :
    (readies.flatMap chunk).flatMap String.toList = readies.flatten := by
  induction readies with
  | nil => rfl
  | cons ready readies ih =>
    rw [List.flatMap_cons, List.flatMap_append, ih, List.flatten_cons]
    congr 1
    by_cases hready : ready = [] <;> simp [chunk, hready]

private theorem ne_empty_of_mem_chunk {ready : List Char} {c : String} (h : c ∈ chunk ready) :
    c ≠ "" := by
  unfold chunk at h
  split at h
  next => simp at h
  next hready =>
    rw [List.mem_singleton] at h
    rintro rfl
    exact hready (by simpa using congrArg String.toList h.symm)

section Trail

variable {inference : Inference M C} {model : M}

def Trail.gate? (trail : Trail C) : Option Text.StopGate :=
  if trail.ending = .stopped then none else some trail.state.gate

/-- Says that a trail hands on what the gate at its start lets through of the text that its tokens
spell, where the token that ends a text spells nothing. -/
structure Trail.Passes (inference : Inference M C) (model : M) (s : State C) (trail : Trail C)
    (pieces : List (List UInt8)) (readies : List (List Char)) : Prop where
  spelt : (trail.sampled.filter (· ≠ inference.endToken model)).mapM (inference.piece model) =
    .ok pieces
  chunks : trail.chunks = readies.flatMap chunk
  gate : s.gate.pushAll (s.joiner.pushAll pieces).1 = (readies, trail.gate?)
  joiner : trail.ending ≠ .stopped → trail.state.joiner = (s.joiner.pushAll pieces).2
  stopped : trail.ending = .stopped →
    inference.endToken model ∉ trail.sampled ∧ readies.length = trail.sampled.length

private theorem spelt_cons {token : Token} {sampled : List Token} {bytes : List UInt8}
    {pieces : List (List UInt8)} (hmore : ¬token = inference.endToken model)
    (hpiece : inference.piece model token = .ok bytes)
    (h : (sampled.filter (· ≠ inference.endToken model)).mapM (inference.piece model) =
      .ok pieces) :
    ((token :: sampled).filter (· ≠ inference.endToken model)).mapM (inference.piece model) =
      .ok (bytes :: pieces) := by
  rw [List.filter_cons_of_pos (by simpa using hmore), List.mapM_cons, hpiece, h]
  rfl

theorem sampleTokens_passes (left : Nat) (s : State C)
    (hend : ∀ failure, (sampleTokens inference model left s).ending ≠ .failed failure) :
    ∃ pieces readies,
      (sampleTokens inference model left s).Passes inference model s pieces readies := by
  induction left, s using sampleTokens_induction inference model with
  | spent => exact ⟨[], [], rfl, rfl, rfl, fun _ => rfl, by simp⟩
  | unpicked | unspelt | unfed => exact absurd rfl (hend _)
  | ended _ _ _ _ hlast => exact ⟨[], [], by simp [hlast]; rfl, rfl, rfl, fun _ => rfl, by simp⟩
  | stopped _ _ _ bytes ready _ _ hmore hpiece hspell =>
    obtain ⟨hgate, -⟩ := State.spell_eq hspell
    exact ⟨[bytes], [ready], spelt_cons hmore hpiece rfl, by simp,
      Text.StopGate.pushAll_cons_closed hgate [], by simp,
      fun _ => ⟨by simpa using Ne.symm hmore, rfl⟩⟩
  | last _ _ bytes ready _ _ hmore hpiece hspell =>
    obtain ⟨hgate, hjoiner⟩ := State.spell_eq hspell
    exact ⟨[bytes], [ready], spelt_cons hmore hpiece rfl, by simp,
      Text.StopGate.pushAll_cons_onward hgate [], fun _ => hjoiner, by simp⟩
  | turn _ s _ bytes ready _ fed _ hmore hpiece hspell _ hfeed rest ih =>
    obtain ⟨hgate, hjoiner⟩ := State.spell_eq hspell
    obtain ⟨pieces, readies, hrest⟩ := ih hend
    obtain ⟨-, hkeptJoiner, hkeptGate⟩ := State.feed_keeps hfeed
    have hfrom : fed.joiner = (s.joiner.push bytes).2 := hkeptJoiner.trans hjoiner
    have hthrough : s.gate.push (s.joiner.push bytes).1 = (.onward ready, fed.gate) := by
      rw [hkeptGate]
      exact hgate
    refine ⟨bytes :: pieces, ready :: readies, spelt_cons hmore hpiece hrest.spelt, ?_, ?_, ?_, ?_⟩
    · exact congrArg (chunk ready ++ ·) hrest.chunks
    · have hpass := hrest.gate
      rw [hfrom] at hpass
      rw [Text.Joiner.pushAll_cons, Text.StopGate.pushAll_cons_onward hthrough, hpass]
      rfl
    · intro hopen
      have hjoined := hrest.joiner hopen
      rw [hfrom] at hjoined
      exact hjoined
    · intro hstopped
      obtain ⟨hend, hlength⟩ := hrest.stopped hstopped
      exact ⟨by simpa [Ne.symm hmore] using hend, by simpa using hlength⟩

theorem Trail.ending_ne_failed {trail : Trail C} {finish : Finish} {last : List String}
    (h : trail.conclude = (.ok finish, last)) (failure : Failure) :
    trail.ending ≠ .failed failure := by
  intro hfailed
  simp [Trail.conclude, hfailed] at h

namespace Trail.Passes

variable {stops : List (List Char)} {s : State C} {trail : Trail C} {pieces : List (List UInt8)}
  {readies : List (List Char)}

theorem cutAt_of_stopped (h : trail.Passes inference model s pieces readies)
    (hjoiner : s.joiner = .start) (hgate : s.gate = .ofStops stops)
    (hstopped : trail.ending = .stopped) :
    ∃ i, Text.CutAt stops (Text.Joiner.fragments pieces) trail.sampled.length i ∧
      readies.flatten =
        ((Text.Joiner.fragments pieces).take trail.sampled.length).flatten.take i := by
  have hclosed := h.gate
  rw [hjoiner, hgate, Trail.gate?, if_pos hstopped] at hclosed
  obtain ⟨k, hlength, hk, hnone, hsome⟩ :=
    (Text.StopGate.after_ofStops stops).pushAll_closed hclosed
  rw [Text.Joiner.length_pushAll] at hk
  rw [List.nil_append, ← Text.Joiner.take_fragments (by omega)] at hnone
  rw [List.nil_append, ← Text.Joiner.take_fragments (by omega)] at hsome
  obtain ⟨i, hcut, hfront⟩ :=
    Text.cutAt_of_before? (Text.StopGate.nil_notMem_stops stops) hnone hsome
  rw [← (h.stopped hstopped).2, hlength]
  exact ⟨i, hcut.of_filter, hfront⟩

section Open

variable (h : trail.Passes inference model s pieces readies) (hjoiner : s.joiner = .start)
  (hgate : s.gate = .ofStops stops) (hopen : trail.ending ≠ .stopped)

include h hjoiner hopen

theorem flatten_fragments :
    (Text.Joiner.fragments pieces).flatten =
      ((Text.Joiner.fragments pieces).take pieces.length).flatten ++
        trail.state.joiner.finish := by
  have hlength := Text.Joiner.length_pushAll .start pieces
  rw [Text.Joiner.take_fragments (Nat.le_refl _), List.take_of_length_le (Nat.le_of_eq hlength),
    h.joiner hopen, hjoiner]
  simp [Text.Joiner.fragments]

include hgate

theorem gate_after :
    trail.state.gate.stops = (Text.StopGate.ofStops stops).stops ∧
      trail.state.gate.After ((Text.Joiner.fragments pieces).take pieces.length).flatten ∧
      readies.flatten = Text.settled trail.state.gate.stops
        ((Text.Joiner.fragments pieces).take pieces.length).flatten := by
  have hpass := h.gate
  rw [hjoiner, hgate, Trail.gate?, if_neg hopen] at hpass
  obtain ⟨hstops, hafter, htext⟩ := (Text.StopGate.after_ofStops stops).pushAll_open hpass
  have hlength := Text.Joiner.length_pushAll .start pieces
  rw [Text.Joiner.take_fragments (Nat.le_refl _), List.take_of_length_le (Nat.le_of_eq hlength)]
  rw [List.nil_append] at hafter htext
  exact ⟨hstops, hafter, by rw [hstops]; exact htext⟩

theorem flush_onward {ready : List Char} (hflush : trail.state.flush = .onward ready) :
    readies.flatten ++ ready = Text.Utf8.lossy pieces.flatten ∧
      ∀ k i, ¬ Text.StopAt stops ((Text.Joiner.fragments pieces).take k).flatten i := by
  obtain ⟨hstops, hafter, htext⟩ := h.gate_after hjoiner hgate hopen
  have hwhole := h.flatten_fragments hjoiner hopen
  unfold State.flush at hflush
  split at hflush
  next held gate hpush =>
    obtain ⟨hstops', hflushed, hready⟩ := hafter.push_onward hpush
    rw [← hwhole] at hflushed hready
    constructor
    · rw [htext, ← Text.Passage.onward.inj hflush, ← List.append_assoc, hready, ← hstops',
        hflushed.settled_append_finish, Text.Joiner.flatten_fragments]
    · intro k i hstop
      have hnone := hflushed.unstopped
      rw [hstops', hstops] at hnone
      apply Text.not_stopAt_take (Text.StopGate.nil_notMem_stops stops) hnone k i
      exact (Text.stopAt_filter ..).mpr hstop
  next => nomatch hflush

theorem flush_closed {ready : List Char} (hflush : trail.state.flush = .closed ready) :
    ∃ i, Text.CutAt stops (Text.Joiner.fragments pieces) (pieces.length + 1) i ∧
      readies.flatten ++ ready =
        ((Text.Joiner.fragments pieces).take (pieces.length + 1)).flatten.take i := by
  obtain ⟨hstops, hafter, htext⟩ := h.gate_after hjoiner hgate hopen
  have hwhole := h.flatten_fragments hjoiner hopen
  have hall : (Text.Joiner.fragments pieces).take (pieces.length + 1) =
      Text.Joiner.fragments pieces :=
    List.take_of_length_le (Nat.le_of_eq (Text.Joiner.length_fragments pieces))
  unfold State.flush at hflush
  split at hflush
  next => nomatch hflush
  next held gate hpush =>
    have hnone := hafter.unstopped
    have hsome := hafter.push_closed hpush
    rw [hstops] at hnone
    rw [← hwhole, ← htext, hstops, ← hall] at hsome
    obtain ⟨i, hcut, hfront⟩ :=
      Text.cutAt_of_before? (Text.StopGate.nil_notMem_stops stops) hnone hsome
    exact ⟨i, hcut.of_filter, by rw [← Text.Passage.closed.inj hflush, hfront]⟩

end Open

theorem conclude_ok (h : trail.Passes inference model s pieces readies)
    (hjoiner : s.joiner = .start) (hgate : s.gate = .ofStops stops) {finish : Finish}
    {last : List String} (hconclude : trail.conclude = (.ok finish, last)) :
    ∃ flushed : List (List Char), last = flushed.flatMap chunk ∧
      (((∀ k i, ¬ Text.StopAt stops ((Text.Joiner.fragments pieces).take k).flatten i) ∧
          readies.flatten ++ flushed.flatten = Text.Utf8.lossy pieces.flatten) ∨
        ∃ k i, Text.CutAt stops (Text.Joiner.fragments pieces) k i ∧
          readies.flatten ++ flushed.flatten =
            ((Text.Joiner.fragments pieces).take k).flatten.take i ∧
          finish = .stop ∧
          (k = trail.sampled.length ∧ inference.endToken model ∉ trail.sampled ∨
            k = pieces.length + 1)) := by
  unfold Trail.conclude at hconclude
  split at hconclude
  next => simp at hconclude
  next hstopped =>
    obtain ⟨hfinish, rfl⟩ := Prod.mk.inj hconclude
    obtain ⟨i, hcut, htext⟩ := h.cutAt_of_stopped hjoiner hgate hstopped
    exact ⟨[], rfl, .inr ⟨_, i, hcut, by simpa using htext, (Except.ok.inj hfinish).symm,
      .inl ⟨rfl, (h.stopped hstopped).1⟩⟩⟩
  next hended =>
    have hopen : trail.ending ≠ .stopped := by simp [hended]
    split at hconclude
    next ready hflush =>
      obtain ⟨-, rfl⟩ := Prod.mk.inj hconclude
      obtain ⟨htext, hnone⟩ := h.flush_onward hjoiner hgate hopen hflush
      exact ⟨[ready], by simp, .inl ⟨hnone, by simpa using htext⟩⟩
    next ready hflush =>
      obtain ⟨hfinish, rfl⟩ := Prod.mk.inj hconclude
      obtain ⟨i, hcut, htext⟩ := h.flush_closed hjoiner hgate hopen hflush
      exact ⟨[ready], by simp, .inr ⟨_, i, hcut, by simpa using htext,
        (Except.ok.inj hfinish).symm, .inr rfl⟩⟩

end Trail.Passes

end Trail

/-- A run with tokens to spend that gives an answer has taken in a prompt that fits. -/
theorem run_eq_answer {inference : Inference M C} {model : M} {outputLimit : UInt32} {r : Request}
    {context : C} {outcome : Outcome} (hbudget : r.budget outputLimit ≠ 0)
    (hrun : (run inference model outputLimit r context).result = .ok outcome) :
    ∃ tokens taken, inference.tokenize model r.prompt = .ok tokens ∧ tokens ≠ [] ∧
      UInt32.ofNat tokens.length < inference.window context ∧
      inference.decode (inference.clear context) (Batch.ofPrompt tokens) = (.ok (), taken) ∧
      run inference model outputLimit r context =
        answer inference model
          (min (r.budget outputLimit)
            (inference.window context - UInt32.ofNat tokens.length + 1))
          (UInt32.ofNat tokens.length) (State.afterPrompt r tokens taken)
          [.clear, .decode (Batch.ofPrompt tokens)] := by
  by_cases hpasses : ∃ prompt, r.Passes inference model outputLimit context prompt
  · obtain ⟨prompt, h⟩ := hpasses
    have hroom : UInt32.ofNat prompt.length < inference.window context := by
      rw [UInt32.lt_iff_toNat_lt, toNat_ofNat_length]
      exact h.room
    rw [h.run_eq] at hrun ⊢
    rcases hdecode : inference.decode (inference.clear context) (Batch.ofPrompt prompt) with
      ⟨cause | ⟨⟩, taken⟩
    · simp [hdecode, Run.early] at hrun
    · exact ⟨prompt, taken, h.tokenized, h.nonempty, hroom, hdecode, rfl⟩
  · obtain ⟨result, hearly, hfailed, -⟩ := run_kept_out (not_exists.mp hpasses)
    obtain ⟨failure, rfl⟩ := hfailed hbudget
    rw [hearly] at hrun
    cases hrun

theorem answer_ok {inference : Inference M C} {model : M} {budget promptTokens : UInt32}
    {start : State C} {calls : List Call} {outcome : Outcome}
    (h : (answer inference model budget promptTokens start calls).result = .ok outcome) :
    ∃ finish last,
      (sampleTokens inference model budget.toNat start).conclude = (.ok finish, last) ∧
        outcome.text =
          String.join ((sampleTokens inference model budget.toNat start).chunks ++ last) ∧
        outcome.finish = finish ∧
        (answer inference model budget promptTokens start calls).chunks =
          (sampleTokens inference model budget.toNat start).chunks ++ last := by
  obtain ⟨finish, hfinish, rfl⟩ := map_eq_ok_iff.mp h
  exact ⟨finish, _, Prod.ext hfinish rfl, rfl, rfl, rfl⟩

/-- The text of an answer is the reading of all bytes of its tokens, or the part of it before the
first stop text; then nothing is sampled after the token that completes the stop text. -/
theorem run_text (inference : Inference M C) (model : M) (outputLimit : UInt32) (r : Request)
    (context : C) (outcome : Outcome) (hbudget : 0 < r.budget outputLimit)
    (hrun : (run inference model outputLimit r context).result = .ok outcome) :
    let run := run inference model outputLimit r context
    let tokens := run.sampled.filter (· ≠ inference.endToken model)
    let stops := (r.stops.getD []).map String.toList
    (∀ chunk ∈ run.chunks, chunk ≠ "") ∧ String.join run.chunks = outcome.text ∧
      ∃ pieces, tokens.mapM (inference.piece model) = .ok pieces ∧
        let fragments := Text.Joiner.fragments pieces
        ((∀ k i, ¬ Text.StopAt stops (fragments.take k).flatten i) ∧
            outcome.text = String.ofList (Text.Utf8.lossy pieces.flatten)) ∨
          ∃ k i, Text.CutAt stops fragments k i ∧
            outcome.text = String.ofList ((fragments.take k).flatten.take i) ∧
            outcome.finish = .stop ∧
            (k = tokens.length ∧ run.sampled = tokens ∨ k = tokens.length + 1) := by
  intro run tokens stops
  obtain ⟨prompt, taken, -, -, -, -, hanswer⟩ :=
    run_eq_answer (fun hzero => by simp [hzero] at hbudget) hrun
  rw [hanswer] at hrun
  obtain ⟨finish, last, hconclude, htext, rfl, hchunks⟩ := answer_ok hrun
  obtain ⟨pieces, readies, hpasses⟩ := sampleTokens_passes _ _ (Trail.ending_ne_failed hconclude)
  obtain ⟨flushed, hlast, hcases⟩ := hpasses.conclude_ok rfl rfl hconclude
  have hsampled : run.sampled = (sampleTokens inference model _ _).sampled :=
    congrArg Run.sampled hanswer
  have hspelt : tokens.mapM (inference.piece model) = .ok pieces := by
    simpa only [tokens, hsampled] using hpasses.spelt
  have hall : run.chunks = (readies ++ flushed).flatMap chunk := by
    rw [List.flatMap_append, ← hpasses.chunks, ← hlast, ← hchunks]
    exact congrArg Run.chunks hanswer
  have hjoined : String.join run.chunks = outcome.text := by
    rw [htext, ← hchunks]
    exact congrArg (String.join ·.chunks) hanswer
  have hdecoded : outcome.text = String.ofList (readies.flatten ++ flushed.flatten) := by
    rw [← hjoined, ← String.toList_inj, String.toList_join, hall, flatMap_chunk_toList,
      List.flatten_append, String.toList_ofList]
  refine ⟨?_, hjoined, pieces, hspelt, ?_⟩
  · intro c hc
    rw [hall] at hc
    obtain ⟨ready, -, hready⟩ := List.mem_flatMap.mp hc
    exact ne_empty_of_mem_chunk hready
  · rcases hcases with ⟨hnone, hwhole⟩ | ⟨k, i, hcut, hfront, hstop, hlength⟩
    · exact .inl ⟨hnone, by rw [hdecoded, hwhole]⟩
    · refine .inr ⟨k, i, hcut, by rw [hdecoded, hfront], hstop, ?_⟩
      rcases hlength with ⟨hk, hend⟩ | hk
      · rw [← hsampled] at hk hend
        have htokens : tokens = run.sampled := by
          apply List.filter_eq_self.mpr
          intro token hmem
          have hmore : token ≠ inference.endToken model := fun htoken => hend (htoken ▸ hmem)
          simpa using hmore
        exact .inl ⟨by rw [hk, htokens], htokens.symm⟩
      · exact .inr (by rw [hk, length_of_mapM_ok hspelt])

/-- A model that writes in three pieces, with a character and a stop text cut in the middle. -/
def cutting : Inference Unit Nat where
  tokenize _ _ := .ok [4]
  piece _ token :=
    .ok (if token = 1 then [0x61, 0xC3] else if token = 2 then [0xA9, 0x45] else [0x4E, 0x44])
  endToken _ := 0
  width _ := 0
  window _ := 16
  clear _ := 0
  decode taken _ := (.ok (), taken + 1)
  logits taken _ := some ((List.replicate 5 Single.zero).set taken Single.one)
  vector _ := none

def cuttingRequest : Request := { prompt := "x", stops := some ["END", ""] }

theorem run_text_cutting :
    0 < cuttingRequest.budget 8 ∧
      (run cutting () 8 cuttingRequest 0).result = .ok ⟨"aé", 1, 3, .stop⟩ ∧
      let run := run cutting () 8 cuttingRequest 0
      let tokens := run.sampled.filter (· ≠ 0)
      (∀ chunk ∈ run.chunks, chunk ≠ "") ∧ String.join run.chunks = "aé" ∧
        ∃ pieces, tokens.mapM (cutting.piece ()) = .ok pieces ∧
          let fragments := Text.Joiner.fragments pieces
          ((∀ k i, ¬ Text.StopAt ["END".toList, []] (fragments.take k).flatten i) ∧
              "aé" = String.ofList (Text.Utf8.lossy pieces.flatten)) ∨
            ∃ k i, Text.CutAt ["END".toList, []] fragments k i ∧
              "aé" = String.ofList ((fragments.take k).flatten.take i) ∧ Finish.stop = .stop ∧
              (k = tokens.length ∧ run.sampled = tokens ∨ k = tokens.length + 1) := by
  have hbudget : 0 < cuttingRequest.budget 8 := by decide
  have houtcome : (run cutting () 8 cuttingRequest 0).result.toOption =
      some ⟨"aé", 1, 3, .stop⟩ := by
    decide +kernel
  have hrun : (run cutting () 8 cuttingRequest 0).result = .ok ⟨"aé", 1, 3, .stop⟩ := by
    cases hresult : (run cutting () 8 cuttingRequest 0).result with
    | error failure =>
      rw [hresult] at houtcome
      cases houtcome
    | ok outcome =>
      rw [hresult] at houtcome
      rw [Option.some.inj houtcome]
  exact ⟨hbudget, hrun, run_text cutting () 8 cuttingRequest 0 _ hbudget hrun⟩

end ModelHost.Completion
