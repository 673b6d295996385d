import ModelHost.Proofs.Completion.Output

/-!
How the cutting of an answer into tokens shows in its text. Whether a stop text ends an answer
depends on the bytes of the answer alone. Where it ends may also depend on the tokens: a stop text
inside of another one counts as soon as it is complete, unless the rest of the longer one comes with
the same token. No cutting shows exactly if every stop text with another one in its midst starts
with a third one.
-/

namespace ModelHost.Text

structure Delivery where
  text : List Char
  stopped : Bool
deriving DecidableEq, Repr

namespace Delivery

/-- Sends the pieces of an answer through a joiner and a gate until the gate closes. After the last
piece, what the two hold back counts as well. -/
def send (j : Joiner) (g : StopGate) : List (List UInt8) → Delivery
  | [] =>
    match g.push j.finish with
    | (.onward ready, g) => ⟨ready ++ g.finish, false⟩
    | (.closed ready, _) => ⟨ready, true⟩
  | piece :: pieces =>
    let (fragment, j) := j.push piece
    match g.push fragment with
    | (.onward ready, g) =>
      let rest := send j g pieces
      { rest with text := ready ++ rest.text }
    | (.closed ready, _) => ⟨ready, true⟩

def ofPieces (stops : List (List Char)) (pieces : List (List UInt8)) : Delivery :=
  send .start (.ofStops stops) pieces

def ofPassed : List (List Char) × Option StopGate → Delivery
  | (readies, some g) => ⟨readies.flatten ++ g.finish, false⟩
  | (readies, none) => ⟨readies.flatten, true⟩

theorem send_eq (j : Joiner) (g : StopGate) (pieces : List (List UInt8)) :
    send j g pieces =
      ofPassed (g.pushAll ((j.pushAll pieces).1 ++ [(j.pushAll pieces).2.finish])) := by
  induction pieces generalizing j g with
  | nil =>
    simp only [send, Joiner.pushAll, List.nil_append]
    split
    next ready last hpush =>
      rw [StopGate.pushAll_cons_onward hpush]
      simp [StopGate.pushAll, ofPassed]
    next ready last hpush =>
      rw [StopGate.pushAll_cons_closed hpush]
      simp [ofPassed]
  | cons piece pieces ih =>
    rw [Joiner.pushAll_cons]
    simp only [send, List.cons_append]
    split
    next ready next hpush =>
      rw [StopGate.pushAll_cons_onward hpush, ih]
      rcases next.pushAll _ with ⟨readies, _ | last⟩ <;> simp [ofPassed]
    next ready next hpush =>
      rw [StopGate.pushAll_cons_closed hpush]
      simp [ofPassed]

theorem ofPieces_eq (stops : List (List Char)) (pieces : List (List UInt8)) :
    ofPieces stops pieces = ofPassed ((StopGate.ofStops stops).pushAll (Joiner.fragments pieces)) :=
  send_eq .start (.ofStops stops) pieces

private theorem ofPieces_cases (stops : List (List Char)) (pieces : List (List UInt8)) :
    let gate := (StopGate.ofStops stops).stops
    let fragments := Joiner.fragments pieces
    before? gate fragments.flatten = none ∧ ofPieces stops pieces = ⟨fragments.flatten, false⟩ ∨
      ∃ k front, before? gate (fragments.take k).flatten = none ∧
        before? gate (fragments.take (k + 1)).flatten = some front ∧
        ofPieces stops pieces = ⟨front, true⟩ := by
  intro gate fragments
  rw [ofPieces_eq]
  rcases hpush : (StopGate.ofStops stops).pushAll fragments with ⟨readies, _ | last⟩
  · obtain ⟨k, -, -, hnone, hsome⟩ := (StopGate.after_ofStops stops).pushAll_closed hpush
    exact .inr ⟨k, _, hnone, hsome, rfl⟩
  · obtain ⟨hstops, hafter, hready⟩ := (StopGate.after_ofStops stops).pushAll_open hpush
    have hwhole := hafter.settled_append_finish
    rw [hstops, ← hready] at hwhole
    refine .inl ⟨?_, ?_⟩
    · have hunstopped := hafter.unstopped
      rwa [hstops] at hunstopped
    · exact congrArg (Delivery.mk · false) hwhole

private theorem stopped_ofPieces (stops : List (List Char)) (pieces : List (List UInt8)) :
    (ofPieces stops pieces).stopped =
      (before? (StopGate.ofStops stops).stops (Utf8.lossy pieces.flatten)).isSome := by
  rw [← Joiner.flatten_fragments]
  rcases ofPieces_cases stops pieces with ⟨hnone, heq⟩ | ⟨k, front, -, hsome, heq⟩
  · rw [heq, hnone]
    rfl
  · rw [heq]
    symm
    rw [Option.isSome_iff_ne_none]
    intro hnone
    rw [← List.take_append_drop (k + 1) (Joiner.fragments pieces), List.flatten_append] at hnone
    rw [before?_append_none hnone] at hsome
    nomatch hsome

end Delivery

/-- Says that every stop text with another one in its midst starts with a third one. -/
def Headed (stops : List (List Char)) : Prop :=
  ∀ stop ∈ stops, ∀ inner ∈ stops, inner ≠ [] →
    (∃ front back, front ≠ [] ∧ back ≠ [] ∧ stop = front ++ inner ++ back) →
    ∃ head ∈ stops, head ≠ [] ∧ head ≠ stop ∧ head <+: stop

/-- What is added to a text with a stop text in it brings none that starts earlier: one that did
would have the first stop text in its midst, so the one that it starts with would start earlier
too. -/
private theorem Headed.not_stopAt_append {stops : List (List Char)} (h : Headed stops)
    {text : List Char}
    {i : Nat} (hat : StopAt stops text i) (hleast : ∀ j < i, ¬ StopAt stops text j)
    (more : List Char) {j : Nat} (hj : j < i) : ¬ StopAt stops (text ++ more) j := by
  obtain ⟨inner, hinner, hinnerne, rest, hrest⟩ := hat
  have hi : i < text.length := by
    have hlength := congrArg List.length hrest
    have hpos := List.length_pos_iff.mpr hinnerne
    simp only [List.length_append, List.length_drop] at hlength
    omega
  let front := (text.drop j).take (i - j)
  have hfront : front ≠ [] := by
    apply List.ne_nil_of_length_pos
    simp [front]
    omega
  have hdrop : text.drop j = front ++ inner ++ rest := by
    have hlater : (text.drop j).drop (i - j) = inner ++ rest := by
      rw [List.drop_drop, Nat.add_sub_cancel' (Nat.le_of_lt hj), hrest]
    rw [List.append_assoc, ← hlater, List.take_append_drop]
  rintro ⟨stop, hmem, hne, hstart⟩
  rw [List.drop_append_of_le_length (by omega)] at hstart
  induction hlength : stop.length using Nat.strongRecOn generalizing stop with
  | ind n ih =>
    subst hlength
    by_cases hinside : stop.length ≤ (text.drop j).length
    · apply hleast j hj
      have hback := List.prefix_of_prefix_length_le hstart (List.prefix_append ..) hinside
      exact ⟨stop, hmem, hne, hback⟩
    · obtain ⟨back, hback⟩ : text.drop j <+: stop :=
        List.prefix_of_prefix_length_le (List.prefix_append ..) hstart (by omega)
      have hbackne : back ≠ [] := by
        rintro rfl
        simp [← hback] at hinside
      obtain ⟨head, hhead, hheadne, hother, hstem⟩ := h stop hmem inner hinner hinnerne
        ⟨front, rest ++ back, hfront, by simp [hbackne],
          by rw [← hback, hdrop, List.append_assoc _ rest]⟩
      have hshorter : head.length < stop.length :=
        Nat.lt_of_le_of_ne hstem.length_le fun hsame => hother (hstem.eq_of_length hsame)
      exact ih _ hshorter head hhead hheadne (hstem.trans hstart) rfl

private theorem before?_of_stopAt {stops : List (List Char)} (hstops : [] ∉ stops)
    {text : List Char}
    {i : Nat} (hat : StopAt stops text i) (hleast : ∀ j < i, ¬ StopAt stops text j) :
    before? stops text = some (text.take i) := by
  cases hbefore : before? stops text with
  | none => exact absurd hat ((before?_eq_none_iff hstops text).mp hbefore i)
  | some front =>
    obtain ⟨k, hk, hkleast, rfl⟩ := before?_eq_some hstops hbefore
    have hki : k = i := by
      rcases Nat.lt_trichotomy k i with hlt | heq | hgt
      · exact absurd hk (hleast k hlt)
      · exact heq
      · exact absurd hat (hkleast i hgt)
    rw [hki]

private theorem Headed.before?_append {stops : List (List Char)} (h : Headed stops)
    {text front : List Char}
    (hbefore : before? (StopGate.ofStops stops).stops text = some front) (more : List Char) :
    before? (StopGate.ofStops stops).stops (text ++ more) = some front := by
  have hstops := StopGate.nil_notMem_stops stops
  obtain ⟨i, hat, hleast, rfl⟩ := before?_eq_some hstops hbefore
  have hat' : StopAt stops text i := (stopAt_filter ..).mp hat
  have hleast' : ∀ j < i, ¬ StopAt stops text j :=
    fun j hj => mt (stopAt_filter ..).mpr (hleast j hj)
  have hi : i ≤ text.length := by
    obtain ⟨stop, -, hne, hstart⟩ := hat
    have hlength := hstart.length_le
    have hpos := List.length_pos_iff.mpr hne
    simp only [List.length_drop] at hlength
    omega
  rw [before?_of_stopAt hstops (hat.append more), List.take_append_of_le_length hi]
  exact fun j hj => mt (stopAt_filter ..).mp (h.not_stopAt_append hat' hleast' more hj)

namespace Delivery

theorem text_ofPieces_of_headed {stops : List (List Char)} (h : Headed stops)
    (pieces : List (List UInt8)) :
    (ofPieces stops pieces).text =
      (before? (StopGate.ofStops stops).stops (Utf8.lossy pieces.flatten)).getD
        (Utf8.lossy pieces.flatten) := by
  rw [← Joiner.flatten_fragments]
  rcases ofPieces_cases stops pieces with ⟨hnone, heq⟩ | ⟨k, front, -, hsome, heq⟩
  · rw [heq, hnone]
    rfl
  · have hwhole := h.before?_append hsome ((Joiner.fragments pieces).drop (k + 1)).flatten
    rw [← List.flatten_append, List.take_append_drop] at hwhole
    rw [heq, hwhole]
    rfl

theorem fragments_encode (text : List Char) (pieces : List (List UInt8)) :
    Joiner.fragments (Utf8.encode text :: pieces) = text :: Joiner.fragments pieces := by
  have hpush : Joiner.start.push (Utf8.encode text) = (text, .start) := by
    simp [Joiner.push, Joiner.start, Utf8.drain_encode]
  simp [Joiner.fragments, Joiner.pushAll_cons, hpush]

private theorem ofPieces_encode_cons {stops : List (List Char)} {text front : List Char}
    (h : before? (StopGate.ofStops stops).stops text = some front) (pieces : List (List UInt8)) :
    ofPieces stops (Utf8.encode text :: pieces) = ⟨front, true⟩ := by
  have hstops : (StopGate.ofStops stops).stops ≠ [] := by
    intro hnil
    rw [hnil, StopGate.before?_nil_stops] at h
    nomatch h
  have hpush : (StopGate.ofStops stops).push text = (.closed front, .ofStops stops) := by
    have hheld : (StopGate.ofStops stops).held = [] := rfl
    simp only [StopGate.push, if_neg hstops, hheld, List.nil_append, h]
    rfl
  rw [ofPieces_eq, fragments_encode, StopGate.pushAll_cons_closed hpush]
  simp [ofPassed]

private theorem headed_of_text_eq {stops : List (List Char)}
    (h : ∀ pieces pieces' : List (List UInt8), pieces.flatten = pieces'.flatten →
      (ofPieces stops pieces).text = (ofPieces stops pieces').text) : Headed stops := by
  rintro stop hstop inner hinner hinnerne ⟨front, back, hfront, hback, rfl⟩
  have hstops := StopGate.nil_notMem_stops stops
  have hgate : ∀ stop ∈ stops, stop ≠ [] → stop ∈ (StopGate.ofStops stops).stops :=
    fun stop hmem hne => List.mem_filter.mpr ⟨hmem, by simpa using hne⟩
  have hwhole : before? (StopGate.ofStops stops).stops (front ++ inner ++ back) = some [] := by
    have hne : front ++ inner ++ back ≠ [] := by simp [hfront]
    have hat : StopAt (StopGate.ofStops stops).stops (front ++ inner ++ back) 0 :=
      ⟨_, hgate _ hstop hne, hne, List.prefix_refl _⟩
    exact before?_of_stopAt hstops hat fun j hj => absurd hj (Nat.not_lt_zero j)
  have hinside : StopAt (StopGate.ofStops stops).stops (front ++ inner) front.length :=
    ⟨inner, hgate _ hinner hinnerne, hinnerne, by simp⟩
  cases hpart : before? (StopGate.ofStops stops).stops (front ++ inner) with
  | none => exact absurd hinside ((before?_eq_none_iff hstops _).mp hpart _)
  | some shown =>
    have htext := h [Utf8.encode (front ++ inner ++ back)]
      [Utf8.encode (front ++ inner), Utf8.encode back] (by simp [Utf8.encode])
    rw [ofPieces_encode_cons hwhole, ofPieces_encode_cons hpart] at htext
    obtain ⟨i, ⟨head, hhead, hheadne, hstart⟩, -, hshown⟩ := before?_eq_some hstops hpart
    have hzero : i = 0 := by
      have hnothing : (front ++ inner).take i = [] := (htext.trans hshown).symm
      simpa [hfront] using hnothing
    rw [hzero, List.drop_zero] at hstart
    refine ⟨head, (List.mem_filter.mp hhead).1, hheadne, ?_, hstart.trans (List.prefix_append ..)⟩
    rintro rfl
    have hlength := hstart.length_le
    have hpos := List.length_pos_iff.mpr hback
    simp only [List.length_append] at hlength
    omega

/-- However the bytes of an answer are cut into pieces, the same thing is said about whether a stop
text ended it. What is handed on is all of it if none is there, and otherwise ends before the first
stop text in what has arrived when one is there. That this text is the same for all cuttings, too,
is so exactly for stop texts that are headed. -/
theorem ofPieces_account (stops : List (List Char)) :
    (∀ pieces pieces' : List (List UInt8), pieces.flatten = pieces'.flatten →
      (ofPieces stops pieces).stopped = (ofPieces stops pieces').stopped) ∧
    (∀ pieces,
      let delivery := ofPieces stops pieces
      let fragments := Joiner.fragments pieces
      delivery.stopped = false ∧ delivery.text = Utf8.lossy pieces.flatten ∧
          (∀ i, ¬ StopAt stops delivery.text i) ∨
        delivery.stopped = true ∧ ∃ k i, CutAt stops fragments k i ∧
          delivery.text = (fragments.take k).flatten.take i) ∧
    ((∀ pieces pieces' : List (List UInt8), pieces.flatten = pieces'.flatten →
        (ofPieces stops pieces).text = (ofPieces stops pieces').text) ↔
      Headed stops) := by
  refine ⟨?_, ?_, headed_of_text_eq, ?_⟩
  · intro pieces pieces' hflat
    rw [stopped_ofPieces, stopped_ofPieces, hflat]
  · intro pieces delivery fragments
    have hstops := StopGate.nil_notMem_stops stops
    rcases ofPieces_cases stops pieces with ⟨hnone, heq⟩ | ⟨k, front, hnone, hsome, heq⟩
    · refine .inl ⟨congrArg (·.stopped) heq, ?_, ?_⟩
      · exact (congrArg (·.text) heq).trans (Joiner.flatten_fragments pieces)
      · intro i hat
        rw [show delivery.text = fragments.flatten from congrArg (·.text) heq] at hat
        exact (before?_eq_none_iff hstops _).mp hnone i ((stopAt_filter ..).mpr hat)
    · obtain ⟨i, hcut, hfront⟩ := cutAt_of_before? hstops hnone hsome
      exact .inr ⟨congrArg (·.stopped) heq, _, i, hcut.of_filter,
        (congrArg (·.text) heq).trans hfront⟩
  · intro h pieces pieces' hflat
    rw [text_ofPieces_of_headed h, text_ofPieces_of_headed h, hflat]

/-- The first piece ends with a stop text that is in the midst of the other one. -/
theorem ofPieces_ne_of_cut :
    let stops := ["abcd".toList, "bc".toList]
    let pieces : List (List UInt8) := [[0x61, 0x62, 0x63], [0x64]]
    let whole : List (List UInt8) := [[0x61, 0x62, 0x63, 0x64]]
    pieces.flatten = whole.flatten ∧ ofPieces stops pieces = ⟨"a".toList, true⟩ ∧
      ofPieces stops whole = ⟨"".toList, true⟩ := by
  exact ⟨rfl, by decide +kernel, by decide +kernel⟩

end Delivery

namespace StopGate

variable {g g' : StopGate} {fragments readies : List (List Char)}

theorem pushAll_append_of_closed (h : g.pushAll fragments = (readies, none))
    (more : List (List Char)) : g.pushAll (fragments ++ more) = (readies, none) := by
  induction fragments generalizing g readies with
  | nil => simp [pushAll] at h
  | cons fragment fragments ih =>
    rw [pushAll] at h
    split at h
    next ready last hpush =>
      rw [List.cons_append, pushAll_cons_closed hpush]
      exact h
    next ready last hpush =>
      obtain ⟨rfl, hlast⟩ := Prod.mk.inj h
      rw [List.cons_append, pushAll_cons_onward hpush, ih (Prod.ext rfl hlast)]

theorem pushAll_append_of_open (h : g.pushAll fragments = (readies, some g'))
    (more : List (List Char)) :
    g.pushAll (fragments ++ more) = (readies ++ (g'.pushAll more).1, (g'.pushAll more).2) := by
  induction fragments generalizing g readies with
  | nil =>
    obtain ⟨rfl, hlast⟩ := Prod.mk.inj h
    rw [Option.some.inj hlast]
    rfl
  | cons fragment fragments ih =>
    rw [pushAll] at h
    split at h
    next => simp at h
    next ready last hpush =>
      obtain ⟨rfl, hlast⟩ := Prod.mk.inj h
      rw [List.cons_append, pushAll_cons_onward hpush, ih (Prod.ext rfl hlast)]
      rfl

end StopGate

end ModelHost.Text

namespace ModelHost.Completion

open Text (Delivery StopGate)

variable {M C : Type} {inference : Inference M C} {model : M}

theorem Trail.Passes.delivers {s : State C} {trail : Trail C} {pieces : List (List UInt8)}
    {readies : List (List Char)} (h : trail.Passes inference model s pieces readies)
    {finish : Finish} {last : List String} (hconclude : trail.conclude = (.ok finish, last)) :
    let delivery := Delivery.send s.joiner s.gate pieces
    (trail.chunks ++ last).flatMap String.toList = delivery.text ∧
      (delivery.stopped = true → finish = .stop) := by
  intro delivery
  have hdelivery : delivery = Delivery.ofPassed (s.gate.pushAll _) := Delivery.send_eq ..
  rw [hdelivery, List.flatMap_append, h.chunks, flatMap_chunk_toList]
  have hgate := h.gate
  unfold Trail.conclude at hconclude
  split at hconclude
  next => simp at hconclude
  next hstopped =>
    obtain ⟨hfinish, rfl⟩ := Prod.mk.inj hconclude
    rw [Trail.gate?, if_pos hstopped] at hgate
    rw [StopGate.pushAll_append_of_closed hgate]
    exact ⟨by simp [Delivery.ofPassed], fun _ => (Except.ok.inj hfinish).symm⟩
  next hended =>
    have hopen : trail.ending ≠ .stopped := by simp [hended]
    rw [Trail.gate?, if_neg hopen] at hgate
    rw [StopGate.pushAll_append_of_open hgate, ← h.joiner hopen]
    have hchunk : ∀ ready, (chunk ready).flatMap String.toList = ready := by
      intro ready
      simpa using flatMap_chunk_toList [ready]
    unfold State.flush at hconclude
    cases hpush : trail.state.gate.push trail.state.joiner.finish with
    | mk passage gate =>
      simp only [hpush] at hconclude
      cases passage with
      | onward ready =>
        obtain ⟨-, rfl⟩ := Prod.mk.inj hconclude
        rw [StopGate.pushAll_cons_onward hpush]
        simp [Delivery.ofPassed, StopGate.pushAll, hchunk]
      | closed ready =>
        obtain ⟨hfinish, rfl⟩ := Prod.mk.inj hconclude
        rw [StopGate.pushAll_cons_closed hpush]
        exact ⟨by simp [Delivery.ofPassed, hchunk], fun _ => (Except.ok.inj hfinish).symm⟩

/-- The text of an answer is what becomes of the pieces of its tokens. -/
theorem exists_delivery_of_run (inference : Inference M C) (model : M) (outputLimit : UInt32)
    (r : Request) (context : C) (outcome : Outcome) (hbudget : 0 < r.budget outputLimit)
    (hrun : (run inference model outputLimit r context).result = .ok outcome) :
    let run := run inference model outputLimit r context
    ∃ pieces,
      (run.sampled.filter (· ≠ inference.endToken model)).mapM (inference.piece model) =
          .ok pieces ∧
        let delivery := Delivery.ofPieces ((r.stops.getD []).map String.toList) pieces
        outcome.text = String.ofList delivery.text ∧
          (delivery.stopped = true → outcome.finish = .stop) := by
  intro run
  obtain ⟨prompt, taken, -, -, -, -, hanswer⟩ :=
    run_eq_answer (fun hzero => by simp [hzero] at hbudget) hrun
  rw [hanswer] at hrun
  obtain ⟨finish, last, hconclude, htext, rfl, -⟩ := answer_ok hrun
  obtain ⟨pieces, readies, hpasses⟩ := sampleTokens_passes _ _ (Trail.ending_ne_failed hconclude)
  obtain ⟨hdelivery, hstop⟩ := hpasses.delivers hconclude
  refine ⟨pieces, ?_, ?_, hstop⟩
  · have hsampled : run.sampled = (sampleTokens inference model _ _).sampled :=
      congrArg Run.sampled hanswer
    rw [hsampled]
    exact hpasses.spelt
  · rw [htext, ← String.toList_inj, String.toList_join, hdelivery, String.toList_ofList]
    rfl

end ModelHost.Completion
