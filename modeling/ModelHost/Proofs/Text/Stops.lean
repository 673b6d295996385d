import ModelHost.Text.Stops

/-!
Stop texts against the whole output. A gate keeps only the open tail of what it has been given, and
that is enough: a stop text that appears later cannot start before the open tail. So a gate hands on
exactly what it would hand on if it saw the whole output each time.
-/

namespace ModelHost.Text

/-- Says that a stop text starts at an index of a text. An empty stop text starts nowhere. -/
def StopAt (stops : List (List Char)) (text : List Char) (i : Nat) : Prop :=
  ∃ stop ∈ stops, stop ≠ [] ∧ stop <+: text.drop i

private theorem stopAt_cons (stops : List (List Char)) (c : Char) (rest : List Char) (i : Nat) :
    StopAt stops (c :: rest) (i + 1) ↔ StopAt stops rest i := by
  simp [StopAt]

theorem stopAt_filter (stops : List (List Char)) (text : List Char) (i : Nat) :
    StopAt (stops.filter (· ≠ [])) text i ↔ StopAt stops text i := by
  unfold StopAt
  constructor
  · rintro ⟨stop, hmem, hne, hstart⟩
    exact ⟨stop, (List.mem_filter.mp hmem).1, hne, hstart⟩
  · rintro ⟨stop, hmem, hne, hstart⟩
    exact ⟨stop, List.mem_filter.mpr ⟨hmem, by simpa using hne⟩, hne, hstart⟩

theorem StopAt.append {stops : List (List Char)} {text : List Char} {i : Nat}
    (h : StopAt stops text i) (more : List Char) : StopAt stops (text ++ more) i := by
  obtain ⟨stop, hmem, hne, rest, hrest⟩ := h
  refine ⟨stop, hmem, hne, ?_⟩
  have hi : i ≤ text.length := by
    have hlength := congrArg List.length hrest
    have hpos := List.length_pos_iff.mpr hne
    simp only [List.length_append, List.length_drop] at hlength
    omega
  rw [List.drop_append_of_le_length hi, ← hrest, List.append_assoc]
  exact List.prefix_append ..

section Before

variable {stops : List (List Char)}

private theorem any_isPrefixOf_iff (hstops : [] ∉ stops) (text : List Char) :
    stops.any (·.isPrefixOf text) = true ↔ StopAt stops text 0 := by
  simp only [StopAt, List.any_eq_true, List.isPrefixOf_iff_prefix, List.drop_zero]
  constructor
  · rintro ⟨stop, hmem, hstart⟩
    exact ⟨stop, hmem, fun hnil => hstops (hnil ▸ hmem), hstart⟩
  · rintro ⟨stop, hmem, -, hstart⟩
    exact ⟨stop, hmem, hstart⟩

theorem before?_eq_none_iff (hstops : [] ∉ stops) (text : List Char) :
    before? stops text = none ↔ ∀ i, ¬ StopAt stops text i := by
  induction text with
  | nil =>
    have hnone : ∀ i, ¬ StopAt stops [] i := by
      rintro i ⟨stop, -, hne, hstart⟩
      rw [List.drop_nil, List.prefix_nil] at hstart
      exact hne hstart
    have hany : stops.any (·.isPrefixOf []) = false := by
      rw [Bool.eq_false_iff, Ne, any_isPrefixOf_iff hstops]
      exact hnone 0
    simp only [before?, hany, Bool.false_eq_true, if_false, true_iff]
    exact hnone
  | cons c rest ih =>
    rw [before?]
    by_cases hzero : StopAt stops (c :: rest) 0
    · rw [if_pos ((any_isPrefixOf_iff hstops _).mpr hzero)]
      simp only [reduceCtorEq, false_iff]
      exact fun hall => hall 0 hzero
    · rw [if_neg (mt (any_isPrefixOf_iff hstops _).mp hzero), Option.map_eq_none_iff, ih]
      constructor
      · intro hrest i
        cases i with
        | zero => exact hzero
        | succ i => rw [stopAt_cons]; exact hrest i
      · intro hall i
        rw [← stopAt_cons stops c]
        exact hall (i + 1)

theorem before?_eq_some (hstops : [] ∉ stops) {text front : List Char}
    (h : before? stops text = some front) :
    ∃ i, StopAt stops text i ∧ (∀ j < i, ¬ StopAt stops text j) ∧ front = text.take i := by
  induction text generalizing front with
  | nil =>
    rw [before?] at h
    split at h
    next hany =>
      exact ⟨0, (any_isPrefixOf_iff hstops []).mp hany, by simp, by simpa using h.symm⟩
    next => simp at h
  | cons c rest ih =>
    rw [before?] at h
    split at h
    next hany =>
      exact ⟨0, (any_isPrefixOf_iff hstops _).mp hany, by simp, by simpa using h.symm⟩
    next hany =>
      obtain ⟨front, hrest, rfl⟩ := Option.map_eq_some_iff.mp h
      obtain ⟨i, hat, hleast, rfl⟩ := ih hrest
      refine ⟨i + 1, (stopAt_cons ..).mpr hat, ?_, rfl⟩
      intro j hj
      cases j with
      | zero => exact mt (any_isPrefixOf_iff hstops _).mpr hany
      | succ j => rw [stopAt_cons]; exact hleast j (by omega)

/-- Says where the text of fragments is cut: with the first of them that completes a stop text, at
the least index where one starts then. -/
structure CutAt (stops fragments : List (List Char)) (count index : Nat) : Prop where
  stop : StopAt stops (fragments.take count).flatten index
  least : ∀ i < index, ¬ StopAt stops (fragments.take count).flatten i
  first : ∀ k < count, ∀ i, ¬ StopAt stops (fragments.take k).flatten i

theorem CutAt.of_filter {stops fragments : List (List Char)} {count index : Nat}
    (h : CutAt (stops.filter (· ≠ [])) fragments count index) :
    CutAt stops fragments count index where
  stop := (stopAt_filter ..).mp h.stop
  least i hi := mt (stopAt_filter ..).mpr (h.least i hi)
  first k hk i := mt (stopAt_filter ..).mpr (h.first k hk i)

theorem CutAt.stopAt_flatten {stops fragments : List (List Char)} {count index : Nat}
    (h : CutAt stops fragments count index) : StopAt stops fragments.flatten index := by
  rw [← List.take_append_drop count fragments, List.flatten_append]
  exact h.stop.append _

theorem before?_append_none {text more : List Char} (h : before? stops (text ++ more) = none) :
    before? stops text = none := by
  induction text with
  | nil =>
    rw [before?]
    split
    next hany =>
      have hstart : stops.any (·.isPrefixOf more) = true := by
        obtain ⟨stop, hmem, hnil⟩ := List.any_eq_true.mp hany
        have hstop : stop = [] := by simpa using hnil
        exact List.any_eq_true.mpr ⟨stop, hmem, by simp [hstop]⟩
      rw [List.nil_append] at h
      cases more <;> simp [before?, hstart] at h
    next => rfl
  | cons c rest ih =>
    rw [List.cons_append, before?] at h
    rw [before?]
    split at h
    next => simp at h
    next hany =>
      have hshort : stops.any (·.isPrefixOf (c :: rest)) = false := by
        rw [Bool.eq_false_iff]
        intro htrue
        obtain ⟨stop, hmem, hstart⟩ := List.any_eq_true.mp htrue
        apply hany
        refine List.any_eq_true.mpr ⟨stop, hmem, ?_⟩
        rw [List.isPrefixOf_iff_prefix] at hstart ⊢
        exact hstart.trans (List.prefix_append (c :: rest) more)
      rw [Option.map_eq_none_iff] at h
      simp [hshort, ih h]

theorem not_stopAt_take (hstops : [] ∉ stops) {fragments : List (List Char)}
    (h : before? stops fragments.flatten = none) (k i : Nat) :
    ¬ StopAt stops (fragments.take k).flatten i := by
  rw [← List.take_append_drop k fragments, List.flatten_append] at h
  exact (before?_eq_none_iff hstops _).mp (before?_append_none h) i

theorem cutAt_of_before? (hstops : [] ∉ stops) {fragments : List (List Char)} {k : Nat}
    {front : List Char} (hnone : before? stops (fragments.take k).flatten = none)
    (hsome : before? stops (fragments.take (k + 1)).flatten = some front) :
    ∃ i, CutAt stops fragments (k + 1) i ∧ front = (fragments.take (k + 1)).flatten.take i := by
  obtain ⟨i, hat, hleast, hfront⟩ := before?_eq_some hstops hsome
  refine ⟨i, ⟨hat, hleast, ?_⟩, hfront⟩
  intro l hl
  have hshort := not_stopAt_take hstops hnone l
  rwa [List.take_take, Nat.min_eq_left (by omega)] at hshort

end Before

/-! The open tail decides. A stop text that starts before the open tail would have to lie inside the
text or to go on from a longer end of it. -/

theorem opens_iff {stops : List (List Char)} {text : List Char} : opens stops text = true ↔
    ∃ stop ∈ stops, text <+: stop ∧ text.length < stop.length := by
  simp [opens]

theorem opens_openTail (stops : List (List Char)) (text : List Char) :
    openTail stops text = [] ∨ opens stops (openTail stops text) = true := by
  induction text with
  | nil => exact .inl rfl
  | cons c rest ih =>
    rw [openTail]
    split
    next hopen => exact .inr hopen
    next => exact ih

theorem suffix_openTail {stops : List (List Char)} {tail text : List Char} (hne : tail ≠ [])
    (hsuffix : tail <:+ text) (hopen : opens stops tail = true) :
    tail <:+ openTail stops text := by
  induction text with
  | nil => exact absurd (List.suffix_nil.mp hsuffix) hne
  | cons c rest ih =>
    rw [openTail]
    split
    next => exact hsuffix
    next hclosed =>
      rcases List.suffix_cons_iff.mp hsuffix with rfl | hrest
      · exact absurd hopen hclosed
      · exact ih hrest

private theorem opens_of_append {stops : List (List Char)} {text more : List Char}
    (h : opens stops (text ++ more) = true) : opens stops text = true := by
  simp only [opens, List.any_eq_true, Bool.and_eq_true, List.isPrefixOf_iff_prefix,
    decide_eq_true_eq, List.length_append] at h ⊢
  obtain ⟨stop, hmem, hstart, hlength⟩ := h
  exact ⟨stop, hmem, (List.prefix_append text more).trans hstart, by omega⟩

theorem openTail_append (stops : List (List Char)) (text more : List Char) :
    openTail stops (openTail stops text ++ more) = openTail stops (text ++ more) := by
  induction text with
  | nil => rfl
  | cons c rest ih =>
    rw [openTail]
    split
    next => rfl
    next hopen =>
      have hlong : ¬ opens stops (c :: (rest ++ more)) = true :=
        fun hwhole => hopen (opens_of_append hwhole)
      rw [ih, List.cons_append, openTail, if_neg hlong]

private theorem isPrefixOf_append_or_opens {stops : List (List Char)} {text more : List Char}
    (h : stops.any (·.isPrefixOf (text ++ more)) = true) :
    stops.any (·.isPrefixOf text) = true ∨ opens stops text = true := by
  obtain ⟨stop, hmem, hstart⟩ := List.any_eq_true.mp h
  rw [List.isPrefixOf_iff_prefix] at hstart
  by_cases hlength : stop.length ≤ text.length
  · left
    have hinside : stop <+: text := List.prefix_of_prefix_length_le hstart
      (List.prefix_append text more) hlength
    exact List.any_eq_true.mpr ⟨stop, hmem, List.isPrefixOf_iff_prefix.mpr hinside⟩
  · right
    have hover : text <+: stop := List.prefix_of_prefix_length_le
      (List.prefix_append text more) hstart (by omega)
    simp only [opens, List.any_eq_true, Bool.and_eq_true, List.isPrefixOf_iff_prefix,
      decide_eq_true_eq]
    exact ⟨stop, hmem, hover, by omega⟩

private theorem settled_of_not_opens {stops : List (List Char)} {c : Char} {rest : List Char}
    (h : opens stops (c :: rest) = false) :
    settled stops (c :: rest) = c :: settled stops rest := by
  have hlength := (openTail_suffix stops rest).length_le
  have hsub : (c :: rest).length - (openTail stops rest).length =
      (rest.length - (openTail stops rest).length) + 1 := by
    rw [List.length_cons]
    omega
  simp only [settled, openTail, h, Bool.false_eq_true, if_false]
  rw [hsub, List.take_succ_cons]

private theorem settled_of_opens {stops : List (List Char)} {c : Char} {rest : List Char}
    (h : opens stops (c :: rest) = true) : settled stops (c :: rest) = [] := by
  simp [settled, openTail, h]

/-- After a text without a stop text, the search for one need not look before the open tail. -/
theorem before?_append {stops : List (List Char)} {text : List Char}
    (h : before? stops text = none) (more : List Char) :
    before? stops (text ++ more) =
      (before? stops (openTail stops text ++ more)).map (settled stops text ++ ·) := by
  induction text with
  | nil => simp [openTail, settled]
  | cons c rest ih =>
    rw [before?] at h
    split at h
    next => simp at h
    next hany =>
      rw [Option.map_eq_none_iff] at h
      by_cases hopen : opens stops (c :: rest) = true
      · simp [openTail, hopen, settled_of_opens hopen]
      · rw [Bool.not_eq_true] at hopen
        have hfront : stops.any (·.isPrefixOf (c :: rest ++ more)) = false := by
          rw [Bool.eq_false_iff]
          intro htrue
          rcases isPrefixOf_append_or_opens htrue with hinside | hover
          · exact hany hinside
          · simp [hopen] at hover
        rw [List.cons_append] at hfront ⊢
        rw [before?, if_neg (by simp [hfront]), ih h, settled_of_not_opens hopen, openTail,
          if_neg (by simp [hopen]), Option.map_map]
        rfl

theorem settled_append (stops : List (List Char)) (text more : List Char) :
    settled stops (text ++ more) =
      settled stops text ++ settled stops (openTail stops text ++ more) := by
  have hwhole := settled_append_openTail stops (text ++ more)
  have htail := settled_append_openTail stops (openTail stops text ++ more)
  rw [openTail_append] at htail
  refine List.append_cancel_right (?_ : _ ++ openTail stops (text ++ more) = _)
  rw [hwhole, List.append_assoc, htail, ← List.append_assoc, settled_append_openTail]

structure StopGate.After (g : StopGate) (output : List Char) : Prop where
  unstopped : before? g.stops output = none
  held : g.held = openTail g.stops output

namespace StopGate

theorem nil_notMem_stops (stops : List (List Char)) : [] ∉ (ofStops stops).stops := by
  simp [ofStops]

theorem after_ofStops (stops : List (List Char)) : (ofStops stops).After [] where
  unstopped := by
    rw [before?_eq_none_iff (nil_notMem_stops stops)]
    rintro i ⟨stop, -, hne, hstart⟩
    rw [List.drop_nil, List.prefix_nil] at hstart
    exact hne hstart
  held := rfl

variable {g g' : StopGate} {output fragment ready : List Char}

theorem before?_nil_stops (text : List Char) : before? [] text = none := by
  induction text with
  | nil => rfl
  | cons c rest ih => simp [before?, ih]

private theorem openTail_nil_stops (text : List Char) : openTail [] text = [] := by
  induction text with
  | nil => rfl
  | cons c rest ih => simp [openTail, opens, ih]

theorem After.push_onward (h : g.After output) (hpush : g.push fragment = (.onward ready, g')) :
    g'.stops = g.stops ∧ g'.After (output ++ fragment) ∧
      settled g.stops output ++ ready = settled g.stops (output ++ fragment) := by
  unfold push at hpush
  split at hpush
  next hnone =>
    obtain ⟨hready, rfl⟩ := Prod.mk.inj hpush
    have hsettled : ∀ text, settled g.stops text = text := by
      intro text
      simp [settled, hnone, openTail_nil_stops]
    refine ⟨rfl, ⟨by rw [hnone, before?_nil_stops], ?_⟩, ?_⟩
    · rw [h.held, hnone, openTail_nil_stops, openTail_nil_stops]
    · rw [hsettled, hsettled, Passage.onward.inj hready]
  next =>
    simp only [h.held] at hpush
    split at hpush
    next => simp at hpush
    next hbefore =>
      obtain ⟨hready, rfl⟩ := Prod.mk.inj hpush
      refine ⟨rfl, ⟨?_, openTail_append ..⟩, ?_⟩
      · exact (before?_append h.unstopped fragment).trans (by rw [hbefore]; rfl)
      · rw [settled_append, Passage.onward.inj hready]

theorem After.push_closed (h : g.After output) (hpush : g.push fragment = (.closed ready, g')) :
    before? g.stops (output ++ fragment) = some (settled g.stops output ++ ready) := by
  unfold push at hpush
  split at hpush
  next => simp at hpush
  next =>
    simp only [h.held] at hpush
    split at hpush
    next hbefore =>
      obtain ⟨hready, -⟩ := Prod.mk.inj hpush
      rw [before?_append h.unstopped, hbefore, Passage.closed.inj hready]
      rfl
    next => simp at hpush

/-- Sends fragments through a gate until it closes: what each of them lets it hand on, and the gate
after the last one if it is still open. -/
def pushAll (g : StopGate) : List (List Char) → List (List Char) × Option StopGate
  | [] => ([], some g)
  | fragment :: fragments =>
    match g.push fragment with
    | (.closed ready, _) => ([ready], none)
    | (.onward ready, g) =>
      let (rest, last) := g.pushAll fragments
      (ready :: rest, last)

theorem pushAll_cons_closed (h : g.push fragment = (.closed ready, g'))
    (fragments : List (List Char)) : g.pushAll (fragment :: fragments) = ([ready], none) := by
  rw [pushAll, h]

theorem pushAll_cons_onward (h : g.push fragment = (.onward ready, g'))
    (fragments : List (List Char)) :
    g.pushAll (fragment :: fragments) =
      (ready :: (g'.pushAll fragments).1, (g'.pushAll fragments).2) := by
  rw [pushAll, h]

theorem length_of_pushAll_open {fragments readies : List (List Char)}
    (h : g.pushAll fragments = (readies, some g')) : readies.length = fragments.length := by
  induction fragments generalizing g readies with
  | nil =>
    obtain ⟨rfl, -⟩ := Prod.mk.inj h
    rfl
  | cons fragment fragments ih =>
    rw [pushAll] at h
    split at h
    next => simp at h
    next =>
      obtain ⟨rfl, hlast⟩ := Prod.mk.inj h
      rw [List.length_cons, List.length_cons, ih (Prod.ext rfl hlast)]

theorem After.pushAll_open (h : g.After output) {fragments readies : List (List Char)}
    (hpush : g.pushAll fragments = (readies, some g')) :
    g'.stops = g.stops ∧ g'.After (output ++ fragments.flatten) ∧
      settled g.stops output ++ readies.flatten =
        settled g.stops (output ++ fragments.flatten) := by
  induction fragments generalizing g output readies with
  | nil =>
    obtain ⟨rfl, hlast⟩ := Prod.mk.inj hpush
    obtain rfl := Option.some.inj hlast
    simpa using h
  | cons fragment fragments ih =>
    rw [pushAll] at hpush
    split at hpush
    next => simp at hpush
    next ready next hnext =>
      obtain ⟨rfl, hlast⟩ := Prod.mk.inj hpush
      obtain ⟨hstops, hafter, hready⟩ := h.push_onward hnext
      obtain ⟨hstops', hafter', hreadies⟩ := ih hafter (Prod.ext rfl hlast)
      rw [hstops] at hreadies
      refine ⟨hstops'.trans hstops, ?_, ?_⟩
      · rwa [List.flatten_cons, ← List.append_assoc]
      · rw [List.flatten_cons, List.flatten_cons, ← List.append_assoc, hready, hreadies,
          List.append_assoc]

theorem After.pushAll_closed (h : g.After output) {fragments readies : List (List Char)}
    (hpush : g.pushAll fragments = (readies, none)) :
    ∃ k, readies.length = k + 1 ∧ k < fragments.length ∧
      before? g.stops (output ++ (fragments.take k).flatten) = none ∧
      before? g.stops (output ++ (fragments.take (k + 1)).flatten) =
        some (settled g.stops output ++ readies.flatten) := by
  induction fragments generalizing g output readies with
  | nil => simp [pushAll] at hpush
  | cons fragment fragments ih =>
    rw [pushAll] at hpush
    split at hpush
    next ready next hnext =>
      obtain ⟨rfl, -⟩ := Prod.mk.inj hpush
      refine ⟨0, rfl, by simp, by simpa using h.unstopped, ?_⟩
      simpa using h.push_closed hnext
    next ready next hnext =>
      obtain ⟨rfl, hlast⟩ := Prod.mk.inj hpush
      obtain ⟨hstops, hafter, hready⟩ := h.push_onward hnext
      obtain ⟨k, hlength, hk, hnone, hsome⟩ := ih hafter (Prod.ext rfl hlast)
      rw [hstops, List.append_assoc] at hnone hsome
      refine ⟨k + 1, by rw [List.length_cons, hlength], by simpa using hk, ?_, ?_⟩
      · simpa using hnone
      · rw [List.flatten_cons, ← List.append_assoc, hready]
        simpa using hsome

/-- An open gate that gives up what it holds has handed on the whole output. -/
theorem After.settled_append_finish (h : g.After output) :
    settled g.stops output ++ g.finish = output := by
  rw [finish, h.held, settled_append_openTail]

end StopGate

end ModelHost.Text
