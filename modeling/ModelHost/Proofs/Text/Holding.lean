import ModelHost.Proofs.Text.ByteGate

/-!
How much a gate holds. It looks back no further than to what it held before, and still it holds the
longest end of the whole output that a stop text goes on from. So nothing waits without need: a
character is held exactly as long as some text to follow could make it part of a stop text.
-/

namespace ModelHost.Text

def StartsStop (stops : List (List Char)) (text : List Char) : Prop :=
  ∃ stop ∈ stops, text <+: stop ∧ text.length < stop.length

/-- Says that a tail is the longest end of an output that starts a stop text; it is empty if no end
of the output does. -/
structure LongestStart (stops : List (List Char)) (output tail : List Char) : Prop where
  suffix : tail <:+ output
  starts : tail = [] ∨ StartsStop stops tail
  longest : ∀ other, other <:+ output → StartsStop stops other → other.length ≤ tail.length

/-- Says that a character of an output can still become part of a stop text: with some text to
follow, a stop text starts at the character or before it and ends after it. -/
def Pending (stops : List (List Char)) (output : List Char) (j : Nat) : Prop :=
  ∃ more, ∃ i ≤ j, ∃ stop ∈ stops, stop <+: (output ++ more).drop i ∧ j < i + stop.length

private theorem opens_filter (stops : List (List Char)) (text : List Char) :
    opens (stops.filter (· ≠ [])) text = opens stops text := by
  rw [Bool.eq_iff_iff, opens_iff, opens_iff]
  constructor
  · rintro ⟨stop, hmem, hstart⟩
    exact ⟨stop, (List.mem_filter.mp hmem).1, hstart⟩
  · rintro ⟨stop, hmem, hstart, hlength⟩
    have hne : stop ≠ [] := List.ne_nil_of_length_pos (Nat.zero_lt_of_lt hlength)
    exact ⟨stop, List.mem_filter.mpr ⟨hmem, by simpa using hne⟩, hstart, hlength⟩

private theorem openTail_filter (stops : List (List Char)) (text : List Char) :
    openTail (stops.filter (· ≠ [])) text = openTail stops text := by
  induction text with
  | nil => rfl
  | cons c rest ih => rw [openTail, openTail, opens_filter, ih]

theorem longestStart_openTail (stops : List (List Char)) (output : List Char) :
    LongestStart stops output (openTail stops output) where
  suffix := openTail_suffix stops output
  starts := (opens_openTail stops output).imp_right opens_iff.mp
  longest other hsuffix hstart := by
    by_cases hne : other = []
    · rw [hne]
      exact Nat.zero_le _
    · exact (suffix_openTail hne hsuffix (opens_iff.mpr hstart)).length_le

namespace LongestStart

variable {stops : List (List Char)} {output tail : List Char} {j : Nat}

theorem pending (h : LongestStart stops output tail) (hj : j < output.length)
    (htail : output.length - tail.length ≤ j) : Pending stops output j := by
  have hne : tail ≠ [] := by
    rintro rfl
    rw [List.length_nil] at htail
    omega
  obtain ⟨stop, hmem, ⟨more, rfl⟩, -⟩ := h.starts.resolve_left hne
  obtain ⟨front, rfl⟩ := h.suffix
  rw [List.length_append, Nat.add_sub_cancel] at htail
  refine ⟨more, front.length, htail, tail ++ more, hmem, ?_, ?_⟩
  · simp
  · rw [List.length_append] at hj ⊢
    omega

theorem le_of_pending (h : LongestStart stops output tail) (hnone : ∀ i, ¬ StopAt stops output i)
    (hj : j < output.length) (hpending : Pending stops output j) :
    output.length - tail.length ≤ j := by
  obtain ⟨more, i, hi, stop, hmem, hstart, hreach⟩ := hpending
  rw [List.drop_append_of_le_length (by omega)] at hstart
  have hend := List.prefix_append (output.drop i) more
  by_cases hinside : stop.length ≤ (output.drop i).length
  · have hne : stop ≠ [] := by
      rintro rfl
      rw [List.length_nil] at hreach
      omega
    exact absurd ⟨stop, hmem, hne, List.prefix_of_prefix_length_le hstart hend hinside⟩ (hnone i)
  · have hover : output.drop i <+: stop :=
      List.prefix_of_prefix_length_le hend hstart (by omega)
    have hlongest := h.longest _ (List.drop_suffix i output) ⟨stop, hmem, hover, by omega⟩
    rw [List.length_drop] at hlongest
    omega

theorem length_le {other : List Char} (h : LongestStart stops output tail)
    (h' : LongestStart stops output other) : tail.length ≤ other.length := by
  rcases h.starts with rfl | hstart
  · exact Nat.zero_le _
  · exact h'.longest tail h.suffix hstart

theorem unique {other : List Char} (h : LongestStart stops output tail)
    (h' : LongestStart stops output other) : tail = other := by
  have hsuffix := List.suffix_of_suffix_length_le h.suffix h'.suffix (h.length_le h')
  exact hsuffix.eq_of_length (Nat.le_antisymm (h.length_le h') (h'.length_le h))

end LongestStart

namespace StopGate

variable {g : StopGate} {output : List Char}

theorem After.exists_open (h : g.After output) {fragments : List (List Char)}
    (hnone : before? g.stops (output ++ fragments.flatten) = none) :
    ∃ readies g', g.pushAll fragments = (readies, some g') := by
  rcases hpush : g.pushAll fragments with ⟨readies, _ | g'⟩
  · obtain ⟨k, -, -, -, hsome⟩ := h.pushAll_closed hpush
    rw [← List.take_append_drop (k + 1) fragments, List.flatten_append,
      ← List.append_assoc] at hnone
    rw [before?_append_none hnone] at hsome
    nomatch hsome
  · exact ⟨readies, g', rfl⟩

/-- As long as no stop text is in what has come, a gate holds after each fragment the longest end of
all of it that starts a stop text and does not reach its end, and has let through the rest. What it
holds are the characters that some text to follow would make part of a stop text, and no others. The
gate on bytes, which asks each stop text by itself how much to hold, holds the same. -/
theorem holds_longest_start (stops fragments : List (List Char))
    (hnone : ∀ k i, ¬ StopAt stops (fragments.take k).flatten i) (k : Nat) :
    let output := (fragments.take k).flatten
    ∃ readies g, (ofStops stops).pushAll (fragments.take k) = (readies, some g) ∧
      readies.flatten ++ g.held = output ∧
      (∀ tail, LongestStart stops output tail ↔ tail = g.held) ∧
      (∀ j < output.length, readies.flatten.length ≤ j ↔ Pending stops output j) ∧
      ∃ b : ByteGate,
        (ByteGate.ofStops (stops.map Utf8.encode)).pushAll? ((fragments.take k).map Utf8.encode) =
          some (readies.map Utf8.encode, some b) ∧
        b.held = Utf8.encode g.held := by
  intro output
  have hstops := nil_notMem_stops stops
  have hunstopped : before? (ofStops stops).stops output = none :=
    (before?_eq_none_iff hstops output).mpr fun i => mt (stopAt_filter ..).mp (hnone k i)
  obtain ⟨readies, g, hpush⟩ := (after_ofStops stops).exists_open hunstopped
  obtain ⟨hkept, hafter, hready⟩ := (after_ofStops stops).pushAll_open hpush
  have hwhole : readies.flatten ++ g.held = output := by
    have hfinish := hafter.settled_append_finish
    rw [hkept, ← hready] at hfinish
    exact hfinish
  have hheld : g.held = openTail stops output := by
    rw [hafter.held, hkept]
    exact openTail_filter stops output
  have hlongest : LongestStart stops output g.held := hheld ▸ longestStart_openTail stops output
  have hpassed : readies.flatten.length = output.length - g.held.length := by
    rw [← hwhole, List.length_append, Nat.add_sub_cancel]
  refine ⟨readies, g, hpush, hwhole, ?_, ?_, g.bytes, ?_, rfl⟩
  · intro tail
    exact ⟨fun htail => htail.unique hlongest, fun htail => htail ▸ hlongest⟩
  · intro j hj
    rw [hpassed]
    exact ⟨hlongest.pending hj, hlongest.le_of_pending (hnone k) hj⟩
  · rw [← bytes_ofStops, bytes_pushAll? hstops, hpush]
    rfl

/-- With the third fragment less is held than before: the longest end that starts a stop text begins
in the midst of what was held. -/
theorem holds_longest_start_shorter :
    let stops := ["ébéc".toList, "béd".toList]
    let fragments := ["xé".toList, "bé".toList, "b".toList]
    (∀ k i, ¬ StopAt stops (fragments.take k).flatten i) ∧
      LongestStart stops "xébé".toList "ébé".toList ∧
      LongestStart stops "xébéb".toList "éb".toList ∧
      ∀ j < 5, 3 ≤ j ↔ Pending stops "xébéb".toList j := by
  intro stops fragments
  have hunstopped : before? stops fragments.flatten = none := by decide
  have hnone : ∀ k i, ¬ StopAt stops (fragments.take k).flatten i :=
    not_stopAt_take (by decide) hunstopped
  obtain ⟨_, g, htwo, -, hlonger, -⟩ := holds_longest_start stops fragments hnone 2
  obtain ⟨readies, g', hthree, -, hshorter, hpending, -⟩ :=
    holds_longest_start stops fragments hnone 3
  obtain rfl := Option.some.inj (Prod.mk.inj htwo).2
  obtain ⟨rfl, hlast⟩ := Prod.mk.inj hthree
  obtain rfl := Option.some.inj hlast
  exact ⟨hnone, (hlonger _).mpr (by decide), (hshorter _).mpr (by decide), hpending⟩

end StopGate

end ModelHost.Text
