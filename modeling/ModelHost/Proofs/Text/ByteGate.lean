import ModelHost.Proofs.Text.Encoding
import ModelHost.Proofs.Text.Stops

/-!
A gate that works on bytes. It looks for stop texts byte by byte, counts in bytes what it holds and
may cut only where a character starts: where a cut would fall inside of a character it comes to
nothing. On the bytes of a text that never happens, and what it lets through are the bytes of what
the gate on characters lets through.
-/

namespace ModelHost.Text

namespace Utf8

theorem encode_prefix_iff {front text : List Char} :
    encode front <+: encode text ↔ front <+: text := by
  constructor
  · rintro ⟨rest, hrest⟩
    have hdrain := drain_append (encode front) rest
    rw [hrest, drain_encode, drain_encode] at hdrain
    exact ⟨_, (Prod.mk.inj hdrain).1.symm⟩
  · rintro ⟨rest, rfl⟩
    rw [encode_append]
    exact List.prefix_append ..

theorem encode_injective {a b : List Char} (h : encode a = encode b) : a = b := by
  have hdrain := drain_encode a
  rw [h, drain_encode] at hdrain
  exact (Prod.mk.inj hdrain).1.symm

private theorem length_encode_lt {front front' text : List Char} (h : front <+: text)
    (h' : front' <+: text)
    (hlength : (encode front).length < (encode front').length) : front.length < front'.length := by
  refine Nat.lt_of_not_le fun hle => ?_
  have hfront := List.prefix_of_prefix_length_le h' h hle
  exact Nat.not_le_of_lt hlength (encode_prefix_iff.mpr hfront).length_le

/-! Where bytes can be cut. -/

def starts (b : UInt8) : Bool := b < 0x80 || 0xC0 ≤ b

private theorem starts_iff {b : UInt8} : starts b = true ↔ b.toNat < 0x80 ∨ 0xBF < b.toNat := by
  simp only [starts, Bool.or_eq_true, decide_eq_true_eq, UInt8.lt_iff_toNat_lt,
    UInt8.le_iff_toNat_le]
  rfl

def isPlace (bytes : List UInt8) (i : Nat) : Bool :=
  i == 0 || i == bytes.length || bytes[i]?.any starts

def cut? (bytes : List UInt8) (i : Nat) : Option (List UInt8 × List UInt8) :=
  if isPlace bytes i then some (bytes.take i, bytes.drop i) else none

theorem isPlace_iff {bytes : List UInt8} {i : Nat} : isPlace bytes i = true ↔
    i = 0 ∨ i = bytes.length ∨
      ∃ b, bytes[i]? = some b ∧ (b.toNat < 0x80 ∨ 0xBF < b.toNat) := by
  simp only [isPlace, Bool.or_eq_true, beq_iff_eq, Option.any_eq_true, starts_iff, or_assoc]

private theorem isPlace_encode (front rest : List Char) :
    isPlace (encode (front ++ rest)) (encode front).length = true := by
  rw [isPlace_iff, encode_append, List.getElem?_append_right (Nat.le_refl _), Nat.sub_self]
  cases rest with
  | nil => simp
  | cons c rest =>
    obtain ⟨lead, taken, hencode, hlead, -⟩ := exists_lead c
    refine .inr (.inr ⟨lead, ?_, hlead⟩)
    rw [encode_cons, hencode]
    rfl

private theorem exists_front_of_isPlace {text : List Char} {i : Nat}
    (h : isPlace (encode text) i = true) :
    ∃ front rest, text = front ++ rest ∧ i = (encode front).length := by
  induction text generalizing i with
  | nil => exact ⟨[], [], rfl, by simpa [isPlace] using h⟩
  | cons c text ih =>
    obtain ⟨lead, taken, hencode, -, htaken⟩ := exists_lead c
    have hplace := isPlace_iff.mp h
    rw [encode_cons, List.length_append] at hplace
    by_cases hzero : i = 0
    · exact ⟨[], c :: text, rfl, hzero⟩
    by_cases hinside : i < (String.utf8EncodeChar c).length
    · -- The place lies before a byte that follows.
      exfalso
      obtain ⟨i, rfl⟩ := Nat.exists_eq_succ_of_ne_zero hzero
      have hi : i < taken.length := by simpa [hencode] using hinside
      have hbyte := htaken taken[i] (List.getElem_mem hi)
      rw [List.getElem?_append_left hinside, hencode, List.getElem?_cons_succ,
        List.getElem?_eq_getElem hi] at hplace
      rcases hplace with hfirst | hlast | ⟨b, hb, hstarts⟩
      · omega
      · rw [← hencode] at hlast
        omega
      · obtain rfl := Option.some.inj hb
        omega
    · obtain ⟨i, rfl⟩ := Nat.exists_eq_add_of_le (Nat.le_of_not_lt hinside)
      rw [List.getElem?_append_right (Nat.le_add_right ..), Nat.add_sub_cancel_left] at hplace
      have hrest : isPlace (encode text) i = true := by
        rw [isPlace_iff]
        rcases hplace with hfirst | hlast | hbyte
        · omega
        · exact .inr (.inl (Nat.add_left_cancel hlast))
        · exact .inr (.inr hbyte)
      obtain ⟨front, rest, rfl, rfl⟩ := ih hrest
      exact ⟨c :: front, rest, rfl, by simp⟩

theorem cut?_encode (front rest : List Char) :
    cut? (encode (front ++ rest)) (encode front).length = some (encode front, encode rest) := by
  rw [cut?, if_pos (isPlace_encode front rest), encode_append, List.take_left, List.drop_left]

/-! Looking for the bytes of a text in those of another. A text that is not empty starts only where
a character does. -/

private theorem exists_front_of_encode_prefix_drop {pattern text : List Char} {i : Nat}
    (hne : pattern ≠ []) (h : encode pattern <+: (encode text).drop i) :
    ∃ front rest, text = front ++ rest ∧ i = (encode front).length ∧ pattern <+: rest := by
  obtain ⟨c, pattern, rfl⟩ := List.exists_cons_of_ne_nil hne
  obtain ⟨more, hmore⟩ := h
  obtain ⟨lead, taken, hencode, hlead, -⟩ := exists_lead c
  have hbyte : (encode text)[i]? = some lead := by
    rw [← List.head?_drop, ← hmore, encode_cons, hencode]
    rfl
  have hplace : isPlace (encode text) i = true := by
    exact isPlace_iff.mpr (.inr (.inr ⟨lead, hbyte, hlead⟩))
  obtain ⟨front, rest, rfl, rfl⟩ := exists_front_of_isPlace hplace
  rw [encode_append, List.drop_left] at hmore
  exact ⟨front, rest, rfl, rfl, encode_prefix_iff.mp ⟨more, hmore⟩⟩

def find? (pattern bytes : List UInt8) : Option Nat :=
  (List.range (bytes.length + 1)).find? fun i => pattern.isPrefixOf (bytes.drop i)

private theorem find?_eq_some_iff {pattern bytes : List UInt8} {i : Nat} :
    find? pattern bytes = some i ↔
      pattern <+: bytes.drop i ∧ i ≤ bytes.length ∧ ∀ j < i, ¬ pattern <+: bytes.drop j := by
  simp only [find?, List.find?_range_eq_some, List.mem_range, Nat.lt_succ_iff,
    List.isPrefixOf_iff_prefix, Bool.not_eq_true', ← Bool.not_eq_true]

private theorem find?_eq_none_iff {pattern bytes : List UInt8} :
    find? pattern bytes = none ↔ ∀ i ≤ bytes.length, ¬ pattern <+: bytes.drop i := by
  simp only [find?, List.find?_range_eq_none, Nat.lt_succ_iff, List.isPrefixOf_iff_prefix,
    Bool.not_eq_true', ← Bool.not_eq_true]

def findFirst? (patterns : List (List UInt8)) (bytes : List UInt8) : Option Nat :=
  (patterns.filterMap (find? · bytes)).min?

private theorem stopAt_of_encode_prefix_drop {stops : List (List Char)} {stop text : List Char}
    {i : Nat} (hmem : stop ∈ stops) (hne : stop ≠ []) (h : encode stop <+: (encode text).drop i) :
    ∃ front, front <+: text ∧ i = (encode front).length ∧ StopAt stops text front.length := by
  obtain ⟨front, rest, rfl, rfl, hstop⟩ := exists_front_of_encode_prefix_drop hne h
  refine ⟨front, List.prefix_append .., rfl, stop, hmem, hne, ?_⟩
  rwa [List.drop_left]

theorem findFirst?_encode {stops : List (List Char)} (hstops : [] ∉ stops) (text : List Char) :
    findFirst? (stops.map encode) (encode text) =
      (before? stops text).map fun front => (encode front).length := by
  have hne : ∀ stop ∈ stops, stop ≠ [] := fun stop hmem hnil => hstops (hnil ▸ hmem)
  cases hbefore : before? stops text with
  | none =>
    rw [Option.map_none, findFirst?, List.min?_eq_none_iff, List.filterMap_eq_nil_iff,
      List.forall_mem_map]
    intro stop hmem
    rw [find?_eq_none_iff]
    intro i _ hfound
    obtain ⟨front, -, -, hat⟩ := stopAt_of_encode_prefix_drop hmem (hne stop hmem) hfound
    exact (before?_eq_none_iff hstops text).mp hbefore _ hat
  | some front =>
    obtain ⟨i, ⟨stop, hmem, hnil, hstop⟩, hleast, rfl⟩ := before?_eq_some hstops hbefore
    have hfirst : ∀ stop ∈ stops, ∀ j < (encode (text.take i)).length,
        ¬ encode stop <+: (encode text).drop j := by
      intro stop hmem j hj hfound
      obtain ⟨front, hfront, rfl, hat⟩ :=
        stopAt_of_encode_prefix_drop hmem (hne stop hmem) hfound
      have hlength := length_encode_lt hfront (List.take_prefix i text) hj
      rw [List.length_take] at hlength
      exact hleast front.length (by omega) hat
    rw [Option.map_some, findFirst?, List.min?_eq_some_iff]
    constructor
    · refine List.mem_filterMap.mpr ⟨encode stop, List.mem_map_of_mem hmem, ?_⟩
      refine find?_eq_some_iff.mpr ⟨?_, ?_, hfirst stop hmem⟩
      · have hsplit := encode_append (text.take i) (text.drop i)
        rw [List.take_append_drop] at hsplit
        rw [hsplit, List.drop_left]
        exact encode_prefix_iff.mpr hstop
      · exact (encode_prefix_iff.mpr (List.take_prefix i text)).length_le
    · intro j hj
      obtain ⟨pattern, hpattern, hfind⟩ := List.mem_filterMap.mp hj
      obtain ⟨stop', hmem', rfl⟩ := List.mem_map.mp hpattern
      exact Nat.le_of_not_lt fun hlt => hfirst stop' hmem' j hlt (find?_eq_some_iff.mp hfind).1

/-! How much to hold. -/

theorem encode_suffix_iff {tail text : List Char} :
    encode tail <:+ encode text ↔ tail <:+ text := by
  constructor
  · rintro ⟨more, hmore⟩
    by_cases hne : tail = []
    · exact hne ▸ List.nil_suffix
    have hfound : encode tail <+: (encode text).drop more.length := by simp [← hmore]
    obtain ⟨front, rest, rfl, hlength, -⟩ := exists_front_of_encode_prefix_drop hne hfound
    rw [encode_append] at hmore
    obtain ⟨-, hrest⟩ := List.append_inj hmore hlength
    exact encode_injective hrest ▸ List.suffix_append front rest
  · rintro ⟨front, rfl⟩
    rw [encode_append]
    exact List.suffix_append ..

/-- The greatest length, short of its own, at which a pattern can be cut so that bytes end with what
stands before the cut. -/
def overlap? (bytes pattern : List UInt8) : Option Nat :=
  ((List.range' 1 (pattern.length - 1)).reverse.filter (isPlace pattern)).find? fun k =>
    (pattern.take k).isSuffixOf bytes

def overlap (patterns : List (List UInt8)) (bytes : List UInt8) : Nat :=
  (patterns.filterMap (overlap? bytes)).max?.getD 0

private theorem exists_tail_of_overlap? {stop text : List Char} {k : Nat}
    (h : overlap? (encode text) (encode stop) = some k) :
    ∃ tail, tail ≠ [] ∧ tail <:+ text ∧ tail <+: stop ∧ tail.length < stop.length ∧
      k = (encode tail).length := by
  have hmem := List.mem_of_find?_eq_some h
  rw [List.mem_filter, List.mem_reverse, List.mem_range'_1] at hmem
  obtain ⟨hrange, hplace⟩ := hmem
  have hsuffix := List.find?_some h
  obtain ⟨front, rest, rfl, rfl⟩ := exists_front_of_isPlace hplace
  rw [List.isSuffixOf_iff_suffix, encode_append, List.take_left, encode_suffix_iff] at hsuffix
  refine ⟨front, ?_, hsuffix, List.prefix_append .., ?_, rfl⟩
  · rintro rfl
    simp at hrange
  · have hrest : rest ≠ [] := by
      rintro rfl
      simp at hrange
      omega
    rw [List.length_append]
    exact Nat.lt_add_of_pos_right (List.length_pos_iff.mpr hrest)

private theorem exists_overlap? {stop tail text : List Char} (hne : tail ≠ [])
    (hsuffix : tail <:+ text) (hstop : tail <+: stop) (hlength : tail.length < stop.length) :
    ∃ k, overlap? (encode text) (encode stop) = some k ∧ (encode tail).length ≤ k := by
  obtain ⟨rest, rfl⟩ := hstop
  have hrest : rest ≠ [] := by
    rintro rfl
    simp at hlength
  have hpos : 0 < (encode tail).length := by simpa [List.length_pos_iff] using hne
  have hpos' : 0 < (encode rest).length := by simpa [List.length_pos_iff] using hrest
  have hmem : (encode tail).length ∈
      (List.range' 1 ((encode (tail ++ rest)).length - 1)).reverse.filter
        (isPlace (encode (tail ++ rest))) := by
    rw [List.mem_filter, List.mem_reverse, List.mem_range'_1]
    refine ⟨?_, isPlace_encode tail rest⟩
    rw [encode_append, List.length_append]
    omega
  have hends : ((encode (tail ++ rest)).take (encode tail).length).isSuffixOf (encode text) := by
    rw [List.isSuffixOf_iff_suffix, encode_append, List.take_left, encode_suffix_iff]
    exact hsuffix
  cases hfound : overlap? (encode text) (encode (tail ++ rest)) with
  | none => exact absurd hends (List.find?_eq_none.mp hfound _ hmem)
  | some k =>
    refine ⟨k, rfl, ?_⟩
    obtain ⟨-, longer, shorter, hsplit, hlonger⟩ := List.find?_eq_some_iff_append.mp hfound
    have hsorted : (longer ++ k :: shorter).Pairwise (· > ·) := by
      rw [← hsplit]
      exact (List.pairwise_reverse.mpr List.pairwise_lt_range').filter _
    rw [hsplit, List.mem_append, List.mem_cons] at hmem
    rcases hmem with hin | rfl | hin
    · have hnot := hlonger _ hin
      simp only [hends, Bool.not_true, Bool.false_eq_true] at hnot
    · exact Nat.le_refl _
    · exact Nat.le_of_lt
        (List.rel_of_pairwise_cons (List.pairwise_append.mp hsorted).2.1 hin)

/-- What is held in bytes are the bytes of the open tail. -/
theorem overlap_encode (stops : List (List Char)) (text : List Char) :
    overlap (stops.map encode) (encode text) = (encode (openTail stops text)).length := by
  have hbound : ∀ stop ∈ stops, ∀ k, overlap? (encode text) (encode stop) = some k →
      openTail stops text ≠ [] ∧ k ≤ (encode (openTail stops text)).length := by
    intro stop hmem k hk
    obtain ⟨tail, hne, hsuffix, hstop, hlength, rfl⟩ := exists_tail_of_overlap? hk
    have hlongest := suffix_openTail hne hsuffix (opens_iff.mpr ⟨stop, hmem, hstop, hlength⟩)
    refine ⟨?_, (encode_suffix_iff.mpr hlongest).length_le⟩
    intro hnil
    rw [hnil, List.suffix_nil] at hlongest
    exact hne hlongest
  rw [overlap]
  by_cases hnil : openTail stops text = []
  · have hnone : (stops.map encode).filterMap (overlap? (encode text)) = [] := by
      rw [List.filterMap_eq_nil_iff, List.forall_mem_map]
      intro stop hmem
      refine Option.eq_none_iff_forall_ne_some.mpr fun k hk => ?_
      exact (hbound stop hmem k hk).1 hnil
    rw [hnone, hnil]
    rfl
  · obtain ⟨stop, hmem, hstop, hlength⟩ :=
      opens_iff.mp ((opens_openTail stops text).resolve_left hnil)
    obtain ⟨k, hk, hle⟩ := exists_overlap? hnil (openTail_suffix stops text) hstop hlength
    obtain rfl : k = (encode (openTail stops text)).length :=
      Nat.le_antisymm (hbound stop hmem k hk).2 hle
    suffices hmax : ((stops.map encode).filterMap (overlap? (encode text))).max? =
        some (encode (openTail stops text)).length by
      rw [hmax]
      rfl
    rw [List.max?_eq_some_iff]
    constructor
    · exact List.mem_filterMap.mpr ⟨encode stop, List.mem_map_of_mem hmem, hk⟩
    · intro j hj
      obtain ⟨pattern, hpattern, hfind⟩ := List.mem_filterMap.mp hj
      obtain ⟨stop', hmem', rfl⟩ := List.mem_map.mp hpattern
      exact (hbound stop' hmem' j hfind).2

end Utf8

structure ByteGate where
  stops : List (List UInt8)
  held : List UInt8
deriving DecidableEq, Repr

namespace ByteGate

def ofStops (stops : List (List UInt8)) : ByteGate := ⟨stops.filter (· ≠ []), []⟩

/-- What a fragment lets through and the gate, if it stays open. Nothing comes of it where the bytes
would have to be cut inside of a character, or more held than there is. -/
def push? (g : ByteGate) (fragment : List UInt8) : Option (List UInt8 × Option ByteGate) :=
  if g.stops = [] then some (fragment, some g)
  else
    let bytes := g.held ++ fragment
    match Utf8.findFirst? g.stops bytes with
    | some i => (Utf8.cut? bytes i).map fun (ready, _) => (ready, none)
    | none =>
      let kept := Utf8.overlap g.stops bytes
      if kept ≤ bytes.length then
        (Utf8.cut? bytes (bytes.length - kept)).map fun (ready, held) =>
          (ready, some { g with held })
      else none

def pushAll? (g : ByteGate) : List (List UInt8) → Option (List (List UInt8) × Option ByteGate)
  | [] => some ([], some g)
  | fragment :: fragments => do
    match ← g.push? fragment with
    | (ready, none) => some ([ready], none)
    | (ready, some g) =>
      let (readies, last) ← g.pushAll? fragments
      some (ready :: readies, last)

end ByteGate

namespace StopGate

def bytes (g : StopGate) : ByteGate := ⟨g.stops.map Utf8.encode, Utf8.encode g.held⟩

theorem bytes_ofStops (stops : List (List Char)) :
    (ofStops stops).bytes = .ofStops (stops.map Utf8.encode) := by
  simp [bytes, ofStops, ByteGate.ofStops, List.filter_map, Function.comp_def]

variable {g g' : StopGate} {fragment ready : List Char}

theorem bytes_push?_closed (hg : [] ∉ g.stops) (h : g.push fragment = (.closed ready, g')) :
    g.bytes.push? (Utf8.encode fragment) = some (Utf8.encode ready, none) := by
  unfold push at h
  split at h
  next => simp at h
  next hstops =>
    dsimp only at h
    split at h
    next front hbefore =>
      obtain rfl := Passage.closed.inj (Prod.mk.inj h).1
      obtain ⟨i, -, -, rfl⟩ := before?_eq_some hg hbefore
      have hfind := Utf8.findFirst?_encode hg (g.held ++ fragment)
      have hcut := Utf8.cut?_encode ((g.held ++ fragment).take i) ((g.held ++ fragment).drop i)
      rw [List.take_append_drop] at hcut
      rw [hbefore, Option.map_some] at hfind
      rw [ByteGate.push?, if_neg (by simpa [bytes] using hstops)]
      simp only [bytes, ← Utf8.encode_append, hfind, hcut, Option.map_some]
    next => simp at h

theorem bytes_push?_onward (hg : [] ∉ g.stops) (h : g.push fragment = (.onward ready, g')) :
    g.bytes.push? (Utf8.encode fragment) = some (Utf8.encode ready, some g'.bytes) := by
  unfold push at h
  split at h
  next hstops =>
    obtain ⟨hready, rfl⟩ := Prod.mk.inj h
    rw [ByteGate.push?, if_pos (by simpa [bytes] using hstops), Passage.onward.inj hready]
  next hstops =>
    dsimp only at h
    split at h
    next => simp at h
    next hbefore =>
      obtain ⟨hready, rfl⟩ := Prod.mk.inj h
      obtain rfl := Passage.onward.inj hready
      have hfind := Utf8.findFirst?_encode hg (g.held ++ fragment)
      rw [hbefore, Option.map_none] at hfind
      have hkept := Utf8.overlap_encode g.stops (g.held ++ fragment)
      have hcut := Utf8.cut?_encode (settled g.stops (g.held ++ fragment))
        (openTail g.stops (g.held ++ fragment))
      have hlength : (Utf8.encode (settled g.stops (g.held ++ fragment))).length +
          (Utf8.encode (openTail g.stops (g.held ++ fragment))).length =
            (Utf8.encode (g.held ++ fragment)).length := by
        rw [← List.length_append, ← Utf8.encode_append, settled_append_openTail]
      rw [settled_append_openTail] at hcut
      rw [ByteGate.push?, if_neg (by simpa [bytes] using hstops)]
      simp only [bytes, ← Utf8.encode_append, hfind, hkept]
      rw [if_pos (by omega), ← hlength, Nat.add_sub_cancel, hcut]
      rfl

theorem stops_push (g : StopGate) (fragment : List Char) :
    (g.push fragment).2.stops = g.stops := by
  unfold push
  split
  next => rfl
  next =>
    dsimp only
    split <;> rfl

theorem bytes_pushAll? (hg : [] ∉ g.stops) (fragments : List (List Char)) :
    g.bytes.pushAll? (fragments.map Utf8.encode) =
      some ((g.pushAll fragments).1.map Utf8.encode, (g.pushAll fragments).2.map bytes) := by
  induction fragments generalizing g with
  | nil => rfl
  | cons fragment fragments ih =>
    rw [List.map_cons, ByteGate.pushAll?]
    cases hpush : g.push fragment with
    | mk passage next =>
      cases passage with
      | closed ready =>
        rw [bytes_push?_closed hg hpush, pushAll_cons_closed hpush]
        rfl
      | onward ready =>
        have hstops : next.stops = g.stops := by
          rw [← stops_push g fragment, hpush]
        rw [bytes_push?_onward hg hpush, pushAll_cons_onward hpush]
        simp only [Option.bind_eq_bind, Option.bind_some, ih (hstops ▸ hg)]
        rfl

/-- While no stop text is in what has come, a gate lets everything through but what it holds. With
the first fragment that completes one it closes, and it has let through what comes before the least
place where a stop text starts then, so at no time more than that. It can do so byte by byte and
never cuts inside of a character. -/
theorem pushAll_law (stops fragments : List (List Char)) :
    (((∀ k i, ¬ StopAt stops (fragments.take k).flatten i) ∧
        ∃ readies g, (ofStops stops).pushAll fragments = (readies, some g) ∧
          readies.length = fragments.length ∧ readies.flatten ++ g.finish = fragments.flatten) ∨
      ∃ k i readies, k ≤ fragments.length ∧ CutAt stops fragments k i ∧
        (ofStops stops).pushAll fragments = (readies, none) ∧ readies.length = k ∧
        readies.flatten = (fragments.take k).flatten.take i ∧
        ∀ l, (readies.take l).flatten.length ≤ i) ∧
    (ByteGate.ofStops (stops.map Utf8.encode)).pushAll? (fragments.map Utf8.encode) =
      some (((ofStops stops).pushAll fragments).1.map Utf8.encode,
        ((ofStops stops).pushAll fragments).2.map bytes) := by
  have hstops := nil_notMem_stops stops
  constructor
  · cases hpush : (ofStops stops).pushAll fragments with
    | mk readies last =>
      cases last with
      | some g =>
        obtain ⟨hkept, hafter, hreadies⟩ := (after_ofStops stops).pushAll_open hpush
        have hnone := hafter.unstopped
        have hfinish := hafter.settled_append_finish
        rw [hkept, List.nil_append] at hnone hfinish
        rw [List.nil_append] at hreadies
        refine .inl ⟨?_, readies, g, rfl, length_of_pushAll_open hpush, ?_⟩
        · intro k i
          rw [← stopAt_filter]
          exact not_stopAt_take hstops hnone k i
        · rw [← hreadies] at hfinish
          exact hfinish
      | none =>
        obtain ⟨k, hlength, hk, hnone, hsome⟩ := (after_ofStops stops).pushAll_closed hpush
        rw [List.nil_append] at hnone hsome
        obtain ⟨i, hcut, hfront⟩ := cutAt_of_before? hstops hnone hsome
        have hflatten : readies.flatten = (fragments.take (k + 1)).flatten.take i := hfront
        refine .inr ⟨k + 1, i, readies, hk, hcut.of_filter, rfl, hlength, hflatten, ?_⟩
        intro l
        have hprefix : (readies.take l).flatten <+: readies.flatten := by
          conv => rhs; rw [← List.take_append_drop l readies, List.flatten_append]
          exact List.prefix_append ..
        have hle := hprefix.length_le
        rw [hflatten, List.length_take] at hle
        omega
  · rw [← bytes_ofStops]
    exact bytes_pushAll? hstops fragments

end StopGate

end ModelHost.Text
