import ModelHost.Proofs.Text.Encoding

/-!
What the lenient reader reads. Where the encoding of no character starts, the longest front that
starts one, or else a single byte, is replaced. The reader keeps to this rule, and so does a joiner
however the bytes come: it holds back only the start of a character, which is three bytes at most,
and gives every character with its last byte.
-/

namespace ModelHost.Text

namespace Utf8

/-- Says that bytes, if any, are the start of the encoding of a character and not all of it. -/
def Unfinished (bytes : List UInt8) : Prop :=
  ∃ c, bytes <+: String.utf8EncodeChar c ∧ bytes ≠ String.utf8EncodeChar c

/-- Says that no character starts where a part does, and that the part is the longest front from
there that starts the encoding of one, or else a single byte. -/
structure Broken (part rest : List UInt8) : Prop where
  unspelled : ∀ c, ¬ String.utf8EncodeChar c <+: part ++ rest
  started : Unfinished part ∨ part.length = 1
  nonempty : part ≠ []
  longest : ∀ front, front <+: part ++ rest → Unfinished front → front.length ≤ part.length

inductive Reads : List UInt8 → List Char → Prop where
  | done : Reads [] []
  | char (c : Char) {rest : List UInt8} {text : List Char} (h : Reads rest text) :
    Reads (String.utf8EncodeChar c ++ rest) (c :: text)
  | broken {part rest : List UInt8} {text : List Char} (hbroken : Broken part rest)
      (h : Reads rest text) : Reads (part ++ rest) (replacement :: text)

/-! What stops the reader: bytes that can not go on with the encoding of a character, and the end of
bytes that can. -/

private theorem Run.read_eq_short {ranges : List (UInt8 × UInt8)} {bytes : List UInt8}
    (h : Run.read ranges bytes = .short) :
    ∃ range rest, ranges = range :: rest ∧
      (bytes = [] ∨ ∃ b bytes', bytes = b :: bytes' ∧ (range.1 ≤ b ∧ b ≤ range.2) ∧
        Run.read rest bytes' = .short) := by
  cases ranges with
  | nil => simp [Run.read] at h
  | cons range rest =>
    refine ⟨range, rest, rfl, ?_⟩
    cases bytes with
    | nil => exact .inl rfl
    | cons b bytes =>
      rw [Run.read] at h
      split at h
      next hrange =>
        split at h
        next => cases h
        next => cases h
        next hread => exact .inr ⟨b, bytes, rfl, hrange, hread⟩
      next => cases h

private theorem Run.read_map_fst {ranges : List (UInt8 × UInt8)}
    (h : ∀ range ∈ ranges, range.1.toNat ≤ range.2.toNat) :
    Run.read ranges (ranges.map Prod.fst) = .full (ranges.map Prod.fst) [] := by
  induction ranges with
  | nil => rfl
  | cons range ranges ih =>
    have hin : range.1 ≤ range.1 ∧ range.1 ≤ range.2 :=
      ⟨UInt8.le_refl _, UInt8.le_iff_toNat_le.mpr (h range List.mem_cons_self)⟩
    have hrest := ih fun range hmem => h range (List.mem_cons_of_mem _ hmem)
    rw [List.map_cons, Run.read, if_pos hin, hrest]

private theorem Run.read_short_append {ranges : List (UInt8 × UInt8)} {bytes : List UInt8}
    (h : Run.read ranges bytes = .short)
    (hranges : ∀ range ∈ ranges, range.1.toNat ≤ range.2.toNat) :
    bytes.length < ranges.length ∧
      ∃ more, more ≠ [] ∧ Run.read ranges (bytes ++ more) = .full (bytes ++ more) [] := by
  induction bytes generalizing ranges with
  | nil =>
    obtain ⟨range, ranges, rfl, -⟩ := Run.read_eq_short h
    refine ⟨Nat.succ_pos _, (range :: ranges).map Prod.fst, by simp, ?_⟩
    rw [List.nil_append]
    exact Run.read_map_fst hranges
  | cons b bytes ih =>
    obtain ⟨range, ranges, rfl, hnil | ⟨_, _, ⟨⟩, hrange, hread⟩⟩ := Run.read_eq_short h
    · nomatch hnil
    · obtain ⟨hlength, more, hmore, hfull⟩ :=
        ih hread fun range hmem => hranges range (List.mem_cons_of_mem _ hmem)
      refine ⟨Nat.succ_lt_succ hlength, more, hmore, ?_⟩
      rw [List.cons_append, Run.read, if_pos hrange, hfull]

private theorem next_eq_cut {bytes : List UInt8} (h : next bytes = .cut) :
    ∃ lead followed ranges, bytes = lead :: followed ∧ Leads lead ranges ∧
      followers lead = some ranges ∧ Run.read ranges followed = .short := by
  cases bytes with
  | nil => simp [next] at h
  | cons lead followed =>
    rw [next] at h
    split at h
    next => cases h
    next ranges hranges =>
      split at h
      next => cases h
      next => cases h
      next hread => exact ⟨lead, followed, ranges, rfl, leads_of_followers hranges, hranges, hread⟩

private theorem unfinished_of_next {bytes : List UInt8} (h : next bytes = .cut) :
    bytes ≠ [] ∧ Unfinished bytes ∧ bytes.length ≤ 3 := by
  obtain ⟨lead, followed, ranges, rfl, hleads, hranges, hread⟩ := next_eq_cut h
  obtain ⟨hcount, hrange⟩ := hleads.ranges
  obtain ⟨hlength, more, hmore, hfull⟩ :=
    Run.read_short_append hread fun range hmem => (hrange range hmem).2.1
  have hencode := next_eq_char_iff.mp (next_of_read hranges hfull)
  rw [List.append_nil, ← List.cons_append] at hencode
  refine ⟨List.cons_ne_nil _ _, ⟨_, ⟨more, hencode⟩, ?_⟩, ?_⟩
  · rw [← hencode]
    simpa using hmore
  · rw [List.length_cons]
    omega

private theorem Run.read_stopped_eq {ranges : List (UInt8 × UInt8)} {bytes rest : List UInt8}
    (h : Run.read ranges bytes = .stopped rest) :
    ∃ taken b more, bytes = taken ++ b :: more ∧ rest = b :: more ∧
      Run.read ranges taken = .short ∧
      ∀ other, Run.read ranges (taken ++ b :: other) = .stopped (b :: other) := by
  induction ranges generalizing bytes with
  | nil => simp [Run.read] at h
  | cons range ranges ih =>
    cases bytes with
    | nil => simp [Run.read] at h
    | cons b bytes =>
      rw [Run.read] at h
      split at h
      next hrange =>
        split at h
        next => cases h
        next hread =>
          obtain rfl := Run.stopped.inj h
          obtain ⟨taken, b', more, rfl, hrest, hshort, hother⟩ := ih hread
          refine ⟨b :: taken, b', more, rfl, hrest, ?_, ?_⟩
          · rw [Run.read, if_pos hrange, hshort]
          · intro other
            rw [List.cons_append, Run.read, if_pos hrange, hother]
        next => cases h
      next hrange =>
        refine ⟨[], b, bytes, rfl, (Run.stopped.inj h).symm, rfl, ?_⟩
        intro other
        rw [List.nil_append, Run.read, if_neg hrange]

private theorem Run.read_short_append_lead {ranges : List (UInt8 × UInt8)} {bytes : List UInt8}
    {b : UInt8} (h : Run.read ranges bytes = .short) (hb : b.toNat < 0x80 ∨ 0xBF < b.toNat)
    (hranges : ∀ range ∈ ranges, 0x80 ≤ range.1.toNat ∧ range.2.toNat ≤ 0xBF)
    (more : List UInt8) : Run.read ranges (bytes ++ b :: more) = .stopped (b :: more) := by
  induction bytes generalizing ranges with
  | nil =>
    obtain ⟨range, ranges, rfl, -⟩ := Run.read_eq_short h
    have hrange := hranges range List.mem_cons_self
    rw [List.nil_append, Run.read, if_neg]
    simp only [UInt8.le_iff_toNat_le]
    omega
  | cons b' bytes ih =>
    obtain ⟨range, ranges, rfl, hnil | ⟨_, _, ⟨⟩, hrange, hread⟩⟩ := Run.read_eq_short h
    · cases hnil
    · rw [List.cons_append, Run.read, if_pos hrange,
        ih hread fun range hmem => hranges range (List.mem_cons_of_mem _ hmem)]

/-- A character that starts where another one is cut off breaks that one. -/
theorem next_append_encode {bytes : List UInt8} (h : next bytes = .cut) (c : Char)
    (more : List UInt8) :
    next (bytes ++ (String.utf8EncodeChar c ++ more)) =
      .broken (String.utf8EncodeChar c ++ more) := by
  obtain ⟨b, taken, hencode, hb, -⟩ := exists_lead c
  obtain ⟨lead, followed, ranges, rfl, hleads, hranges, hread⟩ := next_eq_cut h
  have hbounds : ∀ range ∈ ranges, 0x80 ≤ range.1.toNat ∧ range.2.toNat ≤ 0xBF := by
    intro range hmem
    obtain ⟨hlow, -, hhigh⟩ := hleads.ranges.2 range hmem
    exact ⟨hlow, hhigh⟩
  have hstopped := Run.read_short_append_lead hread hb hbounds (taken ++ more)
  rw [hencode, List.cons_append, List.cons_append, next]
  simp only [hranges, hstopped]

/-- Where the reader finds no character, whatever goes further than the part it drops is broken
too. -/
private theorem exists_part_of_next {bytes rest : List UInt8} (h : next bytes = .broken rest) :
    ∃ part, bytes = part ++ rest ∧ (next part = .cut ∨ part.length = 1) ∧
      ∀ front more, front <+: bytes → part.length < front.length →
        ∃ rest', next (front ++ more) = .broken rest' := by
  cases bytes with
  | nil => simp [next] at h
  | cons lead bytes =>
    rw [next] at h
    split at h
    next hnone =>
      obtain rfl := Step.broken.inj h
      refine ⟨[lead], rfl, .inr rfl, ?_⟩
      rintro front more hfront hlength
      cases front with
      | nil => cases hlength
      | cons b front =>
        obtain ⟨rfl, -⟩ := List.cons_prefix_cons.mp hfront
        exact ⟨front ++ more, by rw [List.cons_append, next, hnone]⟩
    next ranges hranges =>
      split at h
      next => cases h
      next hread =>
        obtain rfl := Step.broken.inj h
        obtain ⟨taken, b, more, rfl, rfl, hshort, hother⟩ := Run.read_stopped_eq hread
        refine ⟨lead :: taken, rfl, .inl (by rw [next, hranges]; simp only [hshort]), ?_⟩
        intro front more' hfront hlength
        have htake := List.prefix_iff_eq_take.mp hfront
        obtain ⟨n, hn⟩ : ∃ n, front.length = (lead :: taken).length + (n + 1) :=
          ⟨front.length - (lead :: taken).length - 1, by omega⟩
        rw [hn, ← List.cons_append, List.take_length_add_append, List.take_succ_cons] at htake
        refine ⟨b :: (more.take n ++ more'), ?_⟩
        rw [htake, List.cons_append, List.cons_append, List.append_assoc, List.cons_append, next,
          hranges]
        simp only [hother]
      next => cases h

private theorem not_encode_prefix {bytes : List UInt8} (h : ∀ c rest, next bytes ≠ .char c rest)
    (c : Char) : ¬ String.utf8EncodeChar c <+: bytes := by
  rintro ⟨rest, rfl⟩
  exact h c rest (next_utf8EncodeChar c rest)

private theorem broken_of_next {bytes rest : List UInt8} (h : next bytes = .broken rest) :
    ∃ part, bytes = part ++ rest ∧ Broken part rest := by
  obtain ⟨part, rfl, hpart, hfurther⟩ := exists_part_of_next h
  refine ⟨part, rfl, not_encode_prefix (by simp [h]), ?_, ?_, ?_⟩
  · exact hpart.imp_left fun hcut => (unfinished_of_next hcut).2.1
  · rintro rfl
    simp [next] at hpart
  · rintro front hfront ⟨c, ⟨more, hmore⟩, -⟩
    refine Nat.le_of_not_lt fun hlength => ?_
    obtain ⟨rest', hbroken⟩ := hfurther front more hfront hlength
    have hchar := next_utf8EncodeChar c []
    rw [List.append_nil, ← hmore, hbroken] at hchar
    cases hchar

private theorem broken_of_cut {bytes : List UInt8} (h : next bytes = .cut) : Broken bytes [] := by
  obtain ⟨hne, hunfinished, -⟩ := unfinished_of_next h
  refine ⟨?_, .inl hunfinished, hne, ?_⟩
  · rw [List.append_nil]
    exact not_encode_prefix (by simp [h])
  · intro front hfront _
    simpa using hfront.length_le

theorem Broken.length_le {part part' rest rest' : List UInt8} (h : Broken part rest)
    (h' : Broken part' rest') (heq : part ++ rest = part' ++ rest') :
    part'.length ≤ part.length := by
  rcases h'.started with hunfinished | hone
  · exact h.longest part' (heq ▸ List.prefix_append part' rest') hunfinished
  · have hpos := List.length_pos_iff.mpr h.nonempty
    omega

theorem Broken.unique {part part' rest rest' : List UInt8} (h : Broken part rest)
    (h' : Broken part' rest') (heq : part ++ rest = part' ++ rest') :
    part = part' ∧ rest = rest' :=
  List.append_inj heq (Nat.le_antisymm (h'.length_le h heq.symm) (h.length_le h' heq))

theorem reads_lossy (bytes : List UInt8) : Reads bytes (lossy bytes) := by
  induction bytes using lossy.induct with
  | case1 bytes hdone =>
    rw [lossy_eq_drain, next_done hdone, drain_nil, lossy]
    exact .done
  | case2 bytes c rest hchar ih =>
    rw [lossy_char hchar, next_eq_char_iff.mp hchar]
    exact .char c ih
  | case3 bytes rest hbroken ih =>
    obtain ⟨part, rfl, hpart⟩ := broken_of_next hbroken
    rw [lossy_broken hbroken]
    exact .broken hpart ih
  | case4 bytes hcut =>
    have h := Reads.broken (broken_of_cut hcut) .done
    rwa [List.append_nil, ← lossy_cut hcut] at h

theorem Reads.eq_lossy {bytes : List UInt8} {text : List Char} (h : Reads bytes text) :
    text = lossy bytes := by
  induction h with
  | done => rw [lossy_nil]
  | char c _ ih => rw [lossy_char (next_utf8EncodeChar c _), ih]
  | @broken part rest text hbroken _ ih =>
    cases hnext : next (part ++ rest) with
    | done => exact absurd (List.append_eq_nil_iff.mp (next_done hnext)).1 hbroken.nonempty
    | char c rest' =>
      exact absurd ⟨rest', (next_eq_char_iff.mp hnext).symm⟩ (hbroken.unspelled c)
    | broken rest' =>
      obtain ⟨part', heq, hbroken'⟩ := broken_of_next hnext
      rw [lossy_broken hnext, ih, (hbroken.unique hbroken' heq).2]
    | cut =>
      obtain ⟨-, hrest⟩ := hbroken.unique (broken_of_cut hnext) (List.append_nil _).symm
      rw [lossy_cut hnext, ih, hrest, lossy_nil]

theorem reads_iff {bytes : List UInt8} {text : List Char} :
    Reads bytes text ↔ text = lossy bytes :=
  ⟨Reads.eq_lossy, fun h => h ▸ reads_lossy bytes⟩

/-! What a reader holds back. -/

theorem drain_pending (bytes : List UInt8) :
    (drain bytes).2 = [] ∨ next (drain bytes).2 = .cut := by
  induction bytes using lossy.induct with
  | case1 bytes hdone => exact .inl (by rw [next_done hdone, drain_nil])
  | case2 bytes c rest hchar ih => rwa [drain_char hchar]
  | case3 bytes rest hbroken ih => rwa [drain_broken hbroken]
  | case4 bytes hcut => exact .inr (by rwa [drain_cut hcut])

theorem drain_drain (bytes : List UInt8) : drain (drain bytes).2 = ([], (drain bytes).2) := by
  rcases drain_pending bytes with hnil | hcut
  · rw [hnil, drain_nil]
  · exact drain_cut hcut

theorem unfinished_drain (bytes : List UInt8) :
    (drain bytes).2.length ≤ 3 ∧ Unfinished (drain bytes).2 := by
  rcases drain_pending bytes with hnil | hcut
  · rw [hnil]
    exact ⟨Nat.zero_le 3, default, List.nil_prefix, String.utf8EncodeChar_ne_nil.symm⟩
  · exact ⟨(unfinished_of_next hcut).2.2, (unfinished_of_next hcut).2.1⟩

/-- A character is read with its last byte, whatever stands before it. -/
theorem drain_append_encode (front : List UInt8) (c : Char) :
    drain (front ++ String.utf8EncodeChar c) = (lossy front ++ [c], []) := by
  have hc : drain (String.utf8EncodeChar c) = ([c], []) := by
    simpa [encode] using drain_encode [c]
  rw [drain_append, lossy_eq_drain front]
  rcases drain_pending front with hnil | hcut
  · simp [hnil, hc, lossy_nil]
  · have hnext := next_append_encode hcut c []
    rw [List.append_nil] at hnext
    simp [drain_broken hnext, hc, lossy_cut hcut]

/-! Reading in turns. A turn reads characters up to the first place where none starts. If a broken
part stands there another turn goes on after it, and a count of turns shows that they come to an
end. -/

inductive Turn where
  | last (text : List Char) (pending : List UInt8)
  | another (text : List Char) (rest : List UInt8)

def Turn.cons (c : Char) : Turn → Turn
  | last text pending => last (c :: text) pending
  | another text rest => another (c :: text) rest

def turn (bytes : List UInt8) : Turn :=
  match _h : next bytes with
  | .done => .last [] []
  | .char c rest => (turn rest).cons c
  | .broken rest => .another [replacement] rest
  | .cut => .last [] bytes
termination_by bytes.length
decreasing_by exact next_char_length ‹_›

def drainWithin : Nat → List Char → List UInt8 → Option (List Char × List UInt8)
  | 0, _, _ => none
  | turns + 1, out, bytes =>
    match turn bytes with
    | .last text pending => some (out ++ text, pending)
    | .another text rest => drainWithin turns (out ++ text) rest

theorem turn_spec (bytes : List UInt8) :
    match turn bytes with
    | .last text pending => drain bytes = (text, pending)
    | .another text rest =>
      rest.length < bytes.length ∧ drain bytes = (text ++ (drain rest).1, (drain rest).2) := by
  induction bytes using turn.induct with
  | case1 bytes hdone =>
    have hturn : turn bytes = .last [] [] := by
      rw [turn]
      split <;> simp_all
    rw [hturn, next_done hdone, drain_nil]
  | case2 bytes c rest hchar ih =>
    have hturn : turn bytes = (turn rest).cons c := by
      rw [turn]
      split <;> simp_all
    have hlength := next_char_length hchar
    rw [hturn, drain_char hchar]
    cases hrest : turn rest <;> rw [hrest] at ih
    · simp [Turn.cons, ih]
    · simp only [Turn.cons, ih, List.cons_append, and_true]
      omega
  | case3 bytes rest hbroken =>
    have hturn : turn bytes = .another [replacement] rest := by
      rw [turn]
      split <;> simp_all
    rw [hturn, drain_broken hbroken]
    exact ⟨next_broken_length hbroken, rfl⟩
  | case4 bytes hcut =>
    have hturn : turn bytes = .last [] bytes := by
      rw [turn]
      split <;> simp_all
    rw [hturn, drain_cut hcut]

/-- Every turn but the last one drops a byte at least, so there are enough turns if there is one
more than bytes. -/
theorem drainWithin_eq {turns : Nat} {bytes : List UInt8} (h : bytes.length < turns)
    (out : List Char) :
    drainWithin turns out bytes = some (out ++ (drain bytes).1, (drain bytes).2) := by
  induction turns generalizing out bytes with
  | zero => nomatch h
  | succ turns ih =>
    have hspec := turn_spec bytes
    rw [drainWithin]
    split
    next hturn =>
      rw [hturn] at hspec
      rw [hspec]
    next hturn =>
      rw [hturn] at hspec
      rw [ih (by omega), hspec.2, List.append_assoc]

end Utf8

namespace Joiner

/-- The pieces up to any one read as far as they would if they came as one piece. -/
theorem pushAll_eq_drain (j : Joiner) (pieces : List (List UInt8))
    (hj : Utf8.drain j.pending = ([], j.pending)) :
    (j.pushAll pieces).1.flatten = (Utf8.drain (j.pending ++ pieces.flatten)).1 ∧
      (j.pushAll pieces).2.pending = (Utf8.drain (j.pending ++ pieces.flatten)).2 := by
  induction pieces generalizing j with
  | nil => simp [pushAll, hj]
  | cons piece pieces ih =>
    have hpush := ih (j.push piece).2
      (Utf8.drain_drain (j.pending ++ piece))
    rw [List.flatten_cons, ← List.append_assoc, Utf8.drain_append]
    simpa [pushAll, push] using hpush

/-- However bytes are cut into pieces, what the pieces give together is the one lenient reading of
them. After every piece the reader holds the start of a character, and has given every character
that is there in full. No piece needs more turns than one for each byte and one more. -/
theorem reads_fragments (pieces : List (List UInt8)) :
    (∀ text, Utf8.Reads pieces.flatten text ↔ (fragments pieces).flatten = text) ∧
      (start.pushAll pieces).2.pending.length ≤ 3 ∧
      Utf8.Unfinished (start.pushAll pieces).2.pending ∧
      (∀ front c more text, pieces.flatten = front ++ String.utf8EncodeChar c ++ more →
        Utf8.Reads front text → text ++ [c] <+: (start.pushAll pieces).1.flatten) ∧
      ∀ piece, Utf8.drainWithin (((start.pushAll pieces).2.pending ++ piece).length + 1) []
          ((start.pushAll pieces).2.pending ++ piece) =
        some (((start.pushAll pieces).2.push piece).1,
          ((start.pushAll pieces).2.push piece).2.pending) := by
  obtain ⟨hout, hpending⟩ := start.pushAll_eq_drain pieces Utf8.drain_nil
  rw [start, List.nil_append] at hout hpending
  refine ⟨?_, ?_, ?_, ?_, ?_⟩
  · intro text
    rw [Utf8.reads_iff, flatten_fragments, eq_comm]
  · rw [start, hpending]
    exact (Utf8.unfinished_drain _).1
  · rw [start, hpending]
    exact (Utf8.unfinished_drain _).2
  · intro front c more text hpieces hread
    rw [start, hout, hpieces, Utf8.drain_append, Utf8.drain_append_encode, hread.eq_lossy]
    exact List.prefix_append _ _
  · intro piece
    rw [Utf8.drainWithin_eq (Nat.lt_succ_self _), List.nil_append]
    rfl

end Joiner

end ModelHost.Text
