import ModelHost.Text.Utf8

/-!
Reading a text in pieces. The front of a text that reads as a character or as a broken part reads
the same whatever comes after it, so reading may stop at the start of an unfinished character and
go on when more bytes are there. However a text is cut, its pieces read as the whole does.
-/

namespace ModelHost.Text

namespace Utf8

private theorem Run.read_full_append {ranges : List (UInt8 × UInt8)} {bytes taken rest : List UInt8}
    (h : Run.read ranges bytes = .full taken rest) (more : List UInt8) :
    Run.read ranges (bytes ++ more) = .full taken (rest ++ more) := by
  induction ranges generalizing bytes taken with
  | nil =>
    obtain ⟨rfl, rfl⟩ := Run.full.inj h
    rfl
  | cons range ranges ih =>
    cases bytes with
    | nil => simp [Run.read] at h
    | cons b bytes =>
      rw [Run.read] at h
      split at h
      next hrange =>
        split at h
        next hread =>
          obtain ⟨rfl, rfl⟩ := Run.full.inj h
          rw [List.cons_append, Run.read, if_pos hrange, ih hread]
        next => simp at h
        next => simp at h
      next => simp at h

private theorem Run.read_stopped_append {ranges : List (UInt8 × UInt8)} {bytes rest : List UInt8}
    (h : Run.read ranges bytes = .stopped rest) (more : List UInt8) :
    Run.read ranges (bytes ++ more) = .stopped (rest ++ more) := by
  induction ranges generalizing bytes with
  | nil => simp [Run.read] at h
  | cons range ranges ih =>
    cases bytes with
    | nil => simp [Run.read] at h
    | cons b bytes =>
      rw [Run.read] at h
      split at h
      next hrange =>
        split at h
        next => simp at h
        next hread =>
          obtain rfl := Run.stopped.inj h
          rw [List.cons_append, Run.read, if_pos hrange, ih hread]
        next => simp at h
      next hrange =>
        obtain rfl := Run.stopped.inj h
        rw [List.cons_append, Run.read, if_neg hrange]

private theorem next_char_append {bytes rest : List UInt8} {c : Char}
    (h : next bytes = .char c rest)
    (more : List UInt8) : next (bytes ++ more) = .char c (rest ++ more) := by
  cases bytes with
  | nil => simp [next] at h
  | cons lead bytes =>
    rw [next] at h
    split at h
    next => simp at h
    next hranges =>
      split at h
      next hread =>
        obtain ⟨rfl, rfl⟩ := Step.char.inj h
        simp [next, hranges, Run.read_full_append hread more]
      next => simp at h
      next => simp at h

private theorem next_broken_append {bytes rest : List UInt8} (h : next bytes = .broken rest)
    (more : List UInt8) : next (bytes ++ more) = .broken (rest ++ more) := by
  cases bytes with
  | nil => simp [next] at h
  | cons lead bytes =>
    rw [next] at h
    split at h
    next hranges =>
      obtain rfl := Step.broken.inj h
      simp [next, hranges]
    next hranges =>
      split at h
      next => simp at h
      next hread =>
        obtain rfl := Step.broken.inj h
        simp [next, hranges, Run.read_stopped_append hread more]
      next => simp at h

theorem next_done {bytes : List UInt8} (h : next bytes = .done) : bytes = [] := by
  cases bytes with
  | nil => rfl
  | cons lead bytes =>
    rw [next] at h
    split at h
    next => simp at h
    next => split at h <;> simp at h

section Drain

variable {bytes rest : List UInt8} {c : Char}

@[simp] theorem drain_nil : drain [] = ([], []) := by
  rw [drain]
  rfl

theorem drain_char (h : next bytes = .char c rest) :
    drain bytes = (c :: (drain rest).1, (drain rest).2) := by
  rw [drain]
  split <;> simp_all

theorem drain_broken (h : next bytes = .broken rest) :
    drain bytes = (replacement :: (drain rest).1, (drain rest).2) := by
  rw [drain]
  split <;> simp_all

theorem drain_cut (h : next bytes = .cut) : drain bytes = ([], bytes) := by
  rw [drain]
  split <;> simp_all

theorem lossy_char (h : next bytes = .char c rest) : lossy bytes = c :: lossy rest := by
  rw [lossy]
  split <;> simp_all

theorem lossy_broken (h : next bytes = .broken rest) :
    lossy bytes = replacement :: lossy rest := by
  rw [lossy]
  split <;> simp_all

theorem lossy_cut (h : next bytes = .cut) : lossy bytes = [replacement] := by
  rw [lossy]
  split <;> simp_all

theorem lossy_nil : lossy [] = [] := by
  rw [lossy]
  rfl

end Drain

/-- Bytes can be read at once, or as far as they go and then from there with more of them. -/
theorem drain_append (bytes more : List UInt8) :
    drain (bytes ++ more) =
      ((drain bytes).1 ++ (drain ((drain bytes).2 ++ more)).1,
        (drain ((drain bytes).2 ++ more)).2) := by
  induction bytes using lossy.induct with
  | case1 bytes hdone => simp [next_done hdone]
  | case2 bytes c rest hchar ih =>
    rw [drain_char (next_char_append hchar more), drain_char hchar, ih, List.cons_append]
  | case3 bytes rest hbroken ih =>
    rw [drain_broken (next_broken_append hbroken more), drain_broken hbroken, ih, List.cons_append]
  | case4 bytes hcut => simp [drain_cut hcut]

theorem lossy_eq_drain (bytes : List UInt8) :
    lossy bytes = (drain bytes).1 ++ lossy (drain bytes).2 := by
  induction bytes using lossy.induct with
  | case1 bytes hdone => simp [next_done hdone]
  | case2 bytes c rest hchar ih => rw [lossy_char hchar, drain_char hchar, ih, List.cons_append]
  | case3 bytes rest hbroken ih =>
    rw [lossy_broken hbroken, drain_broken hbroken, ih, List.cons_append]
  | case4 bytes hcut => simp [drain_cut hcut]

theorem lossy_append (bytes more : List UInt8) :
    lossy (bytes ++ more) = (drain bytes).1 ++ lossy ((drain bytes).2 ++ more) := by
  rw [lossy_eq_drain (bytes ++ more), drain_append, List.append_assoc, ← lossy_eq_drain]

/-! A text that is spelled out reads as itself. -/

theorem followers_ofNat {n : Nat} (h : n < 256) : followers (UInt8.ofNat n) =
    if n < 0x80 then some []
    else if n < 0xC2 then none
    else if n < 0xE0 then some [tail]
    else if n = 0xE0 then some [(0xA0, 0xBF), tail]
    else if n = 0xED then some [(0x80, 0x9F), tail]
    else if n < 0xF0 then some [tail, tail]
    else if n = 0xF0 then some [(0x90, 0xBF), tail, tail]
    else if n < 0xF4 then some [tail, tail, tail]
    else if n = 0xF4 then some [(0x80, 0x8F), tail, tail]
    else none := by
  simp [followers, UInt8.lt_iff_toNat_lt, ← UInt8.toNat_inj, Nat.mod_eq_of_lt h]

private theorem Run.read_ofNat {range : UInt8 × UInt8} {ranges : List (UInt8 × UInt8)} {n : Nat}
    {bytes taken rest : List UInt8} (h : n < 256) (hlow : range.1.toNat ≤ n)
    (hhigh : n ≤ range.2.toNat) (hread : Run.read ranges bytes = .full taken rest) :
    Run.read (range :: ranges) (UInt8.ofNat n :: bytes) = .full (UInt8.ofNat n :: taken) rest := by
  have hin : range.1 ≤ UInt8.ofNat n ∧ UInt8.ofNat n ≤ range.2 := by
    simpa [UInt8.le_iff_toNat_le, Nat.mod_eq_of_lt h] using And.intro hlow hhigh
  simp [Run.read, hin, hread]

private theorem Run.read_tail {ranges : List (UInt8 × UInt8)} {bytes taken rest : List UInt8}
    (n : Nat) (hread : Run.read ranges bytes = .full taken rest) :
    Run.read (tail :: ranges) (UInt8.ofNat (n % 64 + 128) :: bytes) =
      .full (UInt8.ofNat (n % 64 + 128) :: taken) rest :=
  Run.read_ofNat (by omega) (by simp [tail]) (by simp [tail]; omega) hread

theorem next_of_read {lead : UInt8} {bytes taken rest : List UInt8} {ranges : List (UInt8 × UInt8)}
    (hfollowers : followers lead = some ranges) (hread : Run.read ranges bytes = .full taken rest) :
    next (lead :: bytes) = .char (spelled lead taken) rest := by
  simp only [next, hfollowers, hread]

theorem next_utf8EncodeChar (c : Char) (rest : List UInt8) :
    next (String.utf8EncodeChar c ++ rest) = .char c rest := by
  obtain ⟨v, hv⟩ : ∃ v, v = c.val.toNat := ⟨_, rfl⟩
  have hc : Char.ofNat v = c := hv ▸ Char.ofNat_toNat c
  have hvalid : v < 0xD800 ∨ 0xDFFF < v ∧ v < 0x110000 := hv ▸ c.valid
  unfold String.utf8EncodeChar
  simp only [← hv]
  -- One case for each number of bytes, and in the last two one for each narrowed range.
  by_cases hone : v ≤ 0x7F
  · rw [if_pos hone, List.singleton_append]
    rw [next_of_read ((followers_ofNat (by omega)).trans (if_pos (by omega))) rfl]
    simp [spelled, leadValue, Nat.mod_eq_of_lt (show v < 256 by omega), hc]
  rw [if_neg hone]
  by_cases htwo : v ≤ 0x7FF
  · have hlead : followers (UInt8.ofNat (v / 64 % 32 + 192)) = some [tail] := by
      rw [followers_ofNat (by omega), if_neg (by omega), if_neg (by omega), if_pos (by omega)]
    have hvalue : (v / 64 + 192) % 32 * 64 + (v + 128) % 64 = v := by omega
    rw [if_pos htwo, List.cons_append, List.cons_append, List.nil_append,
      next_of_read hlead (Run.read_tail v rfl)]
    simp [spelled, leadValue, hvalue, hc]
  rw [if_neg htwo]
  by_cases hthree : v ≤ 0xFFFF
  · have hvalue : ((v / 4096 + 224) % 16 * 64 + (v / 64 + 128) % 64) * 64 +
        (v + 128) % 64 = v := by omega
    obtain ⟨range, hlead, hlow, hhigh⟩ : ∃ range,
        followers (UInt8.ofNat (v / 4096 % 16 + 224)) = some [range, tail] ∧
          range.1.toNat ≤ v / 64 % 64 + 128 ∧ v / 64 % 64 + 128 ≤ range.2.toNat := by
      rw [followers_ofNat (by omega), if_neg (by omega), if_neg (by omega), if_neg (by omega)]
      split
      next => exact ⟨_, rfl, by simp; omega, by simp; omega⟩
      next =>
        split
        next => exact ⟨_, rfl, by simp, by simp; omega⟩
        next => exact ⟨_, if_pos (by omega), by simp [tail], by simp [tail]; omega⟩
    rw [if_pos hthree, List.cons_append, List.cons_append, List.cons_append, List.nil_append,
      next_of_read hlead (Run.read_ofNat (by omega) hlow hhigh (Run.read_tail v rfl))]
    simp [spelled, leadValue, hvalue, hc]
  rw [if_neg hthree]
  have hvalue : (((v / 262144 + 240) % 8 * 64 + (v / 4096 + 128) % 64) * 64 +
      (v / 64 + 128) % 64) * 64 + (v + 128) % 64 = v := by omega
  obtain ⟨range, hlead, hlow, hhigh⟩ : ∃ range,
      followers (UInt8.ofNat (v / 262144 % 8 + 240)) = some [range, tail, tail] ∧
        range.1.toNat ≤ v / 4096 % 64 + 128 ∧ v / 4096 % 64 + 128 ≤ range.2.toNat := by
    rw [followers_ofNat (by omega), if_neg (by omega), if_neg (by omega), if_neg (by omega),
      if_neg (by omega), if_neg (by omega), if_neg (by omega)]
    split
    next => exact ⟨_, rfl, by simp; omega, by simp; omega⟩
    next =>
      split
      next => exact ⟨_, rfl, by simp [tail], by simp [tail]; omega⟩
      next => exact ⟨_, if_pos (by omega), by simp, by simp; omega⟩
  rw [List.cons_append, List.cons_append, List.cons_append, List.cons_append, List.nil_append,
    next_of_read hlead
      (Run.read_ofNat (by omega) hlow hhigh (Run.read_tail (v / 64) (Run.read_tail v rfl)))]
  simp [spelled, leadValue, hvalue, hc]

def encode (text : List Char) : List UInt8 := text.flatMap String.utf8EncodeChar

@[simp] theorem encode_nil : encode [] = [] := rfl

@[simp] theorem encode_cons (c : Char) (text : List Char) :
    encode (c :: text) = String.utf8EncodeChar c ++ encode text := rfl

@[simp] theorem encode_append (front rest : List Char) :
    encode (front ++ rest) = encode front ++ encode rest :=
  List.flatMap_append

@[simp] theorem encode_eq_nil_iff {text : List Char} : encode text = [] ↔ text = [] := by
  cases text <;> simp [String.utf8EncodeChar_ne_nil]

theorem drain_encode (text : List Char) : drain (encode text) = (text, []) := by
  induction text with
  | nil => exact drain_nil
  | cons c text ih =>
    rw [encode_cons, drain_char (next_utf8EncodeChar c (encode text)), ih]

end Utf8

namespace Joiner

def pushAll (j : Joiner) : List (List UInt8) → List (List Char) × Joiner
  | [] => ([], j)
  | piece :: pieces =>
    let (text, j) := j.push piece
    let (texts, j) := j.pushAll pieces
    (text :: texts, j)

theorem pushAll_cons (j : Joiner) (piece : List UInt8) (pieces : List (List UInt8)) :
    j.pushAll (piece :: pieces) =
      ((j.push piece).1 :: ((j.push piece).2.pushAll pieces).1,
        ((j.push piece).2.pushAll pieces).2) := rfl

theorem length_pushAll (j : Joiner) (pieces : List (List UInt8)) :
    (j.pushAll pieces).1.length = pieces.length := by
  induction pieces generalizing j with
  | nil => rfl
  | cons piece pieces ih => simp [pushAll, ih]

/-- The texts that the pieces of a text complete, and last what is left when no more come. -/
def fragments (pieces : List (List UInt8)) : List (List Char) :=
  (start.pushAll pieces).1 ++ [(start.pushAll pieces).2.finish]

theorem length_fragments (pieces : List (List UInt8)) :
    (fragments pieces).length = pieces.length + 1 := by
  rw [fragments, List.length_append, length_pushAll, List.length_singleton]

theorem take_fragments {pieces : List (List UInt8)} {k : Nat} (h : k ≤ pieces.length) :
    (fragments pieces).take k = (start.pushAll pieces).1.take k := by
  apply List.take_append_of_le_length
  rwa [length_pushAll]

theorem flatten_pushAll_append_finish (j : Joiner) (pieces : List (List UInt8)) :
    (j.pushAll pieces).1.flatten ++ (j.pushAll pieces).2.finish =
      Utf8.lossy (j.pending ++ pieces.flatten) := by
  induction pieces generalizing j with
  | nil => simp [pushAll, finish]
  | cons piece pieces ih =>
    rw [List.flatten_cons, ← List.append_assoc, Utf8.lossy_append]
    simpa [pushAll, push] using ih ⟨(Utf8.drain (j.pending ++ piece)).2⟩

/-- However a text is cut into pieces, they read as the whole text does. -/
theorem flatten_fragments (pieces : List (List UInt8)) :
    (fragments pieces).flatten = Utf8.lossy pieces.flatten := by
  simpa [fragments, start] using flatten_pushAll_append_finish start pieces

end Joiner

end ModelHost.Text
