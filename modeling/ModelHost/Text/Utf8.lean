/-!
UTF-8. A character is one leading byte and at most three following bytes, each in a range that the
leading byte and the place decide. `next` reads one character off the front of a text; the bytes it
drops as broken are the longest run that starts a character and cannot be completed, so the lenient
reader `lossy` writes one replacement character for each such run. `Joiner` reads a text that
arrives in pieces and holds back a character until its last byte is there.
-/

namespace ModelHost.Text

namespace Utf8

def tail : UInt8 × UInt8 := (0x80, 0xBF)

/-- The ranges of the bytes that follow a leading byte; none for a byte that leads no character. -/
def followers (b : UInt8) : Option (List (UInt8 × UInt8)) :=
  if b < 0x80 then some []
  else if b < 0xC2 then none
  else if b < 0xE0 then some [tail]
  else if b = 0xE0 then some [(0xA0, 0xBF), tail]
  else if b = 0xED then some [(0x80, 0x9F), tail]
  else if b < 0xF0 then some [tail, tail]
  else if b = 0xF0 then some [(0x90, 0xBF), tail, tail]
  else if b < 0xF4 then some [tail, tail, tail]
  else if b = 0xF4 then some [(0x80, 0x8F), tail, tail]
  else none

/-- What a run of following bytes comes to: all there, stopped by a byte out of range, or cut off
by the end of the bytes. -/
inductive Run where
  | full (taken rest : List UInt8)
  | stopped (rest : List UInt8)
  | short

def Run.read : List (UInt8 × UInt8) → List UInt8 → Run
  | [], bytes => .full [] bytes
  | _ :: _, [] => .short
  | range :: ranges, b :: bytes =>
    if range.1 ≤ b ∧ b ≤ range.2 then
      match Run.read ranges bytes with
      | .full taken rest => .full (b :: taken) rest
      | .stopped rest => .stopped rest
      | .short => .short
    else .stopped (b :: bytes)

def leadValue (b : UInt8) : Nat → Nat
  | 0 => b.toNat
  | 1 => b.toNat % 32
  | 2 => b.toNat % 16
  | _ => b.toNat % 8

def spelled (lead : UInt8) (taken : List UInt8) : Char :=
  Char.ofNat (taken.foldl (fun value b => value * 64 + b.toNat % 64) (leadValue lead taken.length))

inductive Step where
  | done
  | char (c : Char) (rest : List UInt8)
  /-- The bytes before `rest` spell nothing. -/
  | broken (rest : List UInt8)
  /-- The bytes end inside a character. -/
  | cut

def next : List UInt8 → Step
  | [] => .done
  | lead :: bytes =>
    match followers lead with
    | none => .broken bytes
    | some ranges =>
      match Run.read ranges bytes with
      | .full taken rest => .char (spelled lead taken) rest
      | .stopped rest => .broken rest
      | .short => .cut

private theorem Run.read_full_length {ranges : List (UInt8 × UInt8)} {bytes taken rest : List UInt8}
    (h : Run.read ranges bytes = .full taken rest) : rest.length ≤ bytes.length := by
  induction ranges generalizing bytes taken with
  | nil => simp_all [Run.read]
  | cons range ranges ih =>
    cases bytes with
    | nil => simp [Run.read] at h
    | cons b bytes =>
      rw [Run.read] at h
      split at h
      · split at h <;> simp only [Run.full.injEq, reduceCtorEq] at h
        next hr => obtain ⟨rfl, rfl⟩ := h; exact Nat.le_succ_of_le (ih hr)
      · simp at h

private theorem Run.read_stopped_length {ranges : List (UInt8 × UInt8)} {bytes rest : List UInt8}
    (h : Run.read ranges bytes = .stopped rest) : rest.length ≤ bytes.length := by
  induction ranges generalizing bytes with
  | nil => simp [Run.read] at h
  | cons range ranges ih =>
    cases bytes with
    | nil => simp [Run.read] at h
    | cons b bytes =>
      rw [Run.read] at h
      split at h
      · split at h <;> simp only [Run.stopped.injEq, reduceCtorEq] at h
        next hr => subst h; exact Nat.le_succ_of_le (ih hr)
      · simp_all

theorem next_char_length {bytes rest : List UInt8} {c : Char} (h : next bytes = .char c rest) :
    rest.length < bytes.length := by
  cases bytes with
  | nil => simp [next] at h
  | cons lead bytes =>
    rw [next] at h
    split at h
    · simp at h
    · split at h <;> simp only [Step.char.injEq, reduceCtorEq] at h
      next hr => obtain ⟨-, rfl⟩ := h; exact Nat.lt_succ_of_le (Run.read_full_length hr)

theorem next_broken_length {bytes rest : List UInt8} (h : next bytes = .broken rest) :
    rest.length < bytes.length := by
  cases bytes with
  | nil => simp [next] at h
  | cons lead bytes =>
    rw [next] at h
    split at h
    · simp only [Step.broken.injEq] at h
      subst h
      exact Nat.lt_succ_self _
    · split at h <;> simp only [Step.broken.injEq, reduceCtorEq] at h
      next hr => subst h; exact Nat.lt_succ_of_le (Run.read_stopped_length hr)

def replacement : Char := Char.ofNat 0xFFFD

/-- Reads a whole text, writing the replacement character for each part that spells nothing. -/
def lossy (bytes : List UInt8) : List Char :=
  match _h : next bytes with
  | .done => []
  | .char c rest => c :: lossy rest
  | .broken rest => replacement :: lossy rest
  | .cut => [replacement]
termination_by bytes.length
decreasing_by
  · exact next_char_length ‹_›
  · exact next_broken_length ‹_›

def decode? (bytes : List UInt8) : Option (List Char) :=
  match _h : next bytes with
  | .done => some []
  | .char c rest => (decode? rest).map (c :: ·)
  | .broken _ => none
  | .cut => none
termination_by bytes.length
decreasing_by exact next_char_length ‹_›

def decodeText? (content : ByteArray) : Option String :=
  (decode? content.toList).map String.ofList

/-- Reads as far as the bytes allow: the text, and the bytes of a character they end inside of. -/
def drain (bytes : List UInt8) : List Char × List UInt8 :=
  match _h : next bytes with
  | .done => ([], [])
  | .char c rest =>
    let (text, pending) := drain rest
    (c :: text, pending)
  | .broken rest =>
    let (text, pending) := drain rest
    (replacement :: text, pending)
  | .cut => ([], bytes)
termination_by bytes.length
decreasing_by
  · exact next_char_length ‹_›
  · exact next_broken_length ‹_›

end Utf8

/-- Reads a text piece by piece; `pending` is the start of a character that is not complete. -/
structure Joiner where
  pending : List UInt8
deriving DecidableEq, Repr

def Joiner.start : Joiner := ⟨[]⟩

def Joiner.push (j : Joiner) (piece : List UInt8) : List Char × Joiner :=
  let (text, pending) := Utf8.drain (j.pending ++ piece)
  (text, ⟨pending⟩)

def Joiner.finish (j : Joiner) : List Char := Utf8.lossy j.pending

end ModelHost.Text
