import ModelHost.Proofs.Text.Utf8

/-!
What the reader takes for a character. The ranges of the following bytes leave out every longer
spelling, the surrogates and what lies above the last character, so the bytes that are taken are
the encoding of the character that is read, and only they are.
-/

namespace ModelHost.Text

namespace Utf8

inductive Leads (b : UInt8) : List (UInt8 × UInt8) → Prop where
  | one (h : b.toNat < 0x80) : Leads b []
  | two (h : 0xC2 ≤ b.toNat) (h' : b.toNat < 0xE0) : Leads b [tail]
  | three {range : UInt8 × UInt8} (h : 0xE0 ≤ b.toNat) (h' : b.toNat < 0xF0)
      (hrange : 0x80 ≤ range.1.toNat ∧ range.1.toNat ≤ range.2.toNat ∧ range.2.toNat ≤ 0xBF)
      (hlow : b.toNat = 0xE0 → 0xA0 ≤ range.1.toNat)
      (hhigh : b.toNat = 0xED → range.2.toNat ≤ 0x9F) : Leads b [range, tail]
  | four {range : UInt8 × UInt8} (h : 0xF0 ≤ b.toNat) (h' : b.toNat ≤ 0xF4)
      (hrange : 0x80 ≤ range.1.toNat ∧ range.1.toNat ≤ range.2.toNat ∧ range.2.toNat ≤ 0xBF)
      (hlow : b.toNat = 0xF0 → 0x90 ≤ range.1.toNat)
      (hhigh : b.toNat = 0xF4 → range.2.toNat ≤ 0x8F) : Leads b [range, tail, tail]

theorem leads_of_followers {b : UInt8} {ranges : List (UInt8 × UInt8)}
    (h : followers b = some ranges) : Leads b ranges := by
  have hb := followers_ofNat b.toNat_lt
  rw [UInt8.ofNat_toNat, h] at hb
  -- One case for each range of leading bytes, in the order of `followers`.
  split at hb
  next =>
    obtain rfl := Option.some.inj hb
    exact .one (by omega)
  split at hb
  next => nomatch hb
  split at hb
  next =>
    obtain rfl := Option.some.inj hb
    exact .two (by omega) (by omega)
  split at hb
  next =>
    obtain rfl := Option.some.inj hb
    exact .three (by omega) (by omega) (by decide) (fun _ => by decide) (by omega)
  split at hb
  next =>
    obtain rfl := Option.some.inj hb
    exact .three (by omega) (by omega) (by decide) (by omega) (fun _ => by decide)
  split at hb
  next =>
    obtain rfl := Option.some.inj hb
    exact .three (by omega) (by omega) (by decide) (by omega) (by omega)
  split at hb
  next =>
    obtain rfl := Option.some.inj hb
    exact .four (by omega) (by omega) (by decide) (fun _ => by decide) (by omega)
  split at hb
  next =>
    obtain rfl := Option.some.inj hb
    exact .four (by omega) (by omega) (by decide) (by omega) (by omega)
  split at hb
  next =>
    obtain rfl := Option.some.inj hb
    exact .four (by omega) (by omega) (by decide) (by omega) (fun _ => by decide)
  next => nomatch hb

theorem Leads.ranges {b : UInt8} {ranges : List (UInt8 × UInt8)} (h : Leads b ranges) :
    ranges.length ≤ 3 ∧ ∀ range ∈ ranges,
      0x80 ≤ range.1.toNat ∧ range.1.toNat ≤ range.2.toNat ∧ range.2.toNat ≤ 0xBF := by
  have htail : 0x80 ≤ tail.1.toNat ∧ tail.1.toNat ≤ tail.2.toNat ∧ tail.2.toNat ≤ 0xBF := by decide
  cases h with
  | one => simp
  | two => simpa using htail
  | three _ _ hrange | four _ _ hrange => simpa [htail] using hrange

/-! The bytes that the reader takes for a character are its encoding. -/

private theorem Run.read_nil_eq_full {bytes taken rest : List UInt8}
    (h : Run.read [] bytes = .full taken rest) : taken = [] ∧ bytes = rest := by
  obtain ⟨rfl, rfl⟩ := Run.full.inj h
  exact ⟨rfl, rfl⟩

private theorem Run.read_cons_eq_full {range : UInt8 × UInt8} {ranges : List (UInt8 × UInt8)}
    {bytes taken rest : List UInt8} (h : Run.read (range :: ranges) bytes = .full taken rest) :
    ∃ b bytes' taken', bytes = b :: bytes' ∧ taken = b :: taken' ∧
      range.1.toNat ≤ b.toNat ∧ b.toNat ≤ range.2.toNat ∧
      Run.read ranges bytes' = .full taken' rest := by
  cases bytes with
  | nil => simp [Run.read] at h
  | cons b bytes =>
    rw [Run.read] at h
    split at h
    next hrange =>
      split at h
      next taken' rest' hread =>
        obtain ⟨rfl, rfl⟩ := Run.full.inj h
        exact ⟨b, bytes, taken', rfl, rfl, UInt8.le_iff_toNat_le.mp hrange.1,
          UInt8.le_iff_toNat_le.mp hrange.2, hread⟩
      next => cases h
      next => cases h
    next => cases h

private theorem toNat_val_ofNat {v : Nat} (h : v.isValidChar) : (Char.ofNat v).val.toNat = v := by
  rw [Char.ofNat, dif_pos h]
  rfl

private theorem ofNat_eq {n : Nat} {b : UInt8} (h : n = b.toNat) : UInt8.ofNat n = b := by
  rw [h, UInt8.ofNat_toNat]

private theorem encode_one {a : UInt8} (ha : a.toNat < 0x80) :
    String.utf8EncodeChar (spelled a []) = [a] := by
  have hv : a.toNat.isValidChar := .inl (by omega)
  simp only [String.utf8EncodeChar, spelled, leadValue, List.length, List.foldl, toNat_val_ofNat hv]
  rw [if_pos (by omega), ofNat_eq rfl]

private theorem encode_two {a b : UInt8} (ha : 0xC2 ≤ a.toNat ∧ a.toNat < 0xE0)
    (hb : 0x80 ≤ b.toNat ∧ b.toNat ≤ 0xBF) :
    String.utf8EncodeChar (spelled a [b]) = [a, b] := by
  have hv : (a.toNat % 32 * 64 + b.toNat % 64).isValidChar := .inl (by omega)
  simp only [String.utf8EncodeChar, spelled, leadValue, List.length, List.foldl, toNat_val_ofNat hv]
  rw [if_neg (by omega), if_pos (by omega), ofNat_eq (b := a) (by omega),
    ofNat_eq (b := b) (by omega)]

private theorem encode_three {a b c : UInt8} (ha : 0xE0 ≤ a.toNat ∧ a.toNat < 0xF0)
    (hb : 0x80 ≤ b.toNat ∧ b.toNat ≤ 0xBF) (hc : 0x80 ≤ c.toNat ∧ c.toNat ≤ 0xBF)
    (hlow : a.toNat = 0xE0 → 0xA0 ≤ b.toNat) (hhigh : a.toNat = 0xED → b.toNat ≤ 0x9F) :
    String.utf8EncodeChar (spelled a [b, c]) = [a, b, c] := by
  have hv : ((a.toNat % 16 * 64 + b.toNat % 64) * 64 + c.toNat % 64).isValidChar := by
    unfold Nat.isValidChar
    omega
  simp only [String.utf8EncodeChar, spelled, leadValue, List.length, List.foldl, toNat_val_ofNat hv]
  rw [if_neg (by omega), if_neg (by omega), if_pos (by omega), ofNat_eq (b := a) (by omega),
    ofNat_eq (b := b) (by omega), ofNat_eq (b := c) (by omega)]

private theorem encode_four {a b c d : UInt8} (ha : 0xF0 ≤ a.toNat ∧ a.toNat ≤ 0xF4)
    (hb : 0x80 ≤ b.toNat ∧ b.toNat ≤ 0xBF) (hc : 0x80 ≤ c.toNat ∧ c.toNat ≤ 0xBF)
    (hd : 0x80 ≤ d.toNat ∧ d.toNat ≤ 0xBF) (hlow : a.toNat = 0xF0 → 0x90 ≤ b.toNat)
    (hhigh : a.toNat = 0xF4 → b.toNat ≤ 0x8F) :
    String.utf8EncodeChar (spelled a [b, c, d]) = [a, b, c, d] := by
  have hv : (((a.toNat % 8 * 64 + b.toNat % 64) * 64 + c.toNat % 64) * 64 +
      d.toNat % 64).isValidChar := by
    unfold Nat.isValidChar
    omega
  simp only [String.utf8EncodeChar, spelled, leadValue, List.length, List.foldl, toNat_val_ofNat hv]
  rw [if_neg (by omega), if_neg (by omega), if_neg (by omega), ofNat_eq (b := a) (by omega),
    ofNat_eq (b := b) (by omega), ofNat_eq (b := c) (by omega), ofNat_eq (b := d) (by omega)]

theorem Leads.encode_spelled {lead : UInt8} {ranges : List (UInt8 × UInt8)} (h : Leads lead ranges)
    {bytes taken rest : List UInt8} (hread : Run.read ranges bytes = .full taken rest) :
    String.utf8EncodeChar (spelled lead taken) ++ rest = lead :: bytes := by
  cases h with
  | one ha =>
    obtain ⟨rfl, rfl⟩ := Run.read_nil_eq_full hread
    rw [encode_one ha]
    rfl
  | two ha ha' =>
    obtain ⟨b, _, _, rfl, rfl, hb, hb', hread⟩ := Run.read_cons_eq_full hread
    obtain ⟨rfl, rfl⟩ := Run.read_nil_eq_full hread
    rw [encode_two ⟨ha, ha'⟩ ⟨hb, hb'⟩]
    rfl
  | three ha ha' hrange hlow hhigh =>
    obtain ⟨b, _, _, rfl, rfl, hb, hb', hread⟩ := Run.read_cons_eq_full hread
    obtain ⟨c, _, _, rfl, rfl, hc, hc', hread⟩ := Run.read_cons_eq_full hread
    obtain ⟨rfl, rfl⟩ := Run.read_nil_eq_full hread
    rw [encode_three ⟨ha, ha'⟩ ⟨by omega, by omega⟩ ⟨hc, hc'⟩ (by omega) (by omega)]
    rfl
  | four ha ha' hrange hlow hhigh =>
    obtain ⟨b, _, _, rfl, rfl, hb, hb', hread⟩ := Run.read_cons_eq_full hread
    obtain ⟨c, _, _, rfl, rfl, hc, hc', hread⟩ := Run.read_cons_eq_full hread
    obtain ⟨d, _, _, rfl, rfl, hd, hd', hread⟩ := Run.read_cons_eq_full hread
    obtain ⟨rfl, rfl⟩ := Run.read_nil_eq_full hread
    rw [encode_four ⟨ha, ha'⟩ ⟨by omega, by omega⟩ ⟨hc, hc'⟩ ⟨hd, hd'⟩ (by omega) (by omega)]
    rfl

theorem next_eq_char_iff {bytes rest : List UInt8} {c : Char} :
    next bytes = .char c rest ↔ bytes = String.utf8EncodeChar c ++ rest := by
  constructor
  · intro h
    cases bytes with
    | nil => simp [next] at h
    | cons lead bytes =>
      rw [next] at h
      split at h
      next => cases h
      next ranges hranges =>
        split at h
        next hread =>
          obtain ⟨rfl, rfl⟩ := Step.char.inj h
          exact ((leads_of_followers hranges).encode_spelled hread).symm
        next => cases h
        next => cases h
  · rintro rfl
    exact next_utf8EncodeChar c rest

private theorem Run.read_full_eq {ranges : List (UInt8 × UInt8)} {bytes taken rest : List UInt8}
    (h : Run.read ranges bytes = .full taken rest) :
    bytes = taken ++ rest ∧
      ∀ b ∈ taken, ∃ range ∈ ranges, range.1.toNat ≤ b.toNat ∧ b.toNat ≤ range.2.toNat := by
  induction ranges generalizing bytes taken with
  | nil =>
    obtain ⟨rfl, rfl⟩ := Run.read_nil_eq_full h
    simp
  | cons range ranges ih =>
    obtain ⟨b, bytes', taken', rfl, rfl, hlow, hhigh, hread⟩ := Run.read_cons_eq_full h
    obtain ⟨rfl, htaken⟩ := ih hread
    refine ⟨rfl, fun b' hb' => ?_⟩
    rcases List.mem_cons.mp hb' with rfl | hb'
    · exact ⟨range, List.mem_cons_self, hlow, hhigh⟩
    · obtain ⟨range', hmem, hrange⟩ := htaken b' hb'
      exact ⟨range', List.mem_cons_of_mem _ hmem, hrange⟩

theorem exists_lead (c : Char) : ∃ lead taken, String.utf8EncodeChar c = lead :: taken ∧
    (lead.toNat < 0x80 ∨ 0xBF < lead.toNat) ∧
    ∀ b ∈ taken, 0x80 ≤ b.toNat ∧ b.toNat ≤ 0xBF := by
  obtain ⟨lead, bytes, hencode⟩ :=
    List.exists_cons_of_ne_nil (String.utf8EncodeChar_ne_nil (c := c))
  have hnext := next_utf8EncodeChar c []
  rw [List.append_nil, hencode, next] at hnext
  refine ⟨lead, bytes, hencode, ?_⟩
  split at hnext
  next => cases hnext
  next ranges hranges =>
    have hleads := leads_of_followers hranges
    split at hnext
    next taken rest hread =>
      obtain ⟨-, rfl⟩ := Step.char.inj hnext
      obtain ⟨rfl, htaken⟩ := Run.read_full_eq hread
      constructor
      · cases hleads <;> omega
      · intro b hb
        rw [List.append_nil] at hb
        obtain ⟨range, hmem, hlow, hhigh⟩ := htaken b hb
        have hrange := hleads.ranges.2 range hmem
        omega
    next => cases hnext
    next => cases hnext

/-! The order of texts. -/

private theorem div_lt_or_mod_lt {v w : Nat} (h : v < w) :
    v / 64 < w / 64 ∨ v / 64 = w / 64 ∧ v % 64 < w % 64 := by
  omega

private theorem utf8EncodeChar_append_lt {c d : Char} (h : c < d) (bytes bytes' : List UInt8) :
    String.utf8EncodeChar c ++ bytes < String.utf8EncodeChar d ++ bytes' := by
  have hvalues : c.val.toNat < d.val.toNat := h
  have hlast : d.val.toNat < 0x110000 := by
    have hvalid := d.valid
    unfold UInt32.isValidChar Nat.isValidChar at hvalid
    omega
  have hdigits (v : Nat) : v / 4096 = v / 64 / 64 ∧ v / 262144 = v / 64 / 64 / 64 := by omega
  unfold String.utf8EncodeChar
  simp only [(hdigits _).1, (hdigits _).2]
  -- One case for each two numbers of bytes; the digits in base 64 say where the bytes differ.
  repeat' split
  all_goals
    simp only [List.cons_append, List.nil_append, List.cons_lt_cons_iff, UInt8.lt_iff_toNat_lt,
      ← UInt8.toNat_inj, UInt8.toNat_ofNat']
    simp (disch := omega) only [Nat.mod_eq_of_lt]
    rcases div_lt_or_mod_lt hvalues with hdiv | hmod
    · rcases div_lt_or_mod_lt hdiv with hdiv | hmod
      · rcases div_lt_or_mod_lt hdiv with hdiv | hmod <;> omega
      · omega
    · omega

theorem encode_lt_encode {a b : List Char} (h : a < b) : encode a < encode b := by
  induction h with
  | @nil c rest =>
    obtain ⟨lead, taken, hlead, -⟩ := exists_lead c
    rw [encode_nil, encode_cons, hlead]
    exact List.Lex.nil
  | rel h => exact utf8EncodeChar_append_lt h _ _
  | cons h ih => exact List.append_left_lt ih

/-! Reading a whole text. -/

@[simp] private theorem decode?_nil : decode? [] = some [] := by
  rw [decode?]
  rfl

private theorem decode?_char {bytes rest : List UInt8} {c : Char} (h : next bytes = .char c rest) :
    decode? bytes = (decode? rest).map (c :: ·) := by
  rw [decode?]
  split <;> simp_all

theorem decode?_encode (text : List Char) : decode? (encode text) = some text := by
  induction text with
  | nil => exact decode?_nil
  | cons c text ih =>
    rw [encode_cons, decode?_char (next_utf8EncodeChar c (encode text)), ih]
    rfl

theorem decode?_eq_some_iff {bytes : List UInt8} {text : List Char} :
    decode? bytes = some text ↔ bytes = encode text := by
  constructor
  · intro h
    fun_induction decode? bytes generalizing text with
    | case1 bytes hnext =>
      cases h
      exact next_done hnext
    | case2 bytes c rest hnext ih =>
      obtain ⟨more, hmore, rfl⟩ := Option.map_eq_some_iff.mp h
      rw [next_eq_char_iff.mp hnext, ih hmore, encode_cons]
    | case3 => cases h
    | case4 => cases h
  · rintro rfl
    exact decode?_encode text

private theorem toList_loop (content : ByteArray) (i : Nat) (before : List UInt8) :
    ByteArray.toList.loop content i before = before.reverse ++ content.data.toList.drop i := by
  fun_induction ByteArray.toList.loop content i before with
  | case1 i before h ih =>
    rw [ih, List.drop_eq_getElem_cons (i := i) (by simpa using h)]
    simp [ByteArray.get!, getElem!_pos, h]
  | case2 i before h =>
    rw [List.drop_eq_nil_of_le, List.append_nil]
    simpa using h

private theorem toList_eq (content : ByteArray) : content.toList = content.data.toList := by
  rw [ByteArray.toList, toList_loop]
  rfl

theorem data_toUTF8 (text : String) : text.toUTF8.data.toList = encode text.toList := by
  rw [String.toUTF8, ← String.utf8Encode_toList, List.utf8Encode, List.toList_data_toByteArray]
  rfl

/-- A content is read as the text that it encodes. -/
theorem decodeText?_eq_some_iff {content : ByteArray} {text : String} :
    decodeText? content = some text ↔ content = text.toUTF8 := by
  have hencoded : content = text.toUTF8 ↔ content.toList = encode text.toList := by
    rw [ByteArray.ext_iff, ← Array.toList_inj, data_toUTF8, toList_eq]
  rw [hencoded, decodeText?, Option.map_eq_some_iff, ← decode?_eq_some_iff]
  constructor
  · rintro ⟨chars, hchars, rfl⟩
    rwa [String.toList_ofList]
  · exact fun h => ⟨text.toList, h, String.ofList_toList⟩

end Utf8

end ModelHost.Text
