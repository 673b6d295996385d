import ModelHost.Json.Reader
import ModelHost.Json.Writer

/-!
The text of a value and the value of a text. What is written is read back, for all values that are
made of whole numbers and whose strings and keys are texts. No blank is written, so the reader
meets what the writer left; a number ends where the value around it goes on.
-/

namespace ModelHost.Json

/-! Strings. -/

private theorem hexValue?_hexDigit : ∀ n < 16, hexValue? (hexDigit n) = some n := by decide

private theorem hexUnit?_hexDigit {n : Nat} (h : n < 0x20) :
    hexUnit? '0' '0' (hexDigit (n / 16)) (hexDigit (n % 16)) = some n := by
  have hzero : hexValue? '0' = some 0 := by decide
  rw [hexUnit?, hzero, hexValue?_hexDigit _ (by omega), hexValue?_hexDigit _ (by omega)]
  simp only [Option.bind_eq_bind, Option.bind_some, Option.pure_def, Option.some.injEq]
  omega

private theorem spell_unit {n : Nat} (h : n < 0xD800) (before : List Char) (pieces : List Piece) :
    spell before (.unit n :: pieces) = spell (Char.ofNat n :: before) pieces := by
  rcases pieces with _ | ⟨_ | low, rest⟩
  · exact if_neg (by omega)
  · exact if_neg (by omega)
  · exact (if_neg (by omega)).trans (if_neg (by omega))

private theorem exists_piece (c : Char) : ∃ piece,
    (∀ read rest, readPieces read (escape c ++ rest) = readPieces (piece :: read) rest) ∧
      ∀ before pieces, spell before (piece :: pieces) = spell (c :: before) pieces := by
  unfold escape
  split
  next => exact ⟨.char '"', fun _ _ => rfl, fun _ _ => rfl⟩
  next => exact ⟨.char '\\', fun _ _ => rfl, fun _ _ => rfl⟩
  next => exact ⟨.char '\n', fun _ _ => rfl, fun _ _ => rfl⟩
  next => exact ⟨.char '\r', fun _ _ => rfl, fun _ _ => rfl⟩
  next => exact ⟨.char '\t', fun _ _ => rfl, fun _ _ => rfl⟩
  next => exact ⟨.char '\x08', fun _ _ => rfl, fun _ _ => rfl⟩
  next => exact ⟨.char '\x0c', fun _ _ => rfl, fun _ _ => rfl⟩
  next hquote hslash _ _ _ _ _ =>
    split
    next hcontrol =>
      refine ⟨.unit c.toNat, fun read rest => ?_, fun before pieces => ?_⟩
      · simp only [List.cons_append, List.nil_append, readPieces, hexUnit?_hexDigit hcontrol]
      · rw [spell_unit (by omega), Char.ofNat_toNat]
    next hplain =>
      refine ⟨.char c, fun read rest => ?_, fun _ _ => rfl⟩
      rw [List.singleton_append, readPieces, if_neg hplain]
      · exact hquote
      · exact fun _ _ _ _ _ h _ => hslash h
      · exact fun _ _ h _ => hslash h

private theorem exists_pieces (text : List Char) : ∃ pieces,
    (∀ read rest, readPieces read (text.flatMap escape ++ '"' :: rest) =
      some (read.reverse ++ pieces, rest)) ∧
      ∀ before, spell before pieces = some (before.reverse ++ text) := by
  induction text with
  | nil => exact ⟨[], fun _ _ => by simp [readPieces], fun _ => by simp [spell]⟩
  | cons c text ih =>
    obtain ⟨piece, hread, hspell⟩ := exists_piece c
    obtain ⟨pieces, hreads, hspells⟩ := ih
    refine ⟨piece :: pieces, fun read rest => ?_, fun before => ?_⟩
    · rw [List.flatMap_cons, List.append_assoc, hread, hreads]
      simp
    · rw [hspell, hspells]
      simp

private theorem readString_escape (s : String) (rest : List Char) :
    readString (s.toList.flatMap escape ++ '"' :: rest) = some (some s, rest) := by
  obtain ⟨pieces, hread, hspell⟩ := exists_pieces s.toList
  simp only [readString, hread, Option.map_some, List.reverse_nil, List.nil_append, hspell,
    String.ofList_toList]

/-! Numbers. -/

/-- Says that no number goes on with a text: it is at its end, or at the end of an entry. -/
def Closes (rest : List Char) : Prop := ∀ c ∈ rest.head?, c = ',' ∨ c = ']' ∨ c = '\x7d'

private theorem Closes.ne (h : Closes (c :: rest)) :
    c.isDigit = false ∧ c ≠ '.' ∧ c ≠ 'e' ∧ c ≠ 'E' := by
  rcases h c rfl with rfl | rfl | rfl <;> decide

private theorem readDigits_append {digits rest : List Char} (h : ∀ c ∈ digits, c.isDigit = true)
    (hrest : Closes rest) : readDigits (digits ++ rest) = (digits, rest) := by
  rw [readDigits, List.takeWhile_append_of_pos h, List.dropWhile_append_of_pos h]
  cases rest with
  | nil => simp
  | cons c rest => simp [hrest.ne.1]

private theorem digitChar_ne_zero : ∀ n < 10, 0 < n → Nat.digitChar n ≠ '0' := by decide

private theorem toDigits_eq_cons {n : Nat} (h : 0 < n) :
    ∃ c digits, Nat.toDigits 10 n = c :: digits ∧ c ≠ '0' := by
  induction n using Nat.strongRecOn with
  | ind n ih =>
    by_cases hsmall : n < 10
    · exact ⟨n.digitChar, [], Nat.toDigits_of_lt_base hsmall, digitChar_ne_zero n hsmall h⟩
    · obtain ⟨c, digits, hdigits, hzero⟩ := ih (n / 10) (by omega) (by omega)
      rw [Nat.toDigits_of_base_le (by omega) (by omega), hdigits]
      exact ⟨c, _, rfl, hzero⟩

private theorem isDigit_of_mem_toDigits (n : Nat) : ∀ c ∈ Nat.toDigits 10 n, c.isDigit = true :=
  fun _ hc => Nat.isDigit_of_mem_toDigits (by decide) (by decide) hc

private theorem readWhole_toDigits (n : Nat) {rest : List Char} (hrest : Closes rest) :
    readWhole (Nat.toDigits 10 n ++ rest) = some (n, rest) := by
  rcases Nat.eq_zero_or_pos n with rfl | hpos
  · rw [Nat.toDigits_zero, List.singleton_append, readWhole]
    cases rest with
    | nil => rfl
    | cons c rest => simp [hrest.ne.1]
  · obtain ⟨c, digits, hdigits, hzero⟩ := toDigits_eq_cons hpos
    have hplain : ∀ more, Nat.toDigits 10 n ++ rest ≠ '0' :: more := by
      intro more hmore
      rw [hdigits] at hmore
      exact hzero (List.cons.inj hmore).1
    rw [readWhole, readDigits_append (isDigit_of_mem_toDigits n) hrest]
    · simp [Nat.toDigits_ne_nil]
    · exact hplain

private theorem readFraction_of_closes {rest : List Char} (h : Closes rest) :
    readFraction rest = some ([], rest) := by
  rw [readFraction]
  rintro more rfl
  exact h.ne.2.1 rfl

private theorem readExponent_of_closes {rest : List Char} (h : Closes rest) :
    readExponent rest = some (none, rest) := by
  cases rest with
  | nil => rfl
  | cons c rest => simp [readExponent, h.ne]

theorem readNumeral_toDigits (n : Nat) {rest : List Char} (hrest : Closes rest) :
    readNumeral (Nat.toDigits 10 n ++ rest) = some (.integer false n, rest) := by
  have hunsigned : ∀ more, Nat.toDigits 10 n ++ rest ≠ '-' :: more := by
    intro more hmore
    cases hdigits : Nat.toDigits 10 n with
    | nil => exact Nat.toDigits_ne_nil hdigits
    | cons c digits =>
      have hdigit := isDigit_of_mem_toDigits n c (by simp [hdigits])
      rw [hdigits] at hmore
      rw [(List.cons.inj hmore).1] at hdigit
      exact absurd hdigit (by decide)
  rw [readNumeral]
  · simp [readWhole_toDigits n hrest, readFraction_of_closes hrest, readExponent_of_closes hrest]
  · exact hunsigned

/-! Values. -/

inductive Plain : Json → Prop where
  | null : Plain .null
  | bool (b : Bool) : Plain (.bool b)
  | nat (n : Nat) : Plain (.ofNat n)
  | string (s : String) : Plain (.ofString s)
  | array (items : List Json) (h : ∀ item ∈ items, Plain item) : Plain (.array items)
  | record (members : List (String × Json)) (h : ∀ member ∈ members, Plain member.2) :
      Plain (.record members)

/-- What a written value can start with: nothing that a reader passes over or that closes a list. -/
def Opens (c : Char) : Prop :=
  c ≠ ' ' ∧ c ≠ '\t' ∧ c ≠ '\n' ∧ c ≠ '\r' ∧ c ≠ ']' ∧ c ≠ '\x7d'

instance (c : Char) : Decidable (Opens c) :=
  inferInstanceAs (Decidable (_ ∧ _))

private theorem opens_of_isDigit (h : c.isDigit = true) : Opens c := by
  refine ⟨?_, ?_, ?_, ?_, ?_, ?_⟩ <;> rintro rfl <;> exact absurd h (by decide)

private theorem skipBlanks_of_opens (h : Opens c) (text : List Char) :
    skipBlanks (c :: text) = c :: text := by
  obtain ⟨hspace, htab, hfeed, hreturn, -, -⟩ := h
  simp [skipBlanks, hspace, htab, hfeed, hreturn]

@[simp]
theorem skipBlanks_comma (text : List Char) : skipBlanks (',' :: text) = ',' :: text := rfl

@[simp]
theorem skipBlanks_colon (text : List Char) : skipBlanks (':' :: text) = ':' :: text := rfl

@[simp]
theorem skipBlanks_bracket (text : List Char) : skipBlanks (']' :: text) = ']' :: text := rfl

@[simp]
theorem skipBlanks_brace (text : List Char) : skipBlanks ('\x7d' :: text) = '\x7d' :: text := rfl

@[simp]
theorem skipBlanks_quote (text : List Char) : skipBlanks ('"' :: text) = '"' :: text := rfl

theorem toList_writeString (s : String) :
    (writeString s).toList = '"' :: (s.toList.flatMap escape ++ ['"']) := by
  simp [writeString]

theorem toList_write_array (items : List Json) :
    (write (.array items)).toList =
      '[' :: ((",".intercalate (writeItems items)).toList ++ [']']) := by
  simp [write]

theorem toList_write_object (members : List (Option String × Json)) :
    (write (.object members)).toList =
      '\x7b' :: ((",".intercalate (writeMembers members)).toList ++ ['\x7d']) := by
  simp [write]

theorem toList_write_ofNat (n : Nat) : (write (.ofNat n)).toList = Nat.toDigits 10 n := by
  simp [ofNat, write, writeNumeral, writeNumeral.sign, Nat.repr]

theorem toList_write_ofString (s : String) :
    (write (.ofString s)).toList = '"' :: (s.toList.flatMap escape ++ ['"']) := by
  rw [ofString, write, writeText, toList_writeString]

private theorem Plain.exists_opens (h : Plain j) :
    ∃ c text, (write j).toList = c :: text ∧ Opens c := by
  cases h with
  | null => exact ⟨'n', _, rfl, by decide⟩
  | bool b =>
    cases b with
    | false => exact ⟨'f', _, rfl, by decide⟩
    | true => exact ⟨'t', _, rfl, by decide⟩
  | nat n =>
    rw [toList_write_ofNat]
    cases hdigits : Nat.toDigits 10 n with
    | nil => exact absurd hdigits Nat.toDigits_ne_nil
    | cons c digits =>
      exact ⟨c, digits, rfl, opens_of_isDigit (isDigit_of_mem_toDigits n c (by simp [hdigits]))⟩
  | string s => exact ⟨_, _, toList_write_ofString s, by decide⟩
  | array items _ => exact ⟨_, _, toList_write_array items, by decide⟩
  | record members _ => exact ⟨_, _, toList_write_object _, by decide⟩

/-- Says that the text of a value is read as the value, wherever the text around it goes on. -/
def Rereads (j : Json) : Prop :=
  ∀ depth rest, 2 * (write j).toList.length ≤ depth → Closes rest →
    readValue depth ((write j).toList ++ rest) = some (j, rest)

private theorem closes_comma (rest : List Char) : Closes (',' :: rest) := by
  rintro c ⟨⟩
  decide

private theorem closes_bracket (rest : List Char) : Closes (']' :: rest) := by
  rintro c ⟨⟩
  decide

private theorem closes_brace (rest : List Char) : Closes ('\x7d' :: rest) := by
  rintro c ⟨⟩
  decide

/-! The first character says how a text is read on. -/

private theorem readValue_digit (h : c.isDigit = true) (depth : Nat)
    (hread : readNumeral (c :: text) = some (n, rest)) :
    readValue (depth + 1) (c :: text) = some (.number n, rest) := by
  have hne : c ≠ 'n' ∧ c ≠ 't' ∧ c ≠ 'f' ∧ c ≠ '"' ∧ c ≠ '[' ∧ c ≠ '\x7b' := by
    refine ⟨?_, ?_, ?_, ?_, ?_, ?_⟩ <;> rintro rfl <;> exact absurd h (by decide)
  simp [readValue, skipBlanks_of_opens (opens_of_isDigit h), hne, hread]

private theorem readValue_quote (depth : Nat) (hread : readString text = some (s, rest)) :
    readValue (depth + 1) ('"' :: text) = some (.string s, rest) := by
  simp [readValue, hread]

private theorem readValue_bracket (h : Opens c) (depth : Nat)
    (hread : readItems depth (c :: text) = some (items, rest)) :
    readValue (depth + 1) ('[' :: c :: text) = some (.array items, rest) := by
  have hskip : skipBlanks ('[' :: c :: text) = '[' :: c :: text := rfl
  have hne : c ≠ ']' := h.2.2.2.2.1
  simp [readValue, hskip, skipBlanks_of_opens h, hne, hread]

private theorem readValue_brace (h : Opens c) (depth : Nat)
    (hread : readMembers depth (c :: text) = some (members, rest)) :
    readValue (depth + 1) ('\x7b' :: c :: text) = some (.object members, rest) := by
  have hskip : skipBlanks ('\x7b' :: c :: text) = '\x7b' :: c :: text := rfl
  have hne : c ≠ '\x7d' := h.2.2.2.2.2
  simp [readValue, hskip, skipBlanks_of_opens h, hne, hread]

private theorem Plain.rereads_of_succ (h : Plain j)
    (hread : ∀ depth rest, 2 * (write j).toList.length ≤ depth + 1 → Closes rest →
      readValue (depth + 1) ((write j).toList ++ rest) = some (j, rest)) : Rereads j := by
  intro depth rest hdepth hrest
  obtain ⟨c, text, htext, -⟩ := h.exists_opens
  have hpos : 0 < (write j).toList.length := by simp [htext]
  obtain ⟨depth, rfl⟩ : ∃ d, depth = d + 1 := ⟨depth - 1, by omega⟩
  exact hread depth rest hdepth hrest

theorem rereads_ofNat (n : Nat) : Rereads (.ofNat n) := by
  refine (Plain.nat n).rereads_of_succ fun depth rest _ hrest => ?_
  have hread := readNumeral_toDigits n hrest
  rw [toList_write_ofNat]
  cases hdigits : Nat.toDigits 10 n with
  | nil => exact absurd hdigits Nat.toDigits_ne_nil
  | cons c digits =>
    rw [hdigits] at hread
    exact readValue_digit (isDigit_of_mem_toDigits n c (by simp [hdigits])) depth hread

theorem rereads_ofString (s : String) : Rereads (.ofString s) := by
  refine (Plain.string s).rereads_of_succ fun depth rest _ _ => ?_
  rw [toList_write_ofString, List.cons_append, List.append_assoc, List.singleton_append]
  exact readValue_quote depth (readString_escape s rest)

private theorem readItems_intercalate {items : List Json} (hne : items ≠ [])
    (h : ∀ item ∈ items, Rereads item) (depth : Nat) (rest : List Char)
    (hdepth : 2 * (",".intercalate (writeItems items)).toList.length + 1 ≤ depth) :
    readItems depth ((",".intercalate (writeItems items)).toList ++ ']' :: rest) =
      some (items, rest) := by
  induction items generalizing depth with
  | nil => exact absurd rfl hne
  | cons item items ih =>
    obtain ⟨depth, rfl⟩ : ∃ d, depth = d + 1 := ⟨depth - 1, by omega⟩
    have hitem := h item List.mem_cons_self
    cases items with
    | nil =>
      simp only [writeItems, String.intercalate_singleton] at hdepth ⊢
      rw [readItems, hitem depth _ (by omega) (closes_bracket rest)]
      simp
    | cons next items =>
      have hlater := ih (List.cons_ne_nil _ _) (fun later hl => h later (List.mem_cons_of_mem _ hl))
      have htext : (",".intercalate (writeItems (item :: next :: items))).toList =
          (write item).toList ++ ',' :: (",".intercalate (writeItems (next :: items))).toList := by
        simp [writeItems]
      rw [htext, List.length_append, List.length_cons] at hdepth
      rw [htext, List.append_assoc, List.cons_append, readItems,
        hitem depth _ (by omega) (closes_comma _)]
      simp only [skipBlanks_comma, hlater depth (by omega), Option.map_some]

def entries (members : List (String × Json)) : List (Option String × Json) :=
  members.map fun (key, value) => (some key, value)

theorem record_eq_object (members : List (String × Json)) :
    record members = .object (entries members) := rfl

private theorem toList_writeMember (key : String) (value : Json) :
    (writeText (some key) ++ ":" ++ write value).toList =
      '"' :: (key.toList.flatMap escape ++ '"' :: ':' :: (write value).toList) := by
  simp [writeText, toList_writeString]

section Member

variable (key : String) (hvalue : Rereads value) {depth : Nat}
  (hdepth : 2 * (write value).toList.length ≤ depth)

include hvalue hdepth

private theorem readMembers_last (rest : List Char) :
    readMembers (depth + 1)
        ((writeText (some key) ++ ":" ++ write value).toList ++ '\x7d' :: rest) =
      some ([(some key, value)], rest) := by
  rw [toList_writeMember, List.cons_append, List.append_assoc, List.cons_append, List.cons_append,
    readMembers, skipBlanks_quote]
  simp only [readString_escape, skipBlanks_colon, skipBlanks_brace,
    hvalue depth _ hdepth (closes_brace rest)]

private theorem readMembers_next (hread : readMembers depth text = some (members, rest)) :
    readMembers (depth + 1) ((writeText (some key) ++ ":" ++ write value).toList ++ ',' :: text) =
      some ((some key, value) :: members, rest) := by
  rw [toList_writeMember, List.cons_append, List.append_assoc, List.cons_append, List.cons_append,
    readMembers, skipBlanks_quote]
  simp only [readString_escape, skipBlanks_colon, skipBlanks_comma,
    hvalue depth _ hdepth (closes_comma text), hread, Option.map_some]

end Member

private theorem readMembers_intercalate {members : List (String × Json)} (hne : members ≠ [])
    (h : ∀ member ∈ members, Rereads member.2) (depth : Nat) (rest : List Char)
    (hdepth : 2 * (",".intercalate (writeMembers (entries members))).toList.length + 1 ≤ depth) :
    readMembers depth
        ((",".intercalate (writeMembers (entries members))).toList ++ '\x7d' :: rest) =
      some (entries members, rest) := by
  induction members generalizing depth with
  | nil => exact absurd rfl hne
  | cons member members ih =>
    obtain ⟨key, value⟩ := member
    obtain ⟨depth, rfl⟩ : ∃ d, depth = d + 1 := ⟨depth - 1, by omega⟩
    have hvalue : Rereads value := h (key, value) List.mem_cons_self
    have hlength : (write value).toList.length ≤
        (writeText (some key) ++ ":" ++ write value).toList.length := by
      simp only [String.toList_append, List.length_append]
      omega
    cases members with
    | nil =>
      have htext : (",".intercalate (writeMembers (entries [(key, value)]))).toList =
          (writeText (some key) ++ ":" ++ write value).toList := by
        simp [entries, writeMembers]
      rw [htext] at hdepth ⊢
      exact readMembers_last key hvalue (by omega) rest
    | cons next members =>
      have hlater := ih (List.cons_ne_nil _ _) (fun later hl => h later (List.mem_cons_of_mem _ hl))
      have htext :
          (",".intercalate (writeMembers (entries ((key, value) :: next :: members)))).toList =
            (writeText (some key) ++ ":" ++ write value).toList ++
              ',' :: (",".intercalate (writeMembers (entries (next :: members)))).toList := by
        simp [entries, writeMembers]
      rw [htext, List.length_append, List.length_cons] at hdepth
      rw [htext, List.append_assoc, List.cons_append]
      exact readMembers_next key hvalue (by omega) (hlater depth (by omega))

private theorem exists_toList_intercalate (text : String) (texts : List String) :
    ∃ more, (",".intercalate (text :: texts)).toList = text.toList ++ more := by
  cases texts with
  | nil => exact ⟨[], by simp⟩
  | cons next texts => exact ⟨',' :: (",".intercalate (next :: texts)).toList, by simp⟩

theorem rereads_array {items : List Json} (h : ∀ item ∈ items, Plain item)
    (ih : ∀ item ∈ items, Rereads item) : Rereads (.array items) := by
  refine (Plain.array items h).rereads_of_succ fun depth rest hdepth _ => ?_
  rw [toList_write_array, List.length_cons, List.length_append, List.length_singleton] at hdepth
  rw [toList_write_array, List.cons_append, List.append_assoc, List.singleton_append]
  cases items with
  | nil => rfl
  | cons item items =>
    have hread := readItems_intercalate (List.cons_ne_nil item items) ih depth rest (by omega)
    obtain ⟨c, text, htext, hopens⟩ := (h item List.mem_cons_self).exists_opens
    obtain ⟨more, hmore⟩ := exists_toList_intercalate (write item) (writeItems items)
    rw [writeItems, hmore, htext, List.cons_append, List.cons_append] at hread ⊢
    exact readValue_bracket hopens depth hread

theorem rereads_record {members : List (String × Json)} (h : ∀ member ∈ members, Plain member.2)
    (ih : ∀ member ∈ members, Rereads member.2) : Rereads (.record members) := by
  refine (Plain.record members h).rereads_of_succ fun depth rest hdepth _ => ?_
  rw [record_eq_object] at hdepth ⊢
  rw [toList_write_object, List.length_cons, List.length_append, List.length_singleton] at hdepth
  rw [toList_write_object, List.cons_append, List.append_assoc, List.singleton_append]
  cases members with
  | nil => rfl
  | cons member members =>
    have hread := readMembers_intercalate (List.cons_ne_nil member members) ih depth rest (by omega)
    obtain ⟨key, value⟩ := member
    obtain ⟨more, hmore⟩ := exists_toList_intercalate (writeText (some key) ++ ":" ++ write value)
      (writeMembers (entries members))
    rw [entries, List.map_cons, writeMembers, ← entries, hmore, toList_writeMember,
      List.cons_append, List.cons_append] at hread ⊢
    exact readValue_brace (by decide) depth hread

theorem Plain.rereads (h : Plain j) : Rereads j := by
  induction h with
  | null => exact Plain.null.rereads_of_succ fun _ _ _ _ => rfl
  | bool b =>
    refine (Plain.bool b).rereads_of_succ fun _ _ _ _ => ?_
    cases b <;> rfl
  | nat n => exact rereads_ofNat n
  | string s => exact rereads_ofString s
  | array items h ih => exact rereads_array h ih
  | record members h ih => exact rereads_record h ih

theorem read?_write (h : Plain j) : read? (write j) = some j := by
  have hread := h.rereads (2 * (write j).toList.length + 2) [] (by omega) (by rintro c ⟨⟩)
  rw [List.append_nil] at hread
  rw [read?, hread]
  rfl

end ModelHost.Json
