import ModelHost.Json.Record
import ModelHost.Proofs.Json.Text
import ModelHost.Proofs.Traverse

/-!
What is decoded out of a record that was encoded. An encoder and a decoder belong together when the
encoder makes plain values only and the decoder takes each of them back to what it was made from;
lists, options and the fields of records are then decoded as soon as their parts are.
-/

namespace ModelHost.Json

variable {α : Type} {encode : α → Json} {decode : Json → Option α}

structure Lossless (encode : α → Json) (decode : Json → Option α) : Prop where
  plain : ∀ a, Plain (encode a)
  decode_encode : ∀ a, decode (encode a) = some a

/-- Says also that no encoded value is null, which stands for an absent one. -/
structure Present (encode : α → Json) (decode : Json → Option α) : Prop
    extends Lossless encode decode where
  ne_null : ∀ a, encode a ≠ .null

namespace Lossless

theorem read?_write (h : Lossless encode decode) (a : α) :
    (read? (encode a).write).bind decode = some a := by
  rw [Json.read?_write (h.plain a), Option.bind_some, h.decode_encode a]

theorem list (h : Lossless encode decode) : Lossless (ofList encode) (list? decode) where
  plain items := .array _ fun item hitem => by
    obtain ⟨a, -, rfl⟩ := List.mem_map.mp hitem
    exact h.plain a
  decode_encode items := by
    rw [ofList, list?, items?, Option.bind_some, mapM_eq_some_iff, List.forall₂_map_left_iff,
      List.forall₂_same]
    exact fun a _ => h.decode_encode a

end Lossless

theorem Present.plain_ofOption (h : Present encode decode) (value : Option α) :
    Plain (ofOption encode value) := by
  cases value with
  | none => exact .null
  | some a => exact h.plain a

/-! The fields of a record. -/

theorem Lossless.required_encode (h : Lossless encode decode) (a : α) :
    required decode (some (encode a)) = some a := h.decode_encode a

theorem Lossless.defaulted_encode (h : Lossless encode decode) (standard a : α) :
    defaulted standard decode (some (encode a)) = some a := h.decode_encode a

theorem Present.optional_ofOption (h : Present encode decode) (value : Option α) :
    optional decode (some (ofOption encode value)) = some value := by
  cases value with
  | none => rfl
  | some a =>
    rw [ofOption, optional, h.decode_encode a, Option.map_some]
    exact h.ne_null a

private theorem namedMembers?_entries (members : List (String × Json)) :
    namedMembers? (entries members) = some members := by
  rw [namedMembers?, entries, mapM_eq_some_iff, List.forall₂_map_left_iff, List.forall₂_same]
  exact fun _ _ => rfl

private theorem filter_key_eq {members : List (String × Json)}
    (hnodup : (members.map Prod.fst).Nodup)
    (h : member ∈ members) : members.filter (·.1 = member.1) = [member] := by
  induction members with
  | nil => cases h
  | cons first members ih =>
    rw [List.map_cons, List.nodup_cons] at hnodup
    rcases List.mem_cons.mp h with rfl | h
    · have hlater : members.filter (·.1 = member.1) = [] := by
        rw [List.filter_eq_nil_iff]
        intro later hlater heq
        rw [← of_decide_eq_true heq] at hnodup
        exact hnodup.1 (List.mem_map_of_mem hlater)
      rw [List.filter_cons_of_pos (by simp), hlater]
    · have hne : first.1 ≠ member.1 := by
        intro heq
        rw [heq] at hnodup
        exact hnodup.1 (List.mem_map_of_mem h)
      rw [List.filter_cons_of_neg (by simpa using hne), ih hnodup.2 h]

private theorem unique?_of_mem {members : List (String × Json)}
    (hnodup : (members.map Prod.fst).Nodup)
    (h : member ∈ members) : unique? members member.1 = some (some member.2) := by
  rw [unique?, filter_key_eq hnodup h]

theorem fields?_record {members : List (String × Json)} {names : List String}
    (hnames : members.map Prod.fst = names) (hnodup : names.Nodup) :
    (record members).fields? names = some (members.map fun member => some member.2) := by
  subst hnames
  rw [record_eq_object, fields?, namedMembers?_entries, Option.bind_some, mapM_eq_some_iff,
    List.forall₂_map_left_iff, List.forall₂_map_right_iff, List.forall₂_same]
  exact fun member hmember => unique?_of_mem hnodup hmember

/-! Texts, numbers and names. -/

theorem present_ofString : Present ofString string? where
  plain := .string
  decode_encode _ := rfl
  ne_null _ h := by cases h

private theorem below?_ofNat {n limit : Nat} (h : n < limit) : (ofNat n).below? limit = some n :=
  if_pos h

theorem present_uint32 : Present (fun n : UInt32 => ofNat n.toNat) uint32? where
  plain n := .nat n.toNat
  decode_encode n := by
    rw [uint32?, below?_ofNat n.toNat_lt, Option.map_some]
    simp
  ne_null _ h := by cases h

theorem present_uint64 : Present (fun n : UInt64 => ofNat n.toNat) uint64? where
  plain n := .nat n.toNat
  decode_encode n := by
    rw [uint64?, below?_ofNat n.toNat_lt, Option.map_some]
    simp
  ne_null _ h := by cases h

end ModelHost.Json
