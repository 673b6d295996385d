import ModelHost.ClientVersion
import ModelHost.Proofs.Text.Split
import ModelHost.Proofs.Text.Unsigned
import ModelHost.Proofs.Traverse

/-!
The order of versions and the clients that are accepted. A version is read as the row of numbers
that it writes; rows are ordered by their first difference, and one that another goes on from comes
before it. This is a total order, so the clients that a model accepts are those of a closed range.
-/

namespace ModelHost.ClientVersion

/-- Says that a version writes a row of numbers: blanks around it apart, the numerals of the numbers
with dots between them. -/
def Writes (version : String) (numbers : List Nat) : Prop :=
  ∃ before parts after, version.toList = before ++ ['.'].intercalate parts ++ after ∧
    (∀ c ∈ before ++ after, Text.isBlank c = true) ∧ parts ≠ [] ∧
    List.Forall₂ (Text.Numeral UInt64.size) parts numbers

def IsVersion (version : String) : Prop := ∃ numbers, Writes version numbers

/-- Says that a row of numbers comes before another one: the other one goes on from it, or has the
greater number where they first differ. -/
inductive Precedes : List Nat → List Nat → Prop where
  | shorter (m : List Nat) (k : Nat) (rest : List Nat) : Precedes m (m ++ k :: rest)
  | lower (common : List Nat) {j k : Nat} (h : j < k) (rest rest' : List Nat) :
    Precedes (common ++ j :: rest) (common ++ k :: rest')

def AtMost (a b : String) : Prop := ∃ m n, Writes a m ∧ Writes b n ∧ ¬ Precedes n m

/-! Reading. -/

private theorem readUnsigned_toOption {text : List Char} {n : Nat} :
    (Text.readUnsigned UInt64.size text).toOption = some n ↔ Text.Numeral UInt64.size text n := by
  rw [← Text.readUnsigned_eq_ok_iff (by decide)]
  cases Text.readUnsigned UInt64.size text <;> simp [Except.toOption]

private theorem isBlank_of_isDigit {c : Char} (h : c.isDigit = true) : Text.isBlank c = false := by
  simp only [Char.isDigit, Bool.and_eq_true, decide_eq_true_eq, UInt32.le_iff_toNat_le] at h
  apply Bool.eq_false_iff.mpr
  intro hblank
  simp [Text.isBlank, UInt32.le_iff_toNat_le, ← UInt32.toNat_inj] at hblank h
  omega

section Parts

variable {parts : List (List Char)} {numbers : List Nat}
  (h : List.Forall₂ (Text.Numeral UInt64.size) parts numbers)

include h

private theorem exists_numeral : ∀ part ∈ parts, ∃ n, Text.Numeral UInt64.size part n :=
  ((List.forall₂_and_left parts numbers).mp (h.imp fun _ n hn => ⟨⟨n, hn⟩, hn⟩)).1

private theorem dot_not_mem : ∀ part ∈ parts, '.' ∉ part := by
  intro part hpart hdot
  obtain ⟨n, hn⟩ := exists_numeral h part hpart
  exact absurd (hn.isDigit_or_plus hdot) (by decide)

private theorem not_isBlank_of_mem {c : Char} (hc : c ∈ ['.'].intercalate parts) :
    Text.isBlank c = false := by
  rcases Text.mem_of_mem_intercalate hc with rfl | ⟨part, hpart, hc⟩
  · decide
  · obtain ⟨n, hn⟩ := exists_numeral h part hpart
    rcases hn.isDigit_or_plus hc with hdigit | rfl
    · exact isBlank_of_isDigit hdigit
    · decide

private theorem intercalate_ne_nil (hne : parts ≠ []) : ['.'].intercalate parts ≠ [] := by
  intro hnil
  have hparts := Text.splitAt_intercalate hne (dot_not_mem h)
  rw [hnil] at hparts
  obtain ⟨n, hn⟩ := exists_numeral h [] (by rw [← hparts]; simp [Text.splitAt])
  exact hn.ne_nil rfl

end Parts

theorem numbers?_eq_some_iff {version : String} {numbers : List Nat} :
    numbers? version = some numbers ↔ Writes version numbers := by
  unfold numbers?
  rw [mapM_eq_some_iff]
  simp only [readUnsigned_toOption]
  constructor
  · intro h
    obtain ⟨before, after, htext, hblank⟩ := Text.exists_blanks version.toList
    refine ⟨before, _, after, ?_, hblank, Text.splitAt_ne_nil _ _, h⟩
    rwa [Text.intercalate_splitAt]
  · rintro ⟨before, parts, after, htext, hblank, hne, hparts⟩
    have hnone : ∀ c ∈ ['.'].intercalate parts, Text.isBlank c = false := fun c =>
      not_isBlank_of_mem hparts
    rw [htext, Text.trim_between (intercalate_ne_nil hparts hne) hblank
      (fun c hc => hnone c (List.mem_of_head? hc))
      (fun c hc => hnone c (List.mem_of_getLast? hc)),
      Text.splitAt_intercalate hne (dot_not_mem hparts)]
    exact hparts

theorem read_eq_ok_iff {version : String} {numbers : List Nat} :
    read version = .ok numbers ↔ Writes version numbers := by
  rw [← numbers?_eq_some_iff, read]
  cases numbers? version <;> simp

/-! The order of rows. -/

theorem order_eq_compare (m n : List Nat) : order m n = Ord.compare m n := by
  induction m generalizing n with
  | nil => cases n <;> rfl
  | cons j m ih =>
    cases n with
    | nil => rfl
    | cons k n => rw [order, ih, List.compare_cons_cons]

theorem order_swap (m n : List Nat) : order n m = (order m n).swap := by
  rw [order_eq_compare, order_eq_compare]
  exact Std.OrientedOrd.eq_swap

theorem order_eq_eq_iff {m n : List Nat} : order m n = .eq ↔ m = n := by
  rw [order_eq_compare, Std.LawfulEqOrd.compare_eq_iff_eq]

theorem order_trans {l m n : List Nat} {o : Ordering} (h : order l m = o) (h' : order m n = o) :
    order l n = o := by
  rw [order_eq_compare] at *
  cases o with
  | lt => exact Std.TransCmp.lt_trans h h'
  | eq => exact Std.TransCmp.eq_trans h h'
  | gt => exact Std.TransCmp.gt_trans h h'

private theorem order_ne_gt_trans {l m n : List Nat} (h : order l m ≠ .gt) (h' : order m n ≠ .gt) :
    order l n ≠ .gt := by
  rw [order_eq_compare] at *
  exact Ordering.ne_gt_iff_isLE.mpr (Std.TransCmp.isLE_trans (Ordering.ne_gt_iff_isLE.mp h)
    (Ordering.ne_gt_iff_isLE.mp h'))

private theorem order_append_append (common m n : List Nat) :
    order (common ++ m) (common ++ n) = order m n := by
  induction common with
  | nil => rfl
  | cons k common ih => simp [order, ih]

private theorem Precedes.cons {m n : List Nat} (h : Precedes m n) (k : Nat) :
    Precedes (k :: m) (k :: n) := by
  cases h with
  | shorter _ j rest => exact .shorter (k :: m) j rest
  | lower common hlt rest rest' => exact .lower (k :: common) hlt rest rest'

private theorem precedes_of_order {m n : List Nat} (h : order m n = .lt) : Precedes m n := by
  induction m generalizing n with
  | nil =>
    cases n with
    | nil => nomatch h
    | cons k rest => exact .shorter [] k rest
  | cons j m ih =>
    cases n with
    | nil => nomatch h
    | cons k n =>
      rw [order, Ordering.then_eq_lt] at h
      rcases h with hlower | ⟨hsame, hrest⟩
      · exact .lower [] (Nat.compare_eq_lt.mp hlower) m n
      · obtain rfl := Nat.compare_eq_eq.mp hsame
        exact (ih hrest).cons j

theorem order_eq_lt_iff {m n : List Nat} : order m n = .lt ↔ Precedes m n := by
  refine ⟨precedes_of_order, ?_⟩
  rintro (⟨m, k, rest⟩ | ⟨common, hlt, rest, rest'⟩)
  · have hempty := order_append_append m [] (k :: rest)
    rwa [List.append_nil] at hempty
  · rw [order_append_append, order, Nat.compare_eq_lt.mpr hlt]
    rfl

theorem order_eq_gt_iff {m n : List Nat} : order m n = .gt ↔ Precedes n m := by
  rw [← order_eq_lt_iff, order_swap m n, Ordering.swap_eq_lt]

/-! Comparing versions. -/

theorem compare_eq_ok_iff {a b : String} {o : Ordering} :
    compare a b = .ok o ↔ ∃ m n, Writes a m ∧ Writes b n ∧ order m n = o := by
  simp only [compare, ← read_eq_ok_iff]
  cases read a with
  | error error => simp [bind, Except.bind]
  | ok m =>
    cases read b with
    | error error => simp [bind, Except.bind]
    | ok n => simp [bind, Except.bind, pure, Except.pure]

theorem exists_compare_error_iff {a b : String} :
    (∃ error, compare a b = .error error) ↔ ¬ IsVersion a ∨ ¬ IsVersion b := by
  simp only [compare, IsVersion, ← read_eq_ok_iff]
  cases read a with
  | error error => simp [bind, Except.bind]
  | ok m =>
    cases read b with
    | error error => simp [bind, Except.bind]
    | ok n => simp [bind, Except.bind, pure, Except.pure]

theorem compare_swap {a b : String} {o : Ordering} (h : compare a b = .ok o) :
    compare b a = .ok o.swap := by
  obtain ⟨m, n, hm, hn, rfl⟩ := compare_eq_ok_iff.mp h
  exact compare_eq_ok_iff.mpr ⟨n, m, hn, hm, order_swap m n⟩

theorem Writes.unique {version : String} {m n : List Nat} (h : Writes version m)
    (h' : Writes version n) : m = n :=
  Except.ok.inj ((read_eq_ok_iff.mpr h).symm.trans (read_eq_ok_iff.mpr h'))

theorem compare_trans {a b c : String} {o : Ordering} (h : compare a b = .ok o)
    (h' : compare b c = .ok o) : compare a c = .ok o := by
  obtain ⟨l, m, hl, hm, hlm⟩ := compare_eq_ok_iff.mp h
  obtain ⟨m', n, hm', hn, hmn⟩ := compare_eq_ok_iff.mp h'
  obtain rfl := hm.unique hm'
  exact compare_eq_ok_iff.mpr ⟨l, n, hl, hn, order_trans hlm hmn⟩

theorem AtMost.trans {a b c : String} (h : AtMost a b) (h' : AtMost b c) : AtMost a c := by
  obtain ⟨l, m, hl, hm, hlm⟩ := h
  obtain ⟨m', n, hm', hn, hmn⟩ := h'
  obtain rfl := hm.unique hm'
  rw [← order_eq_gt_iff] at hlm hmn
  exact ⟨l, n, hl, hn, mt order_eq_gt_iff.mpr (order_ne_gt_trans hlm hmn)⟩

theorem atMost_iff {a b : String} : AtMost a b ↔ ∃ o, compare a b = .ok o ∧ o ≠ .gt := by
  simp only [AtMost, compare_eq_ok_iff, ← order_eq_gt_iff]
  constructor
  · rintro ⟨m, n, hm, hn, horder⟩
    exact ⟨_, ⟨m, n, hm, hn, rfl⟩, horder⟩
  · rintro ⟨o, ⟨m, n, hm, hn, rfl⟩, horder⟩
    exact ⟨m, n, hm, hn, horder⟩

private theorem atMost_iff_swap {a b : String} :
    AtMost a b ↔ ∃ o, compare b a = .ok o ∧ o ≠ .lt := by
  rw [atMost_iff]
  constructor
  · rintro ⟨o, hcompare, horder⟩
    exact ⟨o.swap, compare_swap hcompare, by simpa using horder⟩
  · rintro ⟨o, hcompare, horder⟩
    exact ⟨o.swap, compare_swap hcompare, by simpa using horder⟩

private theorem check_none_eq_ok_iff {client : String} {maximum : Option String} :
    check client none maximum = .ok () ↔ ∀ bound ∈ maximum, AtMost client bound := by
  cases maximum with
  | none => simp [check, pure, Except.pure]
  | some bound =>
    have hbound : check client none (some bound) = .ok () ↔
        ∃ o, compare client bound = .ok o ∧ o ≠ .gt := by
      cases hcompare : compare client bound with
      | error error => simp [check, hcompare, bind, Except.bind]
      | ok o =>
        cases o <;> simp [check, hcompare, bind, Except.bind, pure, Except.pure, throw, throwThe,
          MonadExceptOf.throw]
    simp [hbound, atMost_iff]

private theorem check_some_eq_ok_iff {client bound : String} {maximum : Option String} :
    check client (some bound) maximum = .ok () ↔
      AtMost bound client ∧ check client none maximum = .ok () := by
  rw [atMost_iff_swap]
  cases hcompare : compare client bound with
  | error error => simp [check, hcompare, bind, Except.bind]
  | ok o =>
    cases o <;> simp [check, hcompare, bind, Except.bind, pure, Except.pure, throw, throwThe,
      MonadExceptOf.throw]

theorem check_eq_ok_iff {client : String} {minimum maximum : Option String} :
    check client minimum maximum = .ok () ↔
      (∀ bound ∈ minimum, AtMost bound client) ∧ ∀ bound ∈ maximum, AtMost client bound := by
  rw [← check_none_eq_ok_iff]
  cases minimum with
  | none => simp
  | some bound => simp [check_some_eq_ok_iff]

/-- A version is what writes a row of numbers. Versions are compared by the total order of their
rows, and what is no version cannot be compared. So the clients that a model accepts are those of a
closed range: its bounds belong to it, and so does every client between two that do. -/
theorem closed_range :
    (∀ version numbers, read version = .ok numbers ↔ Writes version numbers) ∧
      (∀ a b m n, Writes a m → Writes b n → ∃ o, compare a b = .ok o ∧
        (o = .lt ↔ Precedes m n) ∧ (o = .eq ↔ m = n) ∧ (o = .gt ↔ Precedes n m)) ∧
      (∀ a b o, compare a b = .ok o → compare b a = .ok o.swap) ∧
      (∀ a b c o, compare a b = .ok o → compare b c = .ok o → compare a c = .ok o) ∧
      (∀ a b c, AtMost a b → AtMost b c → AtMost a c) ∧
      (∀ a b, (∃ error, compare a b = .error error) ↔ ¬ IsVersion a ∨ ¬ IsVersion b) ∧
      (∀ client minimum maximum, check client minimum maximum = .ok () ↔
        (∀ bound ∈ minimum, AtMost bound client) ∧ ∀ bound ∈ maximum, AtMost client bound) ∧
      ∀ a b c minimum maximum, AtMost a b → AtMost b c → check a minimum maximum = .ok () →
        check c minimum maximum = .ok () → check b minimum maximum = .ok () := by
  refine ⟨fun _ _ => read_eq_ok_iff, ?_, fun _ _ _ => compare_swap,
    fun _ _ _ _ => compare_trans, fun _ _ _ => AtMost.trans, fun _ _ => exists_compare_error_iff,
    fun _ _ _ => check_eq_ok_iff, ?_⟩
  · intro a b m n hm hn
    exact ⟨order m n, compare_eq_ok_iff.mpr ⟨m, n, hm, hn, rfl⟩, order_eq_lt_iff, order_eq_eq_iff,
      order_eq_gt_iff⟩
  · intro a b c minimum maximum hab hbc ha hc
    obtain ⟨hminimum, -⟩ := check_eq_ok_iff.mp ha
    obtain ⟨-, hmaximum⟩ := check_eq_ok_iff.mp hc
    exact check_eq_ok_iff.mpr ⟨fun bound hbound => (hminimum bound hbound).trans hab,
      fun bound hbound => hbc.trans (hmaximum bound hbound)⟩

example : check " 1.+10" (some "1.9.9") (some "1.10") = .ok () := by decide +kernel

end ModelHost.ClientVersion
