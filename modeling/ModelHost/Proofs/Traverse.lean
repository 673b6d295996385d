import Mathlib.Data.List.Forall2

/-!
What a computation that can fail comes to. A mapped result is good exactly if the result is, and a
list that is read entry by entry is read exactly if each of its entries is.
-/

namespace ModelHost

theorem map_eq_ok_iff {ε α β : Type} {result : Except ε α} {f : α → β} {b : β} :
    result.map f = .ok b ↔ ∃ a, result = .ok a ∧ f a = b := by
  cases result <;> simp [Except.map]

theorem mapM_eq_some_iff {α β : Type} {f : α → Option β} {xs : List α} {ys : List β} :
    xs.mapM f = some ys ↔ List.Forall₂ (fun x y => f x = some y) xs ys := by
  induction xs generalizing ys with
  | nil => simp [eq_comm]
  | cons x xs ih =>
    rw [List.mapM_cons]
    constructor
    · intro h
      obtain ⟨y, hy, hrest⟩ := Option.bind_eq_some_iff.mp h
      obtain ⟨rest, hxs, hys⟩ := Option.bind_eq_some_iff.mp hrest
      obtain rfl := Option.some.inj hys
      exact .cons hy (ih.mp hxs)
    · rintro (_ | ⟨hy, hxs⟩)
      simp [hy, ih.mpr hxs]

theorem length_of_mapM_ok {α β ε : Type} {f : α → Except ε β} {xs : List α} {ys : List β}
    (h : xs.mapM f = .ok ys) : ys.length = xs.length := by
  induction xs generalizing ys with
  | nil =>
    obtain rfl := Except.ok.inj h
    rfl
  | cons x xs ih =>
    rw [List.mapM_cons] at h
    cases hx : f x with
    | error e => rw [hx] at h; nomatch h
    | ok y =>
      cases hxs : xs.mapM f with
      | error e => rw [hx, hxs] at h; nomatch h
      | ok rest =>
        rw [hx, hxs] at h
        obtain rfl := Except.ok.inj h
        simpa using ih hxs

end ModelHost
