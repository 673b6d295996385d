import ModelHost.Proofs.Completion.Calls

/-!
The counts of an answer: the tokens it may spend, those it has spent, and the place of the next one.
They are words, which could wrap around. The runs here count exactly, and come to nothing where a
sum or a difference is no word; on prompts whose length is a word they come to what the others do.
-/

namespace ModelHost.Completion

/-- Counting that comes to nothing where a sum or a difference is no word. -/
def Counting.checked : Counting Option where
  add a b := if a.toNat + b.toNat < UInt32.size then some (a + b) else none
  sub a b := if b ≤ a then some (a - b) else none

namespace Counting

private theorem checked_add_one {count : UInt32} (h : count.toNat + 1 < UInt32.size) :
    checked.add count 1 = some (count + 1) := if_pos h

private theorem checked_sub {a b : UInt32} (h : b ≤ a) : checked.sub a b = some (a - b) := if_pos h

end Counting

variable {M C : Type}

def runExactly (inference : Inference M C) (model : M) (outputLimit : UInt32) (r : Request)
    (context : C) : Option (Run C) :=
  runWith .checked inference model outputLimit r context

variable {inference : Inference M C} {model : M}

structure State.Bounded (window : UInt32) (left : Nat) (s : State C) : Prop where
  spent : s.spent.toNat + left < UInt32.size
  position : s.position.toNat + left ≤ window.toNat + 1

namespace State.Bounded

variable {window : UInt32} {left : Nat} {s spelt fed : State C} {token : Token}
  {bytes : List UInt8} {passage : Text.Passage} (h : s.Bounded window (left + 1))

include h

private theorem spent_lt : s.spent.toNat + 1 < UInt32.size := by
  have hspent := h.spent
  omega

private theorem position_lt (hleft : left ≠ 0) : s.position.toNat + 1 < UInt32.size := by
  have hposition := h.position
  exact add_one_lt_size (UInt32.lt_iff_toNat_lt.mpr (by omega) : s.position < window)

theorem spellWith_checked (bytes : List UInt8) :
    (s.accept token).spellWith .checked bytes = some ((s.accept token).spell bytes) := by
  unfold spellWith
  rw [Counting.checked_add_one (show (s.accept token).spent.toNat + 1 < _ from h.spent_lt)]
  rfl

theorem feedWith_checked (hleft : left ≠ 0)
    (hspell : (s.accept token).spell bytes = (passage, spelt)) :
    spelt.feedWith .checked inference token = some (spelt.feed inference token) := by
  have hplace : spelt.position.toNat + 1 < UInt32.size := by
    rw [(spell_keeps hspell).2.1]
    exact h.position_lt hleft
  unfold feed feedWith
  rw [Counting.checked_add_one hplace]
  split <;> rfl

theorem turn (hleft : left ≠ 0) (hspell : (s.accept token).spell bytes = (passage, spelt))
    (hfeed : spelt.feed inference token = (.ok (), fed)) : fed.Bounded window left := by
  obtain ⟨-, hplace, hcount⟩ := spell_keeps hspell
  obtain ⟨hposition, -, hspent⟩ := feed_ok hfeed
  have hcounted : fed.spent.toNat = s.spent.toNat + 1 := by
    rw [hspent, hcount]
    exact toNat_add_one h.spent_lt
  have hplaced : fed.position.toNat = s.position.toNat + 1 := by
    rw [hposition, hplace]
    exact toNat_add_one (h.position_lt hleft)
  constructor
  · rw [hcounted]
    have hbefore := h.spent
    omega
  · rw [hplaced]
    have hbefore := h.position
    omega

end State.Bounded

theorem sampleTokensWith_checked {window : UInt32} (left : Nat) (s : State C)
    (h : s.Bounded window left) :
    sampleTokensWith .checked inference model left s =
      some (sampleTokens inference model left s) := by
  -- A turn adds one to each count and takes one from `left`, so the bounds stay.
  induction left, s using sampleTokens_induction inference model with
  | spent => rfl
  | unpicked _ _ _ hpick => simp [sampleTokensWith, hpick]
  | ended _ _ _ hpick hlast => simp [sampleTokensWith, hpick, hlast]
  | unspelt _ _ _ _ hpick hmore hpiece => simp [sampleTokensWith, hpick, hmore, hpiece]
  | stopped _ _ _ _ _ _ hpick hmore hpiece hspell | last _ _ _ _ _ hpick hmore hpiece hspell =>
    simp [sampleTokensWith, hpick, hmore, hpiece, h.spellWith_checked, hspell]
  | unfed _ _ _ _ _ _ _ _ hpick hmore hpiece hspell hleft hfeed =>
    simp [sampleTokensWith, hpick, hmore, hpiece, h.spellWith_checked, hspell, hleft,
      h.feedWith_checked hleft hspell, hfeed]
  | turn _ _ _ _ _ _ _ hpick hmore hpiece hspell hleft hfeed _ ih =>
    simp [sampleTokensWith, hpick, hmore, hpiece, h.spellWith_checked, hspell, hleft,
      h.feedWith_checked hleft hspell, hfeed, ih (h.turn hleft hspell hfeed)]

variable {outputLimit : UInt32} {r : Request} {context : C} {prompt : List Token}

theorem answerWith_checked {window budget promptTokens : UInt32} {start : State C}
    (h : start.Bounded window budget.toNat) (calls : List Call) :
    answerWith .checked inference model budget promptTokens start calls =
      some (answer inference model budget promptTokens start calls) := by
  simp only [answerWith, sampleTokensWith_checked _ _ h, Option.bind_eq_bind, Option.bind_some]
  rfl

theorem Request.Fits.bounded (h : r.Fits inference model outputLimit context prompt) (taken : C) :
    (State.afterPrompt r prompt taken).Bounded (inference.window context)
      (r.allowance outputLimit (inference.window context) prompt).toNat where
  spent := by
    rw [show (State.afterPrompt r prompt taken).spent = 0 from rfl, UInt32.toNat_zero, Nat.zero_add]
    exact UInt32.toNat_lt_size _
  position := by
    rw [show (State.afterPrompt r prompt taken).position.toNat = prompt.length from
      toNat_length (Nat.le_of_lt h.room)]
    exact h.length_add_allowance_le

/-- The counts of a run never wrap around. -/
theorem runExactly_eq (htokens : ∀ tokens, inference.tokenize model r.prompt = .ok tokens →
      tokens.length < UInt32.size) :
    runExactly inference model outputLimit r context =
      some (run inference model outputLimit r context) := by
  unfold runExactly run runWith
  dsimp only
  by_cases hbudget : r.budget outputLimit = 0
  · simp only [if_pos hbudget]
    rfl
  · simp only [if_neg hbudget]
    rcases htokenized : inference.tokenize model r.prompt with cause | ⟨⟩ | ⟨first, more⟩
    · rfl
    · rfl
    · dsimp only
      by_cases hfull : inference.window context ≤ UInt32.ofNat (first :: more).length
      · simp only [if_pos hfull]
        rfl
      · have hfree := UInt32.not_le.mp hfull
        have hroom : (first :: more).length < (inference.window context).toNat := by
          have hlt := UInt32.lt_iff_toNat_lt.mp hfree
          rwa [UInt32.toNat_ofNat_of_lt' (htokens _ htokenized)] at hlt
        have hfits : r.Fits inference model outputLimit context (first :: more) :=
          ⟨hbudget, htokenized, by simp, hroom⟩
        have hleft := add_one_lt_size (sub_length_lt hroom (by simp))
        simp only [if_neg hfull, Counting.checked_sub (UInt32.le_of_lt hfree),
          Counting.checked_add_one hleft, Option.bind_eq_bind, Option.bind_some]
        rcases inference.decode (inference.clear context) (Batch.ofPrompt (first :: more)) with
          ⟨cause | ⟨⟩, taken⟩
        · rfl
        · exact answerWith_checked (hfits.bounded taken) _

end ModelHost.Completion
