import ModelHost.Inference.Backend

/-!
What a context goes through. It is cleared, takes in one batch after the other, and is asked for the
logits of entries of the batch it took in last. Calls are in order if every batch goes on in the
window where the one before it ended, and if logits are asked for only where they are kept.
-/

namespace ModelHost

/-- What a word of 32 bits holds of the number of tokens of a text. -/
def heldLength (tokens : List Token) : Nat := tokens.length % UInt32.size

theorem toNat_ofNat_length (tokens : List Token) :
    (UInt32.ofNat tokens.length).toNat = heldLength tokens := UInt32.toNat_ofNat'

theorem heldLength_eq {tokens : List Token} (h : tokens.length < UInt32.size) :
    heldLength tokens = tokens.length := Nat.mod_eq_of_lt h

theorem toNat_length {tokens : List Token} {window : UInt32} (h : tokens.length ≤ window.toNat) :
    (UInt32.ofNat tokens.length).toNat = tokens.length := by
  rw [toNat_ofNat_length, heldLength_eq (Nat.lt_of_le_of_lt h window.toNat_lt_size)]

namespace Batch

def scored (b : Batch) : List Nat :=
  (List.range b.size).filter fun i => b.entries[i]?.any (·.scored)

structure Continues (b : Batch) (window : UInt32) (taken : Nat) : Prop where
  places : b.entries.map (·.position.toNat) = List.range' taken b.size
  within : ∀ entry ∈ b.entries, entry.position < window

/-- Says that a batch has these tokens, from a place on, and keeps the logits of the last one. -/
structure Holds (b : Batch) (text : List Token) (place : Nat) : Prop where
  tokens : b.entries.map (·.token) = text
  places : b.entries.map (·.position.toNat) = List.range' place text.length
  scored : b.scored = [text.length - 1]

@[simp] theorem scored_ofToken (token : Token) (position : UInt32) :
    (ofToken token position).scored = [0] := rfl

theorem holds_ofToken (token : Token) (position : UInt32) :
    (ofToken token position).Holds [token] position.toNat :=
  ⟨rfl, rfl, rfl⟩

theorem continues_ofToken {window position : UInt32} (token : Token) (h : position < window) :
    (ofToken token position).Continues window position.toNat where
  places := rfl
  within := by simpa [ofToken] using h

private theorem getElem?_ofPrompt (tokens : List Token) (i : Nat) :
    (ofPrompt tokens).entries[i]? =
      tokens[i]?.map fun token => ⟨token, UInt32.ofNat i, i + 1 = tokens.length⟩ := by
  simp [ofPrompt]

private theorem places_ofPrompt {tokens : List Token} (h : tokens.length < UInt32.size) :
    (ofPrompt tokens).entries.map (·.position.toNat) = List.range' 0 tokens.length := by
  apply List.ext_getElem?
  intro i
  by_cases hi : i < tokens.length
  · have hword : i % UInt32.size = i := Nat.mod_eq_of_lt (by omega)
    simp [getElem?_ofPrompt, hi, hword]
  · simp [getElem?_ofPrompt, hi]

theorem scored_ofPrompt {tokens : List Token} (h : tokens ≠ []) :
    (ofPrompt tokens).scored = [tokens.length - 1] := by
  obtain ⟨n, hn⟩ := Nat.exists_eq_add_one_of_ne_zero (mt List.eq_nil_of_length_eq_zero h)
  have hbefore : (List.range n).filter
      (fun i => ((ofPrompt tokens).entries[i]?).any (·.scored)) = [] := by
    apply List.filter_eq_nil_iff.mpr
    intro i hi
    have hlt : i < n := List.mem_range.mp hi
    have hne : ¬ i + 1 = tokens.length := by omega
    cases hi : tokens[i]? <;> simp [getElem?_ofPrompt, hi, hne]
  unfold scored
  rw [size_ofPrompt, hn, List.range_succ, List.filter_append, hbefore]
  simp [getElem?_ofPrompt, hn]

theorem holds_ofPrompt {tokens : List Token} (h : tokens ≠ [])
    (hlength : tokens.length < UInt32.size) : (ofPrompt tokens).Holds tokens 0 where
  tokens := by
    apply List.ext_getElem?
    intro i
    cases hi : tokens[i]? <;> simp [getElem?_ofPrompt, hi]
  places := places_ofPrompt hlength
  scored := scored_ofPrompt h

theorem continues_ofPrompt {tokens : List Token} {window : UInt32}
    (h : tokens.length ≤ window.toNat) : (ofPrompt tokens).Continues window 0 := by
  have hword : tokens.length < UInt32.size := Nat.lt_of_le_of_lt h window.toNat_lt_size
  have hplaces := places_ofPrompt hword
  refine ⟨by rw [hplaces, size_ofPrompt], ?_⟩
  intro entry hentry
  have hplace := List.mem_map_of_mem (f := fun e : Entry => e.position.toNat) hentry
  rw [hplaces, List.mem_range'_1] at hplace
  rw [UInt32.lt_iff_toNat_lt]
  omega

end Batch

def Call.batches (calls : List Call) : List Batch :=
  calls.filterMap fun
    | .decode b => some b
    | .clear | .logits _ => none

/-- How many tokens a context has taken in since it was cleared, and in which batch the last. -/
structure Session where
  taken : Nat := 0
  latest : Option Batch := none
deriving DecidableEq, Repr

instance (b : Batch) (window : UInt32) (taken : Nat) : Decidable (b.Continues window taken) :=
  decidable_of_iff
    (b.entries.map (·.position.toNat) = List.range' taken b.size ∧
      ∀ entry ∈ b.entries, entry.position < window)
    ⟨fun h => ⟨h.1, h.2⟩, fun h => ⟨h.places, h.within⟩⟩

namespace Session

def after (s : Session) : Call → Session
  | .clear => {}
  | .decode b => ⟨s.taken + b.size, some b⟩
  | .logits _ => s

/-- The logits that can be asked for are those of the only entry of the latest batch that keeps
them. -/
def Admits (window : UInt32) (s : Session) : Call → Prop
  | .clear => True
  | .decode b => b.Continues window s.taken
  | .logits index => ∃ b, s.latest = some b ∧ b.scored = [index]

instance (window : UInt32) (s : Session) : (call : Call) → Decidable (s.Admits window call)
  | .clear => .isTrue trivial
  | .decode b => inferInstanceAs (Decidable (b.Continues window s.taken))
  | .logits index =>
    decidable_of_iff (s.latest.map Batch.scored = some [index]) Option.map_eq_some_iff

def InOrder (window : UInt32) : Session → List Call → Prop
  | _, [] => True
  | s, call :: calls => s.Admits window call ∧ InOrder window (s.after call) calls

theorem inOrder_append {window : UInt32} {s : Session} {calls more : List Call} :
    InOrder window s (calls ++ more) ↔
      InOrder window s calls ∧ InOrder window (calls.foldl after s) more := by
  induction calls generalizing s with
  | nil => simp [InOrder]
  | cons call calls ih => simp [InOrder, ih, and_assoc]

end Session

namespace Inference

variable {M C : Type} (inference : Inference M C)

/-- A context after a call, whether or not the call succeeds. -/
def afterCall (context : C) : Call → C
  | .clear => inference.clear context
  | .decode b => (inference.decode context b).2
  | .logits _ => context

def after (context : C) (calls : List Call) : C := calls.foldl inference.afterCall context

@[simp] theorem after_nil (context : C) : inference.after context [] = context := rfl

@[simp] theorem after_cons (context : C) (call : Call) (calls : List Call) :
    inference.after context (call :: calls) =
      inference.after (inference.afterCall context call) calls := rfl

theorem after_append (context : C) (calls more : List Call) :
    inference.after context (calls ++ more) =
      inference.after (inference.after context calls) more :=
  List.foldl_append

def Does (context : C) : Call → Prop
  | .clear => True
  | .decode b => (inference.decode context b).1 = .ok ()
  | .logits index => ∃ logits, inference.logits context index = some logits ∧ logits ≠ []

/-- Says that a context, once cleared, does what it is asked for as long as the calls are in
order. -/
def Serves (context : C) : Prop :=
  ∀ calls call, Session.InOrder (inference.window context) {} (calls ++ [call]) →
    inference.Does (inference.after (inference.clear context) calls) call

end Inference

structure Ledger where
  session : Session := {}
  calls : Nat := 0
deriving DecidableEq, Repr

namespace Ledger

def take (l : Ledger) (b : Batch) : Except Cause Unit × Ledger :=
  if l.session.Admits 4 (.decode b) then (.ok (), ⟨l.session.after (.decode b), l.calls + 1⟩)
  else (.error ⟨["out of order"]⟩, { l with calls := l.calls + 1 })

theorem take_of_admits {l : Ledger} {b : Batch} (h : l.session.Admits 4 (.decode b)) :
    l.take b = (.ok (), ⟨l.session.after (.decode b), l.calls + 1⟩) := if_pos h

/-- A program whose contexts have windows of four tokens and do what is in order. After two tokens
comes one that can not be spelled. -/
def inference : Inference Unit Ledger where
  tokenize _ text := .ok (text.toList.map fun c => Int32.ofNat c.toNat)
  piece _ token := if token = 2 then .error ⟨["no piece"]⟩ else .ok [0x61]
  endToken _ := 0
  width _ := 1
  window _ := 4
  clear l := ⟨{}, l.calls + 1⟩
  decode := take
  logits l index :=
    if l.session.Admits 4 (.logits index) then
      some ((List.replicate 3 Single.zero).set (if l.session.taken = 2 then 2 else 1) Single.one)
    else none
  vector l := l.session.latest.map fun _ => [Single.one]

theorem session_afterCall {l : Ledger} {call : Call} (h : l.session.Admits 4 call) :
    (inference.afterCall l call).session = l.session.after call := by
  cases call with
  | clear | logits => rfl
  | decode b => exact congrArg (·.2.session) (take_of_admits h)

theorem session_after {l : Ledger} {calls : List Call} (h : l.session.InOrder 4 calls) :
    (inference.after l calls).session = calls.foldl Session.after l.session := by
  induction calls generalizing l with
  | nil => rfl
  | cons call calls ih =>
    obtain ⟨hadmits, hcalls⟩ := h
    rw [← session_afterCall hadmits] at hcalls
    rw [Inference.after_cons, ih hcalls, session_afterCall hadmits]
    rfl

theorem serves (l : Ledger) : inference.Serves l := by
  intro calls call hcalls
  obtain ⟨hbefore, hadmits, -⟩ := Session.inOrder_append.mp hcalls
  have hsession := session_after (l := inference.clear l) hbefore
  rw [show (inference.clear l).session = {} from rfl] at hsession
  rw [← hsession] at hadmits
  cases call with
  | clear => trivial
  | decode b => exact congrArg Prod.fst (take_of_admits hadmits)
  | logits index => exact ⟨_, if_pos hadmits, List.ne_nil_of_length_pos (by simp)⟩

end Ledger

end ModelHost
