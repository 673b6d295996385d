/-!
Stop texts. Output that arrives in fragments ends before the first place where a stop text starts.
A gate hands on what can no longer be part of a stop text and holds the rest: the longest end of the
output that one of the stop texts goes on from.
-/

namespace ModelHost.Text

/-- The part of a text before the first place where a stop text starts. -/
def before? (stops : List (List Char)) (text : List Char) : Option (List Char) :=
  if stops.any (·.isPrefixOf text) then some []
  else
    match text with
    | [] => none
    | c :: rest => (before? stops rest).map (c :: ·)

/-- Says whether a text starts one of the stop texts and does not reach its end. -/
def opens (stops : List (List Char)) (text : List Char) : Bool :=
  stops.any fun stop => text.isPrefixOf stop && text.length < stop.length

/-- The longest end of a text that starts a stop text. -/
def openTail (stops : List (List Char)) : List Char → List Char
  | [] => []
  | c :: rest => if opens stops (c :: rest) then c :: rest else openTail stops rest

theorem openTail_suffix (stops : List (List Char)) (text : List Char) :
    openTail stops text <:+ text := by
  induction text with
  | nil => exact List.suffix_refl _
  | cons c rest ih =>
    rw [openTail]
    split
    · exact List.suffix_refl _
    · exact ih.trans (List.suffix_cons c rest)

def settled (stops : List (List Char)) (text : List Char) : List Char :=
  text.take (text.length - (openTail stops text).length)

theorem settled_append_openTail (stops : List (List Char)) (text : List Char) :
    settled stops text ++ openTail stops text = text := by
  obtain ⟨front, h⟩ := openTail_suffix stops text
  have hl := congrArg List.length h
  rw [List.length_append] at hl
  unfold settled
  rw [← hl, Nat.add_sub_cancel]
  conv => lhs; arg 1; rw [← h]
  simpa using h

inductive Passage where
  | onward (ready : List Char)
  /-- A stop text has appeared; nothing after `ready` is handed on. -/
  | closed (ready : List Char)
deriving DecidableEq, Repr

structure StopGate where
  stops : List (List Char)
  held : List Char
deriving DecidableEq, Repr

/-- An empty stop text stops nothing. -/
def StopGate.ofStops (stops : List (List Char)) : StopGate :=
  ⟨stops.filter (· ≠ []), []⟩

def StopGate.push (g : StopGate) (fragment : List Char) : Passage × StopGate :=
  if g.stops = [] then (.onward fragment, g)
  else
    let text := g.held ++ fragment
    match before? g.stops text with
    | some ready => (.closed ready, { g with held := [] })
    | none => (.onward (settled g.stops text), { g with held := openTail g.stops text })

def StopGate.finish (g : StopGate) : List Char := g.held

end ModelHost.Text
