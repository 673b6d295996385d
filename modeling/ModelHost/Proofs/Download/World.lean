import ModelHost.Proofs.Download.Table

/-!
Runs of the downloads. A world is a table of downloads with the disk it works on. Its moves are the
requests and questions of callers, the phases of jobs, what transfers report, the letting go of all
jobs, and whatever else happens to the disk, what transfers write included. They may come in any
order. A run gives notice of the jobs it starts, of what they ask to be fetched and of their ends.
-/

namespace ModelHost.Download

structure World where
  table : Table
  disk : Disk

inductive Move where
  | request (now : Stamp) (d : Descriptor)
  | query (name : String)
  | advance (now : Stamp) (name : String)
  | report (name : String) (received : UInt64) (total : Option UInt64)
  | transferEnded (name : String) (result : Except Cause Unit)
  | abandon
  /-- Anything at all that others do to the disk. -/
  | disturb (disk : Disk)

inductive Notice where
  | started (job : Job)
  | fetched (fetch : Fetch)
  | ended (name : String)
deriving DecidableEq, Repr

def Move.asked? : Move → Option Descriptor
  | .request _ d => some d
  | _ => none

def Move.job? : Move → Option String
  | .advance _ name | .report name _ _ | .transferEnded name _ => some name
  | _ => none

namespace World

def start (modelsDirectory : Path) (client : String) (disk : Disk) : World :=
  ⟨.start modelsDirectory client, disk⟩

def advanced (before after : Table) (name : String) (fetch : Option Fetch) : List Notice :=
  fetch.toList.map .fetched ++
    if (before.job? name).isSome && (after.job? name).isNone then [.ended name] else []

def move (w : World) : Move → World × List Notice
  | .request now d =>
    let table := (w.table.request w.disk now d).2
    ({ w with table }, (table.jobs.drop w.table.jobs.length).map .started)
  | .query _ => (w, [])
  | .advance now name =>
    let (table, disk, fetch) := w.table.advance w.disk now name
    (⟨table, disk⟩, advanced w.table table name fetch)
  | .report name received total => ({ w with table := w.table.report name received total }, [])
  | .transferEnded name result => ({ w with table := w.table.transferEnded name result }, [])
  | .abandon => ({ w with table := w.table.abandon }, [])
  | .disturb disk => ({ w with disk }, [])

def run (w : World) : List Move → World × List Notice
  | [] => (w, [])
  | m :: moves =>
    let (w, first) := w.move m
    let (w, rest) := w.run moves
    (w, first ++ rest)

@[simp] theorem run_nil (w : World) : w.run [] = (w, []) := rfl

theorem run_cons (w : World) (m : Move) (moves : List Move) :
    w.run (m :: moves) =
      (((w.move m).1.run moves).1, (w.move m).2 ++ ((w.move m).1.run moves).2) := rfl

theorem run_append (w : World) (moves more : List Move) :
    w.run (moves ++ more) =
      (((w.run moves).1.run more).1, (w.run moves).2 ++ ((w.run moves).1.run more).2) := by
  induction moves generalizing w with
  | nil => simp
  | cons m moves ih => simp [run_cons, ih]

/-- What holds at the beginning, of no moves and no notices, and what every further move keeps,
holds of a whole run. -/
theorem run_induction {start : World} {P : List Move → World → List Notice → Prop}
    (hstart : P [] start [])
    (hmove : ∀ moves m, P moves (start.run moves).1 (start.run moves).2 →
      P (moves ++ [m]) ((start.run moves).1.move m).1
        ((start.run moves).2 ++ ((start.run moves).1.move m).2))
    (moves : List Move) : P moves (start.run moves).1 (start.run moves).2 := by
  suffices hmore : ∀ more past, P past (start.run past).1 (start.run past).2 →
      P (past ++ more) (start.run (past ++ more)).1 (start.run (past ++ more)).2 from
    hmore moves [] hstart
  intro more
  induction more with
  | nil =>
    intro past h
    rwa [List.append_nil]
  | cons m more ih =>
    intro past h
    have hnext := hmove past m h
    rw [List.append_cons]
    apply ih
    simpa [run_append, run_cons] using hnext

end World

end ModelHost.Download
