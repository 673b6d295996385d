import ModelHost.Proofs.Download.Births
import ModelHost.Proofs.Download.Shutdown

/-!
What a record shows at any moment. It has the name it is kept under, and the time and the target of
the first request for this name. It has an end exactly if it is finished and an error exactly if it
has failed, and its amounts are those that the fetch for the name has reported last. A name without
a record was never asked for.
-/

namespace ModelHost.Download

/-- What can be known of the fetch for a name without looking at the table: whether it runs, and
what it has reported so far. -/
structure Progress where
  running : Bool := false
  reports : List (UInt64 × Option UInt64) := []
deriving DecidableEq, Repr

/-- A fetch runs from the notice of it to the end of its transfer, or until it is let go of. It
reports only while it runs. -/
def Progress.after (name : String) (p : Progress) (m : Move) (notices : List Notice) : Progress :=
  match m with
  | .report other received total =>
    if p.running ∧ other = name then { p with reports := p.reports ++ [(received, total)] } else p
  | .transferEnded other _ => { p with running := p.running && other ≠ name }
  | .abandon => { p with running := false }
  | .request _ _ | .query _ | .advance _ _ | .disturb _ =>
    { p with running := p.running || (fetches notices).any (·.model = name) }

def Progress.amounts (p : Progress) : UInt64 × Option UInt64 := p.reports.getLast?.getD (0, none)

def World.progress (w : World) (name : String) (p : Progress) : List Move → Progress
  | [] => p
  | m :: moves => (w.move m).1.progress name (p.after name m (w.move m).2) moves

private theorem World.progress_snoc (w : World) (name : String) (p : Progress) (moves : List Move)
    (m : Move) :
    w.progress name p (moves ++ [m]) =
      (w.progress name p moves).after name m ((w.run moves).1.move m).2 := by
  induction moves generalizing w p with
  | nil => rfl
  | cons first moves ih => exact ih _ _

namespace Table

variable {t : Table}

private theorem isSome_transfer?_iff {name : String} : (t.transfer? name).isSome = true ↔
    ∃ job, t.job? name = some job ∧ job.phase = .transferring := by
  simp [transfer?, Option.any_eq_true]

private theorem isSome_transfer?_advance {disk : Disk} {now : Stamp} {name other : String} :
    ((t.advance disk now name).1.transfer? other).isSome = true ↔
      (t.transfer? other).isSome = true ∨
        name = other ∧ ∃ job, t.job? name = some job ∧ job.phase = .beginTransfer := by
  cases hjob : t.job? name with
  | none => simp [t.advance_of_none hjob]
  | some job =>
    obtain ⟨-, hname⟩ := job?_mem hjob
    have hphase := job.phase_advance_eq_transferring_iff disk
    rw [isSome_transfer?_iff, isSome_transfer?_iff]
    rcases t.advance_cases hjob disk now with ⟨outcome, houtcome, hadvance⟩ | ⟨-, hadvance⟩
    · have hended : (job.advance disk).1.phase ≠ .transferring := by
        intro hsame
        simp [Job.outcome?, hsame] at houtcome
      rw [ne_eq, hphase, not_or] at hended
      rw [hadvance, job?_conclude]
      by_cases hother : name = other
      · subst hother
        simp [hjob, hended]
      · simp [hother]
    · have hmodel : (job.advance disk).1.model = name := by
        obtain ⟨phase, disk', hnext, -⟩ := job.advance_spec disk
        rw [hnext, Job.model_next, hname]
      rw [hadvance, job?_replaceJob, hmodel]
      by_cases hother : name = other
      · subst hother
        simp [hjob, hphase, or_comm]
      · simp [hother]

private theorem transfer?_report (received : UInt64) (total : Option UInt64) (name other : String) :
    (t.report name received total).transfer? other = t.transfer? other := by
  unfold report
  split
  next => rfl
  next => rw [transfer?, transfer?, job?, job?, jobs_updateRecord]

private theorem transfer?_transferEnded (result : Except Cause Unit) (name other : String) :
    (t.transferEnded name result).transfer? other =
      if name = other then none else t.transfer? other := by
  unfold transferEnded
  split
  next hnone =>
    split
    next hname => rw [← hname, hnone]
    next => rfl
  next job hjob =>
    obtain ⟨hjob?, -⟩ := t.transfer?_eq_some hjob
    have hmodel : (job.transferEnded result).model = name := by
      rw [← (job?_mem hjob?).2]
      cases result <;> rfl
    rw [transfer?, job?_replaceJob, hmodel]
    split
    next hname =>
      subst hname
      rw [hjob?]
      cases result <;> rfl
    next => rfl

structure Shows (t : Table) (name : String) (p : Progress) : Prop where
  running : p.running = (t.transfer? name).isSome
  unborn : t.records[name]? = none → p.reports = []
  amounts : ∀ r, t.records[name]? = some r → (r.received, r.total) = p.amounts

end Table

namespace World

variable {w : World} {name : String} {p : Progress}

private theorem any_fetches_advance {now : Stamp} {other : String} :
    ((fetches (w.move (.advance now other)).2).any (·.model = name)) = true ↔
      other = name ∧ ∃ job, w.table.job? other = some job ∧ job.phase = .beginTransfer := by
  rw [fetches_advance]
  cases hjob : w.table.job? other with
  | none => simp
  | some job =>
    obtain ⟨-, hmodel⟩ := Table.job?_mem hjob
    by_cases hphase : job.phase = .beginTransfer
    · rw [Option.filter_some_pos (by simpa using hphase)]
      simp [Job.fetch, hmodel, hphase]
    · rw [Option.filter_some_neg (by simpa using hphase)]
      simp [hphase]

private theorem running_move (hhandled : w.table.Handled)
    (h : p.running = (w.table.transfer? name).isSome) (m : Move) :
    (p.after name m (w.move m).2).running = ((w.move m).1.table.transfer? name).isSome := by
  cases m with
  | query | disturb => simpa [Progress.after, move] using h
  | abandon =>
    simp only [Progress.after, move, hhandled.abandon_eq]
    rfl
  | request now d =>
    have hfetches : fetches (w.move (.request now d)).2 = [] := fetches_map_started _
    simp only [Progress.after, hfetches]
    simp only [move, Table.transfer?_request, h]
    simp
  | advance now other =>
    rw [Bool.eq_iff_iff]
    simp only [Progress.after, Bool.or_eq_true, any_fetches_advance, h]
    simp only [move, Table.isSome_transfer?_advance]
  | report other received total =>
    have hrunning : (p.after name (.report other received total) []).running = p.running := by
      simp only [Progress.after]
      split <;> rfl
    exact hrunning.trans (h.trans (by simp only [move, Table.transfer?_report]))
  | transferEnded other result =>
    simp only [Progress.after, move, Table.transfer?_transferEnded, h]
    by_cases hname : other = name
    · simp [hname]
    · simp [hname]

theorem reports_after {m : Move} {notices : List Notice}
    (hm : ∀ received total, m ≠ .report name received total) :
    (p.after name m notices).reports = p.reports := by
  cases m with
  | report other received total =>
    have hother : other ≠ name := by
      rintro rfl
      exact hm received total rfl
    simp [Progress.after, hother]
  | request | query | advance | transferEnded | abandon | disturb => rfl

private theorem shows_report (hsound : w.table.Sound) (h : w.table.Shows name p) (received : UInt64)
    (total : Option UInt64) :
    let after := p.after name (.report name received total) []
    ((w.table.report name received total).records[name]? = none → after.reports = []) ∧
      ∀ r, (w.table.report name received total).records[name]? = some r →
        (r.received, r.total) = after.amounts := by
  intro after
  cases htransfer : w.table.transfer? name with
  | none =>
    have hidle : p.running = false := by rw [h.running, htransfer]; rfl
    have hafter : after = p := by simp [after, Progress.after, hidle]
    rw [Table.report, htransfer, hafter]
    exact ⟨h.unborn, h.amounts⟩
  | some job =>
    have hbusy : p.running = true := by rw [h.running, htransfer]; rfl
    have hafter : after.reports = p.reports ++ [(received, total)] := by
      simp [after, Progress.after, hbusy]
    obtain ⟨hmem, hmodel⟩ := Table.job?_mem (w.table.transfer?_eq_some htransfer).1
    obtain ⟨old, hold, -⟩ := hsound.busy hmem
    rw [hmodel] at hold
    rw [Table.report, htransfer]
    simp only [Table.records_updateRecord, if_pos, hold, Option.map_some]
    refine ⟨fun hnone => (by cases hnone), ?_⟩
    rintro r ⟨⟩
    simp [Progress.amounts, hafter]

theorem shows_move (hsound : w.table.Sound) (hhandled : w.table.Handled)
    (h : w.table.Shows name p) (m : Move) :
    (w.move m).1.table.Shows name (p.after name m (w.move m).2) := by
  have hrunning := running_move hhandled h.running m
  by_cases hm : ∃ received total, m = .report name received total
  · obtain ⟨received, total, rfl⟩ := hm
    obtain ⟨hunborn, hamounts⟩ := shows_report hsound h received total
    exact ⟨hrunning, hunborn, hamounts⟩
  have hother : ∀ received total, m ≠ .report name received total :=
    fun received total hsame => hm ⟨received, total, hsame⟩
  have hreports : (p.after name m (w.move m).2).reports = p.reports := reports_after hother
  have hsame : (p.after name m (w.move m).2).amounts = p.amounts := by
    rw [Progress.amounts, hreports, Progress.amounts]
  refine ⟨hrunning, ?_, ?_⟩
  · intro hnone
    rw [hreports]
    refine h.unborn (Option.eq_none_iff_forall_ne_some.mpr fun r hr => ?_)
    obtain ⟨r', hr'⟩ := (hsound.move m).exists_record ⟨r, hr⟩
    rw [hnone] at hr'
    cases hr'
  · intro r hr
    rw [hsame]
    cases recorded hr with
    | kept hold => exact h.amounts r hold
    | @born now d hnone =>
      obtain ⟨hreceived, htotal⟩ := w.table.amounts_birth w.disk now d
      rw [hreceived, htotal, Progress.amounts, h.unborn hnone]
      rfl
    | @reported _ received total old hold => exact absurd rfl (hother received total)
    | @ended now _ job outcome old hjob houtcome hold =>
      rw [← h.amounts old hold]
      cases outcome <;> rfl

theorem shows_run {start : World} (hsound : start.table.Sound) (hhandled : start.table.Handled)
    (name : String) (h : start.table.Shows name {}) (moves : List Move) :
    (start.run moves).1.table.Shows name (start.progress name {} moves) := by
  apply run_induction (P := fun moves w _ => w.table.Shows name (start.progress name {} moves)) h
  intro moves m ih
  rw [progress_snoc]
  exact shows_move (hsound.run moves).1 (handled_run hhandled moves) ih m

end World

private theorem Failure.message_ne (f : Failure) : f.message ≠ "" := by
  unfold message
  cases f with
  | noSource => decide
  | version | directory | transfer | digest | install => simp [toString]

/-- What a record says of its download, its amounts apart: whose it is, when and to where it was
begun, and whether it was finished and what went wrong just as its status has it. -/
structure Record.Faithful (target : Path) (now : Stamp) (name : String) (r : Record) : Prop where
  model : r.model = name
  status : r.status ≠ .notStarted
  startedAt : r.startedAt = some now
  file : r.file = some target
  finishedAt : r.finishedAt.isSome = true ↔ r.status = .completed ∨ r.status = .failed
  errorText : r.errorText ≠ "" ↔ r.status = .failed

namespace Record.Faithful

variable {target : Path} {now : Stamp} {name : String} {r : Record}

private theorem opened (target : Path) (now : Stamp) (name : String) :
    Faithful target now name
      { model := name, status := .inProgress, file := some target, startedAt := some now } :=
  ⟨rfl, by simp, rfl, rfl, by simp, by simp [Record.errorText]⟩

theorem reported (h : r.Faithful target now name) (received : UInt64) (total : Option UInt64) :
    { r with received, total }.Faithful target now name :=
  ⟨h.model, h.status, h.startedAt, h.file, h.finishedAt, h.errorText⟩

theorem finish (h : r.Faithful target now name) (hstatus : r.status = .inProgress) (later : Stamp)
    (outcome : Except Failure Unit) : (r.finish later outcome).Faithful target now name := by
  cases outcome with
  | ok =>
    have hquiet : ¬ r.errorText ≠ "" := mt h.errorText.mp (by simp [hstatus])
    exact ⟨h.model, by simp, h.startedAt, h.file, by simp [Record.finish],
      iff_of_false hquiet (by simp [Record.finish])⟩
  | error failure =>
    exact ⟨h.model, by simp, h.startedAt, h.file, by simp [Record.finish],
      iff_of_true failure.message_ne rfl⟩

theorem born (t : Table) (disk : Disk) (now : Stamp) (d : Descriptor) :
    (t.birth disk now d).1.Faithful (t.target d) now d.name := by
  have hopened := opened (t.target d) now d.name
  rcases t.birth_record disk now d with hbirth | ⟨outcome, hbirth⟩
  · rwa [hbirth]
  · rw [hbirth]
    exact hopened.finish rfl now outcome

end Record.Faithful

/-- Every record that is there after a run is faithful to the first request for its name. -/
theorem World.faithful_run {start : World} (hstart : start.table.Sound)
    (hrecords : ∀ name : String, start.table.records[name]? = none) (moves : List Move) :
    ∀ (name : String) r, (start.run moves).1.table.records[name]? = some r →
      ∃ w now d later, FirstRequest start moves w now d later ∧ d.name = name ∧
        r.Faithful (w.table.target d) now name := by
  intro name r hr
  obtain ⟨w, now, d, later, hfirst, rfl, hfaithful⟩ := made_run hstart hrecords
    (Q := fun w now d r => r.Faithful (w.table.target d) now d.name)
    (fun w now d => .born w.table w.disk now d)
    (fun _ _ _ _ received total hfaithful => hfaithful.reported received total)
    (fun _ _ _ _ _ hfaithful hstatus _ _ outcome _ later => hfaithful.finish hstatus later outcome)
    moves name r hr
  exact ⟨w, now, d, later, hfirst, rfl, hfaithful⟩

/-- At every moment of every run, each record shows what was asked for first under its name and what
the fetch for the name has reported last, and it has an end and an error exactly if its status says
so. A name without a record was not asked for, and nothing is said of it. -/
theorem snapshots (modelsDirectory : Path) (client : String) (disk : Disk) (moves : List Move) :
    let start := World.start modelsDirectory client disk
    let table := (start.run moves).1.table
    ∀ name : String,
      (∀ r, table.records[name]? = some r →
        table.record name = r ∧ (r.received, r.total) = (start.progress name {} moves).amounts ∧
          ∃ w now d later, FirstRequest start moves w now d later ∧ d.name = name ∧
            r.Faithful (start.table.target d) now name) ∧
        (table.records[name]? = none →
          (∀ m ∈ moves, ∀ d, m.asked? = some d → d.name ≠ name) ∧
            (table.record name).errorText = "" ∧
            table.record name =
              { model := name, status := .notStarted, failure := none, file := none, received := 0,
                total := none, startedAt := none, finishedAt := none }) := by
  intro start table name
  have hsound : start.table.Sound := .start modelsDirectory client
  have hrecords : ∀ name : String, start.table.records[name]? = none := by
    simp [start, World.start, Table.start]
  constructor
  · intro r hr
    have hshows : start.table.Shows name {} := ⟨rfl, fun _ => rfl, by simp [hrecords]⟩
    obtain ⟨w, now, d, later, hfirst, hname, hfaithful⟩ :=
      World.faithful_run hsound hrecords moves name r hr
    rw [hfirst.world_eq.2] at hfaithful
    refine ⟨by simp [Table.record, hr], ?_, w, now, d, later, hfirst, hname, hfaithful⟩
    exact (World.shows_run hsound (Table.handled_start _ _) name hshows moves).amounts r hr
  · intro hnone
    have hrecord : table.record name = .notStarted name := by simp [Table.record, hnone]
    refine ⟨?_, by rw [hrecord]; rfl, hrecord⟩
    rintro m hm d hd rfl
    obtain ⟨r, hr⟩ := World.exists_record_of_asked hsound moves m hm d hd
    rw [hnone] at hr
    cases hr

example :
    let d : Descriptor := { name := "m", source := some { url := "http://h/m" } }
    let fetching := [.request 3 d, .advance 4 "m", .advance 4 "m", .advance 4 "m"]
    let moves := fetching ++
      [.report "m" 5 (some 9), .report "m" 7 none, .abandon, .report "m" 9 none]
    ((World.start ⟨"models"⟩ "1.0" .empty).run moves).1.table.record "m" =
      { model := "m", status := .inProgress, file := some ⟨"models/m.gguf"⟩, received := 7,
        startedAt := some 3 } := by
  decide +kernel

end ModelHost.Download
