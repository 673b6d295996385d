import ModelHost.Proofs.Download.Account

/-!
What a record keeps of the request that made it. The file it names is the target of the descriptor
it was made for, and it says that there is no source exactly where it was born saying so: for a
descriptor without a source whose weights were not there.
-/

namespace ModelHost.Download

structure Phase.Sourced (phase : Phase) : Prop where
  discard : phase ≠ .discardPart .noSource
  failed : phase ≠ .failed .noSource

theorem Job.Advance.sourced {j : Job} {disk disk' : Disk} {phase : Phase}
    (h : j.Advance disk phase disk') (hj : j.phase.Sourced) : phase.Sourced := by
  cases h with
  | ended => exact hj
  | discarded hphase =>
    have hdiscard := hj.discard
    rw [hphase] at hdiscard
    exact ⟨nofun, fun hsame => hdiscard (by rw [Phase.failed.inj hsame])⟩
  | unverifiable | confirmed | rejected | refused | accepted | parentless | unprepared | prepared
  | begun | waiting | unverifiedPart | confirmedPart | rejectedPart | uninstalled | installed =>
    exact ⟨nofun, nofun⟩

theorem Job.sourced_advance {j : Job} (h : j.phase.Sourced) (disk : Disk) :
    (j.advance disk).1.phase.Sourced := by
  obtain ⟨phase, disk', hnext, hadvance⟩ := j.advance_spec disk
  rw [hnext]
  exact hadvance.sourced h

theorem Job.sourced_transferEnded (j : Job) (result : Except Cause Unit) :
    (j.transferEnded result).phase.Sourced := by
  cases result <;> exact ⟨nofun, nofun⟩

private theorem Job.outcome_ne {j : Job} (h : j.phase.Sourced) :
    j.outcome? ≠ some (.error .noSource) := by
  intro houtcome
  unfold outcome? at houtcome
  split at houtcome
  next => simp at houtcome
  next hphase =>
    cases houtcome
    exact h.failed hphase
  next => nomatch houtcome

theorem World.sourced_run {start : World} (hjobs : start.table.jobs = []) (moves : List Move) :
    ∀ job ∈ (start.run moves).1.table.jobs, job.phase.Sourced := by
  apply run_induction (P := fun _ w _ => ∀ job ∈ w.table.jobs, job.phase.Sourced)
  · simp [hjobs]
  · intro moves m ih job hjob
    cases became hjob with
    | kept hjob => exact ih job hjob
    | born _ hbirth =>
      rcases Table.birth_phase _ hbirth with hphase | hphase <;> rw [hphase] <;>
        exact ⟨nofun, nofun⟩
    | advanced hold => exact Job.sourced_advance (ih _ (Table.job?_mem hold).1) _
    | continued hold => exact Job.sourced_transferEnded _ _

def Table.Filed (t : Table) : Prop :=
  ∀ (name : String) record, t.records[name]? = some record → record.file.isSome = true

structure Record.MadeFor (w : World) (d : Descriptor) (record : Record) : Prop where
  file : record.file = some (w.table.target d)
  sourceless : record.failure = some .noSource →
    d.source = none ∧ w.disk.has (w.table.target d) = false

theorem Table.failure_birth_iff {t : Table} {disk : Disk} {now : Stamp} {d : Descriptor} :
    (t.birth disk now d).1.failure = some .noSource ↔
      d.source = none ∧ disk.has (t.target d) = false := by
  unfold birth
  dsimp only
  split
  next hthere =>
    have hpresent : disk.has (t.target d) = true := (Bool.and_eq_true_iff.mp hthere).1
    simp [Record.finish, hpresent]
  next hmissing =>
    cases hsource : d.source with
    | none => simpa [Record.finish, Descriptor.expectedDigest, hsource] using hmissing
    | some source => simp

theorem Record.MadeFor.finish {w : World} {d : Descriptor} {record : Record}
    (h : record.MadeFor w d) (now : Stamp) {outcome : Except Failure Unit}
    (houtcome : outcome ≠ .error .noSource) : (record.finish now outcome).MadeFor w d := by
  cases outcome with
  | ok => exact ⟨h.file, h.sourceless⟩
  | error failure =>
    refine ⟨h.file, ?_⟩
    intro hfailure
    exact absurd (congrArg Except.error (Option.some.inj hfailure)) houtcome

/-- What holds of a record when it is born, and still when something is reported or its job ends,
holds of every record that is there after a run, with the first request for its name. -/
theorem World.made_run {start : World} (hstart : start.table.Sound)
    (hrecords : ∀ name : String, start.table.records[name]? = none)
    {Q : World → Stamp → Descriptor → Record → Prop}
    (hborn : ∀ w now d, Q w now d (w.table.birth w.disk now d).1)
    (hreported : ∀ w now d record received total, Q w now d record →
      Q w now d { record with received, total })
    (hended : ∀ moves w now d record, Q w now d record → record.status = .inProgress →
      ∀ job ∈ (start.run moves).1.table.jobs, ∀ outcome,
        (job.advance (start.run moves).1.disk).1.outcome? = some outcome →
          ∀ later, Q w now d (record.finish later outcome))
    (moves : List Move) :
    ∀ (name : String) record, (start.run moves).1.table.records[name]? = some record →
      ∃ w now d later, FirstRequest start moves w now d later ∧ d.name = name ∧
        Q w now d record := by
  apply run_induction (P := fun moves w' _ => ∀ (name : String) record,
    w'.table.records[name]? = some record → ∃ w now d later,
      FirstRequest start moves w now d later ∧ d.name = name ∧ Q w now d record)
  · intro name record hrecord
    rw [hrecords name] at hrecord
    nomatch hrecord
  · intro moves m ih name record hrecord
    cases recorded hrecord with
    | kept hold =>
      obtain ⟨w, now, d, later, hfirst, hname, hmade⟩ := ih name record hold
      exact ⟨w, now, d, later ++ [m], hfirst.snoc m, hname, hmade⟩
    | @born now d hnone =>
      exact ⟨_, now, d, [], .of_record_none hstart hnone, rfl, hborn ..⟩
    | reported hold =>
      obtain ⟨w, now, d, later, hfirst, hname, hmade⟩ := ih name _ hold
      exact ⟨w, now, d, later ++ [_], hfirst.snoc _, hname, hreported _ _ _ _ _ _ hmade⟩
    | @ended _ _ job _ old hjob houtcome hold =>
      obtain ⟨w, now, d, later, hfirst, hname, hmade⟩ := ih name _ hold
      obtain ⟨hmem, hmodel⟩ := Table.job?_mem hjob
      obtain ⟨busy, hbusy, hstatus⟩ := (hstart.run moves).1.busy hmem
      obtain rfl : old = busy := Option.some.inj (hold.symm.trans (hmodel ▸ hbusy))
      exact ⟨w, now, d, later ++ [_], hfirst.snoc _, hname,
        hended moves w now d old hmade hstatus job hmem _ houtcome _⟩

theorem World.exists_birth {start : World} (hstart : start.table.Sound)
    (hjobs : start.table.jobs = []) (hrecords : ∀ name : String, start.table.records[name]? = none)
    (moves : List Move) :
    ∀ (name : String) record, (start.run moves).1.table.records[name]? = some record →
      ∃ w now d later, FirstRequest start moves w now d later ∧ d.name = name ∧
        record.MadeFor w d := by
  refine made_run hstart hrecords (Q := fun w _ d record => record.MadeFor w d)
    (fun _ _ _ => ⟨Table.file_birth .., Table.failure_birth_iff.mp⟩)
    (fun _ _ _ _ _ _ hmade => ⟨hmade.file, hmade.sourceless⟩) ?_ moves
  intro moves w now d record hmade _ job hjob outcome houtcome later
  have hsourced := sourced_run hjobs moves job hjob
  have hother := Job.outcome_ne (Job.sourced_advance hsourced (start.run moves).1.disk)
  rw [houtcome] at hother
  exact hmade.finish later (mt (congrArg some) hother)

end ModelHost.Download
