import ModelHost.Proofs.Download.Job
import ModelHost.Proofs.Download.World

/-!
Records only go forward. In every run a record that is there stays there; it changes only while its
download is in progress, and nothing about it changes once it is finished. The reason is that a job
runs only for a record in progress, and that nothing but the job for its name changes a record.
-/

namespace ModelHost.Download

inductive Record.Onward : Option Record → Option Record → Prop where
  | absent : Onward none none
  | born {r : Record} (hstatus : r.status ≠ .notStarted) : Onward none (some r)
  | moved {r r' : Record} (hstatus : r.status = .inProgress) (hstatus' : r'.status ≠ .notStarted) :
    Onward (some r) (some r')
  | finished {r : Record} (hstatus : r.status.isTerminal = true) : Onward (some r) (some r)

namespace Record.Onward

theorem refl {r : Option Record} (h : ∀ record, r = some record → record.status ≠ .notStarted) :
    Onward r r := by
  cases r with
  | none => exact .absent
  | some record =>
    have hne := h record rfl
    cases hstatus : record.status with
    | notStarted => exact absurd hstatus hne
    | inProgress => exact .moved hstatus hne
    | completed | failed => exact .finished (by simp [hstatus, Status.isTerminal])

theorem trans {r r' r'' : Option Record} (h : Onward r r') (h' : Onward r' r'') : Onward r r'' := by
  cases h with
  | absent => exact h'
  | born hstatus =>
    cases h' with
    | moved _ hstatus' => exact .born hstatus'
    | finished => exact .born hstatus
  | moved hstatus hstatus' =>
    cases h' with
    | moved _ hstatus'' => exact .moved hstatus hstatus''
    | finished => exact .moved hstatus hstatus'
  | finished hstatus =>
    cases h' with
    | moved hstatus' => simp [hstatus', Status.isTerminal] at hstatus
    | finished => exact .finished hstatus

end Record.Onward

structure Table.Sound (t : Table) : Prop where
  started : ∀ {name : String} {r : Record}, t.records[name]? = some r → r.status ≠ .notStarted
  busy : ∀ {job : Job}, job ∈ t.jobs → ∃ r, t.records[job.model]? = some r ∧ r.status = .inProgress

def Table.Follows (t t' : Table) : Prop :=
  t'.Sound ∧ ∀ name : String, Record.Onward t.records[name]? t'.records[name]?

theorem Table.Follows.record_of_terminal {t t' : Table} (h : t.Follows t') {name : String}
    {r : Record} (hrecord : t.records[name]? = some r) (hterminal : r.status.isTerminal = true) :
    t'.records[name]? = some r := by
  have honward := h.2 name
  rw [hrecord] at honward
  generalize t'.records[name]? = after at honward
  cases honward with
  | moved hstatus => simp [hstatus, Status.isTerminal] at hterminal
  | finished => rfl

namespace Table.Sound

variable {t : Table}

private theorem follows_self (h : t.Sound) : t.Follows t := ⟨h, fun _ => .refl fun _ => h.started⟩

theorem start (modelsDirectory : Path) (client : String) :
    (Table.start modelsDirectory client).Sound where
  started h := by simp [Table.start] at h
  busy h := by simp [Table.start] at h

theorem request (h : t.Sound) (disk : Disk) (now : Stamp) (d : Descriptor) :
    t.Follows (t.request disk now d).2 := by
  cases hrecord : t.records[d.name]? with
  | some record =>
    rw [Table.request_of_record hrecord]
    exact h.follows_self
  | none =>
    have hborn := t.birth_status_ne disk now d
    have hrecords := t.records_request disk now d
    refine ⟨⟨?_, ?_⟩, ?_⟩
    · intro name r hr
      rw [hrecords] at hr
      split at hr
      next hname =>
        subst hname
        rw [hrecord] at hr
        obtain rfl := Option.some.inj hr
        exact hborn
      next => exact h.started hr
    · intro job hjob
      rw [Table.request_of_none hrecord] at hjob
      rcases List.mem_append.mp hjob with hold | hnew
      · obtain ⟨r, hr, hstatus⟩ := h.busy hold
        have hother : d.name ≠ job.model := by
          intro hname
          rw [hname, hr] at hrecord
          nomatch hrecord
        exact ⟨r, by rw [hrecords, if_neg hother, hr], hstatus⟩
      · rcases t.birth_cases disk now d with ⟨record, outcome, hbirth⟩ | ⟨source, -, -, hbirth⟩
        · simp [hbirth] at hnew
        · simp only [hbirth, Option.toList_some, List.mem_singleton] at hnew
          subst hnew
          exact ⟨(t.birth disk now d).1, by rw [hrecords, if_pos rfl, hrecord]; rfl, by rw [hbirth]⟩
    · intro name
      rw [hrecords]
      split
      next hname =>
        subst hname
        rw [hrecord]
        exact .born hborn
      next => exact .refl fun _ => h.started

theorem request_status_ne (h : t.Sound) (disk : Disk) (now : Stamp) (d : Descriptor) :
    (t.request disk now d).1.status ≠ .notStarted := by
  cases hrecord : t.records[d.name]? with
  | some record =>
    rw [Table.request_of_record hrecord]
    exact h.started hrecord
  | none =>
    rw [Table.request_of_none hrecord]
    exact t.birth_status_ne disk now d

private theorem onward_updateRecord (h : t.Sound) {job : Job} (hjob : job ∈ t.jobs)
    {f : Record → Record}
    (hf : ∀ r, r.status = .inProgress → (f r).status ≠ .notStarted) (name : String) :
    Record.Onward t.records[name]? (t.updateRecord job.model f).records[name]? := by
  rw [Table.records_updateRecord]
  split
  next hname =>
    subst hname
    obtain ⟨r, hr, hstatus⟩ := h.busy hjob
    rw [hr]
    exact .moved hstatus (hf r hstatus)
  next => exact .refl fun _ => h.started

theorem conclude (h : t.Sound) {job : Job} (hjob : job ∈ t.jobs) (now : Stamp)
    (outcome : Except Failure Unit) : t.Follows (t.conclude now job.model outcome) := by
  have honward := h.onward_updateRecord hjob (f := (·.finish now outcome))
    (fun r _ => r.finish_status_ne now outcome)
  refine ⟨⟨?_, ?_⟩, honward⟩
  · intro name r hr
    rw [Table.records_conclude] at hr
    split at hr
    next =>
      obtain ⟨old, -, rfl⟩ := Option.map_eq_some_iff.mp hr
      exact old.finish_status_ne now outcome
    next => exact h.started hr
  · intro other hother
    obtain ⟨hmem, hmodel⟩ := (t.mem_jobs_conclude).mp hother
    obtain ⟨r, hr, hstatus⟩ := h.busy hmem
    exact ⟨r, by rw [Table.records_conclude, if_neg (Ne.symm hmodel), hr], hstatus⟩

theorem replaceJob (h : t.Sound) {job : Job} (hjob : job ∈ t.jobs) {next : Job}
    (hmodel : next.model = job.model) : t.Follows (t.replaceJob next) := by
  refine ⟨⟨h.started, ?_⟩, h.follows_self.2⟩
  intro other hother
  rcases Table.mem_jobs_replaceJob t hother with rfl | ⟨hmem, -⟩
  · rw [hmodel]
    exact h.busy hjob
  · exact h.busy hmem

theorem advance (h : t.Sound) (disk : Disk) (now : Stamp) (name : String) :
    t.Follows (t.advance disk now name).1 := by
  cases hjob : t.job? name with
  | none =>
    rw [t.advance_of_none hjob]
    exact h.follows_self
  | some job =>
    obtain ⟨hmem, rfl⟩ := Table.job?_mem hjob
    obtain ⟨phase, disk', hnext, -⟩ := job.advance_spec disk
    rcases t.advance_cases hjob disk now with ⟨outcome, -, hadvance⟩ | ⟨-, hadvance⟩
    · rw [hadvance]
      exact h.conclude hmem now outcome
    · rw [hadvance]
      exact h.replaceJob hmem (by rw [hnext]; rfl)

theorem report (h : t.Sound) (name : String) (received : UInt64) (total : Option UInt64) :
    t.Follows (t.report name received total) := by
  unfold Table.report
  split
  next => exact h.follows_self
  next job hjob =>
    obtain ⟨hmem, rfl⟩ := Table.job?_mem (t.transfer?_eq_some hjob).1
    have honward := h.onward_updateRecord hmem (f := fun record => { record with received, total })
      (fun r hr => by simp [hr])
    refine ⟨⟨?_, ?_⟩, honward⟩
    · intro name r hr
      rw [Table.records_updateRecord] at hr
      split at hr
      next =>
        obtain ⟨old, hold, rfl⟩ := Option.map_eq_some_iff.mp hr
        have hstatus := h.started hold
        exact hstatus
      next => exact h.started hr
    · intro other hother
      rw [Table.jobs_updateRecord] at hother
      obtain ⟨r, hr, hstatus⟩ := h.busy hother
      rw [Table.records_updateRecord]
      split
      next => exact ⟨{ r with received, total }, by rw [hr]; rfl, hstatus⟩
      next => exact ⟨r, hr, hstatus⟩

theorem transferEnded (h : t.Sound) (name : String) (result : Except Cause Unit) :
    t.Follows (t.transferEnded name result) := by
  unfold Table.transferEnded
  split
  next => exact h.follows_self
  next job hjob =>
    obtain ⟨hmem, rfl⟩ := Table.job?_mem (t.transfer?_eq_some hjob).1
    exact h.replaceJob hmem (by cases result <;> rfl)

theorem abandon (h : t.Sound) : t.Follows t.abandon :=
  ⟨⟨h.started, fun hjob => h.busy (List.mem_filter.mp hjob).1⟩, h.follows_self.2⟩

theorem move {w : World} (h : w.table.Sound) (m : Move) :
    w.table.Follows (w.move m).1.table := by
  cases m with
  | request now d => exact h.request w.disk now d
  | query name => exact h.follows_self
  | advance now name => exact h.advance w.disk now name
  | report name received total => exact h.report name received total
  | transferEnded name result => exact h.transferEnded name result
  | abandon => exact h.abandon
  | disturb disk => exact h.follows_self

theorem run {w : World} (h : w.table.Sound) (moves : List Move) :
    w.table.Follows (w.run moves).1.table := by
  induction moves generalizing w with
  | nil => exact h.follows_self
  | cons m moves ih =>
    obtain ⟨hsound, hmove⟩ := h.move m
    obtain ⟨hlast, hrest⟩ := ih hsound
    exact ⟨hlast, fun name => (hmove name).trans (hrest name)⟩

end Table.Sound

/-- A move of one job leaves the records of all other names as they are. -/
theorem World.records_move (w : World) {m : Move} {name other : String} (h : m.job? = some name)
    (hother : other ≠ name) :
    (w.move m).1.table.records[other]? = w.table.records[other]? := by
  cases m with
  | request | query | abandon | disturb => simp [Move.job?] at h
  | advance now name =>
    obtain rfl := Option.some.inj h
    simp only [World.move]
    cases hjob : w.table.job? name with
    | none => rw [w.table.advance_of_none hjob]
    | some job =>
      rcases w.table.advance_cases hjob w.disk now with ⟨outcome, -, hadvance⟩ | ⟨-, hadvance⟩
      · rw [hadvance, Table.records_conclude, if_neg (Ne.symm hother)]
      · rw [hadvance, Table.records_replaceJob]
  | report name received total =>
    obtain rfl := Option.some.inj h
    simp only [World.move, Table.report]
    split
    next => rfl
    next => rw [Table.records_updateRecord, if_neg (Ne.symm hother)]
  | transferEnded name result =>
    obtain rfl := Option.some.inj h
    simp only [World.move, Table.transferEnded]
    split <;> rfl

namespace World

inductive Recorded (w : World) : Move → String → Record → Prop where
  | kept {m : Move} {name : String} {r : Record} (hrecord : w.table.records[name]? = some r) :
    Recorded w m name r
  | born {now : Stamp} {d : Descriptor} (hnone : w.table.records[d.name]? = none) :
    Recorded w (.request now d) d.name (w.table.birth w.disk now d).1
  | reported {name : String} {received : UInt64} {total : Option UInt64} {r : Record}
      (hrecord : w.table.records[name]? = some r) :
    Recorded w (.report name received total) name { r with received, total }
  | ended {now : Stamp} {name : String} {job : Job} {outcome : Except Failure Unit} {r : Record}
      (hjob : w.table.job? name = some job)
      (houtcome : (job.advance w.disk).1.outcome? = some outcome)
      (hrecord : w.table.records[name]? = some r) :
    Recorded w (.advance now name) name (r.finish now outcome)

theorem recorded {w : World} {m : Move} {name : String} {r : Record}
    (h : (w.move m).1.table.records[name]? = some r) : w.Recorded m name r := by
  cases m with
  | query | abandon | disturb => exact .kept h
  | transferEnded other result =>
    simp only [move, Table.transferEnded] at h
    split at h <;> exact .kept h
  | request now d =>
    simp only [move] at h
    rw [Table.records_request] at h
    split at h
    next hname =>
      subst hname
      cases hold : w.table.records[d.name]? with
      | none =>
        rw [hold] at h
        obtain rfl := Option.some.inj h
        exact .born hold
      | some old =>
        rw [hold] at h
        exact .kept (hold.trans h)
    next => exact .kept h
  | advance now other =>
    simp only [move] at h
    cases hjob : w.table.job? other with
    | none =>
      rw [w.table.advance_of_none hjob] at h
      exact .kept h
    | some job =>
      rcases w.table.advance_cases hjob w.disk now with
        ⟨outcome, houtcome, hadvance⟩ | ⟨-, hadvance⟩
      · rw [hadvance, Table.records_conclude] at h
        split at h
        next hname =>
          subst hname
          obtain ⟨old, hold, rfl⟩ := Option.map_eq_some_iff.mp h
          exact .ended hjob houtcome hold
        next => exact .kept h
      · rw [hadvance, Table.records_replaceJob] at h
        exact .kept h
  | report other received total =>
    simp only [move, Table.report] at h
    split at h
    next => exact .kept h
    next =>
      rw [Table.records_updateRecord] at h
      split at h
      next hname =>
        subst hname
        obtain ⟨old, hold, rfl⟩ := Option.map_eq_some_iff.mp h
        exact .reported hold
      next => exact .kept h

end World

/-- Between any two moments of any run the records go only onward; in between, a request for a name
that has a record gives this record and changes nothing, and the job for one name leaves the
records of all others alone. -/
theorem records_onward (modelsDirectory : Path) (client : String) (disk : Disk)
    (moves more : List Move) :
    let w := ((World.start modelsDirectory client disk).run moves).1
    (∀ name : String,
        Record.Onward w.table.records[name]? (w.run more).1.table.records[name]?) ∧
      (∀ now d record, w.table.records[d.name]? = some record →
        (w.table.request w.disk now d).1 = record ∧ w.move (.request now d) = (w, [])) ∧
      ∀ m name, m.job? = some name → ∀ other ≠ name,
        (w.move m).1.table.records[other]? = w.table.records[other]? := by
  intro w
  have hsound : w.table.Sound := ((Table.Sound.start modelsDirectory client).run moves).1
  refine ⟨(hsound.run more).2, ?_, fun m name hm other hother => w.records_move hm hother⟩
  intro now d record hrecord
  simp [World.move, Table.request_of_record hrecord]

end ModelHost.Download
