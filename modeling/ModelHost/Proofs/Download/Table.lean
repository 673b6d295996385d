import ModelHost.Download.Table

/-!
The table of downloads through its two views, the record of each name and the jobs that run: what
every operation does to them. A request for a name that has a record does nothing; any other one
makes the record, and it makes a job exactly when the record is in progress.
-/

namespace ModelHost.Download

namespace Record

@[simp] theorem finish_status_ne (r : Record) (now : Stamp) (outcome : Except Failure Unit) :
    (r.finish now outcome).status ≠ .notStarted := by
  cases outcome <;> simp [finish]

@[simp] theorem isTerminal_finish (r : Record) (now : Stamp) (outcome : Except Failure Unit) :
    (r.finish now outcome).status.isTerminal = true := by
  cases outcome <;> rfl

end Record

namespace Table

variable (t : Table)

section Update

variable (name other : String) (f : Record → Record)

theorem records_updateRecord : (t.updateRecord name f).records[other]? =
    if name = other then t.records[other]?.map f else t.records[other]? := by
  unfold updateRecord
  by_cases hname : name = other
  · subst hname
    split
    next hnone => simp [hnone]
    next record hsome => simp [hsome]
  · split
    next => simp [hname]
    next record hsome => simp [hname, Std.TreeMap.getElem?_insert]

@[simp] theorem jobs_updateRecord : (t.updateRecord name f).jobs = t.jobs := by
  unfold updateRecord
  split <;> rfl

@[simp] theorem client_updateRecord : (t.updateRecord name f).client = t.client := by
  unfold updateRecord
  split <;> rfl

@[simp] theorem modelsDirectory_updateRecord :
    (t.updateRecord name f).modelsDirectory = t.modelsDirectory := by
  unfold updateRecord
  split <;> rfl

end Update

theorem mem_jobs_replaceJob {job j : Job} (h : j ∈ (t.replaceJob job).jobs) :
    j = job ∨ j ∈ t.jobs ∧ j.model ≠ job.model := by
  obtain ⟨old, hold, rfl⟩ := List.mem_map.mp h
  by_cases hmodel : old.model = job.model
  · exact .inl (if_pos hmodel)
  · rw [if_neg hmodel]
    exact .inr ⟨hold, hmodel⟩

theorem exists_mem_jobs_replaceJob {old : Job} (h : old ∈ t.jobs) (job : Job) :
    ∃ j ∈ (t.replaceJob job).jobs, j.model = old.model := by
  by_cases hmodel : old.model = job.model
  · exact ⟨job, List.mem_map.mpr ⟨old, h, if_pos hmodel⟩, hmodel.symm⟩
  · exact ⟨old, List.mem_map.mpr ⟨old, h, if_neg hmodel⟩, rfl⟩

@[simp] theorem records_replaceJob (job : Job) : (t.replaceJob job).records = t.records := rfl

theorem job?_mem {t : Table} {name : String} {job : Job} (h : t.job? name = some job) :
    job ∈ t.jobs ∧ job.model = name :=
  ⟨List.mem_of_find?_eq_some h, by simpa using List.find?_some h⟩

theorem job?_eq_none_iff {t : Table} {name : String} :
    t.job? name = none ↔ ∀ job ∈ t.jobs, job.model ≠ name := by
  simp [job?]

theorem job?_replaceJob (job : Job) (name : String) : (t.replaceJob job).job? name =
    if job.model = name then (t.job? name).map fun _ => job else t.job? name := by
  -- A job keeps its name when it is replaced, so the first one for a name stays the first one.
  have hfound : ∀ j : Job, decide ((if j.model = job.model then job else j).model = name) =
      decide (j.model = name) := by
    intro j
    split
    next hmodel => rw [hmodel]
    next => rfl
  have hfirst : (t.replaceJob job).job? name =
      (t.job? name).map fun j => if j.model = job.model then job else j := by
    simp only [job?, replaceJob, List.find?_map, Function.comp_def, hfound]
  rw [hfirst]
  cases hjob : t.job? name with
  | none => simp
  | some old =>
    have hmodel := (job?_mem hjob).2
    by_cases hname : job.model = name
    · simp [hname, hmodel]
    · simp [hname, hmodel, Ne.symm hname]

theorem birth_cases (disk : Disk) (now : Stamp) (d : Descriptor) :
    (∃ record : Record, ∃ outcome,
        t.birth disk now d = (record.finish now outcome, none)) ∨
      ∃ source, d.source = some source ∧
        (disk.has (t.target d) = true → d.expectedDigest.isSome = true) ∧
        t.birth disk now d =
          ({ model := d.name, status := .inProgress, file := some (t.target d),
             startedAt := some now },
            some
              { model := d.name, source, target := t.target d, client := t.client,
                oldestClient := d.oldestClient, newestClient := d.newestClient,
                phase := if disk.has (t.target d) then .verifyTarget else .checkVersion }) := by
  unfold birth
  by_cases hthere : disk.has (t.target d) && d.expectedDigest.isNone
  · left
    rw [if_pos hthere]
    exact ⟨_, _, rfl⟩
  · rw [if_neg hthere]
    cases hsource : d.source with
    | none => exact .inl ⟨_, _, rfl⟩
    | some source =>
      refine .inr ⟨source, rfl, ?_, rfl⟩
      intro hhas
      simpa [hhas, Option.isSome_iff_ne_none] using hthere

theorem birth_status_ne (disk : Disk) (now : Stamp) (d : Descriptor) :
    (t.birth disk now d).1.status ≠ .notStarted := by
  rcases t.birth_cases disk now d with ⟨record, outcome, hbirth⟩ | ⟨source, -, -, hbirth⟩
  · rw [hbirth]
    exact record.finish_status_ne now outcome
  · rw [hbirth]
    simp

theorem birth_job {disk : Disk} {now : Stamp} {d : Descriptor} {job : Job}
    (h : (t.birth disk now d).2 = some job) :
    d.source = some job.source ∧
      (disk.has (t.target d) = true → d.expectedDigest.isSome = true) ∧
      job =
        { model := d.name, source := job.source, target := t.target d, client := t.client,
          oldestClient := d.oldestClient, newestClient := d.newestClient,
          phase := if disk.has (t.target d) then .verifyTarget else .checkVersion } := by
  rcases t.birth_cases disk now d with
    ⟨record, outcome, hbirth⟩ | ⟨source, hsource, hdigest, hbirth⟩
  · simp [hbirth] at h
  · simp only [hbirth, Option.some.injEq] at h
    subst h
    exact ⟨hsource, hdigest, rfl⟩

theorem birth_phase {disk : Disk} {now : Stamp} {d : Descriptor} {job : Job}
    (h : (t.birth disk now d).2 = some job) :
    job.phase = .verifyTarget ∨ job.phase = .checkVersion := by
  obtain ⟨-, -, hborn⟩ := t.birth_job h
  rw [hborn]
  dsimp only
  split <;> simp

theorem birth_record (disk : Disk) (now : Stamp) (d : Descriptor) :
    let opened : Record :=
      { model := d.name, status := .inProgress, file := some (t.target d), startedAt := some now }
    (t.birth disk now d).1 = opened ∨
      ∃ outcome, (t.birth disk now d).1 = opened.finish now outcome := by
  unfold birth
  dsimp only
  split
  next => exact .inr ⟨.ok (), rfl⟩
  next =>
    split
    next => exact .inr ⟨.error .noSource, rfl⟩
    next => exact .inl rfl

theorem file_birth (disk : Disk) (now : Stamp) (d : Descriptor) :
    (t.birth disk now d).1.file = some (t.target d) := by
  rcases t.birth_record disk now d with hbirth | ⟨outcome, hbirth⟩
  · rw [hbirth]
  · rw [hbirth]
    cases outcome <;> rfl

theorem amounts_birth (disk : Disk) (now : Stamp) (d : Descriptor) :
    (t.birth disk now d).1.received = 0 ∧ (t.birth disk now d).1.total = none := by
  rcases t.birth_record disk now d with hbirth | ⟨outcome, hbirth⟩
  · rw [hbirth]
    exact ⟨rfl, rfl⟩
  · rw [hbirth]
    cases outcome <;> exact ⟨rfl, rfl⟩

theorem length_birth_job (disk : Disk) (now : Stamp) (d : Descriptor) :
    (t.birth disk now d).2.toList.length =
      if (t.birth disk now d).1.status = .inProgress then 1 else 0 := by
  rcases t.birth_cases disk now d with ⟨record, outcome, hbirth⟩ | ⟨source, -, -, hbirth⟩
  · have hterminal := record.isTerminal_finish now outcome
    have hstatus : (record.finish now outcome).status ≠ .inProgress := by
      intro hsame
      simp [hsame, Status.isTerminal] at hterminal
    rw [hbirth, if_neg hstatus]
    rfl
  · rw [hbirth]
    rfl

section Request

variable {t} {disk : Disk} {now : Stamp} {d : Descriptor}

theorem request_of_record {record : Record} (h : t.records[d.name]? = some record) :
    t.request disk now d = (record, t) := by
  unfold request
  rw [h]

theorem request_of_none (h : t.records[d.name]? = none) :
    t.request disk now d =
      ((t.birth disk now d).1,
        { t with
          records := t.records.insert d.name (t.birth disk now d).1
          jobs := t.jobs ++ (t.birth disk now d).2.toList
          handles := (t.birth disk now d).2.elim t.handles fun job =>
            t.handles.insert job.model }) := by
  unfold request
  rw [h]

theorem records_request (t : Table) (disk : Disk) (now : Stamp) (d : Descriptor) (name : String) :
    (t.request disk now d).2.records[name]? =
      if d.name = name then some ((t.records[name]?).getD (t.birth disk now d).1)
      else t.records[name]? := by
  cases hrecord : t.records[d.name]? with
  | none =>
    rw [request_of_none hrecord]
    by_cases hname : d.name = name
    · subst hname
      simp [hrecord]
    · simp [hname, Std.TreeMap.getElem?_insert]
  | some record =>
    rw [request_of_record hrecord]
    by_cases hname : d.name = name
    · subst hname
      simp [hrecord]
    · simp [hname]

theorem records_request_self (t : Table) (disk : Disk) (now : Stamp) (d : Descriptor) :
    (t.request disk now d).2.records[d.name]? = some (t.request disk now d).1 := by
  cases hrecord : t.records[d.name]? with
  | none => simp [request_of_none hrecord]
  | some record => rw [request_of_record hrecord, hrecord]

end Request

theorem records_conclude (now : Stamp) (name other : String) (outcome : Except Failure Unit) :
    (t.conclude now name outcome).records[other]? =
      if name = other then t.records[other]?.map (·.finish now outcome) else t.records[other]? :=
  t.records_updateRecord name other _

theorem mem_jobs_conclude {now : Stamp} {name : String} {outcome : Except Failure Unit} {j : Job} :
    j ∈ (t.conclude now name outcome).jobs ↔ j ∈ t.jobs ∧ j.model ≠ name := by
  simp [conclude]

theorem job?_conclude (now : Stamp) (name other : String) (outcome : Except Failure Unit) :
    (t.conclude now name outcome).job? other = if name = other then none else t.job? other := by
  split
  next hname =>
    rw [job?_eq_none_iff, hname]
    exact fun job hjob => ((t.mem_jobs_conclude).mp hjob).2
  next hname =>
    have hfound : ∀ j : Job, (j.model ≠ name ∧ j.model = other) ↔ j.model = other :=
      fun j => and_iff_right_of_imp fun hmodel hsame => hname (hsame.symm.trans hmodel)
    simp only [job?, conclude, List.find?_filter, decide_eq_true_eq, hfound]

theorem advance_cases {name : String} {job : Job} (h : t.job? name = some job) (disk : Disk)
    (now : Stamp) :
    let request := if job.phase = .beginTransfer then some job.fetch else none
    (∃ outcome, (job.advance disk).1.outcome? = some outcome ∧
        t.advance disk now name = (t.conclude now name outcome, (job.advance disk).2, request)) ∨
      (job.advance disk).1.outcome? = none ∧
        t.advance disk now name =
          (t.replaceJob (job.advance disk).1, (job.advance disk).2, request) := by
  simp only [advance, h]
  cases houtcome : (job.advance disk).1.outcome? with
  | none => simp
  | some outcome => simp

theorem advance_of_none {name : String} (h : t.job? name = none) (disk : Disk) (now : Stamp) :
    t.advance disk now name = (t, disk, none) := by
  simp only [advance, h]

theorem transfer?_request (t : Table) (disk : Disk) (now : Stamp) (d : Descriptor)
    (name : String) : (t.request disk now d).2.transfer? name = t.transfer? name := by
  cases hrecord : t.records[d.name]? with
  | some record => rw [request_of_record hrecord]
  | none =>
    rw [request_of_none hrecord]
    unfold transfer? job?
    rw [List.find?_append]
    cases t.jobs.find? (fun j => decide (j.model = name)) with
    | some job => rfl
    | none =>
      cases hnew : (t.birth disk now d).2.toList.find? (fun j => decide (j.model = name)) with
      | none => rfl
      | some job =>
        have hbirth := Option.mem_toList.mp (List.mem_of_find?_eq_some hnew)
        rcases t.birth_phase hbirth with hphase | hphase <;> simp [hphase]

theorem transfer?_eq_some {name : String} {job : Job} (h : t.transfer? name = some job) :
    t.job? name = some job ∧ job.phase = .transferring := by
  simpa [transfer?, Option.filter_eq_some_iff] using h

end Table

end ModelHost.Download
