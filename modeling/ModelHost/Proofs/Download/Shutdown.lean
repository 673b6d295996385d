import ModelHost.Proofs.Download.Account

/-!
Letting go of all jobs. Every job that runs has left its handle, so once the handles are taken no
job runs. From then on the records that are there stay as they are and nothing more is done for
their names, while whatever is asked for other names goes on as in a new table on the same disk.
-/

namespace ModelHost.Download

/-- A move, or what the transfer for a name writes. -/
inductive Act where
  | move (m : Move)
  | write (name : String) (disk : Disk)

namespace Act

def job? : Act → Option String
  | move m => m.job?
  | write name _ => some name

def asked? : Act → Option Descriptor
  | move m => m.asked?
  | write _ _ => none

def avoids (records : Std.TreeMap String Record) (a : Act) : Bool :=
  a.asked?.all fun d => !records.contains d.name

private theorem avoids_iff {records : Std.TreeMap String Record} {a : Act} :
    a.avoids records = true ↔ ∀ d, a.asked? = some d → records[d.name]? = none := by
  simp [avoids, Option.all_eq_true, ← Bool.not_eq_true]

end Act

namespace World

/-- A transfer writes only while it runs. -/
def act (w : World) : Act → World × List Notice
  | .move m => w.move m
  | .write name disk =>
    match w.table.transfer? name with
    | none => (w, [])
    | some _ => ({ w with disk }, [])

def play (w : World) : List Act → World × List Notice
  | [] => (w, [])
  | a :: acts =>
    let (w, first) := w.act a
    let (w, rest) := w.play acts
    (w, first ++ rest)

private theorem play_cons (w : World) (a : Act) (acts : List Act) :
    w.play (a :: acts) =
      (((w.act a).1.play acts).1, (w.act a).2 ++ ((w.act a).1.play acts).2) := rfl

private theorem exists_move_of_act (w : World) (a : Act) : ∃ m, w.act a = w.move m := by
  cases a with
  | move m => exact ⟨m, rfl⟩
  | write name disk =>
    rw [act]
    split
    next => exact ⟨.query name, rfl⟩
    next => exact ⟨.disturb disk, rfl⟩

theorem exists_run_of_play (w : World) (acts : List Act) : ∃ moves, w.play acts = w.run moves := by
  induction acts generalizing w with
  | nil => exact ⟨[], rfl⟩
  | cons a acts ih =>
    obtain ⟨m, hm⟩ := w.exists_move_of_act a
    obtain ⟨moves, hmoves⟩ := ih (w.act a).1
    refine ⟨m :: moves, ?_⟩
    rw [play_cons, run_cons, hmoves, hm]

end World

/-! Handles. -/

namespace Table

variable (t : Table)

@[simp] private theorem handles_updateRecord (name : String) (f : Record → Record) :
    (t.updateRecord name f).handles = t.handles := by
  unfold updateRecord
  split <;> rfl

@[simp] private theorem handles_advance (disk : Disk) (now : Stamp) (name : String) :
    (t.advance disk now name).1.handles = t.handles := by
  unfold advance
  split
  next => rfl
  next =>
    dsimp only
    split
    next => exact t.handles_updateRecord name _
    next => rfl

@[simp] private theorem handles_report (name : String) (received : UInt64) (total : Option UInt64) :
    (t.report name received total).handles = t.handles := by
  unfold report
  split
  next => rfl
  next => exact t.handles_updateRecord name _

@[simp] private theorem handles_transferEnded (name : String) (result : Except Cause Unit) :
    (t.transferEnded name result).handles = t.handles := by
  unfold transferEnded
  split <;> rfl

def Handled (t : Table) : Prop := ∀ job ∈ t.jobs, job.model ∈ t.handles

variable {t}

theorem handled_start (modelsDirectory : Path) (client : String) :
    (start modelsDirectory client).Handled :=
  List.forall_mem_nil _

theorem Handled.request (h : t.Handled) (disk : Disk) (now : Stamp) (d : Descriptor) :
    (t.request disk now d).2.Handled := by
  cases hrecord : t.records[d.name]? with
  | some record => rwa [request_of_record hrecord]
  | none =>
    rw [request_of_none hrecord]
    cases hbirth : (t.birth disk now d).2 with
    | none => simpa [Handled] using h
    | some job =>
      intro other hother
      rw [Option.elim_some, Std.TreeSet.mem_insert]
      rcases List.mem_append.mp hother with hold | hnew
      · exact .inr (h other hold)
      · obtain rfl := List.mem_singleton.mp hnew
        exact .inl Std.ReflCmp.compare_self

/-- Taking every handle lets go of every job. -/
theorem Handled.abandon_eq (h : t.Handled) : t.abandon = { t with jobs := [], handles := ∅ } := by
  have hjobs : t.jobs.filter (fun job => !t.handles.contains job.model) = [] := by
    rw [List.filter_eq_nil_iff]
    intro job hjob
    simpa using h job hjob
  rw [abandon, hjobs]

end Table

namespace World

variable {w : World} {m : Move} {a : Act} {job : Job}

private theorem job_of_move (h : job ∈ (w.move m).1.table.jobs) :
    (∃ old ∈ w.table.jobs, old.model = job.model) ∨
      ∃ d, m.asked? = some d ∧ w.table.records[d.name]? = none ∧ job.model = d.name := by
  cases became h with
  | kept hjob => exact .inl ⟨job, hjob, rfl⟩
  | @born now d job hrecord hbirth =>
    obtain ⟨-, -, hborn⟩ := w.table.birth_job hbirth
    exact .inr ⟨d, rfl, hrecord, by rw [hborn]⟩
  | @advanced now name old hold houtcome =>
    obtain ⟨phase, disk', hnext, -⟩ := old.advance_spec w.disk
    exact .inl ⟨old, (Table.job?_mem hold).1, by rw [hnext, Job.model_next]⟩
  | @continued name result old hold =>
    refine .inl ⟨old, (Table.job?_mem (Table.transfer?_eq_some _ hold).1).1, ?_⟩
    cases result <;> rfl

theorem handles_move (hm : m.asked? = none) (hstay : m ≠ .abandon) :
    (w.move m).1.table.handles = w.table.handles := by
  cases m with
  | query | disturb => rfl
  | request now d => nomatch hm
  | abandon => exact absurd rfl hstay
  | advance now name => exact w.table.handles_advance w.disk now name
  | report name received total => exact w.table.handles_report name received total
  | transferEnded name result => exact w.table.handles_transferEnded name result

theorem handled_move (h : w.table.Handled) (m : Move) : (w.move m).1.table.Handled := by
  cases m with
  | request now d => exact h.request w.disk now d
  | abandon =>
    simp only [move, h.abandon_eq]
    exact List.forall_mem_nil _
  | query | disturb | advance | report | transferEnded =>
    intro job hjob
    obtain ⟨old, hold, hmodel⟩ := (job_of_move hjob).resolve_right (by simp [Move.asked?])
    rw [handles_move rfl (by simp), ← hmodel]
    exact h old hold

theorem handled_run (h : w.table.Handled) (moves : List Move) :
    (w.run moves).1.table.Handled := by
  induction moves generalizing w with
  | nil => exact h
  | cons m moves ih => exact ih (handled_move h m)

theorem handled_play (h : w.table.Handled) (acts : List Act) :
    (w.play acts).1.table.Handled := by
  obtain ⟨moves, hmoves⟩ := w.exists_run_of_play acts
  rw [hmoves]
  exact handled_run h moves

theorem settings_play (w : World) (acts : List Act) :
    (w.play acts).1.table.client = w.table.client ∧
      (w.play acts).1.table.modelsDirectory = w.table.modelsDirectory := by
  obtain ⟨moves, hmoves⟩ := w.exists_run_of_play acts
  rw [hmoves]
  exact settings_run w moves

private theorem table_abandon (h : w.table.Handled) :
    (w.act (.move .abandon)).1.table = { w.table with jobs := [], handles := ∅ } :=
  h.abandon_eq

/-! Names without a job. -/

private theorem act_of_idle {name : String} (ha : a.job? = some name)
    (hidle : w.table.job? name = none) :
    w.act a = (w, []) := by
  have htransfer : w.table.transfer? name = none := by rw [Table.transfer?, hidle]; rfl
  cases a with
  | write name' disk =>
    obtain rfl := Option.some.inj ha
    simp only [act, htransfer]
  | move m =>
    cases m with
    | request | query | abandon | disturb => cases ha
    | advance now name' =>
      obtain rfl := Option.some.inj ha
      simp [act, move, w.table.advance_of_none hidle, advanced, hidle]
    | report name' received total =>
      obtain rfl := Option.some.inj ha
      simp only [act, move, Table.report, htransfer]
    | transferEnded name' result =>
      obtain rfl := Option.some.inj ha
      simp only [act, move, Table.transferEnded, htransfer]

private theorem act_of_record {d : Descriptor} {record : Record} (ha : a.asked? = some d)
    (h : w.table.records[d.name]? = some record) : w.act a = (w, []) := by
  cases a with
  | write => nomatch ha
  | move m =>
    cases m with
    | query | advance | report | transferEnded | abandon | disturb => nomatch ha
    | request now d =>
      obtain rfl := Option.some.inj ha
      simp [act, move, Table.request_of_record h]

/-- Says that records which were there once are there unchanged and that no job runs for them. -/
structure Frozen (records : Std.TreeMap String Record) (w : World) : Prop where
  kept : ∀ {name : String} {record : Record}, records[name]? = some record →
    w.table.records[name]? = some record
  idle : ∀ {name : String} {record : Record}, records[name]? = some record →
    w.table.job? name = none

/-- What stands and has no job is changed by nothing. -/
private theorem records_act_of_idle {name : String} {record : Record}
    (hrecord : w.table.records[name]? = some record) (hidle : w.table.job? name = none) (a : Act) :
    (w.act a).1.table.records[name]? = some record := by
  cases hjob : a.job? with
  | some other =>
    by_cases hname : name = other
    · subst hname
      rw [act_of_idle hjob hidle, hrecord]
    · cases a with
      | move m => exact (w.records_move hjob hname).trans hrecord
      | write other disk =>
        rw [act]
        split <;> exact hrecord
  | none =>
    cases a with
    | write => nomatch hjob
    | move m =>
      cases m with
      | advance | report | transferEnded => nomatch hjob
      | query | abandon | disturb => exact hrecord
      | request now d =>
        simp only [act, move]
        rw [Table.records_request, hrecord]
        split <;> rfl

private theorem idle_act {name : String} {record : Record}
    (hrecord : w.table.records[name]? = some record) (hidle : w.table.job? name = none) (a : Act) :
    (w.act a).1.table.job? name = none := by
  rw [Table.job?_eq_none_iff] at hidle ⊢
  obtain ⟨m, hm⟩ := w.exists_move_of_act a
  rw [hm]
  intro job hjob hname
  rcases job_of_move hjob with ⟨old, hold, hmodel⟩ | ⟨d, -, hnone, hmodel⟩
  · exact hidle old hold (hmodel.trans hname)
  · rw [← hmodel, hname, hrecord] at hnone
    nomatch hnone

variable {records : Std.TreeMap String Record}

theorem Frozen.act (h : w.Frozen records) (a : Act) : (w.act a).1.Frozen records where
  kept hrecord := records_act_of_idle (h.kept hrecord) (h.idle hrecord) a
  idle hrecord := idle_act (h.kept hrecord) (h.idle hrecord) a

theorem Frozen.play (h : w.Frozen records) (acts : List Act) :
    (w.play acts).1.Frozen records := by
  induction acts generalizing w with
  | nil => exact h
  | cons a acts ih => exact ih (h.act a)

theorem Frozen.of_handled (h : w.table.Handled) :
    (w.act (.move .abandon)).1.Frozen w.table.records where
  kept hrecord := hrecord
  idle _ := by
    rw [table_abandon h]
    rfl

private theorem act_abandon_of_idle (hjobs : w.table.jobs = []) (hhandles : w.table.handles = ∅) :
    w.act (.move .abandon) = (w, []) := by
  obtain ⟨⟨directory, client, records, jobs, handles⟩, disk⟩ := w
  obtain rfl : jobs = [] := hjobs
  obtain rfl : handles = ∅ := hhandles
  rfl

private theorem table_act_of_idle (hjobs : w.table.jobs = []) (hhandles : w.table.handles = ∅)
    (ha : ∀ d, a.asked? = some d → ∃ record, w.table.records[d.name]? = some record) :
    (w.act a).1.table = w.table := by
  cases hjob : a.job? with
  | some name =>
    have hidle : w.table.job? name = none := by rw [Table.job?, hjobs]; rfl
    rw [act_of_idle hjob hidle]
  | none =>
    cases a with
    | write => cases hjob
    | move m =>
      cases m with
      | advance | report | transferEnded => cases hjob
      | query | disturb => rfl
      | abandon => rw [act_abandon_of_idle hjobs hhandles]
      | request now d =>
        obtain ⟨record, hrecord⟩ := ha d rfl
        rw [act_of_record rfl hrecord]

private theorem table_play_of_idle (hjobs : w.table.jobs = []) (hhandles : w.table.handles = ∅)
    {acts : List Act} (hacts : ∀ a ∈ acts, ∀ d, a.asked? = some d →
      ∃ record, w.table.records[d.name]? = some record) :
    (w.play acts).1.table = w.table := by
  induction acts generalizing w with
  | nil => rfl
  | cons a acts ih =>
    have htable := table_act_of_idle hjobs hhandles (hacts a List.mem_cons_self)
    rw [play_cons]
    refine (ih ?_ ?_ ?_).trans htable
    · rw [htable, hjobs]
    · rw [htable, hhandles]
    · rw [htable]
      exact fun a' ha' => hacts a' (List.mem_cons_of_mem a ha')

end World

/-! Tables that differ in the records of some names. -/

/-- Says that two tables are the same but for the records of names outside a set. -/
structure Table.Alike (names : String → Prop) (t t' : Table) : Prop where
  modelsDirectory : t.modelsDirectory = t'.modelsDirectory
  client : t.client = t'.client
  jobs : t.jobs = t'.jobs
  handles : t.handles = t'.handles
  records : ∀ {name : String}, names name → t.records[name]? = t'.records[name]?

namespace Table.Alike

variable {names : String → Prop} {t t' : Table}

theorem job? (h : t.Alike names t') (name : String) : t.job? name = t'.job? name := by
  rw [Table.job?, Table.job?, h.jobs]

theorem transfer? (h : t.Alike names t') (name : String) :
    t.transfer? name = t'.transfer? name := by
  rw [Table.transfer?, Table.transfer?, h.job?]

theorem birth (h : t.Alike names t') (disk : Disk) (now : Stamp) (d : Descriptor) :
    t.birth disk now d = t'.birth disk now d := by
  unfold Table.birth Table.target
  rw [h.modelsDirectory, h.client]

theorem request (h : t.Alike names t') (disk : Disk) (now : Stamp) {d : Descriptor}
    (hd : names d.name) : (t.request disk now d).2.Alike names (t'.request disk now d).2 := by
  have hrecord := h.records hd
  cases hnone : t.records[d.name]? with
  | some record => rwa [request_of_record hnone, request_of_record (hrecord ▸ hnone)]
  | none =>
    rw [request_of_none hnone, request_of_none (hrecord ▸ hnone), h.birth]
    refine ⟨h.modelsDirectory, h.client, ?_, ?_, ?_⟩
    · rw [h.jobs]
    · rw [h.handles]
    · intro name hname
      simp only [Std.TreeMap.getElem?_insert, h.records hname]

theorem updateRecord (h : t.Alike names t') (name : String) (f : Record → Record) :
    (t.updateRecord name f).Alike names (t'.updateRecord name f) where
  modelsDirectory := by simpa using h.modelsDirectory
  client := by simpa using h.client
  jobs := by simpa using h.jobs
  handles := by simpa using h.handles
  records hname := by
    rw [records_updateRecord, records_updateRecord, h.records hname]

theorem conclude (h : t.Alike names t') (now : Stamp) (name : String)
    (outcome : Except Failure Unit) :
    (t.conclude now name outcome).Alike names (t'.conclude now name outcome) := by
  have hupdate := h.updateRecord name (·.finish now outcome)
  refine ⟨hupdate.modelsDirectory, hupdate.client, ?_, hupdate.handles, hupdate.records⟩
  rw [Table.conclude, Table.conclude, h.jobs]

theorem replaceJob (h : t.Alike names t') (job : Job) :
    (t.replaceJob job).Alike names (t'.replaceJob job) := by
  refine ⟨h.modelsDirectory, h.client, ?_, h.handles, h.records⟩
  rw [Table.replaceJob, Table.replaceJob, h.jobs]

theorem advance (h : t.Alike names t') (disk : Disk) (now : Stamp) (name : String) :
    (t.advance disk now name).1.Alike names (t'.advance disk now name).1 ∧
      (t.advance disk now name).2 = (t'.advance disk now name).2 := by
  cases hjob : t.job? name with
  | none =>
    rw [t.advance_of_none hjob, t'.advance_of_none (h.job? name ▸ hjob)]
    exact ⟨h, rfl⟩
  | some job =>
    have hjob' : t'.job? name = some job := h.job? name ▸ hjob
    simp only [Table.advance, hjob, hjob']
    split
    next => exact ⟨h.conclude now name _, rfl⟩
    next => exact ⟨h.replaceJob _, rfl⟩

theorem report (h : t.Alike names t') (name : String) (received : UInt64)
    (total : Option UInt64) :
    (t.report name received total).Alike names (t'.report name received total) := by
  rw [Table.report, Table.report, h.transfer?]
  split
  next => exact h
  next => exact h.updateRecord name _

theorem transferEnded (h : t.Alike names t') (name : String) (result : Except Cause Unit) :
    (t.transferEnded name result).Alike names (t'.transferEnded name result) := by
  rw [Table.transferEnded, Table.transferEnded, h.transfer?]
  split
  next => exact h
  next => exact h.replaceJob _

theorem abandon (h : t.Alike names t') : t.abandon.Alike names t'.abandon := by
  refine ⟨h.modelsDirectory, h.client, ?_, rfl, h.records⟩
  rw [Table.abandon, Table.abandon, h.jobs, h.handles]

end Table.Alike

namespace World

variable {names : String → Prop} {w v : World}

private theorem move_advance (w : World) (now : Stamp) (name : String) :
    w.move (.advance now name) =
      (⟨(w.table.advance w.disk now name).1, (w.table.advance w.disk now name).2.1⟩,
        advanced w.table (w.table.advance w.disk now name).1 name
          (w.table.advance w.disk now name).2.2) := rfl

/-- What is asked of both worlds for names of the set, and all else, they do alike. -/
theorem alike_act (hdisk : w.disk = v.disk) (h : w.table.Alike names v.table) {a : Act}
    (ha : ∀ d, a.asked? = some d → names d.name) :
    (w.act a).1.disk = (v.act a).1.disk ∧ (w.act a).1.table.Alike names (v.act a).1.table ∧
      (w.act a).2 = (v.act a).2 := by
  cases a with
  | write name disk =>
    rw [act, act, h.transfer?]
    split
    next => exact ⟨hdisk, h, rfl⟩
    next => exact ⟨rfl, h, rfl⟩
  | move m =>
    simp only [act]
    cases m with
    | query name => exact ⟨hdisk, h, rfl⟩
    | disturb disk => exact ⟨rfl, h, rfl⟩
    | abandon => exact ⟨hdisk, h.abandon, rfl⟩
    | report name received total => exact ⟨hdisk, h.report name received total, rfl⟩
    | transferEnded name result => exact ⟨hdisk, h.transferEnded name result, rfl⟩
    | request now d =>
      have hrequest := h.request v.disk now (ha d rfl)
      rw [← hdisk] at hrequest
      refine ⟨hdisk, by rwa [move, move, ← hdisk], ?_⟩
      rw [move, move, ← hdisk, hrequest.jobs, h.jobs]
    | advance now name =>
      obtain ⟨hadvance, hrest⟩ := h.advance w.disk now name
      rw [move_advance, move_advance, ← hdisk]
      refine ⟨congrArg Prod.fst hrest, hadvance, ?_⟩
      simp only [advanced, h.job?, hadvance.job?, hrest]

variable {records : Std.TreeMap String Record}

/-- A world that stands still for some names goes on for all others as one that was never asked for
them. -/
theorem Frozen.play_alike (hfrozen : w.Frozen records) (hdisk : w.disk = v.disk)
    (h : w.table.Alike (fun name => records[name]? = none) v.table) (acts : List Act) :
    (w.play acts).1.disk = (v.play (acts.filter (·.avoids records))).1.disk ∧
      (w.play acts).1.table.Alike (fun name => records[name]? = none)
        (v.play (acts.filter (·.avoids records))).1.table ∧
      (w.play acts).2 = (v.play (acts.filter (·.avoids records))).2 := by
  induction acts generalizing w v with
  | nil => exact ⟨hdisk, h, rfl⟩
  | cons a acts ih =>
    by_cases ha : a.avoids records = true
    · obtain ⟨hdisk', halike, hnotices⟩ := alike_act hdisk h (Act.avoids_iff.mp ha)
      obtain ⟨hlast, hlastAlike, hrest⟩ := ih (hfrozen.act a) hdisk' halike
      rw [List.filter_cons_of_pos ha, play_cons, play_cons, hnotices, hrest]
      exact ⟨hlast, hlastAlike, rfl⟩
    · have hsame : w.act a = (w, []) := by
        cases hasked : a.asked? with
        | none => exact absurd (Act.avoids_iff.mpr (by simp [hasked])) ha
        | some d =>
          cases hrecord : records[d.name]? with
          | none =>
            refine absurd (Act.avoids_iff.mpr fun d' hd' => ?_) ha
            rw [hasked] at hd'
            rw [← Option.some.inj hd', hrecord]
          | some record => exact act_of_record hasked (hfrozen.kept hrecord)
      rw [List.filter_cons_of_neg ha, play_cons, hsame]
      exact ih hfrozen hdisk h

private theorem alike_start (h : w.table.Handled) :
    (w.act (.move .abandon)).1.table.Alike (fun name => w.table.records[name]? = none)
      (Table.start w.table.modelsDirectory w.table.client) := by
  rw [table_abandon h]
  refine ⟨rfl, rfl, rfl, rfl, ?_⟩
  intro name hname
  rw [hname]
  simp [Table.start]

private theorem exists_record_of_started {start : World} (hstart : start.table.Sound)
    (acts : List Act) {job : Job} (h : job ∈ starts (start.play acts).2) :
    ∃ record, (start.play acts).1.table.records[job.model]? = some record := by
  obtain ⟨moves, hmoves⟩ := start.exists_run_of_play acts
  rw [hmoves] at h ⊢
  obtain ⟨w, now, d, later, ⟨past, rfl, -, -⟩, hname⟩ := asked_run hstart moves job h
  rw [← hname]
  exact exists_record_of_asked hstart _ (.request now d) (by simp) d rfl

end World

/-- Letting go of all jobs changes no record and nothing on the disk, at any point of any run. From
then on, whatever happens, the records that were there stay as they are, no job for their names does
anything, and a request for one gets the record and starts nothing. Names that had no record are
served as in a new table on the same disk that is asked for them alone. To let go of all jobs again
has no effect before a new name is asked for. -/
theorem abandon_freezes (modelsDirectory : Path) (client : String) (disk : Disk)
    (past later : List Act) :
    let history := (World.start modelsDirectory client disk).play past
    let before := history.1
    let shut := (before.act (.move .abandon)).1
    let after := (shut.play later).1
    let others := (World.start modelsDirectory client before.disk).play
      (later.filter (·.avoids before.table.records))
    (shut.disk = before.disk ∧ shut.table.records = before.table.records) ∧
      (∀ job ∈ starts history.2, ∃ record, before.table.records[job.model]? = some record) ∧
      (∀ name record, before.table.records[name]? = some record →
        after.table.records[name]? = some record ∧
          (∀ a : Act, a.job? = some name → after.act a = (after, [])) ∧
          ∀ now d, d.name = name →
            after.table.request after.disk now d = (record, after.table) ∧
              after.act (.move (.request now d)) = (after, [])) ∧
      (after.disk = others.1.disk ∧ after.table.jobs = others.1.table.jobs ∧
        (shut.play later).2 = others.2 ∧
        ∀ name : String, before.table.records[name]? = none →
          after.table.records[name]? = others.1.table.records[name]?) ∧
      ((∀ a ∈ later, ∀ d, a.asked? = some d →
          ∃ record, before.table.records[d.name]? = some record) →
        after.act (.move .abandon) = (after, [])) := by
  intro history before shut after others
  have hhandled : before.table.Handled :=
    World.handled_play (Table.handled_start modelsDirectory client) past
  have hshut := World.table_abandon hhandled
  have hfrozen : shut.Frozen before.table.records := .of_handled hhandled
  have hlater : after.Frozen before.table.records := hfrozen.play later
  refine ⟨⟨rfl, rfl⟩, ?_, ?_, ?_, ?_⟩
  · intro job hjob
    exact World.exists_record_of_started (.start modelsDirectory client) past hjob
  · intro name record hrecord
    refine ⟨hlater.kept hrecord, fun a ha => World.act_of_idle ha (hlater.idle hrecord), ?_⟩
    rintro now d rfl
    exact ⟨Table.request_of_record (hlater.kept hrecord),
      World.act_of_record rfl (hlater.kept hrecord)⟩
  · have hnew : shut.table.Alike (fun name => before.table.records[name]? = none)
        (World.start modelsDirectory client before.disk).table := by
      obtain ⟨hclient, hdirectory⟩ :=
        (World.start modelsDirectory client disk).settings_play past
      have hnew := World.alike_start hhandled
      rwa [hclient, hdirectory] at hnew
    have hdisk : shut.disk = (World.start modelsDirectory client before.disk).disk := rfl
    obtain ⟨hdisk, halike, hnotices⟩ := hfrozen.play_alike hdisk hnew later
    exact ⟨hdisk, halike.jobs, hnotices, fun name hname => halike.records hname⟩
  · intro hasked
    have hidle : after.table = shut.table := by
      apply World.table_play_of_idle (by rw [hshut]) (by rw [hshut])
      intro a ha d hd
      obtain ⟨record, hrecord⟩ := hasked a ha d hd
      exact ⟨record, hfrozen.kept hrecord⟩
    apply World.act_abandon_of_idle
    · rw [hidle, hshut]
    · rw [hidle, hshut]

end ModelHost.Download
