import ModelHost.Proofs.Download.Origins

/-!
The account of a run: what it started and fetched for each name, on what grounds, and how its
downloads ended.
-/

namespace ModelHost.Download

/-- What a fetch rests on: a source, the want of weights at the target, and a client that is
accepted, all for the descriptor of the first request. -/
structure Warrant (start w : World) (now : Stamp) (d : Descriptor) (later : List Move)
    (fetch : Fetch) : Prop where
  source : ∃ source, d.source = some source ∧
    fetch = ⟨d.name, source.url, partFile (start.table.target d)⟩
  looked : w.disk.has (start.table.target d) = false ∨ ∃ expected,
    d.expectedDigest = some expected ∧
      (w.move (.request now d)).1.RejectsIn later d.name (start.table.target d) expected
  accepted : ClientVersion.check start.table.client d.oldestClient d.newestClient = .ok ()

def Table.Running (t : Table) : Prop := ∀ name record, t.records[name]? = some record →
  record.status.isTerminal = true ∨ ∃ job ∈ t.jobs, job.model = name

structure Account (start : World) (moves : List Move) : Prop where
  once : ((fetches (start.run moves).2).map (·.model)).Nodup
  warranted : ∀ fetch ∈ fetches (start.run moves).2, ∃ w now d later,
    FirstRequest start moves w now d later ∧ Warrant start w now d later fetch
  /-- A record that is born in progress starts one job, any other one none. -/
  started : ∀ {w now d later}, FirstRequest start moves w now d later →
    ((starts (start.run moves).2).filter (·.model = d.name)).length =
      if (w.table.request w.disk now d).1.status = .inProgress then 1 else 0
  asked : ∀ job ∈ starts (start.run moves).2, ∃ w now d later,
    FirstRequest start moves w now d later ∧ d.name = job.model
  ended : ∀ {name}, .ended name ∈ (start.run moves).2 → ∃ record,
    (start.run moves).1.table.records[name]? = some record ∧ record.status.isTerminal = true
  /-- Where no job is let go of, the record of a job that is gone is finished. -/
  running : (∀ m ∈ moves, m ≠ .abandon) → (start.run moves).1.table.Running

theorem Table.target_eq {t t' : Table} (h : t'.modelsDirectory = t.modelsDirectory)
    (d : Descriptor) : t'.target d = t.target d := by
  simp only [target, h]

theorem FirstRequest.world_eq {start w : World} {moves later : List Move} {now : Stamp}
    {d : Descriptor} (h : FirstRequest start moves w now d later) :
    w.table.client = start.table.client ∧ w.table.target d = start.table.target d := by
  obtain ⟨before, -, -, rfl⟩ := h
  obtain ⟨hclient, hdirectory⟩ := start.settings_run before
  exact ⟨hclient, Table.target_eq hdirectory d⟩

theorem FirstRequest.of_record_none {start : World} (hstart : start.table.Sound)
    {moves : List Move} {now : Stamp} {d : Descriptor}
    (h : (start.run moves).1.table.records[d.name]? = none) :
    FirstRequest start (moves ++ [.request now d]) (start.run moves).1 now d [] := by
  refine ⟨moves, rfl, ?_, rfl⟩
  intro m hm e he hname
  obtain ⟨record, hrecord⟩ := World.exists_record_of_asked hstart moves m hm e he
  rw [hname, h] at hrecord
  nomatch hrecord

theorem Origin.warrant {start w : World} {moves later : List Move} {now : Stamp} {d : Descriptor}
    {job : Job} (h : Origin w now d later job) (hfirst : FirstRequest start moves w now d later)
    (hphase : job.phase = .beginTransfer) : Warrant start w now d later job.fetch := by
  obtain ⟨hclient, htarget⟩ := hfirst.world_eq
  refine ⟨⟨job.source, h.source, ?_⟩, ?_, ?_⟩
  · rw [← htarget, ← h.target, ← h.model]
    rfl
  · rw [← htarget, ← h.target]
    rcases h.looked with habsent | ⟨expected, hdigest, hverify | hrejects⟩
    · exact .inl habsent
    · simp [hphase] at hverify
    · exact .inr ⟨expected, by simpa [Descriptor.expectedDigest, h.source] using hdigest, hrejects⟩
  · rw [← hclient, ← h.client, ← h.oldest, ← h.newest]
    exact h.accepted (by rw [hphase]; rfl)

theorem Warrant.snoc {start w : World} {now : Stamp} {d : Descriptor} {later : List Move}
    {fetch : Fetch} (h : Warrant start w now d later fetch) (m : Move) :
    Warrant start w now d (later ++ [m]) fetch where
  source := h.source
  looked := h.looked.imp_right fun ⟨expected, hexpected, hrejects⟩ =>
    ⟨expected, hexpected, hrejects.append [m]⟩
  accepted := h.accepted

namespace World

theorem warranted_run {start : World} (hstart : start.table.Sound)
    (hjobs : start.table.jobs = []) (moves : List Move) :
    ∀ fetch ∈ fetches (start.run moves).2, ∃ w now d later,
      FirstRequest start moves w now d later ∧ Warrant start w now d later fetch := by
  apply run_induction (P := fun moves _ notices => ∀ fetch ∈ fetches notices, ∃ w now d later,
    FirstRequest start moves w now d later ∧ Warrant start w now d later fetch)
  · simp
  · intro moves m ih fetch hfetch
    rw [fetches_append] at hfetch
    rcases List.mem_append.mp hfetch with hold | hnew
    · obtain ⟨w, now, d, later, hfirst, hwarrant⟩ := ih fetch hold
      exact ⟨w, now, d, later ++ [m], hfirst.snoc m, hwarrant.snoc m⟩
    · rcases (start.run moves).1.fetches_move m with
        hnone | ⟨now, name, job, rfl, hjob, hphase, hone⟩
      · simp [hnone] at hnew
      · rw [hone] at hnew
        obtain rfl := List.mem_singleton.mp hnew
        obtain ⟨w, now', d, later, hfirst, horigin⟩ :=
          exists_origin hstart hjobs moves job (Table.job?_mem hjob).1
        exact ⟨w, now', d, later ++ [.advance now name], hfirst.snoc _,
          (horigin.warrant hfirst hphase).snoc _⟩

private theorem starts_move_other {w : World} {m : Move} {name : String}
    (h : (∀ d, m.asked? = some d → d.name ≠ name) ∨
      ∃ record, w.table.records[name]? = some record) :
    (starts (w.move m).2).filter (·.model = name) = [] := by
  rcases w.starts_move m with hnone | ⟨now, d, rfl, hrecord, hbirth⟩
  · rw [hnone]
    rfl
  · rw [hbirth]
    have hname : d.name ≠ name := by
      rcases h with hasked | ⟨record, hsome⟩
      · exact hasked d rfl
      · rintro rfl
        rw [hrecord] at hsome
        nomatch hsome
    cases hjob : (w.table.birth w.disk now d).2 with
    | none => rfl
    | some job =>
      obtain ⟨-, -, hborn⟩ := w.table.birth_job hjob
      have hmodel : job.model = d.name := by rw [hborn]
      simp [hmodel, hname]

private theorem starts_run_other {w : World} (hsound : w.table.Sound) {moves : List Move}
    {name : String} (h : (∀ m ∈ moves, ∀ d, m.asked? = some d → d.name ≠ name) ∨
      ∃ record, w.table.records[name]? = some record) :
    (starts (w.run moves).2).filter (·.model = name) = [] := by
  induction moves generalizing w with
  | nil => rfl
  | cons m moves ih =>
    have hfollows := hsound.move m
    have hmove : (starts (w.move m).2).filter (·.model = name) = [] :=
      starts_move_other (h.imp_left fun hall => hall m (by simp))
    have hrest := ih hfollows.1 <| h.imp
      (fun hall m' hm' => hall m' (List.mem_cons_of_mem m hm')) hfollows.exists_record
    rw [run_cons, starts_append, List.filter_append, hmove, hrest]
    rfl

theorem starts_run {start : World} (hstart : start.table.Sound)
    (hrecords : ∀ name : String, start.table.records[name]? = none) {moves later : List Move}
    {w : World} {now : Stamp} {d : Descriptor} (h : FirstRequest start moves w now d later) :
    (starts (start.run moves).2).filter (·.model = d.name) =
        (w.table.birth w.disk now d).2.toList ∧
      w.table.records[d.name]? = none := by
  obtain ⟨before, rfl, hfirst, rfl⟩ := h
  have hnone := records_run_none (hrecords d.name) hfirst
  have hfollows := (hstart.run before).1.move (.request now d)
  have hborn : ((start.run before).1.move (.request now d)).1.table.records[d.name]? =
      some ((start.run before).1.table.birth (start.run before).1.disk now d).1 := by
    simp only [move]
    rw [Table.records_request, if_pos rfl, hnone]
    rfl
  have hmove : starts ((start.run before).1.move (.request now d)).2 =
      ((start.run before).1.table.birth (start.run before).1.disk now d).2.toList := by
    simp [move, Table.request_of_none hnone]
  have hall : ((start.run before).1.table.birth (start.run before).1.disk now d).2.toList.filter
        (·.model = d.name) =
      ((start.run before).1.table.birth (start.run before).1.disk now d).2.toList := by
    apply List.filter_eq_self.mpr
    intro job hjob
    obtain ⟨-, -, hjob⟩ := (start.run before).1.table.birth_job (Option.mem_toList.mp hjob)
    rw [hjob]
    exact decide_eq_true rfl
  refine ⟨?_, hnone⟩
  rw [run_append, run_cons, starts_append, starts_append, List.filter_append, List.filter_append,
    starts_run_other hstart (.inl hfirst), starts_run_other hfollows.1 (.inr ⟨_, hborn⟩), hmove,
    hall]
  simp

theorem asked_run {start : World} (hstart : start.table.Sound) (moves : List Move) :
    ∀ job ∈ starts (start.run moves).2, ∃ w now d later,
      FirstRequest start moves w now d later ∧ d.name = job.model := by
  apply run_induction (P := fun moves _ notices => ∀ job ∈ starts notices, ∃ w now d later,
    FirstRequest start moves w now d later ∧ d.name = job.model)
  · simp
  · intro moves m ih job hjob
    rw [starts_append] at hjob
    rcases List.mem_append.mp hjob with hold | hnew
    · obtain ⟨w, now, d, later, hfirst, hname⟩ := ih job hold
      exact ⟨w, now, d, later ++ [m], hfirst.snoc m, hname⟩
    · rcases (start.run moves).1.starts_move m with hnone | ⟨now, d, rfl, hrecord, hbirth⟩
      · simp [hnone] at hnew
      · rw [hbirth] at hnew
        obtain ⟨-, -, hborn⟩ := (start.run moves).1.table.birth_job (Option.mem_toList.mp hnew)
        exact ⟨_, now, d, [], .of_record_none hstart hrecord, by rw [hborn]⟩

private theorem ended_move {w : World} (hsound : w.table.Sound) {m : Move} {name : String}
    (h : .ended name ∈ (w.move m).2) : ∃ record,
      (w.move m).1.table.records[name]? = some record ∧ record.status.isTerminal = true := by
  cases m with
  | query | report | transferEnded | abandon | disturb => simp [move] at h
  | request now d =>
    obtain ⟨job, -, hjob⟩ := List.mem_map.mp h
    cases hjob
  | advance now other =>
    simp only [move, advanced] at h ⊢
    rcases List.mem_append.mp h with hfetched | hended
    · obtain ⟨fetch, -, hfetch⟩ := List.mem_map.mp hfetched
      cases hfetch
    · split at hended
      next hgone =>
        obtain ⟨hthere, hgone⟩ := Bool.and_eq_true_iff.mp hgone
        obtain ⟨job, hjob⟩ := Option.isSome_iff_exists.mp hthere
        obtain rfl := Notice.ended.inj (List.mem_singleton.mp hended)
        obtain ⟨hmem, hname⟩ := Table.job?_mem hjob
        obtain ⟨record, hrecord, -⟩ := hsound.busy hmem
        rcases w.table.advance_cases hjob w.disk now with ⟨outcome, -, hadvance⟩ | ⟨-, hadvance⟩
        · rw [hadvance, Table.records_conclude, if_pos rfl, ← hname, hrecord]
          exact ⟨_, rfl, record.isTerminal_finish now outcome⟩
        · rw [hadvance] at hgone
          obtain ⟨other, hother, hmodel⟩ := w.table.exists_mem_jobs_replaceJob hmem
            (job.advance w.disk).1
          have hnone := Table.job?_eq_none_iff.mp (Option.isNone_iff_eq_none.mp hgone) other hother
          exact absurd (hmodel.trans hname) hnone
      next => cases hended

theorem ended_run {start : World} (hstart : start.table.Sound) (moves : List Move) :
    ∀ name, .ended name ∈ (start.run moves).2 → ∃ record,
      (start.run moves).1.table.records[name]? = some record ∧
        record.status.isTerminal = true := by
  apply run_induction (P := fun _ w notices => ∀ name, .ended name ∈ notices → ∃ record,
    w.table.records[name]? = some record ∧ record.status.isTerminal = true)
  · simp
  · intro moves m ih name hended
    have hsound := (hstart.run moves).1
    rcases List.mem_append.mp hended with hold | hnew
    · obtain ⟨record, hrecord, hterminal⟩ := ih name hold
      exact ⟨record, (hsound.move m).record_of_terminal hrecord hterminal, hterminal⟩
    · exact ended_move hsound hnew

end World

namespace Table.Running

variable {t : Table}

theorem request (h : t.Running) (disk : Disk) (now : Stamp) (d : Descriptor) :
    (t.request disk now d).2.Running := by
  cases hrecord : t.records[d.name]? with
  | some record => rwa [Table.request_of_record hrecord]
  | none =>
    intro name record hafter
    rw [Table.records_request] at hafter
    simp only [Table.request_of_none hrecord, List.mem_append, Option.mem_toList]
    split at hafter
    next hname =>
      subst hname
      rw [hrecord] at hafter
      obtain rfl := Option.some.inj hafter
      rcases t.birth_cases disk now d with ⟨record, outcome, hbirth⟩ | ⟨source, -, -, hbirth⟩
      · exact .inl (by rw [hbirth]; exact record.isTerminal_finish now outcome)
      · exact .inr ⟨_, .inr (by rw [hbirth]), rfl⟩
    next =>
      exact (h name record hafter).imp_right fun ⟨job, hjob, hmodel⟩ => ⟨job, .inl hjob, hmodel⟩

theorem replaceJob (h : t.Running) (job : Job) : (t.replaceJob job).Running := by
  intro name record hrecord
  rcases h name record hrecord with hterminal | ⟨old, hold, rfl⟩
  · exact .inl hterminal
  · exact .inr (t.exists_mem_jobs_replaceJob hold job)

theorem conclude (h : t.Running) (now : Stamp) (name : String) (outcome : Except Failure Unit) :
    (t.conclude now name outcome).Running := by
  intro other record hrecord
  rw [Table.records_conclude] at hrecord
  split at hrecord
  next =>
    obtain ⟨old, -, rfl⟩ := Option.map_eq_some_iff.mp hrecord
    exact .inl (old.isTerminal_finish now outcome)
  next hother =>
    rcases h other record hrecord with hterminal | ⟨job, hjob, rfl⟩
    · exact .inl hterminal
    · exact .inr ⟨job, (t.mem_jobs_conclude).mpr ⟨hjob, Ne.symm hother⟩, rfl⟩

theorem report (h : t.Running) (name : String) (received : UInt64) (total : Option UInt64) :
    (t.report name received total).Running := by
  unfold Table.report
  split
  next => exact h
  next =>
    intro other record hrecord
    rw [Table.records_updateRecord] at hrecord
    rw [Table.jobs_updateRecord]
    split at hrecord
    next =>
      obtain ⟨old, hold, rfl⟩ := Option.map_eq_some_iff.mp hrecord
      exact h other old hold
    next => exact h other record hrecord

theorem move {w : World} (h : w.table.Running) {m : Move} (hm : m ≠ .abandon) :
    (w.move m).1.table.Running := by
  cases m with
  | query | disturb => exact h
  | abandon => exact absurd rfl hm
  | request now d => exact h.request w.disk now d
  | report name received total => exact h.report name received total
  | transferEnded name result =>
    simp only [World.move, Table.transferEnded]
    split
    next => exact h
    next => exact h.replaceJob _
  | advance now name =>
    simp only [World.move]
    cases hjob : w.table.job? name with
    | none => rwa [w.table.advance_of_none hjob]
    | some job =>
      rcases w.table.advance_cases hjob w.disk now with ⟨outcome, -, hadvance⟩ | ⟨-, hadvance⟩
      · rw [hadvance]
        exact h.conclude now name outcome
      · rw [hadvance]
        exact h.replaceJob _

theorem run {w : World} (h : w.table.Running) {moves : List Move}
    (hmoves : ∀ m ∈ moves, m ≠ .abandon) : (w.run moves).1.table.Running := by
  induction moves generalizing w with
  | nil => exact h
  | cons m moves ih =>
    exact ih (h.move (hmoves m (by simp))) fun m' hm' => hmoves m' (List.mem_cons_of_mem m hm')

end Table.Running

/-- Every run of downloads that begins with an empty table has a good account. -/
theorem World.account (modelsDirectory : Path) (client : String) (disk : Disk)
    (moves : List Move) : Account (.start modelsDirectory client disk) moves := by
  have hsound : (World.start modelsDirectory client disk).table.Sound :=
    .start modelsDirectory client
  have hrecords : ∀ name : String,
      (World.start modelsDirectory client disk).table.records[name]? = none := by
    simp [World.start, Table.start]
  refine ⟨(spent_run hsound moves).once, warranted_run hsound rfl moves, ?_,
    asked_run hsound moves, fun {name} => ended_run hsound moves name, ?_⟩
  · intro w now d later hfirst
    obtain ⟨hstarts, hnone⟩ := starts_run hsound hrecords hfirst
    rw [hstarts, w.table.length_birth_job, Table.request_of_none hnone]
  · intro hmoves
    refine Table.Running.run ?_ hmoves
    intro name record hrecord
    rw [hrecords] at hrecord
    cases hrecord

end ModelHost.Download
