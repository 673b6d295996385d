import ModelHost.Proofs.Download.Fetches

/-!
Where jobs come from. The record of a name comes from the first request for it, and so does the job
for the name; what the job has checked since then shows in its phase.
-/

namespace ModelHost.Download

/-- Says that the first request for a name in a run is one with the descriptor `d`, that it meets
the world `w`, and that the run goes on from there with `later`. -/
def FirstRequest (start : World) (moves : List Move) (w : World) (now : Stamp) (d : Descriptor)
    (later : List Move) : Prop :=
  ∃ before, moves = before ++ .request now d :: later ∧
    (∀ m ∈ before, ∀ e, m.asked? = some e → e.name ≠ d.name) ∧ w = (start.run before).1

def World.Rejects (w : World) (name : String) (target : Path) (expected : String) : Prop :=
  ∃ job, w.table.job? name = some job ∧ job.phase = .verifyTarget ∧ job.target = target ∧
    verified w.disk target expected = false

def World.RejectsIn (w : World) (moves : List Move) (name : String) (target : Path)
    (expected : String) : Prop :=
  ∃ past now rest, moves = past ++ .advance now name :: rest ∧
    (w.run past).1.Rejects name target expected

namespace FirstRequest

variable {start w : World} {moves later : List Move} {now : Stamp} {d : Descriptor}

theorem snoc (h : FirstRequest start moves w now d later) (m : Move) :
    FirstRequest start (moves ++ [m]) w now d (later ++ [m]) := by
  obtain ⟨before, rfl, hfirst, hw⟩ := h
  exact ⟨before, by simp, hfirst, hw⟩

private theorem run_eq (h : FirstRequest start moves w now d later) :
    (start.run moves).1 = ((w.move (.request now d)).1.run later).1 := by
  obtain ⟨before, rfl, -, rfl⟩ := h
  rw [World.run_append, World.run_cons]

end FirstRequest

namespace World

theorem RejectsIn.append {w : World} {moves : List Move} {name : String} {target : Path}
    {expected : String} (h : w.RejectsIn moves name target expected) (more : List Move) :
    w.RejectsIn (moves ++ more) name target expected := by
  obtain ⟨past, now, rest, rfl, hrejects⟩ := h
  exact ⟨past, now, rest ++ more, by simp, hrejects⟩

theorem exists_record_of_asked {start : World} (hstart : start.table.Sound) (moves : List Move) :
    ∀ m ∈ moves, ∀ d, m.asked? = some d →
      ∃ record, (start.run moves).1.table.records[d.name]? = some record := by
  apply run_induction (P := fun moves w _ => ∀ m ∈ moves, ∀ d : Descriptor, m.asked? = some d →
    ∃ record, w.table.records[d.name]? = some record)
  · simp
  · intro moves m h m' hm' d hd
    rcases List.mem_append.mp hm' with hold | hnew
    · exact ((hstart.run moves).1.move m).exists_record (h m' hold d hd)
    · obtain rfl := List.mem_singleton.mp hnew
      cases m' with
      | query | advance | report | transferEnded | abandon | disturb => simp [Move.asked?] at hd
      | request now e =>
        obtain rfl := Option.some.inj hd
        simp only [move]
        rw [Table.records_request, if_pos rfl]
        exact ⟨_, rfl⟩

private theorem records_move_none {w : World} {m : Move} {name : String}
    (h : w.table.records[name]? = none) (hm : ∀ d, m.asked? = some d → d.name ≠ name) :
    (w.move m).1.table.records[name]? = none := by
  cases m with
  | query | disturb | abandon => exact h
  | request now d =>
    simp only [move]
    rw [Table.records_request, if_neg (hm d rfl), h]
  | advance now other =>
    by_cases hother : name = other
    · subst hother
      simp only [move]
      cases hjob : w.table.job? name with
      | none => rwa [w.table.advance_of_none hjob]
      | some job =>
        rcases w.table.advance_cases hjob w.disk now with ⟨outcome, -, hadvance⟩ | ⟨-, hadvance⟩
        · rw [hadvance, Table.records_conclude, if_pos rfl, h]
          rfl
        · rw [hadvance, Table.records_replaceJob, h]
    · rw [w.records_move (m := .advance now other) rfl hother, h]
  | report other received total =>
    by_cases hother : name = other
    · subst hother
      simp only [move, Table.report]
      split
      next => exact h
      next =>
        rw [Table.records_updateRecord, if_pos rfl, h]
        rfl
    · rw [w.records_move (m := .report other received total) rfl hother, h]
  | transferEnded other result =>
    simp only [move, Table.transferEnded]
    split <;> exact h

theorem records_run_none {w : World} {moves : List Move} {name : String}
    (h : w.table.records[name]? = none)
    (hmoves : ∀ m ∈ moves, ∀ d, m.asked? = some d → d.name ≠ name) :
    (w.run moves).1.table.records[name]? = none := by
  induction moves generalizing w with
  | nil => exact h
  | cons m moves ih =>
    apply ih
    · exact records_move_none h (hmoves m (by simp))
    · exact fun m' hm' => hmoves m' (List.mem_cons_of_mem m hm')

theorem settings_move (w : World) (m : Move) :
    (w.move m).1.table.client = w.table.client ∧
      (w.move m).1.table.modelsDirectory = w.table.modelsDirectory := by
  cases m with
  | query | disturb | abandon => exact ⟨rfl, rfl⟩
  | request now d =>
    simp only [move, Table.request]
    split <;> exact ⟨rfl, rfl⟩
  | advance now name =>
    simp only [move, Table.advance]
    split
    next => exact ⟨rfl, rfl⟩
    next =>
      split <;> simp [Table.conclude, Table.replaceJob]
  | report name received total =>
    simp only [move, Table.report]
    split <;> simp
  | transferEnded name result =>
    simp only [move, Table.transferEnded]
    split <;> exact ⟨rfl, rfl⟩

theorem settings_run (start : World) (moves : List Move) :
    (start.run moves).1.table.client = start.table.client ∧
      (start.run moves).1.table.modelsDirectory = start.table.modelsDirectory := by
  apply run_induction (P := fun _ w _ => w.table.client = start.table.client ∧
    w.table.modelsDirectory = start.table.modelsDirectory)
  · exact ⟨rfl, rfl⟩
  · intro moves m h
    obtain ⟨hclient, hdirectory⟩ := (start.run moves).1.settings_move m
    exact ⟨hclient.trans h.1, hdirectory.trans h.2⟩

end World

/-- How a job came about that is there after a run: by the first request for its name, and through
what it has checked since. -/
structure Origin (w : World) (now : Stamp) (d : Descriptor) (later : List Move) (job : Job) :
    Prop where
  model : job.model = d.name
  source : d.source = some job.source
  target : job.target = w.table.target d
  client : job.client = w.table.client
  oldest : job.oldestClient = d.oldestClient
  newest : job.newestClient = d.newestClient
  looked : w.disk.has job.target = false ∨ ∃ expected, job.source.digest = some expected ∧
    (job.phase = .verifyTarget ∨
      (w.move (.request now d)).1.RejectsIn later d.name job.target expected)
  accepted : job.phase.isAccepted = true →
    ClientVersion.check job.client job.oldestClient job.newestClient = .ok ()

namespace Origin

variable {w : World} {now : Stamp} {d : Descriptor} {later : List Move} {job : Job}

theorem snoc (h : Origin w now d later job) (m : Move) : Origin w now d (later ++ [m]) job where
  model := h.model
  source := h.source
  target := h.target
  client := h.client
  oldest := h.oldest
  newest := h.newest
  looked := by
    rcases h.looked with habsent | ⟨expected, hdigest, hphase | hrejects⟩
    · exact .inl habsent
    · exact .inr ⟨expected, hdigest, .inl hphase⟩
    · exact .inr ⟨expected, hdigest, .inr (hrejects.append [m])⟩
  accepted := h.accepted

private theorem next (h : Origin w now d later job) {phase : Phase}
    (hlooked : job.phase = .verifyTarget → ∀ expected, job.source.digest = some expected →
      (w.move (.request now d)).1.RejectsIn later d.name job.target expected)
    (haccepted : phase.isAccepted = true → job.phase.isAccepted = true ∨
      ClientVersion.check job.client job.oldestClient job.newestClient = .ok ()) :
    Origin w now d later (job.next phase) where
  model := h.model
  source := h.source
  target := h.target
  client := h.client
  oldest := h.oldest
  newest := h.newest
  looked := by
    rcases h.looked with habsent | ⟨expected, hdigest, hphase | hrejects⟩
    · exact .inl habsent
    · exact .inr ⟨expected, hdigest, .inr (hlooked hphase expected hdigest)⟩
    · exact .inr ⟨expected, hdigest, .inr hrejects⟩
  accepted hphase := (haccepted hphase).elim h.accepted id

private theorem born (hbirth : (w.table.birth w.disk now d).2 = some job) :
    Origin w now d [] job := by
  obtain ⟨hsource, hdigest, hjob⟩ := w.table.birth_job hbirth
  generalize job.source = source at hsource hjob
  subst hjob
  refine ⟨rfl, hsource, rfl, rfl, rfl, rfl, ?_, ?_⟩
  · cases hhas : w.disk.has (w.table.target d) with
    | false => exact .inl rfl
    | true =>
      obtain ⟨expected, hexpected⟩ := Option.isSome_iff_exists.mp (hdigest hhas)
      rw [Descriptor.expectedDigest, hsource] at hexpected
      exact .inr ⟨expected, hexpected, .inl rfl⟩
  · split <;> simp [Phase.isAccepted]

end Origin

/-- Every job that is there after a run has its origin in the run. -/
theorem World.exists_origin {start : World} (hstart : start.table.Sound)
    (hjobs : start.table.jobs = []) (moves : List Move) :
    ∀ job ∈ (start.run moves).1.table.jobs, ∃ w now d later,
      FirstRequest start moves w now d later ∧ Origin w now d later job := by
  apply run_induction (P := fun moves w' _ => ∀ job ∈ w'.table.jobs, ∃ w now d later,
    FirstRequest start moves w now d later ∧ Origin w now d later job)
  · simp [hjobs]
  · intro moves m ih job hjob
    cases became hjob with
    | kept hjob =>
      obtain ⟨w, now, d, later, hfirst, horigin⟩ := ih job hjob
      exact ⟨w, now, d, later ++ [m], hfirst.snoc m, horigin.snoc m⟩
    | @born now d _ hrecord hbirth =>
      refine ⟨(start.run moves).1, now, d, [], ⟨moves, rfl, ?_, rfl⟩, .born hbirth⟩
      intro m hm e he hname
      obtain ⟨record, hsome⟩ := exists_record_of_asked hstart moves m hm e he
      rw [hname, hrecord] at hsome
      nomatch hsome
    | @continued name result old hold =>
      obtain ⟨hjob?, hphase⟩ := Table.transfer?_eq_some _ hold
      obtain ⟨w, now, d, later, hfirst, horigin⟩ := ih old (Table.job?_mem hjob?).1
      refine ⟨w, now, d, later ++ [.transferEnded name result], hfirst.snoc _, ?_⟩
      have hsnoc := horigin.snoc (.transferEnded name result)
      cases result <;> exact hsnoc.next (by simp [hphase]) (by simp [hphase, Phase.isAccepted])
    | @advanced now' name old hold houtcome =>
      obtain ⟨hmem, hname⟩ := Table.job?_mem hold
      obtain ⟨w, now, d, later, hfirst, horigin⟩ := ih old hmem
      refine ⟨w, now, d, later ++ [.advance now' name], hfirst.snoc _, ?_⟩
      have hsnoc := horigin.snoc (.advance now' name)
      have haccepted : (old.advance (start.run moves).1.disk).1.phase.isAccepted = true → _ :=
        Job.isAccepted_advance
      obtain ⟨phase, disk', hnext, hadvance⟩ := old.advance_spec (start.run moves).1.disk
      rw [hnext] at houtcome haccepted ⊢
      refine hsnoc.next ?_ haccepted
      intro hphase expected hexpected
      refine ⟨later, now', [], by rw [← horigin.model, hname], old, ?_, hphase, rfl, ?_⟩
      · rw [← hfirst.run_eq, ← horigin.model, hname, hold]
      · rw [← hfirst.run_eq]
        exact hadvance.verified_eq_false hphase hexpected houtcome

end ModelHost.Download
