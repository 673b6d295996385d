import ModelHost.Proofs.Download.Births
import ModelHost.Proofs.Host.Requests

/-!
Models with a file of their own. An operation that needs such a model to be resident takes the file
and leaves the downloads alone. Asking for the weights of a model by itself looks at no file of its
own: it makes a record in any case, and one that has failed where there is no source either.
-/

namespace ModelHost

def HostError.ofDownload : HostError → Bool
  | .stillDownloading _ | .downloadFailed .. => true
  | .unknownModel _ | .loadFailed _ | .notResident _ | .noAnswer _ | .badRequest _
  | .badSetup _ => false

namespace Completion.Request

private theorem ofDownload_of_checkFinite {field : String} {x : Option Single} {error : HostError}
    (h : checkFinite field x = .error error) : error.ofDownload = false := by
  unfold checkFinite at h
  split at h
  next => nomatch h
  next =>
    split at h
    next => nomatch h
    next =>
      cases h
      rfl

private theorem ofDownload_of_checkTopP {x : Option Single} {error : HostError}
    (h : checkTopP x = .error error) : error.ofDownload = false := by
  unfold checkTopP at h
  split at h
  next => nomatch h
  next =>
    split at h
    next => nomatch h
    next =>
      cases h
      rfl

private theorem ofDownload_of_bind {first : Except HostError Unit}
    {next : Unit → Except HostError Unit}
    (hfirst : ∀ error, first = .error error → error.ofDownload = false)
    (hnext : ∀ error, next () = .error error → error.ofDownload = false) :
    ∀ error, (first >>= next) = .error error → error.ofDownload = false := by
  intro error h
  cases first with
  | error => exact hfirst error h
  | ok => exact hnext error h

theorem ofDownload_of_check (r : Request) :
    ∀ error, r.check = .error error → error.ofDownload = false := by
  have hfinite : ∀ field x error, checkFinite field x = .error error →
      error.ofDownload = false := fun _ _ _ => ofDownload_of_checkFinite
  unfold check
  apply ofDownload_of_bind
  · exact fun _ => ofDownload_of_checkTopP
  apply ofDownload_of_bind (hfinite _ _)
  exact ofDownload_of_bind (hfinite _ _) (hfinite _ _)

end Completion.Request

namespace Host

variable {S M C : Type} {b : Backend S M C} {host host' : Host S M C} {disk : Disk}
  {now : Download.Stamp} {name : String} {op : Operation} {d : Descriptor}

private theorem downloadMoves_of_local (hsubject : op.subject? = some (now, name))
    (hlookup : host.store.lookup name = some d) (hlocal : d.localFile.isSome = true) :
    host.downloadMoves op = [] := by
  have hresident : ∀ now, host.residentMoves now name = [] := by
    intro now
    simp [residentMoves, hlookup, hlocal]
  cases op with
  | requestWeights | release | shutdown | restock => nomatch hsubject
  | makeResident | embed =>
    cases hsubject
    exact hresident _
  | stream | complete | completeText =>
    cases hsubject
    simp only [downloadMoves, hresident]
    split <;> rfl

theorem Turn.ofDownload {result : Except HostError (Resident M C)} {events : List Event}
    (h : host.Turn b disk now name result host' events)
    (hlookup : host.store.lookup name = some d) (hlocal : d.localFile.isSome = true)
    {error : HostError} (hresult : result = .error error) : error.ofDownload = false := by
  cases h with
  | resident | installed => nomatch hresult
  | unknown | unloaded | unopened =>
    cases hresult
    rfl
  | downloading _ hfound hnone | downloadFailed _ hfound hnone =>
    obtain rfl := Option.some.inj (hlookup.symm.trans hfound)
    rw [hnone] at hlocal
    nomatch hlocal

private theorem ofDownload_of_mapError {ε α : Type} {result : Except ε α} {text : ε → String}
    {error : HostError}
    (h : ((result.mapError fun failure => .noAnswer (text failure)).map fun _ => ()) =
      .error error) : error.ofDownload = false := by
  cases result with
  | ok => nomatch h
  | error failure =>
    cases h
    rfl

private theorem ofDownload_of_work {r : Resident M C} {error : HostError}
    (h : (op.work b r).1 = .error error) : error.ofDownload = false := by
  cases op with
  | makeResident | requestWeights | release | shutdown | restock => nomatch h
  | stream | complete | completeText | embed => exact ofDownload_of_mapError h

/-- Such an operation leaves the downloads as they are, and does not fail for one of them. -/
theorem downloads_of_local (hsound : host.downloads.Sound) (b : Backend S M C) (disk : Disk)
    (hsubject : op.subject? = some (now, name)) (hlookup : host.store.lookup name = some d)
    (hlocal : d.localFile.isSome = true) :
    (host.operate b disk op).downloads = host.downloads ∧
      ∀ error, (host.perform b disk op).answer = .error error → error.ofDownload = false := by
  constructor
  · rw [downloads_operate, downloadMoves_of_local hsubject hlookup hlocal]
    rfl
  · intro error hanswer
    cases hcheck : op.check with
    | error refused =>
      rw [perform_of_check_error hcheck] at hanswer
      cases hanswer
      cases op with
      | stream | complete | completeText => exact Completion.Request.ofDownload_of_check _ _ hcheck
      | makeResident | embed | requestWeights | release | shutdown | restock => nomatch hcheck
    | ok =>
      have heffect := effect_perform hsound b disk hsubject hcheck
      generalize host.perform b disk op = reply at heffect hanswer
      cases heffect with
      | refused hturn =>
        cases hanswer
        exact hturn.ofDownload hlookup hlocal rfl
      | @served r _ _ _ _ _ hturn hwork =>
        have hfailed : (op.work b r).1 = .error error := by
          rw [hwork]
          exact hanswer
        exact ofDownload_of_work hfailed

private theorem localFile_of_mem_residentMoves {asked : Download.Stamp}
    (h : .request now d ∈ host.residentMoves asked name) : d.localFile = none := by
  unfold residentMoves at h
  split at h
  next => nomatch h
  next =>
    split at h
    next => nomatch h
    next =>
      split at h
      next => nomatch h
      next hlocal =>
        cases List.mem_singleton.mp h
        simpa using hlocal

private theorem localFile_of_mem_downloadMoves (h : .request now d ∈ host.downloadMoves op) :
    d.localFile = none ∨ op.subject? = none := by
  cases op with
  | requestWeights | release | shutdown | restock => exact .inr rfl
  | makeResident | embed => exact .inl (localFile_of_mem_residentMoves h)
  | stream | complete | completeText =>
    simp only [downloadMoves] at h
    split at h
    next => cases h
    next => exact .inl (localFile_of_mem_residentMoves h)

theorem requestWeights_failed_iff (hlookup : host.store.lookup name = some d)
    (hnone : host.downloads.records[d.name]? = none) :
    (∃ record, (host.requestWeights disk now name).1 = .ok record ∧
        record.failure = some .noSource) ↔
      d.source = none ∧ disk.has (host.downloads.target d) = false := by
  have hborn : (host.downloads.birth disk now d).1.failure = some .noSource ↔
      d.source = none ∧ disk.has (host.downloads.target d) = false :=
    Download.Table.failure_birth_iff
  rw [← hborn]
  simp [requestWeights, hlookup, requestRecord, Download.Table.request_of_none hnone]

namespace World

theorem exists_birth (b : Backend S M C) (settings : Settings) (store : Store) (state : S)
    (disk : Disk) (moves : List Move) {name : String} {record : Download.Record}
    (h : ((start (M := M) (C := C) settings store state disk).run b
      moves).1.host.downloads.records[name]? = some record) :
    ∃ past m later now d w, moves = past ++ m :: later ∧
      .request now d ∈ ((start (M := M) (C := C) settings store state disk).run b past).1.seen m ∧
      d.name = name ∧ record.MadeFor w d := by
  have hrun := (start (M := M) (C := C) settings store state disk).downloads_run b moves
  have hdownloads := congrArg (·.1.table.records[name]?) hrun
  obtain ⟨w, now, d, _, ⟨before, hasked, -, -⟩, hname, hmade⟩ :=
    Download.World.exists_birth (sound_start (M := M) (C := C) settings store state disk) rfl
      (by intro; rfl) _ name record (hdownloads.symm.trans h)
  have hmem : .request now d ∈ World.downloadMoves b
      (start (M := M) (C := C) settings store state disk) moves := by
    rw [hasked]
    exact List.mem_append_right before (.head _)
  obtain ⟨past, m, later, hmoves, hseen⟩ := exists_seen hmem
  exact ⟨past, m, later, now, d, w, hmoves, hseen, hname, hmade⟩

theorem filed_run (b : Backend S M C) (settings : Settings) (store : Store) (state : S)
    (disk : Disk) (moves : List Move) :
    ((start (M := M) (C := C) settings store state disk).run b moves).1.host.downloads.Filed := by
  intro name record hrecord
  obtain ⟨_, _, _, _, d, w, -, -, -, hmade⟩ :=
    exists_birth b settings store state disk moves hrecord
  rw [hmade.file]
  rfl

/-- In every host that can come about, no operation that needs a model with a file of its own makes
a record, starts a job or fails for a download. A record that has failed for want of a source is of
a model that has none; where such a model has a file of its own, it was not for being needed that
the downloads were asked. -/
theorem local_files_apart (b : Backend S M C) (settings : Settings) (store : Store) (state : S)
    (disk : Disk) (moves : List Move) :
    let start := start (M := M) (C := C) settings store state disk
    let w := (start.run b moves).1
    (∀ op now name d, op.subject? = some (now, name) → w.host.store.lookup name = some d →
      d.localFile.isSome = true →
        (w.host.operate b w.disk op).downloads = w.host.downloads ∧
          ∀ error, (w.host.perform b w.disk op).answer = .error error →
            error.ofDownload = false) ∧
      ∀ (name : String) record, w.host.downloads.records[name]? = some record →
        record.failure = some .noSource →
          ∃ past m later now d, moves = past ++ m :: later ∧
            .request now d ∈ (start.run b past).1.seen m ∧ d.name = name ∧ d.source = none ∧
            ∀ op, m = .operate op → d.localFile = none ∨ op.subject? = none := by
  intro start w
  constructor
  · intro op now name d hsubject hlookup hlocal
    have hsound : w.host.downloads.Sound :=
      sound_run (sound_start settings store state disk) b moves
    exact downloads_of_local hsound b w.disk hsubject hlookup hlocal
  · intro name record hrecord hfailure
    obtain ⟨past, m, later, now, d, _, hmoves, hseen, hname, hmade⟩ :=
      exists_birth b settings store state disk moves hrecord
    refine ⟨past, m, later, now, d, hmoves, hseen, hname, (hmade.sourceless hfailure).1, ?_⟩
    rintro op rfl
    exact localFile_of_mem_downloadMoves hseen

/-- Asking for the weights of a model that has a file of its own and no source makes a record that
has failed; and it still has when the file is gone and a source is there. -/
theorem failed_despite_local_file :
    let stored : Store := .ofDescriptors [{ name := "m", localFile := some ⟨"/models/m.gguf"⟩ }]
    let fetched : Store := stored.insert { name := "m", source := some { url := "http://h/m" } }
    let w := ((start { modelsDirectory := ⟨"models"⟩ } stored () .empty).run narrow
      [.operate (.requestWeights 0 "m"), .operate (.restock fetched)]).1
    (stored.lookup "m").map (·.localFile.isSome) = some true ∧
      (w.host.downloads.records["m"]?).map (·.failure) = some (some .noSource) ∧
      (w.host.perform narrow w.disk (.makeResident 1 "m")).answer =
        .error (.downloadFailed "m" "missing download url") := by
  refine ⟨by decide +kernel, by decide +kernel, ?_⟩
  rfl

end World

end Host

end ModelHost
