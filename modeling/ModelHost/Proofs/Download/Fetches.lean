import ModelHost.Proofs.Download.Jobs
import ModelHost.Proofs.Download.Records

/-!
What a run fetches. For each name at most one job is started, by the first request for it, and a
job asks for its weights at most once: it has passed the version check then, and it found no weights
at the target, or weights with another digest.
-/

namespace ModelHost.Download

def Phase.mayFetch : Phase → Bool
  | .verifyTarget | .checkVersion | .prepareDirectory | .beginTransfer => true
  | .transferring | .verifyPart | .discardPart _ | .install | .completed | .failed _ => false

def Phase.isAccepted : Phase → Bool
  | .prepareDirectory | .beginTransfer | .transferring | .verifyPart | .discardPart _
  | .install => true
  | .verifyTarget | .checkVersion | .completed | .failed _ => false

namespace Job

variable {j : Job} {disk : Disk}

private theorem mayFetch_advance (h : (j.advance disk).1.phase.mayFetch = true) :
    j.phase.mayFetch = true ∧ j.phase ≠ .beginTransfer := by
  obtain ⟨phase, disk', hnext, hadvance⟩ := j.advance_spec disk
  rw [hnext, phase_next] at h
  cases hadvance with
  | unverifiable hphase | rejected hphase | accepted hphase | parentless hphase
  | prepared hphase => simp [hphase, Phase.mayFetch]
  | confirmed | refused | unprepared | begun | waiting | unverifiedPart | confirmedPart
  | rejectedPart | discarded | uninstalled | installed => simp [Phase.mayFetch] at h
  | ended houtcome => cases hj : j.phase <;> simp [outcome?, hj, Phase.mayFetch] at h houtcome

private theorem mayFetch_transferEnded (result : Except Cause Unit) :
    (j.transferEnded result).phase.mayFetch = false := by
  cases result <;> rfl

theorem isAccepted_advance (h : (j.advance disk).1.phase.isAccepted = true) :
    j.phase.isAccepted = true ∨
      ClientVersion.check j.client j.oldestClient j.newestClient = .ok () := by
  obtain ⟨phase, disk', hnext, hadvance⟩ := j.advance_spec disk
  rw [hnext, phase_next] at h
  cases hadvance with
  | accepted hphase hcheck => exact .inr hcheck
  | parentless hphase | prepared hphase | begun hphase | waiting hphase | unverifiedPart hphase
  | confirmedPart hphase | rejectedPart hphase => simp [hphase, Phase.isAccepted]
  | unverifiable | confirmed | rejected | refused | unprepared | discarded | uninstalled
  | installed => simp [Phase.isAccepted] at h
  | ended houtcome => exact .inl h

end Job

structure Table.Spent (t : Table) (done : List Fetch) : Prop where
  once : (done.map (·.model)).Nodup
  recorded : ∀ fetch ∈ done, ∃ record, t.records[fetch.model]? = some record
  past : ∀ fetch ∈ done, ∀ job ∈ t.jobs, job.model = fetch.model → job.phase.mayFetch = false

theorem Table.Follows.exists_record {t t' : Table} (h : t.Follows t') {name : String}
    (hrecord : ∃ record, t.records[name]? = some record) :
    ∃ record, t'.records[name]? = some record := by
  obtain ⟨record, hrecord⟩ := hrecord
  have honward := h.2 name
  rw [hrecord] at honward
  cases hafter : t'.records[name]? with
  | none => rw [hafter] at honward; nomatch honward
  | some record' => exact ⟨record', rfl⟩

namespace World

private theorem spent_past {w : World} {done : List Fetch} (h : w.table.Spent done) {m : Move}
    {fetch : Fetch} (hfetch : fetch ∈ done) {job : Job} (hjob : job ∈ (w.move m).1.table.jobs)
    (hmodel : job.model = fetch.model) : job.phase.mayFetch = false := by
  cases became hjob with
  | kept hjob => exact h.past fetch hfetch job hjob hmodel
  | born hrecord hbirth =>
    obtain ⟨record, hsome⟩ := h.recorded fetch hfetch
    obtain ⟨-, -, hborn⟩ := w.table.birth_job hbirth
    rw [hborn] at hmodel
    rw [← hmodel, hrecord] at hsome
    nomatch hsome
  | @advanced now name old hold houtcome =>
    obtain ⟨hmem, -⟩ := Table.job?_mem hold
    obtain ⟨phase, disk', hnext, -⟩ := old.advance_spec w.disk
    have hold := h.past fetch hfetch old hmem (by rwa [hnext] at hmodel)
    apply Bool.eq_false_iff.mpr
    intro hmay
    simp [(Job.mayFetch_advance hmay).1] at hold
  | continued => exact Job.mayFetch_transferEnded _

theorem spent_move {w : World} (hsound : w.table.Sound) {done : List Fetch}
    (h : w.table.Spent done) (m : Move) :
    (w.move m).1.table.Spent (done ++ fetches (w.move m).2) := by
  have hfollows := hsound.move m
  have hrecorded := fun fetch hfetch => hfollows.exists_record (h.recorded fetch hfetch)
  rcases w.fetches_move m with hnone | ⟨now, name, job, rfl, hjob, hphase, hone⟩
  · rw [hnone, List.append_nil]
    exact ⟨h.once, hrecorded, fun fetch hfetch job hjob => spent_past h hfetch hjob⟩
  · rw [hone]
    obtain ⟨hmem, rfl⟩ := Table.job?_mem hjob
    have hmay : job.phase.mayFetch = true := by rw [hphase]; rfl
    refine ⟨?_, ?_, ?_⟩
    · simp only [List.map_append, List.map_cons, List.map_nil]
      refine List.nodup_append.mpr ⟨h.once, by simp, ?_⟩
      intro name hname other hother
      obtain ⟨fetch, hfetch, rfl⟩ := List.mem_map.mp hname
      obtain rfl := List.mem_singleton.mp hother
      intro hmodel
      have hpast := h.past fetch hfetch job hmem hmodel.symm
      simp [hmay] at hpast
    · intro fetch hfetch
      rcases List.mem_append.mp hfetch with hfetch | hfetch
      · exact hrecorded fetch hfetch
      · obtain rfl := List.mem_singleton.mp hfetch
        obtain ⟨record, hrecord, -⟩ := hsound.busy hmem
        exact hfollows.exists_record ⟨record, hrecord⟩
    · intro fetch hfetch other hother hmodel
      rcases List.mem_append.mp hfetch with hfetch | hfetch
      · exact spent_past h hfetch hother hmodel
      · obtain rfl := List.mem_singleton.mp hfetch
        cases became hother with
        | kept _ hstill => exact absurd (by rw [hmodel]; rfl) (hstill now)
        | @advanced _ _ old hold houtcome =>
          obtain rfl := Option.some.inj (hjob.symm.trans hold)
          apply Bool.eq_false_iff.mpr
          intro hmay
          exact (Job.mayFetch_advance hmay).2 hphase

theorem spent_run {start : World} (hstart : start.table.Sound) (moves : List Move) :
    (start.run moves).1.table.Spent (fetches (start.run moves).2) := by
  apply run_induction (P := fun _ w notices => w.table.Spent (fetches notices))
  · exact ⟨by simp, by simp, by simp⟩
  · intro moves m h
    rw [fetches_append]
    exact spent_move (hstart.run moves).1 h m

end World

end ModelHost.Download
