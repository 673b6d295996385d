import ModelHost.Proofs.Disk.Ancestors
import ModelHost.Proofs.Disk.Vacancy
import ModelHost.Proofs.Download.Course

/-!
What a job leaves behind. Wherever a job ends, there is no part file any more, whatever the transfer
did and whichever operation failed, with one exception: a job that can not move its part file in the
place of the target ends there and then, and the part file stays.
-/

namespace ModelHost.Download

private theorem partFile_above {p q : Path} (hparent : p.parent? = some q) (hq : q.text ≠ "") :
    q.Above (partFile p) := by
  have hlength : 2 < (partName p).length := by
    rw [partName, length_part]
    omega
  have hreal := (Path.real_of_length hlength).1
  unfold partFile Path.withFileName
  cases hname : p.fileName? with
  | some name =>
    simp only [Option.isSome_some, if_true, hparent, Option.getD_some]
    exact q.join_above (not_mem_partName p) hreal
  | none => exact (Path.parent?_above hparent hq).trans (p.join_above (not_mem_partName p) hreal)

private theorem hasFile_partFile {disk : Disk} (hsound : disk.Sound) {p q : Path}
    (hparent : p.parent? = some q) (hq : q.text ≠ "") (habsent : disk.hasDirectory q = false) :
    disk.hasFile (partFile p) = false := by
  rw [← Bool.not_eq_true] at habsent ⊢
  intro hfile
  obtain ⟨directory, name, entry, hsite, -⟩ := Disk.hasFile_iff.mp hfile
  exact habsent (Disk.hasDirectory_of_site hsound (partFile_above hparent hq) hq hsite)

private theorem hasFile_discard (disk : Disk) (p : Path) : (discard disk p).hasFile p = false := by
  unfold discard
  split
  next disk' hremove => exact Disk.hasFile_remove hremove
  next hremove => exact Disk.hasFile_of_remove_error hremove

structure Workplace where
  job : Job
  disk : Disk

namespace Workplace

def advance (w : Workplace) : Workplace where
  job := (w.job.advance w.disk).1
  disk := (w.job.advance w.disk).2

/-- What may happen where a job works. Its operations may also fail for reasons that the disk does
not show. -/
inductive Step : Workplace → Workplace → Prop where
  /-- The job goes on. It does not move a link in the place of a link, which might make the path of
  the part file lead to another file. -/
  | advance (w : Workplace) (hlinks : w.job.phase = .install →
      ¬(w.disk.isLink w.job.part = true ∧ w.disk.isLink w.job.target = true)) :
    Step w w.advance
  | write (w : Workplace) {disk : Disk} (hphase : w.job.phase = .transferring)
      (hsound : disk.Sound) : Step w { w with disk }
  | transferEnded (w : Workplace) (result : Except Cause Unit)
      (hphase : w.job.phase = .transferring) : Step w { w with job := w.job.transferEnded result }
  /-- Others do something to the disk, but put no file in the place of the part file. -/
  | others (w : Workplace) {disk : Disk} (hsound : disk.Sound)
      (hpart : disk.hasFile w.job.part = true → w.disk.hasFile w.job.part = true) :
    Step w { w with disk }
  | unprepared (w : Workplace) (fault : Fault) (hphase : w.job.phase = .prepareDirectory) :
    Step w { w with job := w.job.next (.failed (.directory fault)) }
  | unreadable (w : Workplace) (hphase : w.job.phase = .verifyTarget) :
    Step w { w with job := w.job.next .checkVersion }
  | unreadablePart (w : Workplace) (hphase : w.job.phase = .verifyPart) :
    Step w { w with job := w.job.next (.discardPart (.digest w.job.target)) }
  | uninstalled (w : Workplace) (fault : Fault) (hphase : w.job.phase = .install) :
    Step w { w with job := w.job.next (.failed (.install fault)) }

inductive Reaches (start : Workplace) : Workplace → Prop where
  | start : Reaches start start
  | step {w w' : Workplace} (h : Reaches start w) (hstep : Step w w') : Reaches start w'

theorem Reaches.advance {start w : Workplace} (h : Reaches start w)
    (hphase : w.job.phase ≠ .install) : Reaches start w.advance :=
  h.step (.advance w fun hinstall => absurd hinstall hphase)

end Workplace

def Phase.isTidy : Phase → Bool
  | .verifyTarget | .checkVersion | .prepareDirectory | .completed => true
  | .beginTransfer | .transferring | .verifyPart | .discardPart _ | .install => false
  | .failed (.install _) => false
  | .failed _ => true

/-- What holds whatever happens where a job with a part file works. The disk need not be sound any
more once the job has ended. -/
structure Workplace.Tidy (w : Workplace) (part : Path) : Prop where
  job : w.job.part = part
  sound : w.job.outcome? = none → w.disk.Sound
  vacant : w.job.phase.isTidy = true → w.disk.hasFile part = false

namespace Workplace.Tidy

theorem advance {j : Job} {phase next : Phase} {disk disk' : Disk}
    (h : Tidy ⟨j.next phase, disk⟩ j.part)
    (hlinks : phase = .install → ¬(disk.isLink j.part = true ∧ disk.isLink j.target = true))
    (hadvance : (j.next phase).Advance disk next disk') : Tidy ⟨j.next next, disk'⟩ j.part := by
  obtain ⟨-, hsound, hvacant⟩ := h
  cases hadvance with
  | unverifiable hphase | rejected hphase | accepted hphase =>
    cases hphase
    exact ⟨rfl, fun _ => hsound rfl, fun _ => hvacant rfl⟩
  | confirmed hphase | refused hphase =>
    cases hphase
    exact ⟨rfl, nofun, fun _ => hvacant rfl⟩
  | parentless hphase | begun hphase | waiting hphase | unverifiedPart hphase | confirmedPart hphase
  | rejectedPart hphase =>
    cases hphase
    exact ⟨rfl, fun _ => hsound rfl, nofun⟩
  | prepared hphase hparent hmade =>
    cases hphase
    exact ⟨rfl, fun _ => Disk.makeDirectories_sound (hsound rfl) hmade, nofun⟩
  | unprepared hphase hparent hmade =>
    cases hphase
    have hsound' := Disk.makeDirectories_sound (hsound rfl) hmade
    -- Some directories may have been made, but not the last one, and the part file is in that.
    obtain ⟨hsome, habsent⟩ := Disk.makeDirectories_error (hsound rfl) hmade
    exact ⟨rfl, nofun, fun _ => hasFile_partFile hsound' hparent hsome habsent⟩
  | discarded hphase =>
    refine ⟨rfl, nofun, fun _ => ?_⟩
    dsimp only [Job.part_next]
    exact hasFile_discard disk j.part
  | uninstalled hphase => exact ⟨rfl, nofun, nofun⟩
  | installed hphase hrename =>
    cases hphase
    rw [Job.part_next, Job.target_next] at hrename
    refine ⟨rfl, nofun, fun _ => ?_⟩
    exact Disk.hasFile_rename (hsound rfl) (apart_partFile disk j.target) (hlinks rfl) hrename
  | ended => exact ⟨rfl, hsound, hvacant⟩

variable {part : Path} {w w' : Workplace}

theorem step (h : w.Tidy part) (hstep : Step w w') : w'.Tidy part := by
  obtain ⟨rfl, hsound, hvacant⟩ := h
  have hrunning {phase : Phase} (hphase : w.job.phase = phase)
      (hnone : (w.job.next phase).outcome? = none) : w.disk.Sound := by
    cases hphase
    exact hsound hnone
  have hfree {phase : Phase} (hphase : w.job.phase = phase) (htidy : phase.isTidy = true) :
      w.disk.hasFile w.job.part = false := by
    cases hphase
    exact hvacant htidy
  cases hstep with
  | advance hlinks =>
    obtain ⟨next, disk', hnext, hadvance⟩ := w.job.advance_spec w.disk
    have htidy : Tidy ⟨w.job.next w.job.phase, w.disk⟩ w.job.part := ⟨rfl, hsound, hvacant⟩
    rw [Workplace.advance, hnext]
    exact htidy.advance hlinks hadvance
  | write hphase hsound' => exact ⟨rfl, fun _ => hsound', by simp [hphase, Phase.isTidy]⟩
  | transferEnded result hphase =>
    cases result with
    | error cause => exact ⟨rfl, fun _ => hrunning hphase rfl, nofun⟩
    | ok => exact ⟨rfl, fun _ => hrunning hphase rfl, nofun⟩
  | others hsound' hpart =>
    refine ⟨rfl, fun _ => hsound', fun htidy => ?_⟩
    have hbefore := hvacant htidy
    rw [← Bool.not_eq_true] at hbefore ⊢
    exact mt hpart hbefore
  | unprepared fault hphase => exact ⟨rfl, nofun, fun _ => hfree hphase rfl⟩
  | unreadable hphase => exact ⟨rfl, fun _ => hrunning hphase rfl, fun _ => hfree hphase rfl⟩
  | unreadablePart hphase => exact ⟨rfl, fun _ => hrunning hphase rfl, nofun⟩
  | uninstalled fault hphase => exact ⟨rfl, nofun, nofun⟩

theorem reaches (h : w.Tidy part) (hreaches : w.Reaches w') : w'.Tidy part := by
  induction hreaches with
  | start => exact h
  | step _ hstep ih => exact ih.step hstep

end Workplace.Tidy

private theorem Job.isTidy_of_ended {j : Job} (hended : j.outcome?.isSome = true)
    (hinstall : ∀ fault, j.phase ≠ .failed (.install fault)) : j.phase.isTidy = true := by
  unfold outcome? at hended
  split at hended
  next hphase => rw [hphase]; rfl
  next failure hphase =>
    cases failure with
    | install fault => exact absurd hphase (hinstall fault)
    | noSource | version | directory | transfer | digest => rw [hphase]; rfl
  next => nomatch hended

/-- Where there is no part file when a job begins there is none when it has ended, unless it ended
because the part file could not be moved in the place of the target. -/
theorem no_leftovers {job : Job} {disk : Disk} (hsound : disk.Sound)
    (habsent : disk.hasFile job.part = false) {w : Workplace}
    (hreaches : Workplace.Reaches ⟨job, disk⟩ w) (hended : w.job.outcome?.isSome = true)
    (hinstall : ∀ fault, w.job.phase ≠ .failed (.install fault)) :
    w.disk.hasFile job.part = false := by
  have hstart : Workplace.Tidy ⟨job, disk⟩ job.part := ⟨rfl, fun _ => hsound, fun _ => habsent⟩
  exact (hstart.reaches hreaches).vacant (Job.isTidy_of_ended hended hinstall)

/-- A transfer that writes a part file and is cut off. -/
theorem no_leftovers_cut_off : ∃ w : Workplace,
    ((Table.start ⟨"models"⟩ "1.0").birth .empty 0 plain).2 = some plainJob ∧
      Disk.empty.Sound ∧ Disk.empty.hasFile plainJob.part = false ∧
      (∃ w', Workplace.Reaches ⟨plainJob, .empty⟩ w' ∧ w'.disk.hasFile plainJob.part = true) ∧
      Workplace.Reaches ⟨plainJob, .empty⟩ w ∧
      w.job.phase = .failed (.transfer ⟨["boom"]⟩) ∧
      w.disk.hasFile plainJob.part = false := by
  have habsent : Disk.empty.hasFile plainJob.part = false := by decide +kernel
  let ready := Workplace.advance (Workplace.advance (Workplace.advance ⟨plainJob, .empty⟩))
  have hready : Workplace.Reaches ⟨plainJob, .empty⟩ ready :=
    ((Workplace.Reaches.start.advance (by decide +kernel)).advance (by decide +kernel)).advance
      (by decide +kernel)
  have hreceived : plainReceived.Sound :=
    Disk.empty_sound.insert (by decide +kernel) (by decide +kernel) _ _
  have hwritten := hready.step (.write _ (by decide +kernel) hreceived)
  let cut : Workplace := ⟨ready.job.transferEnded (.error ⟨["boom"]⟩), plainReceived⟩
  have hcut : Workplace.Reaches ⟨plainJob, .empty⟩ cut :=
    hwritten.step (.transferEnded _ _ (by decide +kernel))
  have hfailed := hcut.advance (by decide +kernel)
  have hphase : cut.advance.job.phase = .failed (.transfer ⟨["boom"]⟩) := by decide +kernel
  refine ⟨cut.advance, by decide +kernel, Disk.empty_sound, habsent,
    ⟨_, hwritten, by decide +kernel⟩, hfailed, hphase, ?_⟩
  refine no_leftovers Disk.empty_sound habsent hfailed (by decide +kernel) fun fault => ?_
  rw [hphase]
  nofun

def blockedSource : Source where
  url := "http://h/m"
  cacheFile := some ⟨"d"⟩
  digest := some "3fc4ccfe745870e2c0d99f71f30ff0656c8dedd41cc1d7d3d376b0dbe685e2f3"

def blocked : Descriptor := { name := "m", source := some blockedSource }

def blockedDisk : Disk :=
  { Disk.empty with entries := Disk.empty.entries.insert ["d", "work"] .directory }

def blockedReceived : Disk :=
  { blockedDisk with
    entries := blockedDisk.entries.insert ["d.part", "work"] (.file 0)
    contents := blockedDisk.contents.insert 0 "two".toUTF8
    unused := 1 }

def blockedJob : Job where
  model := "m"
  source := blockedSource
  target := ⟨"d"⟩
  client := "1.0"
  oldestClient := none
  newestClient := none
  phase := .verifyTarget

/-- The part file can not take the place of the directory, and stays. -/
theorem part_left_of_blocked : ∃ w : Workplace,
    ((Table.start ⟨"models"⟩ "1.0").birth blockedDisk 0 blocked).2 = some blockedJob ∧
      blockedDisk.Sound ∧ blockedDisk.hasFile blockedJob.part = false ∧
      Workplace.Reaches ⟨blockedJob, blockedDisk⟩ w ∧
      w.job.phase = .failed (.install .isDirectory) ∧
      w.disk.hasFile blockedJob.part = true := by
  have hsound : blockedDisk.Sound :=
    Disk.empty_sound.insert (by decide +kernel) (by decide +kernel) _ _
  have hreceived : blockedReceived.Sound :=
    hsound.insert (by decide +kernel) (by decide +kernel) _ _
  let ready := Workplace.advance (Workplace.advance (Workplace.advance (Workplace.advance
    ⟨blockedJob, blockedDisk⟩)))
  have hready : Workplace.Reaches ⟨blockedJob, blockedDisk⟩ ready :=
    (((Workplace.Reaches.start.advance (by decide +kernel)).advance (by decide +kernel)).advance
      (by decide +kernel)).advance (by decide +kernel)
  have hjob : ready.job = blockedJob.next .transferring := by decide +kernel
  have hwritten : Workplace.Reaches ⟨blockedJob, blockedDisk⟩
      ⟨blockedJob.next .transferring, blockedReceived⟩ :=
    hjob ▸ hready.step (.write _ (by decide +kernel) hreceived)
  have hverified : (blockedJob.next .verifyPart).advance blockedReceived =
      (blockedJob.next .install, blockedReceived) := by
    have hdigest : verified blockedReceived blockedJob.part
        "3fc4ccfe745870e2c0d99f71f30ff0656c8dedd41cc1d7d3d376b0dbe685e2f3" = true := by
      decide +kernel
    simp only [Job.advance, Job.phase_next, Job.part_next]
    exact if_pos hdigest
  have htransferred : Workplace.Reaches ⟨blockedJob, blockedDisk⟩
      ⟨blockedJob.next .verifyPart, blockedReceived⟩ :=
    hwritten.step (.transferEnded _ (.ok ()) rfl)
  have hinstalling := htransferred.advance nofun
  simp only [Workplace.advance, hverified] at hinstalling
  have hfailed := hinstalling.step (.advance _ fun _ => by decide +kernel)
  exact ⟨_, by decide +kernel, hsound, by decide +kernel, hfailed, by decide +kernel,
    by decide +kernel⟩

end ModelHost.Download
