import ModelHost.Download.Job

/-!
What one phase of a job can come to, said once for everything that is proved about jobs.
-/

namespace ModelHost.Download

inductive Job.Advance (j : Job) (disk : Disk) : Phase → Disk → Prop where
  | unverifiable (hphase : j.phase = .verifyTarget) (hdigest : j.source.digest = none) :
    Advance j disk .checkVersion disk
  | confirmed {expected : String} (hphase : j.phase = .verifyTarget)
      (hdigest : j.source.digest = some expected)
      (hverified : verified disk j.target expected = true) :
    Advance j disk .completed disk
  | rejected {expected : String} (hphase : j.phase = .verifyTarget)
      (hdigest : j.source.digest = some expected)
      (hverified : verified disk j.target expected = false) :
    Advance j disk .checkVersion disk
  | refused {error : VersionError} (hphase : j.phase = .checkVersion)
      (hcheck : ClientVersion.check j.client j.oldestClient j.newestClient = .error error) :
    Advance j disk (.failed (.version error)) disk
  | accepted (hphase : j.phase = .checkVersion)
      (hcheck : ClientVersion.check j.client j.oldestClient j.newestClient = .ok ()) :
    Advance j disk .prepareDirectory disk
  | parentless (hphase : j.phase = .prepareDirectory) (hparent : j.target.parent? = none) :
    Advance j disk .beginTransfer disk
  | unprepared {directory : Path} {fault : Fault} {disk' : Disk}
      (hphase : j.phase = .prepareDirectory) (hparent : j.target.parent? = some directory)
      (hmade : disk.makeDirectories directory = (.error fault, disk')) :
    Advance j disk (.failed (.directory fault)) disk'
  | prepared {directory : Path} {disk' : Disk}
      (hphase : j.phase = .prepareDirectory) (hparent : j.target.parent? = some directory)
      (hmade : disk.makeDirectories directory = (.ok (), disk')) :
    Advance j disk .beginTransfer disk'
  | begun (hphase : j.phase = .beginTransfer) : Advance j disk .transferring disk
  | waiting (hphase : j.phase = .transferring) : Advance j disk .transferring disk
  | unverifiedPart (hphase : j.phase = .verifyPart) (hdigest : j.source.digest = none) :
    Advance j disk .install disk
  | confirmedPart {expected : String} (hphase : j.phase = .verifyPart)
      (hdigest : j.source.digest = some expected)
      (hverified : verified disk j.part expected = true) :
    Advance j disk .install disk
  | rejectedPart {expected : String} (hphase : j.phase = .verifyPart)
      (hdigest : j.source.digest = some expected)
      (hverified : verified disk j.part expected = false) :
    Advance j disk (.discardPart (.digest j.target)) disk
  | discarded {failure : Failure} (hphase : j.phase = .discardPart failure) :
    Advance j disk (.failed failure) (discard disk j.part)
  | uninstalled {fault : Fault} (hphase : j.phase = .install)
      (hrename : disk.rename j.part j.target = .error fault) :
    Advance j disk (.failed (.install fault)) disk
  | installed {disk' : Disk} (hphase : j.phase = .install)
      (hrename : disk.rename j.part j.target = .ok disk') :
    Advance j disk .completed disk'
  | ended (houtcome : j.outcome?.isSome = true) : Advance j disk j.phase disk

namespace Job

@[simp] private theorem next_phase (j : Job) : j.next j.phase = j := rfl

@[simp] theorem phase_next (j : Job) (phase : Phase) : (j.next phase).phase = phase := rfl

@[simp] theorem model_next (j : Job) (phase : Phase) : (j.next phase).model = j.model := rfl

@[simp] theorem target_next (j : Job) (phase : Phase) : (j.next phase).target = j.target := rfl

@[simp] theorem part_next (j : Job) (phase : Phase) : (j.next phase).part = j.part := rfl

theorem advance_spec (j : Job) (disk : Disk) :
    ∃ phase disk', j.advance disk = (j.next phase, disk') ∧ j.Advance disk phase disk' := by
  unfold Job.advance
  split
  next hphase =>
    split
    next hdigest => exact ⟨_, _, rfl, .unverifiable hphase hdigest⟩
    next expected hdigest =>
      split
      next hverified => exact ⟨_, _, rfl, .confirmed hphase hdigest hverified⟩
      next hverified =>
        exact ⟨_, _, rfl, .rejected hphase hdigest (Bool.eq_false_iff.mpr hverified)⟩
  next hphase =>
    split
    next error hcheck => exact ⟨_, _, rfl, .refused hphase hcheck⟩
    next hcheck => exact ⟨_, _, rfl, .accepted hphase hcheck⟩
  next hphase =>
    split
    next hparent => exact ⟨_, _, rfl, .parentless hphase hparent⟩
    next directory hparent =>
      split
      next fault disk' hmade => exact ⟨_, _, rfl, .unprepared hphase hparent hmade⟩
      next disk' hmade => exact ⟨_, _, rfl, .prepared hphase hparent hmade⟩
  next hphase => exact ⟨_, _, rfl, .begun hphase⟩
  next hphase => exact ⟨_, _, by rw [← hphase, next_phase], .waiting hphase⟩
  next hphase =>
    split
    next hdigest => exact ⟨_, _, rfl, .unverifiedPart hphase hdigest⟩
    next expected hdigest =>
      split
      next hverified => exact ⟨_, _, rfl, .confirmedPart hphase hdigest hverified⟩
      next hverified =>
        exact ⟨_, _, rfl, .rejectedPart hphase hdigest (Bool.eq_false_iff.mpr hverified)⟩
  next failure hphase =>
    have hdiscard : j.Advance disk (.failed failure) (discard disk j.part) := .discarded hphase
    exact ⟨_, _, rfl, hdiscard⟩
  next hphase =>
    split
    next fault hrename => exact ⟨_, _, rfl, .uninstalled hphase hrename⟩
    next disk' hrename => exact ⟨_, _, rfl, .installed hphase hrename⟩
  next hphase =>
    have hended : j.Advance disk j.phase disk := .ended (by simp [outcome?, hphase])
    exact ⟨_, _, rfl, hended⟩
  next failure hphase =>
    have hended : j.Advance disk j.phase disk := .ended (by simp [outcome?, hphase])
    exact ⟨_, _, rfl, hended⟩

theorem Advance.verified_eq_false {j : Job} {disk disk' : Disk} {phase : Phase}
    (h : j.Advance disk phase disk') (hphase : j.phase = .verifyTarget) {expected : String}
    (hexpected : j.source.digest = some expected) (houtcome : (j.next phase).outcome? = none) :
    verified disk j.target expected = false := by
  cases h with
  | unverifiable _ hdigest => simp [hdigest] at hexpected
  | confirmed => simp [outcome?] at houtcome
  | rejected _ hdigest hverified =>
    obtain rfl := Option.some.inj (hdigest.symm.trans hexpected)
    exact hverified
  | ended hended => simp [outcome?, hphase] at hended
  | refused h | accepted h | parentless h | unprepared h | prepared h | begun h | waiting h
  | unverifiedPart h | confirmedPart h | rejectedPart h | discarded h | uninstalled h
  | installed h => simp [hphase] at h

theorem phase_advance_eq_transferring_iff (j : Job) (disk : Disk) :
    (j.advance disk).1.phase = .transferring ↔
      j.phase = .beginTransfer ∨ j.phase = .transferring := by
  obtain ⟨phase, disk', hnext, hadvance⟩ := j.advance_spec disk
  rw [hnext, phase_next]
  cases hadvance with
  | begun h | waiting h | unverifiable h | confirmed h | rejected h | refused h | accepted h
  | parentless h | unprepared h | prepared h | unverifiedPart h | confirmedPart h | rejectedPart h
  | discarded h | uninstalled h | installed h => simp [h]
  | ended houtcome => cases hphase : j.phase <;> simp [outcome?, hphase] at houtcome ⊢

end Job

end ModelHost.Download
