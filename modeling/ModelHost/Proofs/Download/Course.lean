import ModelHost.Proofs.Download.Part
import ModelHost.Proofs.Download.Table

/-!
The course of one job. Between the phases of the job the transfer may write anything to the part
file, others may do anything to the rest of the disk, and an operation may fail for reasons that the
disk does not show. In every course the target is left as it was until a whole part file, received,
confirmed and let through by the version check, takes its place at once.
-/

namespace ModelHost.Download

inductive Mark where
  | accepted
  /-- The transfer has succeeded, with this in the part file. -/
  | received (part : Option Sight)
  /-- The digest of this part file was the expected one. -/
  | confirmed (part : Option Sight)
  | installed
deriving DecidableEq

def Job.marks (j : Job) (next : Phase) (part : Option Sight) : List Mark :=
  match j.phase, next with
  | .checkVersion, .prepareDirectory => [.accepted]
  | .verifyPart, .install => j.source.digest.toList.map fun _ => .confirmed part
  | .install, .completed => [.installed]
  | _, _ => []

structure Course where
  job : Job
  disk : Disk
  log : List Mark

namespace Course

def advance (c : Course) : Course where
  job := (c.job.advance c.disk).1
  disk := (c.job.advance c.disk).2
  log := c.log ++ c.job.marks (c.job.advance c.disk).1.phase (c.disk.seen c.job.part)

inductive Step : Course → Course → Prop where
  | advance (c : Course) : Step c c.advance
  | write (c : Course) {disk : Disk} (hphase : c.job.phase = .transferring)
      (hclear : c.job.Undisturbed disk)
      (htarget : disk.seen c.job.target = c.disk.seen c.job.target) :
    Step c { c with disk }
  | transferFailed (c : Course) (cause : Cause) (hphase : c.job.phase = .transferring) :
    Step c { c with job := c.job.transferEnded (.error cause) }
  | transferred (c : Course) (hphase : c.job.phase = .transferring) :
    Step c
      { c with
        job := c.job.transferEnded (.ok ())
        log := c.log ++ [.received (c.disk.seen c.job.part)] }
  | others (c : Course) {disk : Disk} (hclear : c.job.Undisturbed disk)
      (htarget : disk.seen c.job.target = c.disk.seen c.job.target)
      (hpart : disk.seen c.job.part = c.disk.seen c.job.part) :
    Step c { c with disk }
  | fault (c : Course) (failure : Failure) (hrunning : c.job.outcome? = none) :
    Step c { c with job := c.job.next (.failed failure) }
  | unreadable (c : Course) (hphase : c.job.phase = .verifyTarget) :
    Step c { c with job := c.job.next .checkVersion }
  | unreadablePart (c : Course) (hphase : c.job.phase = .verifyPart)
      (hdigest : c.job.source.digest.isSome = true) :
    Step c { c with job := c.job.next (.discardPart (.digest c.job.target)) }

inductive Reaches (start : Course) : Course → Prop where
  | start : Reaches start start
  | step {c c' : Course} (h : Reaches start c) (hstep : Step c c') : Reaches start c'

end Course

/-- Says that what is seen somewhere can be read and has the expected digest of a job, if there is
one. -/
def Job.Agrees (j : Job) (seen : Option Sight) : Prop :=
  ∀ expected, j.source.digest = some expected → ∃ content,
    seen.bind Sight.content? = some content ∧ Sha256.agrees content expected = true

theorem verified_eq_true_iff {disk : Disk} {p : Path} {expected : String} :
    verified disk p expected = true ↔ ∃ content,
      (disk.seen p).bind Sight.content? = some content ∧ Sha256.agrees content expected = true := by
  have hread : ∀ content, disk.read p = .ok content ↔
      (disk.seen p).bind Sight.content? = some content := by
    intro content
    rw [Disk.read_eq_ok_iff, Option.bind_eq_some_iff]
  unfold verified
  cases hp : disk.read p with
  | error fault =>
    simp only [Bool.false_eq_true, false_iff, not_exists, not_and]
    intro content hcontent
    rw [(hread content).mpr hcontent] at hp
    nomatch hp
  | ok content =>
    have hseen := (hread content).mp hp
    simp [hseen]

def Job.wayTo (j : Job) (part : Option Sight) : List Mark :=
  [.accepted, .received part] ++ j.source.digest.toList.map fun _ => .confirmed part

/-- Where a job is on its way, by what it has come past and by what is seen at the target and at the
part file; `before` is what was seen at the target when it began. -/
inductive Stage (j : Job) (before : Option Sight) :
    Phase → List Mark → Option Sight → Option Sight → Prop where
  | looking {phase : Phase} {part : Option Sight}
      (hphase : phase = .verifyTarget ∨ phase = .checkVersion) : Stage j before phase [] before part
  | fetching {phase : Phase} {part : Option Sight}
      (hphase : phase = .prepareDirectory ∨ phase = .beginTransfer ∨ phase = .transferring)
      (hcheck : ClientVersion.check j.client j.oldestClient j.newestClient = .ok ()) :
    Stage j before phase [.accepted] before part
  | received {part : Option Sight}
      (hcheck : ClientVersion.check j.client j.oldestClient j.newestClient = .ok ()) :
    Stage j before .verifyPart [.accepted, .received part] before part
  | discarding {log : List Mark} {failure : Failure} {part : Option Sight}
      (hlog : .installed ∉ log) : Stage j before (.discardPart failure) log before part
  | confirmed {part : Option Sight}
      (hcheck : ClientVersion.check j.client j.oldestClient j.newestClient = .ok ())
      (hagrees : j.Agrees part) : Stage j before .install (j.wayTo part) before part
  | kept {part : Option Sight} (hagrees : j.Agrees before) :
    Stage j before .completed [] before part
  | replaced {s : Sight} {part : Option Sight}
      (hcheck : ClientVersion.check j.client j.oldestClient j.newestClient = .ok ())
      (hagrees : j.Agrees (some s)) :
    Stage j before .completed (j.wayTo (some s) ++ [.installed]) (some s) part
  | failed {log : List Mark} {failure : Failure} {part : Option Sight}
      (hlog : .installed ∉ log) : Stage j before (.failed failure) log before part

private theorem Job.installed_not_mem_wayTo (j : Job) (part : Option Sight) :
    Mark.installed ∉ j.wayTo part := by
  cases hdigest : j.source.digest <;> simp [wayTo, hdigest]

namespace Job

variable {j : Job} {disk disk' : Disk} {phase next : Phase}

theorem agrees_of_none (hdigest : j.source.digest = none) (seen : Option Sight) :
    j.Agrees seen := by
  intro expected hexpected
  rw [hdigest] at hexpected
  nomatch hexpected

theorem agrees_of_verified {p : Path} {expected : String}
    (hdigest : j.source.digest = some expected) (h : verified disk p expected = true) :
    j.Agrees (disk.seen p) := by
  intro other hother
  obtain rfl := Option.some.inj (hother.symm.trans hdigest)
  exact verified_eq_true_iff.mp h

theorem undisturbed_advance (hclear : (j.next phase).outcome? = none → j.Undisturbed disk)
    (hadvance : (j.next phase).Advance disk next disk')
    (hrunning : (j.next next).outcome? = none) : j.Undisturbed disk' := by
  cases hadvance with
  | unverifiable hphase | rejected hphase | accepted hphase | parentless hphase | begun hphase
  | waiting hphase | unverifiedPart hphase | confirmedPart hphase | rejectedPart hphase =>
    cases hphase
    exact hclear rfl
  | prepared hphase hparent hmade =>
    cases hphase
    obtain ⟨hclear', -⟩ := (hclear rfl).makeDirectories hparent
    rwa [hmade] at hclear'
  | confirmed | refused | unprepared | discarded | uninstalled | installed =>
    simp [outcome?] at hrunning
  | ended => exact hclear hrunning

theorem Undisturbed.seen_discard (h : j.Undisturbed disk) :
    (discard disk j.part).seen j.target = disk.seen j.target := by
  unfold discard
  split
  next disk' hremove =>
    have hapart : disk.Apart j.target j.part := Disk.Apart.symm (apart_partFile disk j.target)
    exact (Disk.kept_remove h.sound h.target h.part hapart hremove).seen
  next => rfl

theorem Undisturbed.seen_install (h : j.Undisturbed disk)
    (hrename : disk.rename j.part j.target = .ok disk') :
    ∃ s, disk.seen j.part = some s ∧ disk'.seen j.target = some s :=
  Disk.seen_rename h.sound h.part h.target h.file (apart_partFile disk j.target) hrename

end Job

namespace Stage

variable {j : Job} {before target part : Option Sight} {phase : Phase} {log : List Mark}

private theorem of_looking (h : Stage j before phase log target part)
    (hphase : phase = .verifyTarget ∨ phase = .checkVersion) : log = [] ∧ target = before := by
  cases h with
  | looking => exact ⟨rfl, rfl⟩
  | fetching hfetching => rcases hphase with rfl | rfl <;> simp at hfetching
  | received | discarding | confirmed | kept | replaced | failed => simp at hphase

private theorem of_fetching (h : Stage j before phase log target part)
    (hphase : phase = .prepareDirectory ∨ phase = .beginTransfer ∨ phase = .transferring) :
    log = [.accepted] ∧ target = before ∧
      ClientVersion.check j.client j.oldestClient j.newestClient = .ok () := by
  cases h with
  | looking hlooking => rcases hphase with rfl | rfl | rfl <;> simp at hlooking
  | fetching _ hcheck => exact ⟨rfl, rfl, hcheck⟩
  | received | discarding | confirmed | kept | replaced | failed => simp at hphase

private theorem of_received (h : Stage j before .verifyPart log target part) :
    log = [.accepted, .received part] ∧ target = before ∧
      ClientVersion.check j.client j.oldestClient j.newestClient = .ok () := by
  cases h with
  | looking hphase | fetching hphase => simp at hphase
  | received hcheck => exact ⟨rfl, rfl, hcheck⟩

private theorem of_confirmed (h : Stage j before .install log target part) :
    log = j.wayTo part ∧ target = before ∧
      ClientVersion.check j.client j.oldestClient j.newestClient = .ok () ∧ j.Agrees part := by
  cases h with
  | looking hphase | fetching hphase => simp at hphase
  | confirmed hcheck hagrees => exact ⟨rfl, rfl, hcheck, hagrees⟩

private theorem installed_not_mem (h : Stage j before phase log target part)
    (hrunning : (j.next phase).outcome? = none) : Mark.installed ∉ log ∧ target = before := by
  cases h with
  | looking | fetching | received => simp
  | discarding hlog => exact ⟨hlog, rfl⟩
  | confirmed => exact ⟨j.installed_not_mem_wayTo part, rfl⟩
  | kept | replaced | failed => simp [Job.outcome?] at hrunning

theorem fail (h : Stage j before phase log target part)
    (hrunning : (j.next phase).outcome? = none) (failure : Failure) (part' : Option Sight) :
    Stage j before (.failed failure) log target part' := by
  obtain ⟨hlog, rfl⟩ := h.installed_not_mem hrunning
  exact .failed hlog

theorem advance {disk disk' : Disk} {next : Phase}
    (h : Stage j before phase log (disk.seen j.target) (disk.seen j.part))
    (hclear : (j.next phase).outcome? = none → j.Undisturbed disk)
    (hadvance : (j.next phase).Advance disk next disk') :
    Stage j before next (log ++ (j.next phase).marks next (disk.seen j.part))
      (disk'.seen j.target) (disk'.seen j.part) := by
  cases hadvance with
  | unverifiable hphase | rejected hphase =>
    cases hphase
    obtain ⟨rfl, htarget⟩ := h.of_looking (.inl rfl)
    rw [htarget]
    exact .looking (.inr rfl)
  | confirmed hphase hdigest hverified =>
    cases hphase
    obtain ⟨rfl, htarget⟩ := h.of_looking (.inl rfl)
    have hagrees : j.Agrees (disk.seen j.target) := Job.agrees_of_verified hdigest hverified
    rw [htarget] at hagrees ⊢
    exact .kept hagrees
  | accepted hphase hcheck =>
    cases hphase
    obtain ⟨rfl, htarget⟩ := h.of_looking (.inr rfl)
    rw [htarget]
    exact .fetching (.inl rfl) hcheck
  | parentless hphase | begun hphase | waiting hphase =>
    cases hphase
    obtain ⟨rfl, htarget, hcheck⟩ := h.of_fetching (by simp)
    rw [htarget]
    exact .fetching (by simp) hcheck
  | unprepared hphase hparent hmade =>
    cases hphase
    obtain ⟨-, htarget, -⟩ := (hclear rfl).makeDirectories hparent
    rw [hmade] at htarget
    rw [htarget]
    simpa [Job.marks] using h.fail rfl _ _
  | prepared hphase hparent hmade =>
    cases hphase
    obtain ⟨-, htarget, -⟩ := (hclear rfl).makeDirectories hparent
    obtain ⟨rfl, hbefore, hcheck⟩ := h.of_fetching (.inl rfl)
    rw [hmade] at htarget
    rw [htarget, hbefore]
    exact .fetching (.inr (.inl rfl)) hcheck
  | unverifiedPart hphase hdigest =>
    cases hphase
    obtain ⟨rfl, htarget, hcheck⟩ := h.of_received
    rw [htarget]
    exact .confirmed hcheck (Job.agrees_of_none hdigest _)
  | confirmedPart hphase hdigest hverified =>
    cases hphase
    obtain ⟨rfl, htarget, hcheck⟩ := h.of_received
    rw [htarget]
    exact .confirmed hcheck (Job.agrees_of_verified hdigest hverified)
  | rejectedPart hphase =>
    cases hphase
    obtain ⟨rfl, htarget, -⟩ := h.of_received
    rw [htarget]
    exact .discarding (by simp [Job.marks])
  | discarded hphase =>
    cases hphase
    rw [Job.part_next, (hclear rfl).seen_discard]
    simpa [Job.marks] using h.fail rfl _ _
  | refused hphase | uninstalled hphase =>
    cases hphase
    simpa [Job.marks] using h.fail rfl _ _
  | installed hphase hrename =>
    cases hphase
    obtain ⟨s, hpart, htarget⟩ := (hclear rfl).seen_install hrename
    obtain ⟨rfl, -, hcheck, hagrees⟩ := h.of_confirmed
    rw [hpart] at hagrees ⊢
    rw [htarget]
    exact .replaced hcheck hagrees
  | ended =>
    have hmarks : (j.next phase).marks phase (disk.seen j.part) = [] := by
      cases phase <;> rfl
    rw [Job.phase_next, hmarks, List.append_nil]
    exact h

end Stage

structure Course.Valid (j : Job) (before : Option Sight) (c : Course) : Prop where
  job : c.job = j.next c.job.phase
  clear : c.job.outcome? = none → j.Undisturbed c.disk
  stage : Stage j before c.job.phase c.log (c.disk.seen j.target) (c.disk.seen j.part)

theorem Job.Undisturbed.of_next {j : Job} {phase : Phase} {disk : Disk}
    (h : (j.next phase).Undisturbed disk) : j.Undisturbed disk :=
  ⟨h.sound, h.target, h.part, h.file, h.straight⟩

theorem Course.Valid.step {j : Job} {before : Option Sight} {c c' : Course} (h : c.Valid j before)
    (hstep : Step c c') : c'.Valid j before := by
  obtain ⟨job, disk, log⟩ := c
  obtain ⟨phase, rfl⟩ : ∃ phase, job = j.next phase := ⟨_, h.job⟩
  have hclear : (j.next phase).outcome? = none → j.Undisturbed disk := h.clear
  have hstage : Stage j before phase log (disk.seen j.target) (disk.seen j.part) := h.stage
  cases hstep with
  | advance =>
    obtain ⟨next, disk', hnext, hadvance⟩ := (j.next phase).advance_spec disk
    simp only [Course.advance, hnext]
    exact ⟨rfl, Job.undisturbed_advance hclear hadvance, hstage.advance hclear hadvance⟩
  | write hphase hclear' htarget =>
    cases hphase
    obtain ⟨rfl, hbefore, hcheck⟩ := hstage.of_fetching (.inr (.inr rfl))
    refine ⟨rfl, fun _ => hclear'.of_next, ?_⟩
    rw [← Job.target_next j .transferring, htarget, Job.target_next, hbefore]
    exact .fetching (.inr (.inr rfl)) hcheck
  | transferFailed cause hphase =>
    cases hphase
    obtain ⟨hlog, hbefore⟩ := hstage.installed_not_mem rfl
    refine ⟨rfl, fun _ => hclear rfl, ?_⟩
    rw [hbefore]
    exact .discarding hlog
  | transferred hphase =>
    cases hphase
    obtain ⟨rfl, hbefore, hcheck⟩ := hstage.of_fetching (.inr (.inr rfl))
    refine ⟨rfl, fun _ => hclear rfl, ?_⟩
    rw [hbefore]
    exact .received hcheck
  | others hclear' htarget hpart =>
    refine ⟨rfl, fun _ => hclear'.of_next, ?_⟩
    rw [← Job.target_next j phase, ← Job.part_next j phase, htarget, hpart]
    exact hstage
  | fault failure hrunning =>
    exact ⟨rfl, fun hended => by simp [Job.outcome?] at hended, hstage.fail hrunning failure _⟩
  | unreadable hphase =>
    cases hphase
    obtain ⟨rfl, hbefore⟩ := hstage.of_looking (.inl rfl)
    refine ⟨rfl, fun _ => hclear rfl, ?_⟩
    rw [hbefore]
    exact .looking (.inr rfl)
  | unreadablePart hphase hdigest =>
    cases hphase
    obtain ⟨hlog, hbefore⟩ := hstage.installed_not_mem rfl
    refine ⟨rfl, fun _ => hclear rfl, ?_⟩
    rw [hbefore]
    exact .discarding hlog

theorem Course.Valid.reaches {j : Job} {before : Option Sight} {c c' : Course}
    (h : c.Valid j before) (hreaches : c.Reaches c') : c'.Valid j before := by
  induction hreaches with
  | start => exact h
  | step _ hstep ih => exact ih.step hstep

/-- A job that a request starts changes its target at most once and at one stroke: before it the
target is as it was, after it there is what the part file held when the transfer succeeded, let
through by the version check and, where a digest is expected, confirmed. A job that fails leaves the
target as it was, and the target of a job that completes has the digest that is expected. -/
theorem all_or_nothing {t : Table} {disk : Disk} {now : Stamp} {d : Descriptor} {job : Job}
    (hbirth : (t.birth disk now d).2 = some job) (hclear : job.Undisturbed disk) {c : Course}
    (hreaches : Course.Reaches ⟨job, disk, []⟩ c) :
    (.installed ∉ c.log ∧ c.disk.seen job.target = disk.seen job.target ∨
      ∃ s, c.log = job.wayTo (some s) ++ [.installed] ∧ c.disk.seen job.target = some s ∧
        ClientVersion.check job.client job.oldestClient job.newestClient = .ok () ∧
        job.Agrees (some s)) ∧
      (∀ failure, c.job.phase = .failed failure →
        c.disk.seen job.target = disk.seen job.target) ∧
      (c.job.phase = .completed → ∀ expected, job.source.digest = some expected →
        ∃ content, c.disk.read job.target = .ok content ∧
          Sha256.digest content = Sha256.normalized expected) := by
  have hphase : job.phase = .verifyTarget ∨ job.phase = .checkVersion := by
    obtain ⟨-, -, hjob⟩ := t.birth_job hbirth
    rw [hjob]
    dsimp only
    split <;> simp
  have hstart : Course.Valid job (disk.seen job.target) ⟨job, disk, []⟩ :=
    ⟨rfl, fun _ => hclear, .looking hphase⟩
  obtain ⟨-, -, hstage⟩ := hstart.reaches hreaches
  have hread : job.Agrees (c.disk.seen job.target) →
      ∀ expected, job.source.digest = some expected →
        ∃ content, c.disk.read job.target = .ok content ∧
          Sha256.digest content = Sha256.normalized expected := by
    intro hagrees expected hexpected
    obtain ⟨content, hcontent, hdigest⟩ := hagrees expected hexpected
    exact ⟨content, Disk.read_eq_ok_iff.mpr (Option.bind_eq_some_iff.mp hcontent),
      of_decide_eq_true hdigest⟩
  generalize c.job.phase = phase at hstage ⊢
  generalize c.disk.seen job.target = target at hstage hread ⊢
  generalize c.log = log at hstage ⊢
  cases hstage with
  | looking hphase | fetching hphase =>
    refine ⟨.inl ⟨by simp, rfl⟩, fun _ _ => rfl, ?_⟩
    rintro rfl
    simp at hphase
  | received => exact ⟨.inl ⟨by simp, rfl⟩, fun _ _ => rfl, by simp⟩
  | discarding hlog => exact ⟨.inl ⟨hlog, rfl⟩, fun _ _ => rfl, by simp⟩
  | confirmed => exact ⟨.inl ⟨job.installed_not_mem_wayTo _, rfl⟩, fun _ _ => rfl, by simp⟩
  | kept hagrees => exact ⟨.inl ⟨by simp, rfl⟩, by simp, fun _ => hread hagrees⟩
  | replaced hcheck hagrees =>
    exact ⟨.inr ⟨_, rfl, rfl, hcheck, hagrees⟩, by simp, fun _ => hread hagrees⟩
  | failed hlog => exact ⟨.inl ⟨hlog, rfl⟩, fun _ _ => rfl, by simp⟩

def plain : Descriptor :=
  { name := "m", source := some { url := "http://h/m", cacheFile := some ⟨"m.gguf"⟩ } }

def plainJob : Job where
  model := "m"
  source := { url := "http://h/m", cacheFile := some ⟨"m.gguf"⟩ }
  target := ⟨"m.gguf"⟩
  client := "1.0"
  oldestClient := none
  newestClient := none
  phase := .checkVersion

def plainReceived : Disk :=
  { Disk.empty with
    entries := Disk.empty.entries.insert ["m.gguf.part", "work"] (.file 0)
    contents := Disk.empty.contents.insert 0 ⟨#[1, 2, 3]⟩
    unused := 1 }

theorem all_or_nothing_plain : ∃ c : Course,
    ((Table.start ⟨"models"⟩ "1.0").birth .empty 0 plain).2 = some plainJob ∧
      plainJob.Undisturbed .empty ∧ Course.Reaches ⟨plainJob, .empty, []⟩ c ∧
      c.job.phase = .completed ∧ .installed ∈ c.log ∧
      (.installed ∉ c.log ∧ c.disk.seen plainJob.target = Disk.empty.seen plainJob.target ∨
        ∃ s, c.log = plainJob.wayTo (some s) ++ [.installed] ∧
          c.disk.seen plainJob.target = some s ∧
          ClientVersion.check plainJob.client plainJob.oldestClient plainJob.newestClient = .ok () ∧
          plainJob.Agrees (some s)) := by
  have hbirth : ((Table.start ⟨"models"⟩ "1.0").birth .empty 0 plain).2 = some plainJob := by
    decide +kernel
  have hempty : plainJob.Undisturbed .empty :=
    ⟨Disk.empty_sound, by decide +kernel, by decide +kernel, by decide +kernel,
      [], ["m.gguf"], _, _, by decide +kernel, by decide +kernel, Disk.descend_nil _ _ _⟩
  have hreceived : plainJob.Undisturbed plainReceived :=
    ⟨Disk.empty_sound.insert (by decide +kernel) (by decide +kernel) _ _, by decide +kernel,
      by decide +kernel, by decide +kernel, [], ["m.gguf"], _, _, by decide +kernel,
      by decide +kernel, Disk.descend_nil _ _ _⟩
  let ready : Course := Course.advance (Course.advance (Course.advance ⟨plainJob, .empty, []⟩))
  have hready : Course.Reaches ⟨plainJob, .empty, []⟩ ready :=
    ((Course.Reaches.start.step (.advance _)).step (.advance _)).step (.advance _)
  have hwritten : Course.Reaches ⟨plainJob, .empty, []⟩ { ready with disk := plainReceived } := by
    have hjob : ready.job = plainJob.next .transferring := by decide +kernel
    refine hready.step (.write _ (by decide +kernel) ?_ (by decide +kernel))
    rw [hjob]
    exact ⟨hreceived.sound, hreceived.target, hreceived.part, hreceived.file, hreceived.straight⟩
  have htransferred := hwritten.step (.transferred _ (by decide +kernel))
  have hdone := (htransferred.step (.advance _)).step (.advance _)
  refine ⟨_, hbirth, hempty, hdone, by decide +kernel, by decide +kernel, ?_⟩
  exact (all_or_nothing hbirth hempty hdone).1

/-- A model whose target comes back over two dots. -/
def roundabout : Descriptor :=
  { name := "m", source := some { url := "http://h/m", cacheFile := some ⟨"b/../b"⟩ } }

def roundaboutJob : Job where
  model := "m"
  source := { url := "http://h/m", cacheFile := some ⟨"b/../b"⟩ }
  target := ⟨"b/../b"⟩
  client := "1.0"
  oldestClient := none
  newestClient := none
  phase := .checkVersion

/-- Its directory is made in the place of its target, and stays there when the transfer fails. -/
theorem target_changed_of_roundabout : ∃ c : Course,
    ((Table.start ⟨"models"⟩ "1.0").birth .empty 0 roundabout).2 = some roundaboutJob ∧
      Disk.empty.Sound ∧ Disk.empty.isLink roundaboutJob.target = false ∧
      Disk.empty.isLink roundaboutJob.part = false ∧ Disk.empty.seen roundaboutJob.part = none ∧
      Course.Reaches ⟨roundaboutJob, .empty, []⟩ c ∧ c.job.phase = .failed (.transfer ⟨["boom"]⟩) ∧
      Disk.empty.seen roundaboutJob.target = none ∧
      c.disk.seen roundaboutJob.target = some .directory := by
  have hready := ((Course.Reaches.start.step (.advance ⟨roundaboutJob, .empty, []⟩)).step
    (.advance _)).step (.advance _)
  have hfailed := (hready.step (.transferFailed _ ⟨["boom"]⟩ (by decide +kernel))).step (.advance _)
  exact ⟨_, by decide +kernel, Disk.empty_sound, by decide +kernel, by decide +kernel,
    by decide +kernel, hfailed, by decide +kernel, by decide +kernel, by decide +kernel⟩

end ModelHost.Download
