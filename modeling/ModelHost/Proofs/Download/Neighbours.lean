import ModelHost.Proofs.Download.Account
import ModelHost.Proofs.Download.Course
import ModelHost.Proofs.Download.Targets

/-!
Neighbouring downloads. Where models have different file stems, the jobs for all of them go on side
by side, in any order, and none of them gets in the way of another one: the weights of a model that
is completed stay as they are, whatever the jobs for the others do. The reason is that a job changes
nothing at the files of others, and that a model that is completed has no job.
-/

namespace ModelHost.Download

namespace Table

variable {t : Table} {disk disk' : Disk} {d : Descriptor}

structure Runs (t : Table) (d : Descriptor) (job : Job) : Prop where
  model : job.model = d.name
  source : d.source = some job.source
  target : job.target = t.target d
  running : job.outcome? = none

/-- Says that the weights of a model are there, with the expected digest if there is one. -/
structure Holds (t : Table) (disk : Disk) (d : Descriptor) : Prop where
  has : disk.has (t.target d) = true
  digest : ∀ expected, d.expectedDigest = some expected →
    verified disk (t.target d) expected = true

theorem Runs.next {job : Job} (h : t.Runs d job) {phase : Phase}
    (hrunning : (job.next phase).outcome? = none) : t.Runs d (job.next phase) :=
  ⟨h.model, h.source, h.target, hrunning⟩

theorem Runs.expectedDigest {job : Job} (h : t.Runs d job) :
    d.expectedDigest = job.source.digest := by
  simp [Descriptor.expectedDigest, h.source]

theorem Holds.kept (h : t.Holds disk d) (hkept : disk.Kept disk' (t.target d)) :
    t.Holds disk' d where
  has := by rw [hkept.has, h.has]
  digest expected hexpected := by
    have hverified := verified_eq_true_iff.mp (h.digest expected hexpected)
    rw [← hkept.seen] at hverified
    exact verified_eq_true_iff.mpr hverified

private theorem Holds.of_target {t' : Table} (h : t.Holds disk d)
    (htarget : t'.target d = t.target d) :
    t'.Holds disk d :=
  ⟨by rw [htarget, h.has], by rw [htarget]; exact h.digest⟩

private theorem holds_of_birth {now : Stamp} (h : (t.birth disk now d).1.status = .completed) :
    t.Holds disk d := by
  unfold birth at h
  dsimp only at h
  split at h
  next hthere =>
    obtain ⟨hhas, hdigest⟩ := Bool.and_eq_true_iff.mp hthere
    refine ⟨hhas, ?_⟩
    intro expected hexpected
    simp [hexpected] at hdigest
  next => split at h <;> simp [Record.finish] at h

theorem Runs.holds_of_seen {job : Job} (h : t.Runs d job) {s : Sight}
    (hseen : disk.seen job.target = some s) (hagrees : job.Agrees (some s)) : t.Holds disk d := by
  rw [h.target] at hseen
  refine ⟨?_, ?_⟩
  · obtain ⟨entry, hentry, -⟩ := Option.map_eq_some_iff.mp hseen
    rw [Disk.has, hentry]
    rfl
  · intro expected hexpected
    rw [h.expectedDigest] at hexpected
    rw [verified_eq_true_iff, hseen]
    exact hagrees expected hexpected

theorem Runs.holds {job : Job} (h : t.Runs d job) (hclear : job.Undisturbed disk)
    (hready : job.phase = .install → job.Agrees (disk.seen job.part)) {phase : Phase}
    (hadvance : job.Advance disk phase disk') (hphase : phase = .completed) :
    t.Holds disk' d := by
  cases hadvance with
  | unverifiable | rejected | refused | accepted | parentless | unprepared | prepared | begun
  | waiting | unverifiedPart | confirmedPart | rejectedPart | discarded | uninstalled =>
    nomatch hphase
  | confirmed _ hdigest hverified =>
    obtain ⟨content, hcontent, -⟩ := verified_eq_true_iff.mp hverified
    obtain ⟨s, hs, -⟩ := Option.bind_eq_some_iff.mp hcontent
    have hagrees := Job.agrees_of_verified hdigest hverified
    rw [hs] at hagrees
    exact h.holds_of_seen hs hagrees
  | installed hinstall hrename =>
    obtain ⟨s, hpart, htarget⟩ := hclear.seen_install hrename
    have hagrees := hready hinstall
    rw [hpart] at hagrees
    exact h.holds_of_seen htarget hagrees
  | ended hended => simp [h.running] at hended

end Table

theorem Job.Advance.agrees {j : Job} {disk disk' : Disk} {phase : Phase}
    (h : j.Advance disk phase disk') (hrunning : j.outcome? = none) (hphase : phase = .install) :
    j.Agrees (disk'.seen j.part) := by
  cases h with
  | unverifiable | confirmed | rejected | refused | accepted | parentless | unprepared | prepared
  | begun | waiting | rejectedPart | discarded | uninstalled | installed => nomatch hphase
  | unverifiedPart _ hdigest => exact Job.agrees_of_none hdigest _
  | confirmedPart _ hdigest hverified => exact Job.agrees_of_verified hdigest hverified
  | ended hended => simp [hrunning] at hended

namespace World

variable {ds : List Descriptor} {w : World} {m : Move} {d : Descriptor}

/-- Says that the files of a model are as before, but for what a transfer writes. -/
def Leaves (w : World) (disk : Disk) (d : Descriptor) : Prop :=
  w.disk.Kept disk (w.table.target d) ∧
    ((∀ job ∈ w.table.jobs, job.model = d.name → job.phase = .transferring) ∨
      w.disk.Kept disk (partFile (w.table.target d)))

instance (w : World) (disk : Disk) (d : Descriptor) : Decidable (w.Leaves disk d) :=
  inferInstanceAs (Decidable (_ ∧ (_ ∨ _)))

/-- Says that a move asks for one of some models only, and that what others do to the disk leaves
the files of these models alone. -/
def Allows (ds : List Descriptor) (w : World) : Move → Prop
  | .request _ d => d ∈ ds
  | .disturb disk => w.table.Clear ds disk ∧ ∀ d ∈ ds, w.Leaves disk d
  | .query _ | .advance _ _ | .report _ _ _ | .transferEnded _ _ | .abandon => True

def AllowsAll (ds : List Descriptor) (w : World) : List Move → Prop
  | [] => True
  | m :: moves => w.Allows ds m ∧ (w.move m).1.AllowsAll ds moves

private theorem allowsAll_append {moves more : List Move} : w.AllowsAll ds (moves ++ more) ↔
    w.AllowsAll ds moves ∧ (w.run moves).1.AllowsAll ds more := by
  induction moves generalizing w with
  | nil => simp [AllowsAll]
  | cons m moves ih => simp [AllowsAll, run_cons, ih, and_assoc]

structure Tidy (ds : List Descriptor) (w : World) : Prop where
  sound : w.table.Sound
  clear : w.table.Clear ds w.disk
  job : ∀ job ∈ w.table.jobs, ∃ d ∈ ds, w.table.Runs d job
  ready : ∀ job ∈ w.table.jobs, job.phase = .install → job.Agrees (w.disk.seen job.part)
  file : ∀ d ∈ ds, ∀ r, w.table.records[d.name]? = some r → r.file = some (w.table.target d)
  completed : ∀ d ∈ ds, ∀ r, w.table.records[d.name]? = some r → r.status = .completed →
    w.table.Holds w.disk d

private theorem target_move (w : World) (m : Move) (d : Descriptor) :
    (w.move m).1.table.target d = w.table.target d :=
  Table.target_eq (w.settings_move m).2 d

private theorem disk_advance {name : String} {job : Job} (hjob : w.table.job? name = some job)
    (now : Stamp) : (w.move (.advance now name)).1.disk = (job.advance w.disk).2 := by
  rcases w.table.advance_cases hjob w.disk now with ⟨outcome, -, hadvance⟩ | ⟨-, hadvance⟩ <;>
    simp [move, hadvance]

theorem Leaves.refl (w : World) (d : Descriptor) : w.Leaves w.disk d :=
  ⟨.refl _ _, .inr (.refl _ _)⟩

namespace Tidy

theorem leaves_move (h : w.Tidy ds) (hds : Distinct ds) (hm : w.Allows ds m) :
    w.table.Clear ds (w.move m).1.disk ∧ ∀ d ∈ ds,
      (∀ now, m = .advance now d.name → w.table.job? d.name = none) →
        w.Leaves (w.move m).1.disk d := by
  cases m with
  | request | query | report | transferEnded | abandon => exact ⟨h.clear, fun d _ _ => .refl w d⟩
  | disturb disk => exact ⟨hm.1, fun d hd _ => hm.2 d hd⟩
  | advance now name =>
    cases hjob : w.table.job? name with
    | none =>
      simp only [move, w.table.advance_of_none hjob]
      exact ⟨h.clear, fun d _ _ => .refl w d⟩
    | some job =>
      obtain ⟨hmem, hname⟩ := Table.job?_mem hjob
      obtain ⟨b, hb, hruns⟩ := h.job job hmem
      obtain ⟨phase, disk', hnext, hadvance⟩ := job.advance_spec w.disk
      obtain ⟨hclear, hkept⟩ := h.clear.advance hds hb hruns.target hadvance
      rw [disk_advance hjob, hnext]
      refine ⟨hclear, ?_⟩
      intro d hd hidle
      have hother : d ≠ b := by
        rintro rfl
        have hsame : name = d.name := hname.symm.trans hruns.model
        have hnone := hidle now (by rw [hsame])
        rw [← hsame, hjob] at hnone
        cases hnone
      exact ⟨hkept d hd hother _ (by simp), .inr (hkept d hd hother _ (by simp))⟩

private theorem kept_move (h : w.Tidy ds) (hds : Distinct ds) (hm : w.Allows ds m) (hd : d ∈ ds)
    {r : Record} (hrecord : w.table.records[d.name]? = some r) (hstatus : r.status = .completed) :
    w.disk.Kept (w.move m).1.disk (w.table.target d) := by
  refine ((h.leaves_move hds hm).2 d hd fun now _ => Table.job?_eq_none_iff.mpr ?_).1
  intro job hjob hmodel
  obtain ⟨r', hrecord', hbusy⟩ := h.sound.busy hjob
  rw [hmodel, hrecord] at hrecord'
  obtain rfl := Option.some.inj hrecord'
  rw [hstatus] at hbusy
  nomatch hbusy

private theorem job_move (h : w.Tidy ds) (hm : w.Allows ds m) :
    ∀ job ∈ (w.move m).1.table.jobs, ∃ d ∈ ds, (w.move m).1.table.Runs d job := by
  intro job hjob
  suffices hruns : ∃ d ∈ ds, w.table.Runs d job by
    obtain ⟨d, hd, hruns⟩ := hruns
    exact ⟨d, hd, hruns.model, hruns.source, by rw [target_move, hruns.target], hruns.running⟩
  cases became hjob with
  | kept hjob => exact h.job job hjob
  | @born now d job hrecord hbirth =>
    obtain ⟨hsource, -, hborn⟩ := w.table.birth_job hbirth
    refine ⟨d, hm, by rw [hborn], hsource, by rw [hborn], ?_⟩
    rcases w.table.birth_phase hbirth with hphase | hphase <;> simp [Job.outcome?, hphase]
  | @advanced now name old hold houtcome =>
    obtain ⟨d, hd, hruns⟩ := h.job old (Table.job?_mem hold).1
    obtain ⟨phase, disk', hnext, -⟩ := old.advance_spec w.disk
    rw [hnext] at houtcome ⊢
    exact ⟨d, hd, hruns.next houtcome⟩
  | @continued name result old hold =>
    obtain ⟨d, hd, hruns⟩ := h.job old (Table.job?_mem (Table.transfer?_eq_some _ hold).1).1
    cases result <;> exact ⟨d, hd, hruns.next rfl⟩

private theorem ready_move (h : w.Tidy ds) (hds : Distinct ds) (hm : w.Allows ds m) :
    ∀ job ∈ (w.move m).1.table.jobs, job.phase = .install →
      job.Agrees ((w.move m).1.disk.seen job.part) := by
  intro job hjob hphase
  cases became hjob with
  | kept hjob hstill =>
    obtain ⟨d, hd, hruns⟩ := h.job job hjob
    have hidle : ∀ now, m = .advance now d.name → w.table.job? d.name = none := by
      intro now hsame
      exact absurd (by rw [hruns.model, hsame]) (hstill now)
    -- A transfer writes to the part file only before the job comes to install it.
    rcases ((h.leaves_move hds hm).2 d hd hidle).2 with hall | hkept
    · have htransferring := hall job hjob hruns.model
      rw [hphase] at htransferring
      cases htransferring
    · have hready := h.ready job hjob hphase
      rw [Job.part, hruns.target] at hready ⊢
      rwa [hkept.seen]
  | born hrecord hbirth =>
    rcases w.table.birth_phase hbirth with hborn | hborn <;>
      · rw [hborn] at hphase
        cases hphase
  | @advanced now name old hold houtcome =>
    obtain ⟨d, hd, hruns⟩ := h.job old (Table.job?_mem hold).1
    obtain ⟨phase, disk', hnext, hadvance⟩ := old.advance_spec w.disk
    rw [disk_advance hold]
    rw [hnext] at hphase ⊢
    exact hadvance.agrees hruns.running hphase
  | @continued name result old hold => cases result <;> cases hphase

private theorem record_move (h : w.Tidy ds) (hds : Distinct ds) (hm : w.Allows ds m) (hd : d ∈ ds)
    {r : Record} (hr : (w.move m).1.table.records[d.name]? = some r) :
    r.file = some (w.table.target d) ∧
      (r.status = .completed → w.table.Holds (w.move m).1.disk d) := by
  -- A record that was completed before the move has kept its weights. One that is completed by the
  -- move is born so or ended by its own job, which was ready for it.
  have hstays : ∀ {r : Record}, w.table.records[d.name]? = some r → r.status = .completed →
      w.table.Holds (w.move m).1.disk d := fun hrecord hstatus =>
    (h.completed d hd _ hrecord hstatus).kept (h.kept_move hds hm hd hrecord hstatus)
  have hrecorded := recorded hr
  generalize hname : d.name = name at hrecorded hstays
  cases hrecorded with
  | kept hrecord => exact ⟨h.file d hd _ (by rw [hname, hrecord]), hstays hrecord⟩
  | @born now e hnone =>
    obtain rfl := hds.stems d hd e hm (congrArg fileStem hname)
    exact ⟨w.table.file_birth _ _ _, Table.holds_of_birth⟩
  | reported hrecord =>
    have hfile := h.file d hd _ (by rw [hname, hrecord])
    exact ⟨hfile, fun hstatus => hstays hrecord hstatus⟩
  | @ended now name job outcome r hjob houtcome hrecord =>
    have hfile := h.file d hd r (by rw [hname, hrecord])
    obtain ⟨hmem, hmodel⟩ := Table.job?_mem hjob
    obtain ⟨e, he, hruns⟩ := h.job job hmem
    obtain rfl := hds.stems d hd e he (congrArg fileStem (by rw [hname, ← hmodel, hruns.model]))
    obtain ⟨phase, disk', hnext, hadvance⟩ := job.advance_spec w.disk
    rw [disk_advance hjob, hnext]
    rw [hnext] at houtcome
    cases outcome with
    | error failure => exact ⟨hfile, fun hstatus => by simp [Record.finish] at hstatus⟩
    | ok =>
      refine ⟨hfile, fun _ => ?_⟩
      refine hruns.holds (h.clear.undisturbed hd hruns.target) (h.ready job hmem) hadvance ?_
      cases phase with
      | completed => rfl
      | failed | verifyTarget | checkVersion | prepareDirectory | beginTransfer | transferring
      | verifyPart | discardPart | install => cases houtcome

theorem move (h : w.Tidy ds) (hds : Distinct ds) (hm : w.Allows ds m) :
    (w.move m).1.Tidy ds where
  sound := (h.sound.move m).1
  clear := (h.leaves_move hds hm).1.of_target (w.target_move m)
  job := h.job_move hm
  ready := h.ready_move hds hm
  file d hd r hr := by
    rw [target_move]
    exact (h.record_move hds hm hd hr).1
  completed d hd r hr hstatus :=
    ((h.record_move hds hm hd hr).2 hstatus).of_target (w.target_move m d)

theorem start {modelsDirectory : Path} {client : String} {disk : Disk}
    (hclear : (Table.start modelsDirectory client).Clear ds disk) :
    (World.start modelsDirectory client disk).Tidy ds where
  sound := .start modelsDirectory client
  clear := hclear
  job := by simp [World.start, Table.start]
  ready := by simp [World.start, Table.start]
  file := by simp [World.start, Table.start]
  completed := by simp [World.start, Table.start]

theorem run (h : w.Tidy ds) (hds : Distinct ds) {moves : List Move}
    (hmoves : w.AllowsAll ds moves) : (w.run moves).1.Tidy ds := by
  induction moves generalizing w with
  | nil => exact h
  | cons m moves ih => exact ih (h.move hds hmoves.1) hmoves.2

theorem kept_run (h : w.Tidy ds) (hds : Distinct ds) {moves : List Move}
    (hmoves : w.AllowsAll ds moves) (hd : d ∈ ds) {r : Record}
    (hrecord : w.table.records[d.name]? = some r) (hstatus : r.status = .completed) :
    w.disk.Kept (w.run moves).1.disk (w.table.target d) := by
  induction moves generalizing w with
  | nil => exact .refl _ _
  | cons m moves ih =>
    have hterminal : r.status.isTerminal = true := by rw [hstatus]; rfl
    have hfirst := h.kept_move hds hmoves.1 hd hrecord hstatus
    have hrest := ih (h.move hds hmoves.1) hmoves.2
      ((h.sound.move m).record_of_terminal hrecord hterminal)
    rw [target_move] at hrest
    exact hfirst.trans hrest

end Tidy

/-- Where models with different file stems are kept in one directory, and nothing but their
downloads changes their files, the weights of a model that is completed are there, and stay as they
are whatever is done next: no move makes, replaces or takes away what is at the file of the record,
and it keeps the digest that is expected. -/
theorem completed_stays (modelsDirectory : Path) (client : String) (disk : Disk)
    (hds : Distinct ds) (hclear : (Table.start modelsDirectory client).Clear ds disk)
    {moves more : List Move}
    (hmoves : (World.start modelsDirectory client disk).AllowsAll ds (moves ++ more)) (hd : d ∈ ds)
    {record : Record}
    (hrecord : ((World.start modelsDirectory client disk).run moves).1.table.records[d.name]? =
      some record)
    (hstatus : record.status = .completed) :
    let w := ((World.start modelsDirectory client disk).run moves).1
    let later := (w.run more).1
    ∃ target, record.file = some target ∧ w.disk.has target = true ∧
      w.disk.Kept later.disk target ∧ later.table.records[d.name]? = some record ∧
      ∀ expected, d.expectedDigest = some expected → ∃ content,
        later.disk.read target = .ok content ∧
          Sha256.digest content = Sha256.normalized expected := by
  intro w later
  obtain ⟨hpast, hmore⟩ := allowsAll_append.mp hmoves
  have htidy : w.Tidy ds := (Tidy.start hclear).run hds hpast
  have hkept := htidy.kept_run hds hmore hd hrecord hstatus
  have hholds := htidy.completed d hd record hrecord hstatus
  have hterminal : record.status.isTerminal = true := by rw [hstatus]; rfl
  refine ⟨w.table.target d, htidy.file d hd record hrecord, hholds.has, hkept,
    (htidy.sound.run more).record_of_terminal hrecord hterminal, ?_⟩
  intro expected hexpected
  obtain ⟨content, hcontent, hdigest⟩ :=
    verified_eq_true_iff.mp ((hholds.kept hkept).digest expected hexpected)
  exact ⟨content, Disk.read_eq_ok_iff.mpr (Option.bind_eq_some_iff.mp hcontent),
    of_decide_eq_true hdigest⟩

end World

def shared (name : String) (digest : Option String) : Descriptor :=
  (Descriptor.ofName name).fetchedFrom "http://h/m" digest

/-- The first half of a download that goes well, up to its transfer. -/
def setOut (name : String) : List Move := [.advance 0 name, .advance 0 name, .advance 0 name]

def arrive (name : String) (received : Disk) : List Move :=
  [.disturb received, .transferEnded name (.ok ()), .advance 0 name, .advance 0 name]

def furnished : Disk :=
  { Disk.empty with entries := Disk.empty.entries.insert ["models", "work"] .directory }

def placed (disk : Disk) (name : String) (content : ByteArray) : Disk :=
  { disk with
    entries := disk.entries.insert [name, "models", "work"] (.file disk.unused)
    contents := disk.contents.insert disk.unused content
    unused := disk.unused + 1 }

private theorem furnished_sound : furnished.Sound :=
  Disk.empty_sound.insert (by decide +kernel) (by decide +kernel) Disk.empty.contents
    Disk.empty.unused

private theorem placed_sound {disk : Disk} (h : disk.Sound) {name : String}
    (hmodels : disk.entries[["models", "work"]]? = some .directory)
    (hfree : disk.entries[[name, "models", "work"]]? = none) (content : ByteArray) :
    (placed disk name content).Sound := h.insert hmodels hfree _ _

def digestOfOne : String := "7692c3ad3540bb803c020b3aee66cd8887123234ea0c6e7143c0add73ff431ed"

def neighbours : List Descriptor := [shared "a" (some digestOfOne), shared "b" none]

def stocked : Disk := placed furnished "a.gguf" "one".toUTF8

def stockedMoves : List Move := [.request 0 (shared "a" (some digestOfOne)), .advance 0 "a"]

def besideMoves : List Move :=
  .request 0 (shared "b" none) :: setOut "b" ++
    arrive "b" (placed stocked "b.gguf.part" "two".toUTF8)

private theorem stocked_sound : stocked.Sound :=
  placed_sound furnished_sound (by decide +kernel) (by decide +kernel) _

private theorem neighbours_distinct : Distinct neighbours := ⟨by decide +kernel, by decide +kernel⟩

private theorem stocked_clear : (Table.start ⟨"models"⟩ "1.0").Clear neighbours stocked :=
  .of_not_mem stocked_sound (by decide +kernel)

private theorem besideMoves_allowed :
    (World.start ⟨"models"⟩ "1.0" stocked).AllowsAll neighbours (stockedMoves ++ besideMoves) := by
  have hreceived : (placed stocked "b.gguf.part" "two".toUTF8).Sound :=
    placed_sound stocked_sound (by decide +kernel) (by decide +kernel) _
  have hclear : (Table.start ⟨"models"⟩ "1.0").Clear neighbours
      (placed stocked "b.gguf.part" "two".toUTF8) := .of_not_mem hreceived (by decide +kernel)
  simp only [stockedMoves, besideMoves, setOut, arrive, List.cons_append, List.nil_append,
    World.AllowsAll, World.Allows, true_and, and_true]
  refine ⟨by decide +kernel, by decide +kernel, hclear.of_target ?_, by decide +kernel⟩
  simp [World.target_move, World.start]

private theorem stockedMoves_completed :
    ((World.start ⟨"models"⟩ "1.0" stocked).run stockedMoves).1.table.records["a"]? =
      some
        { model := "a", status := .completed, file := some ⟨"models/a.gguf"⟩, startedAt := some 0,
          finishedAt := some 0 } := by
  decide +kernel

theorem completed_stays_beside : ∃ target, target = ⟨"models/a.gguf"⟩ ∧
    ((World.start ⟨"models"⟩ "1.0" stocked).run stockedMoves).1.disk.Kept
      (((World.start ⟨"models"⟩ "1.0" stocked).run stockedMoves).1.run besideMoves).1.disk target ∧
    ∃ content,
      (((World.start ⟨"models"⟩ "1.0" stocked).run stockedMoves).1.run besideMoves).1.disk.read
        target = .ok content ∧ Sha256.digest content = Sha256.normalized digestOfOne := by
  obtain ⟨target, htarget, -, hkept, -, hdigest⟩ :=
    World.completed_stays ⟨"models"⟩ "1.0" stocked neighbours_distinct stocked_clear
      besideMoves_allowed (d := shared "a" (some digestOfOne)) (by decide +kernel)
      stockedMoves_completed rfl
  exact ⟨target, (Option.some.inj htarget).symm, hkept, hdigest digestOfOne rfl⟩

/-- Two models with different names and the same file stem. -/
def twins : List Descriptor := [shared "a b" none, shared "a-b" none]

def elderReceived : Disk := placed furnished "a-b.gguf.part" "one".toUTF8

def youngerReceived : Disk :=
  placed (placed furnished "a-b.gguf" "one".toUTF8) "a-b.gguf.part" "two".toUTF8

def elderMoves : List Move :=
  [.request 0 (shared "a b" none), .request 0 (shared "a-b" none)] ++ setOut "a b" ++
    setOut "a-b" ++ arrive "a b" elderReceived

def youngerMoves : List Move := arrive "a-b" youngerReceived

private theorem twins_allowed :
    (World.start ⟨"models"⟩ "1.0" .empty).AllowsAll twins (elderMoves ++ youngerMoves) := by
  have helder : elderReceived.Sound :=
    placed_sound furnished_sound (by decide +kernel) (by decide +kernel) _
  have hinstalled : (placed furnished "a-b.gguf" "one".toUTF8).Sound :=
    placed_sound furnished_sound (by decide +kernel) (by decide +kernel) _
  have hyounger : youngerReceived.Sound :=
    placed_sound hinstalled (by decide +kernel) (by decide +kernel) _
  have helderclear : (Table.start ⟨"models"⟩ "1.0").Clear twins elderReceived :=
    .of_not_mem helder (by decide +kernel)
  have hyoungerclear : (Table.start ⟨"models"⟩ "1.0").Clear twins youngerReceived :=
    .of_not_mem hyounger (by decide +kernel)
  simp only [elderMoves, youngerMoves, setOut, arrive, List.cons_append, List.nil_append,
    World.AllowsAll, World.Allows, true_and, and_true]
  refine ⟨by decide +kernel, by decide +kernel, ⟨helderclear.of_target ?_, by decide +kernel⟩,
    hyoungerclear.of_target ?_, by decide +kernel⟩
  · simp [World.target_move, World.start]
  · simp [World.target_move, World.start]

/-- The download of the one replaces the weights of the other, which is completed. -/
theorem replaced_of_same_stem :
    let start := World.start ⟨"models"⟩ "1.0" .empty
    let w := (start.run elderMoves).1
    (twins.map (·.name)).Nodup ∧ (∀ d ∈ twins, d.source.bind (·.cacheFile) = none) ∧
      start.table.Clear twins .empty ∧ start.AllowsAll twins (elderMoves ++ youngerMoves) ∧
      w.table.records["a b"]? =
        some
          { model := "a b", status := .completed, file := some ⟨"models/a-b.gguf"⟩,
            startedAt := some 0, finishedAt := some 0 } ∧
      w.disk.seen ⟨"models/a-b.gguf"⟩ = some (.file "one".toUTF8) ∧
      (w.run youngerMoves).1.disk.seen ⟨"models/a-b.gguf"⟩ = some (.file "two".toUTF8) :=
  ⟨by decide +kernel, by decide +kernel, .of_not_mem Disk.empty_sound (by decide +kernel),
    twins_allowed, by decide +kernel, by decide +kernel, by decide +kernel⟩

end ModelHost.Download
