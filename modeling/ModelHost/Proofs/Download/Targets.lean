import ModelHost.Download.Table
import ModelHost.Proofs.Download.Part

/-!
The files of several models that are kept in one directory. Models with different file stems have
different targets and different part files, and no target is a part file. So what a job does to its
own two files, and the making of the directory, changes nothing at the files of the others.
-/

namespace ModelHost

private theorem Disk.apart_of_extends (disk : Disk) {p q base base' : Path} {name name' : String}
    (hp : p.Extends base name) (hq : q.Extends base' name') (hne : name ≠ name') :
    disk.Apart p q := by
  have hlast : ∀ {p base : Path} {name last : String} {directory : Location} {slash : Bool},
      p.Extends base name → disk.site p = .ok (.name directory last slash) → last = name := by
    intro p base name last directory slash hextends hsite
    obtain ⟨front, slashes, left, hroute⟩ := Disk.exists_route hsite
    have hnames := hroute.names.symm.trans hextends.names
    exact (List.cons.inj (List.append_inj' hnames rfl).2).1
  intro directory directory' last last' slash slash' hsite hsite' hsame
  apply hne
  rw [← hlast hp hsite, ← hlast hq hsite', (List.cons.inj hsame).1]

namespace Download

theorem isNameChar_of_mem_fileStem {name : String} {c : Char} (h : c ∈ (fileStem name).toList) :
    isNameChar c = true := by
  rw [fileStem, String.toList_ofList] at h
  obtain ⟨c', -, rfl⟩ := List.mem_map.mp h
  split
  next hname => exact hname
  next => decide +kernel

private theorem not_mem_fileStem (name : String) : '/' ∉ (fileStem name).toList := by
  intro hmem
  exact absurd (isNameChar_of_mem_fileStem hmem) (by decide +kernel)

theorem fileStem_of_isNameChar {name : String} (h : ∀ c ∈ name.toList, isNameChar c = true) :
    fileStem name = name := by
  apply String.toList_injective
  rw [fileStem, String.toList_ofList]
  exact (List.map_congr_left fun c hc => if_pos (h c hc)).trans (List.map_id' _)

private theorem append_ending_inj {stem stem' ending : String}
    (h : stem ++ ending = stem' ++ ending) :
    stem = stem' := by
  have hlist := congrArg String.toList h
  rw [String.toList_append, String.toList_append] at hlist
  exact String.toList_inj.mp (List.append_cancel_right hlist)

private theorem append_gguf_ne_append_part (stem stem' : String) :
    stem ++ ".gguf" ≠ stem' ++ ".part" := by
  intro h
  have hlast := congrArg (·.toList.getLast?) h
  simp at hlast

/-- Says that the models are kept in one directory, each under a file stem of its own. -/
structure Distinct (ds : List Descriptor) : Prop where
  uncached : ∀ d ∈ ds, d.source.bind (·.cacheFile) = none
  stems : ∀ d ∈ ds, ∀ e ∈ ds, fileStem d.name = fileStem e.name → d = e

namespace Table

def files (t : Table) (d : Descriptor) : List Path := [t.target d, partFile (t.target d)]

/-- What the downloads of some models count on: a disk whose paths lead through directories, no
links where they write, no directory at a part file, and targets whose paths do not come back over
two dots from directories that are still to be made. -/
structure Clear (t : Table) (ds : List Descriptor) (disk : Disk) : Prop where
  sound : disk.Sound
  link : ∀ d ∈ ds, ∀ p ∈ t.files d, disk.isLink p = false
  part : ∀ d ∈ ds, disk.seen (partFile (t.target d)) ≠ some .directory
  straight : ∀ d ∈ ds, disk.Straight (t.target d)

variable {t : Table} {ds : List Descriptor} {disk disk' : Disk} {a b : Descriptor}

@[simp] private theorem mem_files {p : Path} :
    p ∈ t.files a ↔ p = t.target a ∨ p = partFile (t.target a) := by
  simp [files]

theorem target_extends (t : Table) {d : Descriptor} (h : d.source.bind (·.cacheFile) = none) :
    (t.target d).Extends t.modelsDirectory (fileStem d.name ++ ".gguf") := by
  have htarget : t.target d = t.modelsDirectory.join ⟨fileStem d.name ++ ".gguf"⟩ := by
    simp [target, h]
  have hslash : '/' ∉ (fileStem d.name ++ ".gguf").toList := by simp [not_mem_fileStem]
  have hlength : 2 < (fileStem d.name ++ ".gguf").length := by
    rw [String.length_append, show ".gguf".length = 5 from rfl]
    omega
  obtain ⟨hreal, hup⟩ := Path.real_of_length hlength
  rw [htarget]
  exact Path.join_extends _ hslash hreal hup

theorem files_extend (t : Table) {d : Descriptor} (h : d.source.bind (·.cacheFile) = none)
    {p : Path} (hp : p ∈ t.files d) :
    p.Extends t.modelsDirectory (fileStem d.name ++ ".gguf") ∨
      p.Extends t.modelsDirectory (fileStem d.name ++ ".gguf" ++ ".part") := by
  rcases mem_files.mp hp with rfl | rfl
  · exact .inl (t.target_extends h)
  · exact .inr (partFile_extends (t.target_extends h))

theorem files_apart (hds : Distinct ds) (ha : a ∈ ds) (hb : b ∈ ds) (hne : a ≠ b) {p q : Path}
    (hp : p ∈ t.files a) (hq : q ∈ t.files b) : disk.Apart p q := by
  have hstems : fileStem a.name ≠ fileStem b.name := fun h => hne (hds.stems a ha b hb h)
  have hmixed := append_gguf_ne_append_part
  rcases t.files_extend (hds.uncached a ha) hp with hp | hp <;>
    rcases t.files_extend (hds.uncached b hb) hq with hq | hq
  · exact disk.apart_of_extends hp hq fun h => hstems (append_ending_inj h)
  · exact disk.apart_of_extends hp hq (hmixed _ _)
  · exact disk.apart_of_extends hp hq (hmixed _ _).symm
  · exact disk.apart_of_extends hp hq fun h => hstems (append_ending_inj (append_ending_inj h))

namespace Clear

theorem of_not_mem (hsound : disk.Sound)
    (h : ∀ d ∈ ds, (∀ p ∈ t.files d, disk.isLink p = false) ∧
      disk.seen (partFile (t.target d)) ≠ some .directory ∧ ".." ∉ (t.target d).names) :
    t.Clear ds disk :=
  ⟨hsound, fun d hd => (h d hd).1, fun d hd => (h d hd).2.1,
    fun d hd => disk.straight_of_not_mem (h d hd).2.2⟩

theorem of_target {t' : Table} (h : t.Clear ds disk)
    (htarget : ∀ d, t'.target d = t.target d) : t'.Clear ds disk where
  sound := h.sound
  link d := by
    rw [files, htarget]
    exact h.link d
  part d := by
    rw [htarget]
    exact h.part d
  straight d := by
    rw [htarget]
    exact h.straight d

theorem alike (h : t.Clear ds disk) {changed : List Location}
    (halike : Disk.AlikeBut changed disk disk') (hsound : disk'.Sound) : t.Clear ds disk' where
  sound := hsound
  link d hd p hp := halike.isLink_eq_false (h.link d hd p hp)
  part d hd := fun hseen => h.part d hd (halike.symm.seen_directory hseen)
  straight d hd := (h.straight d hd).mono halike.keepsPassages halike.working

theorem undisturbed (h : t.Clear ds disk) (hb : b ∈ ds) {job : Job}
    (htarget : job.target = t.target b) : job.Undisturbed disk where
  sound := h.sound
  target := by
    rw [htarget]
    exact h.link b hb _ (by simp)
  part := by
    rw [Job.part, htarget]
    exact h.link b hb _ (by simp)
  file := by
    rw [Job.part, htarget]
    exact h.part b hb
  straight := by
    rw [htarget]
    exact h.straight b hb

theorem makeDirectories (h : t.Clear ds disk) (hds : Distinct ds) (hb : b ∈ ds) {directory : Path}
    (hparent : (t.target b).parent? = some directory) :
    let made := (disk.makeDirectories directory).2
    t.Clear ds made ∧ ∀ a ∈ ds, ∀ p ∈ t.files a, disk.Kept made p := by
  have hextends := t.target_extends (hds.uncached b hb)
  rcases Disk.makeDirectories_kept h.sound (h.straight b hb) hparent with
    hsame | ⟨-, hgrown, hkept⟩
  · rw [hsame]
    exact ⟨h, fun a _ p _ => .refl disk p⟩
  · have hfiles : ∀ a ∈ ds, ∀ p ∈ t.files a,
        disk.Kept (disk.makeDirectories directory).2 p ∧
          (disk.makeDirectories directory).2.isLink p = false := by
      intro a ha p hp
      rcases t.files_extend (hds.uncached a ha) hp with hp | hp <;>
        exact hkept (hextends.parent hparent hp)
    refine ⟨⟨hgrown.sound, fun a ha p hp => (hfiles a ha p hp).2, ?_, ?_⟩,
      fun a ha p hp => (hfiles a ha p hp).1⟩
    · intro a ha
      rw [(hfiles a ha _ (by simp)).1.seen]
      exact h.part a ha
    · exact fun a ha => (h.straight a ha).mono hgrown.keepsPassages hgrown.working

theorem discard (h : t.Clear ds disk) (hds : Distinct ds) (hb : b ∈ ds) :
    let left := Download.discard disk (partFile (t.target b))
    t.Clear ds left ∧ ∀ a ∈ ds, a ≠ b → ∀ p ∈ t.files a, disk.Kept left p := by
  have hpart : partFile (t.target b) ∈ t.files b := by simp
  unfold Download.discard
  split
  next disk' hremove =>
    obtain ⟨directory, name, -, halike, hsound⟩ :=
      Disk.remove_alike h.sound (h.link b hb _ hpart) hremove
    refine ⟨h.alike halike hsound, ?_⟩
    intro a ha hne p hp
    exact Disk.kept_remove h.sound (h.link a ha p hp) (h.link b hb _ hpart)
      (files_apart hds ha hb hne hp hpart) hremove
  next => exact ⟨h, fun a _ _ p _ => .refl disk p⟩

theorem install (h : t.Clear ds disk) (hds : Distinct ds) (hb : b ∈ ds)
    (hrename : disk.rename (partFile (t.target b)) (t.target b) = .ok disk') :
    t.Clear ds disk' ∧ ∀ a ∈ ds, a ≠ b → ∀ p ∈ t.files a, disk.Kept disk' p := by
  have hpart : partFile (t.target b) ∈ t.files b := by simp
  have htarget : t.target b ∈ t.files b := by simp
  have hapart := apart_partFile disk (t.target b)
  have hplink := h.link b hb _ hpart
  have htlink := h.link b hb _ htarget
  obtain ⟨directory, name, directory', name', entry, -, -, -, -, halike, hsound⟩ :=
    Disk.rename_alike h.sound hplink htlink (h.part b hb) hapart hrename
  refine ⟨h.alike halike hsound, ?_⟩
  intro a ha hne p hp
  exact Disk.kept_rename h.sound hplink htlink (h.part b hb) hapart hrename (h.link a ha p hp)
    (files_apart hds ha hb hne hp hpart) (files_apart hds ha hb hne hp htarget)

theorem advance (h : t.Clear ds disk) (hds : Distinct ds) (hb : b ∈ ds) {job : Job}
    (htarget : job.target = t.target b) {phase : Phase} (hadvance : job.Advance disk phase disk') :
    t.Clear ds disk' ∧ ∀ a ∈ ds, a ≠ b → ∀ p ∈ t.files a, disk.Kept disk' p := by
  have hpart : job.part = partFile (t.target b) := by rw [Job.part, htarget]
  cases hadvance with
  | unverifiable | confirmed | rejected | refused | accepted | parentless | begun | waiting
  | unverifiedPart | confirmedPart | rejectedPart | uninstalled | ended =>
    exact ⟨h, fun a _ _ p _ => .refl disk p⟩
  | unprepared _ hparent hmade | prepared _ hparent hmade =>
    rw [htarget] at hparent
    obtain ⟨hclear, hkept⟩ := h.makeDirectories hds hb hparent
    rw [hmade] at hclear hkept
    exact ⟨hclear, fun a ha _ => hkept a ha⟩
  | discarded =>
    rw [hpart]
    exact h.discard hds hb
  | installed _ hrename =>
    rw [hpart, htarget] at hrename
    exact h.install hds hb hrename

end Clear

end Table

end Download

end ModelHost
