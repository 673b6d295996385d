import ModelHost.Proofs.Disk.Sight

/-!
Disks that differ at some places only, at which no path goes on to others. Every path leads to the
same place on the one as on the other, so at the end of a path that names none of these places there
is the same.
-/

namespace ModelHost.Disk

structure Kept (disk disk' : Disk) (p : Path) : Prop where
  entry : disk'.entry? p = disk.entry? p
  seen : disk'.seen p = disk.seen p

instance (disk disk' : Disk) (p : Path) : Decidable (disk.Kept disk' p) :=
  decidable_of_iff (disk'.entry? p = disk.entry? p ∧ disk'.seen p = disk.seen p)
    ⟨fun ⟨hentry, hseen⟩ => ⟨hentry, hseen⟩, fun ⟨hentry, hseen⟩ => ⟨hentry, hseen⟩⟩

namespace Kept

variable {disk disk' disk'' : Disk} {p : Path}

theorem refl (disk : Disk) (p : Path) : disk.Kept disk p := ⟨rfl, rfl⟩

theorem trans (h : disk.Kept disk' p) (h' : disk'.Kept disk'' p) : disk.Kept disk'' p :=
  ⟨h'.entry.trans h.entry, h'.seen.trans h.seen⟩

theorem has (h : disk.Kept disk' p) : disk'.has p = disk.has p := by
  rw [Disk.has, Disk.has, h.entry]

theorem of_resolve (hcontents : disk'.contents = disk.contents)
    (h : ∀ place entry, disk.resolve p = .ok (place, some entry) ↔
      disk'.resolve p = .ok (place, some entry)) : disk.Kept disk' p := by
  have hentry : disk'.entry? p = disk.entry? p := by
    have hsome : ∀ (disk : Disk) (entry : Entry), disk.entry? p = some entry ↔
        ∃ place, disk.resolve p = .ok (place, some entry) := by
      intro disk entry
      unfold entry?
      rcases disk.resolve p with fault | ⟨place, found⟩ <;> simp
    apply Option.ext
    intro entry
    rw [hsome, hsome]
    exact exists_congr fun place => (h place entry).symm
  exact ⟨hentry, by rw [Disk.seen, Disk.seen, hentry, sight_congr hcontents]⟩

end Kept

private theorem site_mono {disk disk' : Disk} (hkeep : disk.KeepsPassages disk')
    (hworking : disk'.working = disk.working) {p : Path} {directory : Location} {name : String}
    {slash : Bool} (h : disk.site p = .ok (.name directory name slash)) :
    disk'.site p = .ok (.name directory name slash) := by
  have hwalk : ∀ {links : Nat} {location place : Location} {segments : List String},
      disk.walk false links location segments = .ok (place, some .directory) →
      disk'.walk false links location segments = .ok (place, some .directory) :=
    walk_mono hkeep (hkeep · rfl)
  unfold site at h ⊢
  rw [hworking]
  cases hcheck : check p with
  | error fault => simp [hcheck, bind, Except.bind] at h
  | ok =>
    simp only [hcheck, bind, Except.bind] at h ⊢
    split at h
    next => nomatch h
    next last hlast =>
      split at h
      next => nomatch h
      next found hfound =>
        split at h
        next place => rw [hwalk hfound]; exact h
        next => nomatch h
        next => nomatch h

/-- Says that two disks differ at some places only, and that neither has a directory or a link at
any of them. -/
structure AlikeBut (changed : List Location) (disk disk' : Disk) : Prop where
  same : ∀ {place : Location}, place ∉ changed → disk'.entries[place]? = disk.entries[place]?
  before : ∀ {place : Location} {entry : Entry}, place ∈ changed →
    disk.entries[place]? = some entry → entry.isPassage = false
  after : ∀ {place : Location} {entry : Entry}, place ∈ changed →
    disk'.entries[place]? = some entry → entry.isPassage = false
  contents : disk'.contents = disk.contents
  working : disk'.working = disk.working

namespace AlikeBut

variable {changed : List Location} {disk disk' : Disk} {p : Path}

theorem symm (h : AlikeBut changed disk disk') : AlikeBut changed disk' disk where
  same hplace := (h.same hplace).symm
  before := h.after
  after := h.before
  contents := h.contents.symm
  working := h.working.symm

theorem keepsPassages (h : AlikeBut changed disk disk') : disk.KeepsPassages disk' := by
  intro place entry hentry hpassage
  have hsame : place ∉ changed := by
    intro hplace
    rw [h.before hplace hentry] at hpassage
    nomatch hpassage
  rw [h.same hsame, hentry]

theorem site_iff (h : AlikeBut changed disk disk') {directory : Location} {name : String}
    {slash : Bool} : disk.site p = .ok (.name directory name slash) ↔
      disk'.site p = .ok (.name directory name slash) :=
  ⟨site_mono h.keepsPassages h.working, site_mono h.symm.keepsPassages h.symm.working⟩

theorem isLink_eq_false (h : AlikeBut changed disk disk') (hlink : disk.isLink p = false) :
    disk'.isLink p = false := by
  unfold isLink
  split
  next directory name slash hsite =>
    cases hentry : disk'.entries[name :: directory]? with
    | none => rfl
    | some entry =>
      by_cases hplace : name :: directory ∈ changed
      · have hpassage := h.after hplace hentry
        cases entry with
        | link => nomatch hpassage
        | directory | file | full | null => rfl
      · rw [h.same hplace] at hentry
        simpa [isLink, h.site_iff.mpr hsite, hentry] using hlink
  next => rfl

theorem sound (h : AlikeBut changed disk disk') (hsound : disk.Sound)
    (hparent : ∀ {name : String} {location : Location} {entry : Entry},
      name :: location ∈ changed → disk'.entries[name :: location]? = some entry →
        disk.entries[location]? = some .directory) : disk'.Sound where
  root := h.keepsPassages hsound.root rfl
  working := by
    rw [h.working]
    exact h.keepsPassages hsound.working rfl
  parent {name location entry} hentry := by
    apply h.keepsPassages _ rfl
    by_cases hplace : name :: location ∈ changed
    · exact hparent hplace hentry
    · rw [h.same hplace] at hentry
      exact hsound.parent hentry

theorem resolve (h : AlikeBut changed disk disk') (hsound : disk.Sound)
    (hlink : disk.isLink p = false)
    (haway : ∀ {directory : Location} {name : String} {slash : Bool},
      disk.site p = .ok (.name directory name slash) → name :: directory ∉ changed)
    {place : Location} {entry : Entry} (hresolve : disk.resolve p = .ok (place, some entry)) :
    disk'.resolve p = .ok (place, some entry) := by
  have hend : disk.entries[place]? = some entry → disk'.entries[place]? = some entry := by
    intro hentry
    by_cases hdirectory : entry = .directory
    · exact h.keepsPassages hentry (by rw [hdirectory]; rfl)
    · obtain ⟨directory, name, hsite, rfl, -⟩ := site_of_resolve hsound hresolve hdirectory hlink
      rw [h.same (haway hsite), hentry]
  rw [resolve_eq_ok_iff] at hresolve ⊢
  rw [h.working]
  exact ⟨hresolve.1, walk_mono h.keepsPassages hend hresolve.2⟩

theorem kept (h : AlikeBut changed disk disk') (hsound : disk.Sound) (hsound' : disk'.Sound)
    (hlink : disk.isLink p = false)
    (haway : ∀ {directory : Location} {name : String} {slash : Bool},
      disk.site p = .ok (.name directory name slash) → name :: directory ∉ changed) :
    disk.Kept disk' p :=
  .of_resolve h.contents fun _ _ =>
    ⟨h.resolve hsound hlink haway,
      h.symm.resolve hsound' (h.isLink_eq_false hlink) fun hsite => haway (h.site_iff.mpr hsite)⟩

theorem seen_directory (h : AlikeBut changed disk disk')
    (hseen : disk.seen p = some .directory) : disk'.seen p = some .directory := by
  rw [seen_eq_some_iff] at hseen ⊢
  obtain ⟨place, entry, hresolve, hsight⟩ := hseen
  cases entry with
  | file | link | full | null => nomatch hsight
  | directory =>
    refine ⟨place, .directory, ?_, rfl⟩
    rw [resolve_eq_ok_iff] at hresolve ⊢
    rw [h.working]
    exact ⟨hresolve.1, walk_mono h.keepsPassages (h.keepsPassages · rfl) hresolve.2⟩

end AlikeBut

end ModelHost.Disk
