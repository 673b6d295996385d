import ModelHost.Proofs.Disk.Replace

/-!
Places that become free. Taking a file away frees the place it had, and so does moving a file, a
link or a directory to another place: a path that named the place before can not name another one
after, since neither operation makes a way that was there lead elsewhere. Only a link that takes the
place of a link can do that.
-/

namespace ModelHost.Disk

/-- Says whether there is something other than a directory at a path; a link counts as it is. -/
def hasFile (disk : Disk) (p : Path) : Bool :=
  match disk.site p with
  | .ok (.name directory name false) =>
    match disk.entries[name :: directory]? with
    | some entry => entry ≠ .directory
    | none => false
  | _ => false

theorem hasFile_iff {disk : Disk} {p : Path} :
    disk.hasFile p = true ↔ ∃ directory name entry,
      disk.site p = .ok (.name directory name false) ∧
        disk.entries[name :: directory]? = some entry ∧ entry ≠ .directory := by
  unfold hasFile
  constructor
  · intro h
    split at h
    next directory name hsite =>
      split at h
      next entry hentry => exact ⟨directory, name, entry, hsite, hentry, of_decide_eq_true h⟩
      next => nomatch h
    next => nomatch h
  · rintro ⟨directory, name, entry, hsite, hentry, hdirectory⟩
    rw [hsite]
    simp [hentry, hdirectory]

private theorem exists_passage_of_descend {disk : Disk} {links : Nat} {location : Location}
    {segment : String} {rest : List String} {found : Nat × Location}
    (hidle : ¬Path.isIdle segment = true) (hup : ¬segment = "..")
    (hlong : ¬nameLimit < segment.utf8ByteSize)
    (h : disk.descend links location (segment :: rest) = some found) :
    ∃ entry, disk.entries[segment :: location]? = some entry ∧ entry.isPassage = true := by
  apply Classical.byContradiction
  intro hnone
  have hstuck : disk.descend links location (segment :: rest) = none :=
    descend_stuck hidle hup hlong (fun hdirectory => hnone ⟨_, hdirectory, rfl⟩)
      fun target _ hlink _ => hnone ⟨_, hlink, rfl⟩
  rw [hstuck] at h
  nomatch h

structure Compatible (disk disk' : Disk) : Prop where
  passages : ∀ {place : Location} {entry entry' : Entry}, disk.entries[place]? = some entry →
    disk'.entries[place]? = some entry' → entry.isPassage = true → entry'.isPassage = true →
      entry' = entry
  working : disk'.working = disk.working

namespace Compatible

variable {disk disk' : Disk} (h : disk.Compatible disk')

include h

theorem descend {links : Nat} {location : Location} {segments : List String}
    {found found' : Nat × Location} (hdescend : disk.descend links location segments = some found)
    (hdescend' : disk'.descend links location segments = some found') : found' = found := by
  fun_induction Disk.descend disk links location segments with
  | case1 =>
    rw [descend_nil] at hdescend'
    exact Option.some.inj (hdescend'.symm.trans hdescend)
  | case2 links location segment rest hidle ih =>
    rw [descend_idle hidle] at hdescend'
    exact ih hdescend hdescend'
  | case3 links location rest hidle ih =>
    rw [descend_up hidle] at hdescend'
    exact ih hdescend hdescend'
  | case4 | case7 => cases hdescend
  | case5 location segment rest hidle hup hlong links hentry ih =>
    obtain ⟨entry, hentry', hpassage⟩ := exists_passage_of_descend hidle hup hlong hdescend'
    obtain rfl := h.passages hentry hentry' rfl hpassage
    rw [descend_directory hidle hup hlong hentry'] at hdescend'
    exact ih hdescend hdescend'
  | case6 location segment rest hidle hup hlong target links hentry ih =>
    obtain ⟨entry, hentry', hpassage⟩ := exists_passage_of_descend hidle hup hlong hdescend'
    obtain rfl := h.passages hentry hentry' rfl hpassage
    rw [descend_link hidle hup hlong hentry'] at hdescend'
    exact ih hdescend hdescend'

theorem site {p : Path} {directory directory' : Location} {name name' : String}
    {slash slash' : Bool}
    (hsite : disk.site p = .ok (.name directory name slash))
    (hsite' : disk'.site p = .ok (.name directory' name' slash')) :
    name' :: directory' = name :: directory := by
  obtain ⟨front, slashes, left, hroute⟩ := exists_route hsite
  obtain ⟨front', slashes', left', hroute'⟩ := exists_route hsite'
  obtain ⟨hfront, hname⟩ := List.append_inj' (hroute.names.symm.trans hroute'.names) rfl
  have hdescend := hroute'.descends
  rw [h.working, ← descend_filter, ← hfront, descend_filter] at hdescend
  have hfound := h.descend hroute.descends hdescend
  rw [(Prod.mk.inj hfound).2, (List.cons.inj hname).1]

theorem hasFile_eq_false {p : Path} {directory : Location} {name : String} {slash : Bool}
    (hsite : disk.site p = .ok (.name directory name slash))
    (hfree : disk'.entries[name :: directory]? = none) : disk'.hasFile p = false := by
  rw [← Bool.not_eq_true, hasFile_iff]
  rintro ⟨directory', name', entry, hsite', hentry, -⟩
  rw [h.site hsite hsite', hfree] at hentry
  nomatch hentry

end Compatible

theorem hasFile_remove {disk disk' : Disk} {p : Path} (hremove : disk.remove p = .ok disk') :
    disk'.hasFile p = false := by
  obtain ⟨directory, name, entry, hsite, -, -, rfl⟩ := remove_eq_ok hremove
  have hcompatible : disk.Compatible
      { disk with entries := disk.entries.erase (name :: directory) } := by
    refine ⟨?_, rfl⟩
    intro place entry entry' hentry hentry' _ _
    rw [Std.TreeMap.getElem?_erase] at hentry'
    split at hentry'
    next => nomatch hentry'
    next => exact Option.some.inj (hentry'.symm.trans hentry)
  exact hcompatible.hasFile_eq_false hsite (by simp)

theorem hasFile_of_remove_error {disk : Disk} {p : Path} {fault : Fault}
    (hremove : disk.remove p = .error fault) : disk.hasFile p = false := by
  rw [← Bool.not_eq_true, hasFile_iff]
  rintro ⟨directory, name, entry, hsite, hentry, hdirectory⟩
  simp [remove, hsite, hentry, bind, Except.bind] at hremove

section Directory

variable {disk : Disk}

theorem Sound.free_above (h : disk.Sound) {location : Location}
    (hfree : ∀ name : String, disk.entries[name :: location]? = none) {above : List String}
    (hsome : above ≠ []) : disk.entries[above ++ location]? = none := by
  induction above with
  | nil => exact absurd rfl hsome
  | cons name above ih =>
    cases above with
    | nil => exact hfree name
    | cons next above => exact h.free_below (ih (by simp)) name

private theorem free_of_children {location : Location} (h : (disk.children location).isEmpty = true)
    (name : String) : disk.entries[name :: location]? = none := by
  cases hentry : disk.entries[name :: location]? with
  | none => rfl
  | some entry =>
    have hmem : (name :: location, entry) ∈ disk.entries.toList :=
      Std.TreeMap.mem_toList_iff_getElem?_eq_some.mpr hentry
    have hchild : (name, entry) ∈ disk.children location := by
      rw [children, List.mem_filterMap]
      exact ⟨_, hmem, by simp⟩
    rw [List.isEmpty_iff.mp h] at hchild
    nomatch hchild

theorem free_of_renameFault? (h : disk.Sound) {source target : Location} {slashed : Bool}
    (hfault : disk.renameFault? source target slashed .directory disk.entries[target]? = none) :
    isWithin source target = false ∧
      (∀ entry, disk.entries[target]? = some entry → entry = .directory) ∧
      ∀ above, above ≠ [] → disk.entries[above ++ target]? = none := by
  unfold renameFault? at hfault
  dsimp only at hfault
  split at hfault
  next => nomatch hfault
  next hwithin =>
    refine ⟨Bool.eq_false_iff.mpr hwithin, ?_⟩
    split at hfault
    next hnone =>
      exact ⟨by simp [hnone], fun above => h.free_above (h.free_below hnone)⟩
    next hdirectory =>
      split at hfault
      next hempty =>
        exact ⟨by simp [hdirectory], fun above => h.free_above (free_of_children hempty)⟩
      next => nomatch hfault
    next => nomatch hfault

private theorem getElem?_foldl_insert {entries : Std.TreeMap Location Entry} {place : Location}
    {entry : Entry} (f : Location → Location) (moved : List (Location × Entry))
    (h : (moved.foldl (fun entries (location, entry) => entries.insert (f location) entry)
      entries)[place]? = some entry) :
    entries[place]? = some entry ∨ ∃ location, (location, entry) ∈ moved ∧ f location = place := by
  induction moved generalizing entries with
  | nil => exact .inl h
  | cons first moved ih =>
    rcases ih h with hentry | ⟨location, hmem, hplace⟩
    · rw [Std.TreeMap.getElem?_insert] at hentry
      split at hentry
      next hsame =>
        obtain rfl := Option.some.inj hentry
        exact .inr ⟨first.1, List.mem_cons_self, by simpa using hsame⟩
      next => exact .inl hentry
    · exact .inr ⟨location, List.mem_cons_of_mem _ hmem, hplace⟩

private theorem getElem?_clear {place location : Location} {entry : Entry} :
    (disk.clear place).entries[location]? = some entry ↔
      isWithin place location = false ∧ disk.entries[location]? = some entry := by
  rw [← Std.TreeMap.mem_toList_iff_getElem?_eq_some, clear, Std.TreeMap.toList_filter,
    List.mem_filter, Std.TreeMap.mem_toList_iff_getElem?_eq_some, and_comm]
  simp

private theorem exists_of_relocate {source target place : Location} {entry : Entry}
    (h : (disk.relocate source target).entries[place]? = some entry) :
    isWithin source place = false ∧ disk.entries[place]? = some entry ∨
      ∃ above, place = above ++ target ∧ disk.entries[above ++ source]? = some entry := by
  rcases getElem?_foldl_insert
      (fun location => location.take (location.length - source.length) ++ target) _ h with
    hkept | ⟨location, hmoved, rfl⟩
  · exact .inl (getElem?_clear.mp hkept)
  · rw [List.mem_filter, Std.TreeMap.mem_toList_iff_getElem?_eq_some] at hmoved
    obtain ⟨hentry, hwithin⟩ := hmoved
    obtain ⟨above, rfl⟩ := List.isSuffixOf_iff_suffix.mp hwithin
    exact .inr ⟨above, by simp, hentry⟩

/-- Moving a directory frees its place and makes no way lead elsewhere. -/
private theorem relocate_compatible (h : disk.Sound) {source target : Location} {slashed : Bool}
    (hentry : disk.entries[source]? = some .directory) (hne : source ≠ target)
    (hfault : disk.renameFault? source target slashed .directory disk.entries[target]? = none) :
    disk.Compatible (relocate (disk.clear target) source target) ∧
      (relocate (disk.clear target) source target).entries[source]? = none := by
  obtain ⟨hwithin, hreplaced, hempty⟩ := free_of_renameFault? h hfault
  -- Nothing was above the target, so what is moved there meets nothing but the target itself.
  have hmeets : ∀ above entry, disk.entries[above ++ target]? = some entry →
      above = [] ∧ entry = .directory := by
    intro above entry hfound
    by_cases hnil : above = []
    · subst hnil
      exact ⟨rfl, hreplaced entry hfound⟩
    · rw [hempty above hnil] at hfound
      nomatch hfound
  constructor
  · refine ⟨?_, rfl⟩
    intro place entry entry' hbefore hafter _ _
    rcases exists_of_relocate hafter with ⟨-, hkept⟩ | ⟨above, rfl, hmoved⟩
    · exact Option.some.inj ((getElem?_clear.mp hkept).2.symm.trans hbefore)
    · obtain ⟨rfl, rfl⟩ := hmeets above entry hbefore
      have hsource := (getElem?_clear.mp hmoved).2
      exact Option.some.inj (hsource.symm.trans hentry)
  · rw [Option.eq_none_iff_forall_ne_some]
    intro entry hafter
    rcases exists_of_relocate hafter with ⟨houtside, -⟩ | ⟨above, hsame, -⟩
    · have hinside : isWithin source source = true :=
        List.isSuffixOf_iff_suffix.mpr (List.suffix_refl source)
      rw [hinside] at houtside
      nomatch houtside
    · rw [hsame] at hentry
      obtain ⟨rfl, -⟩ := hmeets above _ hentry
      exact hne hsame

end Directory

section Rename

variable {disk disk' : Disk} {p q : Path}

theorem rename_directory {directory directory' : Location} {name name' : String}
    {slash slash' : Bool} (hrename : disk.rename p q = .ok disk')
    (hsite : disk.site p = .ok (.name directory name slash))
    (hsite' : disk.site q = .ok (.name directory' name' slash'))
    (hentry : disk.entries[name :: directory]? = some .directory)
    (hne : name :: directory ≠ name' :: directory') :
    disk.renameFault? (name :: directory) (name' :: directory') (slash || slash') .directory
        disk.entries[name' :: directory']? = none ∧
      disk' = relocate (disk.clear (name' :: directory')) (name :: directory)
        (name' :: directory') := by
  unfold rename at hrename
  simp only [hsite, hsite', bind, Except.bind, hentry, if_neg hne] at hrename
  split at hrename
  next => nomatch hrename
  next hfault => exact ⟨hfault, (Except.ok.inj hrename).symm⟩

private theorem isLink_of_passage {directory : Location} {name : String} {entry : Entry}
    (hsite : disk.site p = .ok (.name directory name false))
    (hentry : disk.entries[name :: directory]? = some entry) (hdirectory : entry ≠ .directory)
    (hpassage : entry.isPassage = true) : disk.isLink p = true := by
  cases entry with
  | directory => exact absurd rfl hdirectory
  | link target => simp [isLink, hsite, hentry]
  | file | full | null => cases hpassage

theorem hasFile_rename (hsound : disk.Sound) (hapart : disk.Apart p q)
    (hlinks : ¬(disk.isLink p = true ∧ disk.isLink q = true))
    (hrename : disk.rename p q = .ok disk') : disk'.hasFile p = false := by
  obtain ⟨directory, name, slash, directory', name', slash', entry, hsite, hsite', hentry,
    hcases⟩ := rename_eq_ok hrename
  have hne := hapart hsite hsite'
  by_cases hdirectory : entry = .directory
  · subst hdirectory
    obtain ⟨hfault, rfl⟩ := rename_directory hrename hsite hsite' hentry hne
    obtain ⟨hcompatible, hfree⟩ := relocate_compatible hsound hentry hne hfault
    exact hcompatible.hasFile_eq_false hsite hfree
  obtain ⟨rfl, rfl, hfound, rfl⟩ := (hcases.resolve_left hne).resolve_left hdirectory
  have hcompatible : disk.Compatible { disk with
      entries := (disk.entries.erase (name :: directory)).insert (name' :: directory') entry } := by
    refine ⟨?_, rfl⟩
    intro place before after hbefore hafter hpassage hpassage'
    rw [Std.TreeMap.getElem?_insert] at hafter
    split at hafter
    next hplace =>
      obtain rfl : name' :: directory' = place := by simpa using hplace
      obtain rfl := Option.some.inj hafter
      refine absurd ⟨?_, ?_⟩ hlinks
      · exact isLink_of_passage hsite hentry hdirectory hpassage'
      · exact isLink_of_passage hsite' hbefore (by rintro rfl; exact hfound hbefore) hpassage
    next =>
      rw [Std.TreeMap.getElem?_erase] at hafter
      split at hafter
      next => nomatch hafter
      next => exact Option.some.inj (hafter.symm.trans hbefore)
  apply hcompatible.hasFile_eq_false hsite
  rw [Std.TreeMap.getElem?_insert, if_neg (by simpa using Ne.symm hne)]
  simp

end Rename

end ModelHost.Disk
