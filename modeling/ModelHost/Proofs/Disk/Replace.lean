import ModelHost.Disk.Edit
import ModelHost.Proofs.Disk.Alike

/-!
Taking a file away and moving a file in the place of another one, by what is seen at two paths that
name different places.
-/

namespace ModelHost.Disk

def Apart (disk : Disk) (p q : Path) : Prop :=
  ∀ ⦃directory directory' : Location⦄ ⦃name name' : String⦄ ⦃slash slash' : Bool⦄,
    disk.site p = .ok (.name directory name slash) →
    disk.site q = .ok (.name directory' name' slash') → name :: directory ≠ name' :: directory'

theorem Apart.symm {disk : Disk} {p q : Path} (h : disk.Apart p q) : disk.Apart q p :=
  fun _ _ _ _ _ _ hq hp => (h hp hq).symm

theorem remove_eq_ok {disk disk' : Disk} {p : Path} (h : disk.remove p = .ok disk') :
    ∃ directory name entry, disk.site p = .ok (.name directory name false) ∧
      disk.entries[name :: directory]? = some entry ∧ entry ≠ .directory ∧
      disk' = { disk with entries := disk.entries.erase (name :: directory) } := by
  unfold remove at h
  cases hsite : disk.site p with
  | error fault => simp [hsite, bind, Except.bind] at h
  | ok site =>
    simp only [hsite, bind, Except.bind] at h
    cases site with
    | special => nomatch h
    | name directory name slash =>
      dsimp only at h
      split at h
      next => nomatch h
      next => nomatch h
      next entry hdirectory hentry =>
        cases slash with
        | true => nomatch h
        | false =>
          exact ⟨directory, name, entry, rfl, hentry, hdirectory, (Except.ok.inj h).symm⟩

private theorem renameFault?_eq_none {disk : Disk} {source target : Location} {slashed : Bool}
    {entry : Entry} {found : Option Entry} (hentry : entry ≠ .directory)
    (h : disk.renameFault? source target slashed entry found = none) :
    slashed = false ∧ found ≠ some .directory := by
  cases entry with
  | directory => exact absurd rfl hentry
  | file | link | full | null =>
    simp only [renameFault?] at h
    split at h
    next => nomatch h
    next hslashed =>
      split at h
      next => nomatch h
      next =>
        split at h
        next => nomatch h
        next hfound => exact ⟨Bool.eq_false_iff.mpr hslashed, hfound⟩

theorem rename_eq_ok {disk disk' : Disk} {p q : Path} (h : disk.rename p q = .ok disk') :
    ∃ directory name slash directory' name' slash' entry,
      disk.site p = .ok (.name directory name slash) ∧
      disk.site q = .ok (.name directory' name' slash') ∧
      disk.entries[name :: directory]? = some entry ∧
      (name :: directory = name' :: directory' ∨ entry = .directory ∨
        slash = false ∧ slash' = false ∧ disk.entries[name' :: directory']? ≠ some .directory ∧
          disk' = { disk with
            entries := (disk.entries.erase (name :: directory)).insert (name' :: directory')
              entry }) := by
  unfold rename at h
  cases hp : disk.site p with
  | error fault => simp [hp, bind, Except.bind] at h
  | ok site =>
    cases hq : disk.site q with
    | error fault => simp [hp, hq, bind, Except.bind] at h
    | ok site' =>
      simp only [hp, hq, bind, Except.bind] at h
      cases site with
      | special => nomatch h
      | name directory name slash =>
        cases site' with
        | special => nomatch h
        | name directory' name' slash' =>
          dsimp only at h
          split at h
          next => nomatch h
          next entry hentry =>
            refine ⟨directory, name, slash, directory', name', slash', entry, rfl, rfl, hentry, ?_⟩
            split at h
            next hsame => exact .inl hsame
            next =>
              split at h
              next => nomatch h
              next hfault =>
                split at h
                next hdirectory => exact .inr (.inl hdirectory)
                next hdirectory =>
                  obtain ⟨hslashed, hfound⟩ := renameFault?_eq_none hdirectory hfault
                  obtain ⟨hslash, hslash'⟩ := Bool.or_eq_false_iff.mp hslashed
                  exact .inr (.inr ⟨hslash, hslash', hfound, (Except.ok.inj h).symm⟩)

private theorem ne_link_of_isLink {disk : Disk} {p : Path} {directory : Location} {name : String}
    {slash : Bool} (hlink : disk.isLink p = false)
    (hsite : disk.site p = .ok (.name directory name slash)) (target : Path) :
    disk.entries[name :: directory]? ≠ some (.link target) := by
  intro hentry
  simp [isLink, hsite, hentry] at hlink

private theorem isPassage_eq_false {entry : Entry} (hdirectory : entry ≠ .directory)
    (hlink : ∀ target, entry ≠ .link target) : entry.isPassage = false := by
  cases entry with
  | directory => exact absurd rfl hdirectory
  | link target => exact absurd rfl (hlink target)
  | file | full | null => rfl

theorem remove_alike {disk disk' : Disk} (hsound : disk.Sound) {p : Path}
    (hlink : disk.isLink p = false) (hremove : disk.remove p = .ok disk') :
    ∃ directory name, disk.site p = .ok (.name directory name false) ∧
      AlikeBut [name :: directory] disk disk' ∧ disk'.Sound := by
  obtain ⟨directory, name, entry, hsite, hentry, hdirectory, rfl⟩ := remove_eq_ok hremove
  have hpassage : entry.isPassage = false :=
    isPassage_eq_false hdirectory fun target htarget =>
      ne_link_of_isLink hlink hsite target (by rw [hentry, htarget])
  have halike : AlikeBut [name :: directory] disk
      { disk with entries := disk.entries.erase (name :: directory) } := by
    refine ⟨?_, ?_, ?_, rfl, rfl⟩
    · intro place hplace
      have hne : name :: directory ≠ place := fun hsame => hplace (by simp [hsame])
      simp [Std.TreeMap.getElem?_erase, hne]
    · intro place found hplace hfound
      obtain rfl := List.mem_singleton.mp hplace
      obtain rfl := Option.some.inj (hentry.symm.trans hfound)
      exact hpassage
    · intro place found hplace hfound
      obtain rfl := List.mem_singleton.mp hplace
      simp at hfound
  refine ⟨directory, name, hsite, halike, halike.sound hsound ?_⟩
  intro name' location found hplace hfound
  obtain ⟨rfl, rfl⟩ := List.cons.inj (List.mem_singleton.mp hplace)
  simp at hfound

theorem kept_remove {disk disk' : Disk} (hsound : disk.Sound) {p q : Path}
    (hp : disk.isLink p = false) (hq : disk.isLink q = false) (hapart : disk.Apart p q)
    (hremove : disk.remove q = .ok disk') : disk.Kept disk' p := by
  obtain ⟨directory, name, hsite, halike, hsound'⟩ := remove_alike hsound hq hremove
  exact halike.kept hsound hsound' hp fun hsite' => by simpa using hapart hsite' hsite

section Rename

variable {disk disk' : Disk} {p q : Path} (hsound : disk.Sound) (hp : disk.isLink p = false)
  (hq : disk.isLink q = false) (hdirectory : disk.seen p ≠ some .directory)
  (hapart : disk.Apart p q) (hrename : disk.rename p q = .ok disk')

include hsound hp hq hdirectory hapart hrename

theorem rename_alike : ∃ directory name directory' name' entry,
    disk.site p = .ok (.name directory name false) ∧
      disk.site q = .ok (.name directory' name' false) ∧
      disk.entries[name :: directory]? = some entry ∧
      disk'.entries[name' :: directory']? = some entry ∧
      AlikeBut [name :: directory, name' :: directory'] disk disk' ∧ disk'.Sound := by
  obtain ⟨directory, name, slash, directory', name', slash', entry, hsite, hsite', hentry,
    hcases⟩ := rename_eq_ok hrename
  have hlink := ne_link_of_isLink hp hsite
  have hnodirectory : entry ≠ .directory := by
    rintro rfl
    exact hdirectory (seen_of_resolve (resolve_of_directory hsite hentry))
  rcases hcases with hsame | hsame | ⟨rfl, rfl, hfound, rfl⟩
  · exact absurd hsame (hapart hsite hsite')
  · exact absurd hsame hnodirectory
  have hmoved : entry.isPassage = false :=
    isPassage_eq_false hnodirectory fun target htarget => hlink target (by rw [hentry, htarget])
  have hreplaced : ∀ entry', disk.entries[name' :: directory']? = some entry' →
      entry'.isPassage = false := by
    intro entry' hentry'
    refine isPassage_eq_false (by rintro rfl; exact hfound hentry') ?_
    rintro target rfl
    exact ne_link_of_isLink hq hsite' target hentry'
  have hafter : ∀ {place : Location} {found : Entry},
      ((disk.entries.erase (name :: directory)).insert (name' :: directory') entry)[place]? =
        some found → place ∈ [name :: directory, name' :: directory'] →
      place = name' :: directory' ∧ found = entry := by
    intro place found hplace hmem
    rw [Std.TreeMap.getElem?_insert] at hplace
    split at hplace
    next hsame =>
      have hplace' : name' :: directory' = place := by simpa using hsame
      exact ⟨hplace'.symm, by simpa using hplace.symm⟩
    next hother =>
      rcases List.mem_cons.mp hmem with rfl | hmem
      · simp at hplace
      · simp [List.mem_singleton.mp hmem] at hother
  have halike : AlikeBut [name :: directory, name' :: directory'] disk
      { disk with
        entries :=
          (disk.entries.erase (name :: directory)).insert (name' :: directory') entry } := by
    refine ⟨?_, ?_, ?_, rfl, rfl⟩
    · intro place hplace
      simp only [List.mem_cons, List.not_mem_nil, or_false, not_or] at hplace
      simp [Std.TreeMap.getElem?_insert, Std.TreeMap.getElem?_erase, Ne.symm hplace.1,
        Ne.symm hplace.2]
    · intro place found hplace hentry'
      rcases List.mem_cons.mp hplace with rfl | hplace
      · obtain rfl := Option.some.inj (hentry.symm.trans hentry')
        exact hmoved
      · obtain rfl := List.mem_singleton.mp hplace
        exact hreplaced found hentry'
    · intro place found hplace hentry'
      obtain ⟨-, rfl⟩ := hafter hentry' hplace
      exact hmoved
  obtain ⟨front, slashes, left, hroute⟩ := exists_route hsite'
  refine ⟨directory, name, directory', name', entry, hsite, hsite', hentry, by simp, halike,
    halike.sound hsound ?_⟩
  intro name'' location found hplace hentry'
  obtain ⟨-, rfl⟩ := List.cons.inj (hafter hentry' hplace).1
  exact hroute.entry

theorem seen_rename : ∃ s, disk.seen p = some s ∧ disk'.seen q = some s := by
  obtain ⟨directory, name, directory', name', entry, hsite, hsite', hentry, hentry', halike, -⟩ :=
    rename_alike hsound hp hq hdirectory hapart hrename
  have hlink' := ne_link_of_isLink (halike.isLink_eq_false hq) (halike.site_iff.mp hsite')
  refine ⟨disk.sight entry, ?_, ?_⟩
  · rw [seen_of_resolve (resolve_of_site hsite (ne_link_of_isLink hp hsite)), hentry]
    rfl
  · rw [seen_of_resolve (resolve_of_site (halike.site_iff.mp hsite') hlink'), hentry']
    exact congrArg some (congrFun (sight_congr halike.contents) entry)

theorem kept_rename {r : Path} (hr : disk.isLink r = false) (hrp : disk.Apart r p)
    (hrq : disk.Apart r q) : disk.Kept disk' r := by
  obtain ⟨directory, name, directory', name', entry, hsite, hsite', -, -, halike, hsound'⟩ :=
    rename_alike hsound hp hq hdirectory hapart hrename
  refine halike.kept hsound hsound' hr fun hsite'' => ?_
  rw [List.mem_cons, List.mem_singleton, not_or]
  exact ⟨hrp hsite'' hsite, hrq hsite'' hsite'⟩

end Rename

end ModelHost.Disk
