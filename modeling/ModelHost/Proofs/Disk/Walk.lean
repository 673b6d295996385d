import ModelHost.Disk.Basic

/-!
Walks on a disk. A walk to what a directory holds goes down to the directory first; `descend` is
that part of a walk. What a walk finds depends only on the directories and the links on its way and
on what is at its end.
-/

namespace ModelHost

def Entry.isPassage : Entry → Bool
  | .directory | .link _ => true
  | .file _ | .full | .null => false

namespace Disk

theorem walk_nil (disk : Disk) (links : Nat) (location : Location) :
    disk.walk false links location [] = .ok (location, disk.entries[location]?) := by
  cases links <;> rfl

theorem walk_cons (disk : Disk) (links : Nat) (location : Location) (segment : String)
    (rest : List String) :
    disk.walk false links location (segment :: rest) =
      if Path.isIdle segment then disk.walk false links location rest
      else if segment = ".." then disk.walk false links location.tail rest
      else if nameLimit < segment.utf8ByteSize then .error .longName
      else
        match disk.entries[segment :: location]? with
        | none => if rest = [] then .ok (segment :: location, none) else .error .absent
        | some .directory => disk.walk false links (segment :: location) rest
        | some (.link target) =>
          match links with
          | 0 => .error .manyLinks
          | links + 1 => disk.walk false links (origin target location) (target.segments ++ rest)
        | some entry =>
          if rest = [] then .ok (segment :: location, some entry) else .error .notDirectory := by
  cases hentry : disk.entries[segment :: location]? with
  | none => cases links <;> simp [walk, walkWith, Path.isIdle, hentry]
  | some entry => cases links <;> cases entry <;> simp [walk, walkWith, Path.isIdle, hentry]

/-- Goes along names to a directory: how many more links may be followed there, and its location. -/
def descend (disk : Disk) (links : Nat) (location : Location) (segments : List String) :
    Option (Nat × Location) :=
  match segments with
  | [] => some (links, location)
  | segment :: rest =>
    if Path.isIdle segment then disk.descend links location rest
    else if segment = ".." then disk.descend links location.tail rest
    else if nameLimit < segment.utf8ByteSize then none
    else
      match disk.entries[segment :: location]?, links with
      | some .directory, links => disk.descend links (segment :: location) rest
      | some (.link target), links + 1 =>
        disk.descend links (origin target location) (target.segments ++ rest)
      | _, _ => none
termination_by (links, segments.length)

@[simp] theorem descend_nil (disk : Disk) (links : Nat) (location : Location) :
    disk.descend links location [] = some (links, location) := by
  rw [descend]

theorem descend_cons (disk : Disk) (links : Nat) (location : Location) (segment : String)
    (rest : List String) :
    disk.descend links location (segment :: rest) =
      if Path.isIdle segment then disk.descend links location rest
      else if segment = ".." then disk.descend links location.tail rest
      else if nameLimit < segment.utf8ByteSize then none
      else
        match disk.entries[segment :: location]?, links with
        | some .directory, links => disk.descend links (segment :: location) rest
        | some (.link target), links + 1 =>
          disk.descend links (origin target location) (target.segments ++ rest)
        | _, _ => none := by
  rw [descend.eq_def]

section Step

variable {disk : Disk} {links : Nat} {location : Location} {segment : String} {rest : List String}
  {target : Path}

theorem descend_idle (hidle : Path.isIdle segment = true) :
    disk.descend links location (segment :: rest) = disk.descend links location rest := by
  rw [descend_cons, if_pos hidle]

theorem walk_idle (hidle : Path.isIdle segment = true) :
    disk.walk false links location (segment :: rest) = disk.walk false links location rest := by
  rw [walk_cons, if_pos hidle]

theorem descend_up (hidle : ¬Path.isIdle ".." = true) :
    disk.descend links location (".." :: rest) = disk.descend links location.tail rest := by
  rw [descend_cons, if_neg hidle, if_pos rfl]

theorem walk_up (hidle : ¬Path.isIdle ".." = true) :
    disk.walk false links location (".." :: rest) = disk.walk false links location.tail rest := by
  rw [walk_cons, if_neg hidle, if_pos rfl]

variable (hidle : ¬Path.isIdle segment = true) (hup : ¬segment = "..")

include hidle hup

theorem descend_long (hlong : nameLimit < segment.utf8ByteSize) :
    disk.descend links location (segment :: rest) = none := by
  rw [descend_cons, if_neg hidle, if_neg hup, if_pos hlong]

theorem walk_long (hlong : nameLimit < segment.utf8ByteSize) :
    disk.walk false links location (segment :: rest) = .error .longName := by
  rw [walk_cons, if_neg hidle, if_neg hup, if_pos hlong]

variable (hlong : ¬nameLimit < segment.utf8ByteSize)

include hlong

theorem descend_directory (hentry : disk.entries[segment :: location]? = some .directory) :
    disk.descend links location (segment :: rest) =
      disk.descend links (segment :: location) rest := by
  rw [descend_cons, if_neg hidle, if_neg hup, if_neg hlong]
  simp only [hentry]

theorem walk_directory (hentry : disk.entries[segment :: location]? = some .directory) :
    disk.walk false links location (segment :: rest) =
      disk.walk false links (segment :: location) rest := by
  rw [walk_cons, if_neg hidle, if_neg hup, if_neg hlong]
  simp only [hentry]

theorem descend_link (hentry : disk.entries[segment :: location]? = some (.link target)) :
    disk.descend links.succ location (segment :: rest) =
      disk.descend links (origin target location) (target.segments ++ rest) := by
  rw [descend_cons, if_neg hidle, if_neg hup, if_neg hlong]
  simp only [hentry]

theorem walk_link (hentry : disk.entries[segment :: location]? = some (.link target)) :
    disk.walk false links.succ location (segment :: rest) =
      disk.walk false links (origin target location) (target.segments ++ rest) := by
  rw [walk_cons, if_neg hidle, if_neg hup, if_neg hlong]
  simp only [hentry]

theorem descend_stuck (hdirectory : disk.entries[segment :: location]? = some .directory → False)
    (hlink : ∀ target left, disk.entries[segment :: location]? = some (.link target) →
      links = Nat.succ left → False) :
    disk.descend links location (segment :: rest) = none := by
  rw [descend_cons, if_neg hidle, if_neg hup, if_neg hlong]
  split
  next hentry => exact (hdirectory hentry).elim
  next target links hentry => exact (hlink _ _ hentry rfl).elim
  next => rfl

theorem walk_end (hdirectory : disk.entries[segment :: location]? = some .directory → False)
    (hlink : ∀ target left, disk.entries[segment :: location]? = some (.link target) →
      links = Nat.succ left → False)
    {place : Location} {found : Option Entry}
    (h : disk.walk false links location (segment :: rest) = .ok (place, found)) :
    rest = [] ∧ place = segment :: location ∧ disk.entries[segment :: location]? = found ∧
      ∀ entry, found = some entry → entry.isPassage = false := by
  rw [walk_cons, if_neg hidle, if_neg hup, if_neg hlong] at h
  cases hentry : disk.entries[segment :: location]? with
  | none =>
    simp only [hentry] at h
    split at h
    next hrest =>
      obtain ⟨rfl, rfl⟩ := Prod.mk.inj (Except.ok.inj h)
      exact ⟨hrest, rfl, rfl, by simp⟩
    next => nomatch h
  | some entry =>
    cases entry with
    | directory => exact (hdirectory hentry).elim
    | link target =>
      cases links with
      | zero => simp [hentry] at h
      | succ left => exact (hlink target left hentry rfl).elim
    | file | full | null =>
      simp only [hentry] at h
      split at h
      next hrest =>
        obtain ⟨rfl, rfl⟩ := Prod.mk.inj (Except.ok.inj h)
        exact ⟨hrest, rfl, rfl, by rintro _ ⟨⟩; rfl⟩
      next => nomatch h

theorem walk_name (hlink : ∀ target, disk.entries[segment :: location]? ≠ some (.link target)) :
    disk.walk false links location [segment] =
      .ok (segment :: location, disk.entries[segment :: location]?) := by
  rw [walk_cons, if_neg hidle, if_neg hup, if_neg hlong]
  cases hentry : disk.entries[segment :: location]? with
  | none => rfl
  | some entry =>
    cases entry with
    | directory => rw [walk_nil, hentry]
    | link target => exact absurd hentry (hlink target)
    | file | full | null => rfl

end Step

theorem descend_append (disk : Disk) (links : Nat) (location : Location)
    (segments more : List String) :
    disk.descend links location (segments ++ more) =
      (disk.descend links location segments).bind fun (links, location) =>
        disk.descend links location more := by
  fun_induction descend disk links location segments with
  | case1 => rfl
  | case2 links location segment rest hidle ih => rw [List.cons_append, descend_idle hidle, ih]
  | case3 links location rest hidle ih => rw [List.cons_append, descend_up hidle, ih]
  | case4 links location segment rest hidle hup hlong =>
    rw [List.cons_append, descend_long hidle hup hlong]
    rfl
  | case5 location segment rest hidle hup hlong links hentry ih =>
    rw [List.cons_append, descend_directory hidle hup hlong hentry, ih]
  | case6 location segment rest hidle hup hlong target links hentry ih =>
    rw [List.cons_append, descend_link hidle hup hlong hentry, ← List.append_assoc, ih]
  | case7 links location segment rest hidle hup hlong hdirectory hlink =>
    rw [List.cons_append, descend_stuck hidle hup hlong hdirectory hlink]
    rfl

private theorem descend_of_filter_cons (disk : Disk) (links : Nat) (location : Location)
    {segments names : List String} {name : String}
    (h : segments.filter (!Path.isIdle ·) = name :: names) :
    ∃ rest, rest.filter (!Path.isIdle ·) = names ∧
      disk.descend links location segments = disk.descend links location (name :: rest) := by
  induction segments with
  | nil => nomatch h
  | cons segment rest ih =>
    by_cases hidle : Path.isIdle segment = true
    · rw [List.filter_cons_of_neg (by simp [hidle])] at h
      obtain ⟨rest', hrest, hsame⟩ := ih h
      exact ⟨rest', hrest, by rw [descend_idle hidle, hsame]⟩
    · rw [List.filter_cons_of_pos (by simp [hidle])] at h
      obtain ⟨rfl, rfl⟩ := List.cons.inj h
      exact ⟨rest, rfl, rfl⟩

theorem descend_of_filter_nil (disk : Disk) (links : Nat) (location : Location)
    {segments : List String} (h : segments.filter (!Path.isIdle ·) = []) :
    disk.descend links location segments = some (links, location) := by
  induction segments with
  | nil => rw [descend_nil]
  | cons segment rest ih =>
    by_cases hidle : Path.isIdle segment = true
    · rw [List.filter_cons_of_neg (by simp [hidle])] at h
      rw [descend_idle hidle, ih h]
    · rw [List.filter_cons_of_pos (by simp [hidle])] at h
      nomatch h

private theorem descend_congr {disk : Disk} {links : Nat} {location : Location}
    {segments other : List String}
    (h : other.filter (!Path.isIdle ·) = segments.filter (!Path.isIdle ·)) :
    disk.descend links location other = disk.descend links location segments := by
  -- A link puts the segments of its target before the rest, so the other list cannot be fixed.
  fun_induction descend disk links location segments generalizing other with
  | case1 links location => exact descend_of_filter_nil disk links location h
  | case2 links location segment rest hidle ih =>
    exact ih (h.trans (List.filter_cons_of_neg (by simp [hidle])))
  | case3 links location rest hidle ih =>
    rw [List.filter_cons_of_pos (by simp [hidle])] at h
    obtain ⟨rest', hrest, hsame⟩ := descend_of_filter_cons disk links location h
    rw [hsame, descend_up hidle, ih hrest]
  | case4 links location segment rest hidle hup hlong =>
    rw [List.filter_cons_of_pos (by simp [hidle])] at h
    obtain ⟨rest', -, hsame⟩ := descend_of_filter_cons disk links location h
    rw [hsame, descend_long hidle hup hlong]
  | case5 location segment rest hidle hup hlong links hentry ih =>
    rw [List.filter_cons_of_pos (by simp [hidle])] at h
    obtain ⟨rest', hrest, hsame⟩ := descend_of_filter_cons disk links location h
    rw [hsame, descend_directory hidle hup hlong hentry, ih hrest]
  | case6 location segment rest hidle hup hlong target links hentry ih =>
    rw [List.filter_cons_of_pos (by simp [hidle])] at h
    obtain ⟨rest', hrest, hsame⟩ := descend_of_filter_cons disk links.succ location h
    rw [hsame, descend_link hidle hup hlong hentry]
    apply ih
    rw [List.filter_append, List.filter_append, hrest]
  | case7 links location segment rest hidle hup hlong hdirectory hlink =>
    rw [List.filter_cons_of_pos (by simp [hidle])] at h
    obtain ⟨rest', -, hsame⟩ := descend_of_filter_cons disk links location h
    rw [hsame, descend_stuck hidle hup hlong hdirectory hlink]

theorem descend_filter (disk : Disk) (links : Nat) (location : Location) (segments : List String) :
    disk.descend links location (segments.filter (!Path.isIdle ·)) =
      disk.descend links location segments := by
  apply descend_congr
  rw [List.filter_filter]
  simp

theorem walk_append {disk : Disk} {links : Nat} {location : Location} {segments : List String}
    {left : Nat} {directory : Location}
    (h : disk.descend links location segments = some (left, directory)) (more : List String) :
    disk.walk false links location (segments ++ more) = disk.walk false left directory more := by
  fun_induction descend disk links location segments with
  | case1 =>
    obtain ⟨rfl, rfl⟩ := Prod.mk.inj (Option.some.inj h)
    rfl
  | case2 links location segment rest hidle ih => rw [List.cons_append, walk_idle hidle, ih h]
  | case3 links location rest hidle ih => rw [List.cons_append, walk_up hidle, ih h]
  | case4 | case7 => nomatch h
  | case5 location segment rest hidle hup hlong links hentry ih =>
    rw [List.cons_append, walk_directory hidle hup hlong hentry, ih h]
  | case6 location segment rest hidle hup hlong target links hentry ih =>
    rw [List.cons_append, walk_link hidle hup hlong hentry, ← List.append_assoc, ih h]

theorem walk_of_descend {disk : Disk} {links : Nat} {location : Location} {segments : List String}
    {left : Nat} {directory : Location}
    (h : disk.descend links location segments = some (left, directory)) :
    disk.walk false links location segments = .ok (directory, disk.entries[directory]?) := by
  rw [← List.append_nil segments, walk_append h, walk_nil]

theorem exists_descend_of_walk {disk : Disk} {links : Nat} {location : Location}
    {segments : List String} {segment : String} {found : Location × Option Entry}
    (h : disk.walk false links location (segments ++ [segment]) = .ok found) :
    ∃ left directory, disk.descend links location segments = some (left, directory) := by
  fun_induction descend disk links location segments with
  | case1 => exact ⟨_, _, rfl⟩
  | case2 links location segment' rest hidle ih =>
    rw [List.cons_append, walk_idle hidle] at h
    exact ih h
  | case3 links location rest hidle ih =>
    rw [List.cons_append, walk_up hidle] at h
    exact ih h
  | case4 links location segment' rest hidle hup hlong =>
    rw [List.cons_append, walk_long hidle hup hlong] at h
    nomatch h
  | case5 location segment' rest hidle hup hlong links hentry ih =>
    rw [List.cons_append, walk_directory hidle hup hlong hentry] at h
    exact ih h
  | case6 location segment' rest hidle hup hlong target links hentry ih =>
    rw [List.cons_append, walk_link hidle hup hlong hentry, ← List.append_assoc] at h
    exact ih h
  | case7 links location segment' rest hidle hup hlong hdirectory hlink =>
    obtain ⟨hrest, -⟩ := walk_end hidle hup hlong hdirectory hlink h
    simp at hrest

theorem descend_of_walk {disk : Disk} {links : Nat} {location directory : Location}
    {segments : List String}
    (h : disk.walk false links location segments = .ok (directory, some .directory)) :
    ∃ left, disk.descend links location segments = some (left, directory) := by
  fun_induction descend disk links location segments with
  | case1 =>
    rw [walk_nil] at h
    exact ⟨_, by rw [(Prod.mk.inj (Except.ok.inj h)).1]⟩
  | case2 links location segment rest hidle ih =>
    rw [walk_idle hidle] at h
    exact ih h
  | case3 links location rest hidle ih =>
    rw [walk_up hidle] at h
    exact ih h
  | case4 links location segment rest hidle hup hlong =>
    rw [walk_long hidle hup hlong] at h
    nomatch h
  | case5 location segment rest hidle hup hlong links hentry ih =>
    rw [walk_directory hidle hup hlong hentry] at h
    exact ih h
  | case6 location segment rest hidle hup hlong target links hentry ih =>
    rw [walk_link hidle hup hlong hentry] at h
    exact ih h
  | case7 links location segment rest hidle hup hlong hdirectory hlink =>
    obtain ⟨-, -, hentry, -⟩ := walk_end hidle hup hlong hdirectory hlink h
    exact (hdirectory hentry).elim

def KeepsPassages (disk disk' : Disk) : Prop := ∀ {place : Location} {entry : Entry},
  disk.entries[place]? = some entry → entry.isPassage = true → disk'.entries[place]? = some entry

theorem descend_mono {disk disk' : Disk} (hkeep : disk.KeepsPassages disk')
    {links : Nat} {location : Location} {segments : List String} {left : Nat}
    {directory : Location} (h : disk.descend links location segments = some (left, directory)) :
    disk'.descend links location segments = some (left, directory) := by
  fun_induction descend disk links location segments with
  | case1 => simpa using h
  | case2 links location segment rest hidle ih => rw [descend_idle hidle, ih h]
  | case3 links location rest hidle ih => rw [descend_up hidle, ih h]
  | case4 | case7 => nomatch h
  | case5 location segment rest hidle hup hlong links hentry ih =>
    rw [descend_directory hidle hup hlong (hkeep hentry rfl), ih h]
  | case6 location segment rest hidle hup hlong target links hentry ih =>
    rw [descend_link hidle hup hlong (hkeep hentry rfl), ih h]

theorem walk_mono {disk disk' : Disk} {place : Location} {entry : Entry}
    (hkeep : disk.KeepsPassages disk')
    (hend : disk.entries[place]? = some entry → disk'.entries[place]? = some entry)
    {links : Nat} {location : Location} {segments : List String}
    (h : disk.walk false links location segments = .ok (place, some entry)) :
    disk'.walk false links location segments = .ok (place, some entry) := by
  fun_induction descend disk links location segments with
  | case1 =>
    rw [walk_nil] at h ⊢
    obtain ⟨rfl, hentry⟩ := Prod.mk.inj (Except.ok.inj h)
    rw [hend hentry]
  | case2 links location segment rest hidle ih =>
    rw [walk_idle hidle] at h ⊢
    exact ih h
  | case3 links location rest hidle ih =>
    rw [walk_up hidle] at h ⊢
    exact ih h
  | case4 links location segment rest hidle hup hlong =>
    rw [walk_long hidle hup hlong] at h
    nomatch h
  | case5 location segment rest hidle hup hlong links hentry ih =>
    rw [walk_directory hidle hup hlong hentry] at h
    rw [walk_directory hidle hup hlong (hkeep hentry rfl)]
    exact ih h
  | case6 location segment rest hidle hup hlong target links hentry ih =>
    rw [walk_link hidle hup hlong hentry] at h
    rw [walk_link hidle hup hlong (hkeep hentry rfl)]
    exact ih h
  | case7 links location segment rest hidle hup hlong hdirectory hlink =>
    obtain ⟨rfl, rfl, hentry, hpassage⟩ := walk_end hidle hup hlong hdirectory hlink h
    have hpassage := hpassage entry rfl
    rw [walk_name hidle hup hlong, hend hentry]
    intro target htarget
    obtain rfl := Option.some.inj ((hend hentry).symm.trans htarget)
    nomatch hpassage

end Disk

end ModelHost
