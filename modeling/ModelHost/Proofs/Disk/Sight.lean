import ModelHost.Proofs.Disk.Walk
import ModelHost.Proofs.Path

/-!
What is seen at a path, and where. The disk is sound when the way up from every place goes through
directories. On a sound disk a path that leads to something other than a directory, and is no link,
names the place of it.
-/

namespace ModelHost

-- Other libraries bring an instance of their own; the contents of files are compared by this one.
local instance decideContent : DecidableEq ByteArray := ByteArray.instDecidableEq

inductive Sight where
  | directory
  | file (content : ByteArray)
  | link (target : Path)
  | full
  | null
deriving DecidableEq

def Sight.content? : Sight → Option ByteArray
  | .file content => some content
  | .full | .null => some .empty
  | .directory | .link _ => none

namespace Disk

def sight (disk : Disk) : Entry → Sight
  | .directory => .directory
  | .file number => .file (disk.content number)
  | .link target => .link target
  | .full => .full
  | .null => .null

def seen (disk : Disk) (p : Path) : Option Sight := (disk.entry? p).map disk.sight

def isLink (disk : Disk) (p : Path) : Bool :=
  match disk.site p with
  | .ok (.name directory name _) =>
    match disk.entries[name :: directory]? with
    | some (.link _) => true
    | _ => false
  | _ => false

/-- What a disk has to have for its paths to lead through directories only. -/
structure Sound (disk : Disk) : Prop where
  root : disk.entries[([] : Location)]? = some .directory
  working : disk.entries[disk.working]? = some .directory
  parent : ∀ {name : String} {location : Location} {entry : Entry},
    disk.entries[name :: location]? = some entry → disk.entries[location]? = some .directory

theorem resolve_eq_ok_iff {disk : Disk} {p : Path} {found : Location × Option Entry} :
    disk.resolve p = .ok found ↔ check p = .ok () ∧
      disk.walk false linkLimit (origin p disk.working) p.segments = .ok found := by
  unfold resolve
  cases hcheck : check p with
  | error fault => simp [bind, Except.bind]
  | ok => simp [bind, Except.bind]

theorem read_eq_ok_iff {disk : Disk} {p : Path} {content : ByteArray} :
    disk.read p = .ok content ↔ ∃ s, disk.seen p = some s ∧ s.content? = some content := by
  unfold read seen entry?
  cases hresolve : disk.resolve p with
  | error fault => simp [bind, Except.bind]
  | ok found =>
    obtain ⟨location, entry⟩ := found
    cases entry with
    | none => simp [bind, Except.bind]
    | some entry => cases entry <;> simp [bind, Except.bind, sight, Sight.content?]

theorem seen_of_resolve {disk : Disk} {p : Path} {place : Location} {found : Option Entry}
    (h : disk.resolve p = .ok (place, found)) : disk.seen p = found.map disk.sight := by
  unfold seen entry?
  rw [h]

theorem seen_eq_some_iff {disk : Disk} {p : Path} {s : Sight} :
    disk.seen p = some s ↔
      ∃ place entry, disk.resolve p = .ok (place, some entry) ∧ disk.sight entry = s := by
  unfold seen entry?
  cases hresolve : disk.resolve p with
  | error fault => simp
  | ok found =>
    obtain ⟨place, found⟩ := found
    cases found with
    | none => simp
    | some entry =>
      simp only [Option.map_some, Option.some.injEq, Except.ok.injEq, Prod.mk.injEq]
      constructor
      · exact fun hsight => ⟨place, entry, ⟨rfl, rfl⟩, hsight⟩
      · rintro ⟨_, _, ⟨rfl, rfl⟩, hsight⟩
        exact hsight

theorem sight_congr {disk disk' : Disk} (h : disk'.contents = disk.contents) :
    disk'.sight = disk.sight := by
  funext entry
  cases entry <;> simp [sight, content, h]

theorem empty_sound : Disk.empty.Sound where
  root := by decide +kernel
  working := by decide +kernel
  parent := by
    intro name location entry hentry
    have hkey : name :: location ∈ firstEntries.map Prod.fst := by
      have hmem : name :: location ∈ Disk.empty.entries := by
        rw [Std.TreeMap.mem_iff_isSome_getElem?, hentry]
        rfl
      simpa [Disk.empty] using hmem
    simp only [firstEntries, List.map_cons, List.map_nil, List.mem_cons, List.cons.injEq,
      List.not_mem_nil, or_false] at hkey
    rcases hkey with hkey | ⟨-, rfl⟩ | ⟨-, rfl⟩ | ⟨-, rfl⟩ | ⟨-, rfl⟩
    · nomatch hkey
    all_goals decide +kernel

theorem entry_insert_of_free {disk : Disk} {free place : Location} {entry other : Entry}
    (hfree : disk.entries[free]? = none) (hentry : disk.entries[place]? = some entry) :
    (disk.entries.insert free other)[place]? = some entry := by
  have hne : free ≠ place := by
    rintro rfl
    rw [hfree] at hentry
    nomatch hentry
  simp [Std.TreeMap.getElem?_insert, hne, hentry]

namespace Sound

variable {disk : Disk}

theorem insert (h : disk.Sound) {directory : Location} {name : String} {entry : Entry}
    (hdirectory : disk.entries[directory]? = some .directory)
    (hfree : disk.entries[name :: directory]? = none) (contents : Std.TreeMap Nat ByteArray)
    (unused : Nat) :
    ({ disk with
      entries := disk.entries.insert (name :: directory) entry
      contents
      unused } : Disk).Sound := by
  refine ⟨entry_insert_of_free hfree h.root, entry_insert_of_free hfree h.working, ?_⟩
  intro other location found hfound
  apply entry_insert_of_free hfree
  by_cases hsame : name :: directory = other :: location
  · rw [← (List.cons.inj hsame).2, hdirectory]
  · rw [Std.TreeMap.getElem?_insert, if_neg (by simpa using hsame)] at hfound
    exact h.parent hfound

theorem free_below (h : disk.Sound) {location : Location}
    (hfree : disk.entries[location]? = none) (name : String) :
    disk.entries[name :: location]? = none := by
  cases hentry : disk.entries[name :: location]? with
  | none => rfl
  | some entry =>
    rw [h.parent hentry] at hfree
    nomatch hfree

theorem tail (h : disk.Sound) {location : Location}
    (hlocation : disk.entries[location]? = some .directory) :
    disk.entries[location.tail]? = some .directory := by
  cases location with
  | nil => exact h.root
  | cons name location => exact h.parent hlocation

theorem origin (h : disk.Sound) (p : Path) {location : Location}
    (hlocation : disk.entries[location]? = some .directory) :
    disk.entries[Disk.origin p location]? = some .directory := by
  unfold Disk.origin
  split
  next => exact h.root
  next => exact hlocation

theorem descend (h : disk.Sound) {links left : Nat} {location directory : Location}
    {segments : List String} (hlocation : disk.entries[location]? = some .directory)
    (hdescend : disk.descend links location segments = some (left, directory)) :
    disk.entries[directory]? = some .directory := by
  fun_induction Disk.descend disk links location segments with
  | case1 =>
    obtain ⟨rfl, rfl⟩ := Prod.mk.inj (Option.some.inj hdescend)
    exact hlocation
  | case2 links location segment rest hidle ih => exact ih hlocation hdescend
  | case3 links location rest hidle ih => exact ih (h.tail hlocation) hdescend
  | case4 | case7 => cases hdescend
  | case5 location segment rest hidle hup hlong links hentry ih => exact ih hentry hdescend
  | case6 location segment rest hidle hup hlong target links hentry ih =>
    exact ih (h.origin target hlocation) hdescend

end Sound

theorem exists_slashes (segments : List String) :
    ∃ slashes, segments = withoutSlashes segments ++ slashes ∧
      (∀ segment ∈ slashes, Path.isIdle segment = true) ∧
      ∀ last ∈ (withoutSlashes segments).getLast?, last ≠ "" := by
  refine ⟨(segments.reverse.takeWhile (· = "")).reverse, ?_, ?_, ?_⟩
  · rw [withoutSlashes, ← List.reverse_append, List.takeWhile_append_dropWhile,
      List.reverse_reverse]
  · intro segment hsegment
    have hempty := List.all_eq_true.mp List.all_takeWhile segment (List.mem_reverse.mp hsegment)
    simp [Path.isIdle, of_decide_eq_true hempty]
  · intro last hlast
    rw [withoutSlashes, List.getLast?_reverse] at hlast
    have hnot := List.head?_dropWhile_not (fun segment : String => decide (segment = ""))
      segments.reverse
    rw [hlast] at hnot
    simpa using hnot

/-- How a path that names a place goes there: along the segments in front to the directory of the
place, and from there by the name. -/
structure Route (disk : Disk) (p : Path) (directory : Location) (name : String) (slash : Bool)
    (front slashes : List String) (left : Nat) : Prop where
  checked : check p = .ok ()
  segments : p.segments = front ++ [name] ++ slashes
  idle : ∀ segment ∈ slashes, Path.isIdle segment = true
  bare : slash = false → slashes = []
  descends : disk.descend linkLimit (origin p disk.working) front = some (left, directory)
  entry : disk.entries[directory]? = some .directory
  real : Path.isIdle name = false
  notUp : name ≠ ".."
  short : ¬nameLimit < name.utf8ByteSize

section Site

variable {disk : Disk} {p : Path} {directory : Location} {name : String} {front : List String}
  {left : Nat}

private theorem Route.segments_bare {slashes : List String}
    (h : disk.Route p directory name false front slashes left) : p.segments = front ++ [name] := by
  rw [h.segments, h.bare rfl, List.append_nil]

theorem Route.names {slash : Bool} {slashes : List String}
    (h : disk.Route p directory name slash front slashes left) :
    p.names = front.filter (!Path.isIdle ·) ++ [name] := by
  rw [Path.names_of_segments h.segments h.idle, List.filter_append]
  simp [h.real]

theorem exists_route {slash : Bool} (h : disk.site p = .ok (.name directory name slash)) :
    ∃ front slashes left, disk.Route p directory name slash front slashes left := by
  unfold site at h
  cases hcheck : check p with
  | error fault => simp [hcheck, bind, Except.bind] at h
  | ok =>
    obtain ⟨slashes, hsegments, hslashes, hslash⟩ := exists_slashes p.segments
    simp only [hcheck, bind, Except.bind] at h
    split at h
    next => cases h
    next last hlast =>
      obtain ⟨front, hfront⟩ := List.getLast?_eq_some_iff.mp hlast
      split at h
      next => cases h
      next found hwalk =>
        split at h
        next directory' =>
          rw [hfront, List.dropLast_concat] at hwalk
          split at h
          next => cases h
          next hspecial =>
            split at h
            next => cases h
            next hlong =>
              rw [not_or] at hspecial
              obtain ⟨rfl, rfl, hcount⟩ := Site.name.inj (Except.ok.inj h)
              obtain ⟨left, hdescend⟩ := descend_of_walk hwalk
              have hentry := walk_of_descend hdescend
              rw [hwalk] at hentry
              refine ⟨front, slashes, left, hcheck, by rw [← hfront, ← hsegments], hslashes, ?_,
                hdescend, ((Prod.mk.inj (Except.ok.inj hentry)).2).symm, ?_, hspecial.2, hlong⟩
              · rintro rfl
                have hlength := congrArg List.length hsegments
                have hfewer := of_decide_eq_false hcount
                rw [List.length_append] at hlength
                apply List.eq_nil_of_length_eq_zero
                omega
              · simp [Path.isIdle, hspecial.1, hslash last hlast]
        next => cases h
        next => cases h

theorem site_of_descend (hsound : disk.Sound) (hcheck : check p = .ok ())
    (hsegments : p.segments = front ++ [name])
    (hdescend : disk.descend linkLimit (origin p disk.working) front = some (left, directory))
    (hidle : Path.isIdle name = false) (hup : name ≠ "..")
    (hlong : ¬nameLimit < name.utf8ByteSize) :
    disk.site p = .ok (.name directory name false) := by
  obtain ⟨hempty, hdot⟩ : name ≠ "" ∧ name ≠ "." := by simpa [Path.isIdle] using hidle
  have hkept : withoutSlashes (front ++ [name]) = front ++ [name] := by
    rw [withoutSlashes, List.reverse_append]
    simp [hempty]
  have hwalk := walk_of_descend hdescend
  rw [hsound.descend (hsound.origin p hsound.working) hdescend] at hwalk
  unfold site
  simp [hcheck, bind, Except.bind, hkept, hwalk, hdot, hup, hlong, hsegments]

theorem resolve_of_site (h : disk.site p = .ok (.name directory name false))
    (hlink : ∀ target, disk.entries[name :: directory]? ≠ some (.link target)) :
    disk.resolve p = .ok (name :: directory, disk.entries[name :: directory]?) := by
  obtain ⟨front, slashes, left, hroute⟩ := exists_route h
  rw [resolve_eq_ok_iff, hroute.segments_bare, walk_append hroute.descends]
  exact ⟨hroute.checked, walk_name (by simp [hroute.real]) hroute.notUp hroute.short hlink⟩

theorem resolve_of_directory {slash : Bool} (h : disk.site p = .ok (.name directory name slash))
    (hentry : disk.entries[name :: directory]? = some .directory) :
    disk.resolve p = .ok (name :: directory, some .directory) := by
  obtain ⟨front, slashes, left, hroute⟩ := exists_route h
  have hnone : slashes.filter (!Path.isIdle ·) = [] := by simpa using hroute.idle
  rw [resolve_eq_ok_iff, hroute.segments, List.append_assoc, walk_append hroute.descends,
    List.cons_append, walk_directory (by simp [hroute.real]) hroute.notUp hroute.short hentry,
    List.nil_append, walk_of_descend (descend_of_filter_nil disk left (name :: directory) hnone),
    hentry]
  exact ⟨hroute.checked, rfl⟩

theorem site_of_resolve (hsound : disk.Sound) {place : Location} {entry : Entry}
    (h : disk.resolve p = .ok (place, some entry)) (hentry : entry ≠ .directory)
    (hlink : disk.isLink p = false) :
    ∃ directory name, disk.site p = .ok (.name directory name false) ∧ place = name :: directory ∧
      disk.entries[place]? = some entry := by
  obtain ⟨hcheck, hwalk⟩ := resolve_eq_ok_iff.mp h
  obtain hnil | ⟨front, last, hsegments⟩ := List.eq_nil_or_concat p.segments
  · exact absurd hnil p.segments_ne_nil
  rw [List.concat_eq_append] at hsegments
  rw [hsegments] at hwalk
  obtain ⟨left, directory, hdescend⟩ := exists_descend_of_walk hwalk
  have hdirectory := hsound.descend (hsound.origin p hsound.working) hdescend
  rw [walk_append hdescend] at hwalk
  by_cases hidle : Path.isIdle last = true
  · rw [walk_idle hidle, walk_nil, hdirectory] at hwalk
    exact absurd (Option.some.inj (Prod.mk.inj (Except.ok.inj hwalk)).2).symm hentry
  by_cases hup : last = ".."
  · subst hup
    rw [walk_up hidle, walk_nil, hsound.tail hdirectory] at hwalk
    exact absurd (Option.some.inj (Prod.mk.inj (Except.ok.inj hwalk)).2).symm hentry
  by_cases hlong : nameLimit < last.utf8ByteSize
  · rw [walk_long hidle hup hlong] at hwalk
    nomatch hwalk
  have hsite := site_of_descend hsound hcheck hsegments hdescend (Bool.eq_false_iff.mpr hidle) hup
    hlong
  have hnolink : ∀ target, disk.entries[last :: directory]? ≠ some (.link target) := by
    intro target htarget
    simp [isLink, hsite, htarget] at hlink
  rw [walk_name hidle hup hlong hnolink] at hwalk
  obtain ⟨rfl, hfound⟩ := Prod.mk.inj (Except.ok.inj hwalk)
  exact ⟨directory, last, hsite, rfl, hfound⟩

end Site

end Disk

end ModelHost
