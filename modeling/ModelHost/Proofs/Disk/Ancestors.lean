import ModelHost.Proofs.Disk.Directories

/-!
The directories that a path goes through. Where there is something at a path, each of them is there;
and where making one of them has failed, it is not there, so that there is nothing at the path.
-/

namespace ModelHost

namespace Path

structure Above (q p : Path) : Prop where
  text : ∃ more, p.text = q.text ++ more
  names : ∃ more last, p.names = q.names ++ more ++ [last]
  isRooted : q.isRooted = p.isRooted

theorem Above.trans {p q r : Path} (h : r.Above q) (h' : q.Above p) : r.Above p := by
  obtain ⟨more, htext⟩ := h.text
  obtain ⟨more', htext'⟩ := h'.text
  obtain ⟨names, last, hnames⟩ := h.names
  obtain ⟨names', last', hnames'⟩ := h'.names
  exact ⟨⟨more ++ more', by rw [htext', htext, String.append_assoc]⟩,
    ⟨names ++ [last] ++ names', last', by rw [hnames', hnames]; simp⟩,
    h.isRooted.trans h'.isRooted⟩

theorem join_above (base : Path) {name : String} (hslash : '/' ∉ name.toList)
    (hreal : isIdle name = false) : base.Above (base.join ⟨name⟩) := by
  obtain ⟨hnames, hrooted⟩ := base.join_name hslash hreal
  refine ⟨?_, ⟨[], name, by rw [hnames, List.append_nil]⟩, hrooted.symm⟩
  rw [join, if_neg (by simp [isRooted_of_not_mem hslash])]
  split
  next => exact ⟨name, rfl⟩
  next => exact ⟨"/" ++ name, String.append_assoc⟩

private theorem exists_segments_of_parent? {p q : Path} (h : p.parent? = some q)
    (hq : q.text ≠ "") :
    ∃ front back, p.segments = front ++ back ∧ front ≠ [] ∧ back ≠ [] ∧ q = ofSegments front ∧
      front.length < (trimmed p.segments).length := by
  rcases segments_of_parent? h with
    ⟨first, idle, -, -, -, -, rfl⟩ |
    ⟨first, rest, more, last, idle, hsegments, -, -, htrimmed, rfl, -⟩
  · exact absurd rfl hq
  · refine ⟨first :: rest, more ++ [last] ++ idle, by simp [hsegments], by simp, by simp, rfl, ?_⟩
    rw [htrimmed]
    simp

theorem parent?_above {p q : Path} (h : p.parent? = some q) (hq : q.text ≠ "") : q.Above p := by
  rcases parent?_eq_some h with ⟨hempty, -⟩ | ⟨last, -, hnames, hrooted, -⟩
  · exact absurd hempty hq
  refine ⟨?_, ⟨[], last, by rw [hnames, List.append_nil]⟩, hrooted⟩
  obtain ⟨front, back, hsegments, hfront, hback, rfl, -⟩ := exists_segments_of_parent? h hq
  have htext : p.text = "/".intercalate front ++ "/" ++ "/".intercalate back := by
    rw [← intercalate_segments p, hsegments, String.intercalate_append_of_ne_nil hfront hback]
  by_cases hroot : front = [""]
  · subst hroot
    exact ⟨"/".intercalate back, by rw [htext]; simp [ofSegments]⟩
  · exact ⟨"/" ++ "/".intercalate back, by rw [htext, ofSegments_eq hroot, String.append_assoc]⟩

private theorem length_trimmed_le (segments : List String) :
    (trimmed segments).length ≤ segments.length := by
  cases segments with
  | nil => exact Nat.le_refl 0
  | cons first tail =>
    obtain ⟨rest, idle, rfl, htrimmed, -, -⟩ := trimmed_cons first tail
    rw [htrimmed]
    simp

private theorem length_trimmed_pos (p : Path) : 0 < (trimmed p.segments).length := by
  obtain ⟨first, tail, hsegments⟩ := List.exists_cons_of_ne_nil p.segments_ne_nil
  obtain ⟨rest, -, -, htrimmed, -⟩ := trimmed_cons first tail
  rw [hsegments, htrimmed]
  exact Nat.succ_pos _

private theorem length_trimmed_parent? {p q : Path} (h : p.parent? = some q) (hq : q.text ≠ "") :
    (trimmed q.segments).length < (trimmed p.segments).length := by
  obtain ⟨front, back, hsegments, hfront, -, rfl, hlength⟩ := exists_segments_of_parent? h hq
  refine Nat.lt_of_le_of_lt ?_ hlength
  by_cases hroot : front = [""]
  · subst hroot
    decide +kernel
  · have hslash : ∀ segment ∈ front, '/' ∉ segment.toList := fun segment hsegment =>
      not_mem_of_mem_segments (p := p) (by simp [hsegments, hsegment])
    rw [ofSegments_eq hroot, segments_intercalate hfront hslash]
    exact length_trimmed_le front

end Path

namespace Disk

variable {disk : Disk} {p q : Path}

private theorem check_of_above (h : q.Above p) (hq : q.text ≠ "") (hcheck : check p = .ok ()) :
    check q = .ok () := by
  obtain ⟨more, htext⟩ := h.text
  unfold check at hcheck ⊢
  rw [htext] at hcheck
  split at hcheck
  next => nomatch hcheck
  next hnul =>
    split at hcheck
    next => nomatch hcheck
    next =>
      split at hcheck
      next => nomatch hcheck
      next hlong =>
        simp only [String.toList_append, List.contains_eq_mem, List.mem_append, decide_eq_true_eq,
          not_or] at hnul
        rw [String.utf8ByteSize_append] at hlong
        rw [if_neg (by simpa using hnul.1), if_neg hq, if_neg (by omega)]

private theorem hasDirectory_of_descend (hsound : disk.Sound) (hcheck : check q = .ok ())
    {names : List String} {found : Nat × Location}
    (hdescend : disk.descend linkLimit (origin q disk.working) (q.names ++ names) = some found) :
    disk.hasDirectory q = true := by
  rw [descend_append] at hdescend
  obtain ⟨⟨left, directory⟩, hnames, -⟩ := Option.bind_eq_some_iff.mp hdescend
  rw [Path.names, descend_filter] at hnames
  have hwalk := walk_of_descend hnames
  rw [hsound.descend (hsound.origin q hsound.working) hnames] at hwalk
  have hresolve := resolve_eq_ok_iff.mpr ⟨hcheck, hwalk⟩
  simp [hasDirectory, entry?, hresolve]

private theorem exists_descend_of_hasDirectory (h : disk.hasDirectory p = true) :
    check p = .ok () ∧ ∃ found,
      disk.descend linkLimit (origin p disk.working) p.names = some found := by
  unfold hasDirectory entry? at h
  split at h
  next place entry hresolve =>
    obtain rfl : entry = some .directory := of_decide_eq_true h
    obtain ⟨hcheck, hwalk⟩ := resolve_eq_ok_iff.mp hresolve
    obtain ⟨left, hdescend⟩ := descend_of_walk hwalk
    exact ⟨hcheck, _, by rw [Path.names, descend_filter, hdescend]⟩
  next => cases h

section Above

variable (hsound : disk.Sound) (h : q.Above p) (hq : q.text ≠ "")

include hsound h hq

theorem hasDirectory_of_above (hdirectory : disk.hasDirectory p = true) :
    disk.hasDirectory q = true := by
  obtain ⟨hcheck, found, hdescend⟩ := exists_descend_of_hasDirectory hdirectory
  obtain ⟨more, last, hnames⟩ := h.names
  rw [hnames, List.append_assoc, origin, ← h.isRooted] at hdescend
  exact hasDirectory_of_descend hsound (check_of_above h hq hcheck) hdescend

theorem hasDirectory_of_site {directory : Location} {name : String} {slash : Bool}
    (hsite : disk.site p = .ok (.name directory name slash)) : disk.hasDirectory q = true := by
  obtain ⟨front, slashes, left, hroute⟩ := exists_route hsite
  obtain ⟨more, last, hnames⟩ := h.names
  have hfront := (List.append_inj' (hroute.names.symm.trans hnames) rfl).1
  have hdescend := hroute.descends
  rw [← descend_filter, hfront, origin, ← h.isRooted] at hdescend
  exact hasDirectory_of_descend hsound (check_of_above h hq hroute.checked) hdescend

end Above

theorem makeDirectoriesWithin_sound (hsound : disk.Sound) (levels : Nat) (p : Path) :
    (disk.makeDirectoriesWithin levels p).2.Sound := by
  induction levels generalizing p with
  | zero => exact hsound
  | succ levels ih =>
    rw [makeDirectoriesWithin]
    split
    next => exact hsound
    next =>
      split
      next disk' hmake => exact (makeDirectory_grown hsound hmake).1.sound
      next =>
        split
        next => exact hsound
        next q hparent =>
          have habove := ih q
          split
          next hmade => rwa [hmade] at habove
          next hmade =>
            rw [hmade] at habove
            split
            next hprovide => exact (provideDirectory_grownTo habove hprovide).sound habove
            next => exact habove
      next => exact hsound

private theorem hasDirectory_of_makeDirectory (hsound : disk.Sound) (hp : p.text ≠ "")
    (hmake : disk.makeDirectory p = .error .absent) : disk.hasDirectory p = false := by
  rw [← Bool.not_eq_true]
  intro hdirectory
  obtain ⟨-, found, hdescend⟩ := exists_descend_of_hasDirectory hdirectory
  obtain ⟨fault, hfault, hne⟩ := makeDirectory_of_descend hsound hp hdescend
  exact hne (Except.error.inj (hfault.symm.trans hmake))

private theorem provideDirectory_error {fault : Fault}
    (h : disk.provideDirectory p = .error fault) :
    disk.hasDirectory p = false := by
  unfold provideDirectory at h
  split at h
  next => nomatch h
  next =>
    split at h
    next => nomatch h
    next hdirectory => exact Bool.eq_false_iff.mpr hdirectory

private theorem levels_parent {levels : Nat} (hp : p.text ≠ "")
    (hlevels : p.text = "" ∧ 0 < levels + 1 ∨ (Path.trimmed p.segments).length < levels + 1)
    (hparent : p.parent? = some q) :
    q.text = "" ∧ 0 < levels ∨ (Path.trimmed q.segments).length < levels := by
  have hlength := hlevels.resolve_left fun h => hp h.1
  by_cases hq : q.text = ""
  · have hpos := p.length_trimmed_pos
    exact .inl ⟨hq, by omega⟩
  · have hless := Path.length_trimmed_parent? hparent hq
    exact .inr (by omega)

private theorem makeDirectoriesWithin_error (hsound : disk.Sound) {levels : Nat}
    (hlevels : p.text = "" ∧ 0 < levels ∨ (Path.trimmed p.segments).length < levels)
    {fault : Fault} {disk' : Disk}
    (hmade : disk.makeDirectoriesWithin levels p = (.error fault, disk')) :
    p.text ≠ "" ∧ disk'.hasDirectory p = false := by
  induction levels generalizing p fault disk' with
  | zero => simp at hlevels
  | succ levels ih =>
    rw [makeDirectoriesWithin] at hmade
    split at hmade
    next => cases hmade
    next hp =>
      refine ⟨hp, ?_⟩
      split at hmade
      next => cases hmade
      next hmake =>
        split at hmade
        next =>
          obtain ⟨-, rfl⟩ := Prod.mk.inj hmade
          exact hasDirectory_of_makeDirectory hsound hp hmake
        next q hparent =>
          split at hmade
          next fault' made hfailed =>
            obtain ⟨-, rfl⟩ := Prod.mk.inj hmade
            obtain ⟨hq, habsent⟩ := ih (levels_parent hp hlevels hparent) hfailed
            have hsound' := makeDirectoriesWithin_sound hsound levels q
            rw [hfailed] at hsound'
            rw [← Bool.not_eq_true] at habsent ⊢
            exact mt (hasDirectory_of_above hsound' (Path.parent?_above hparent hq) hq) habsent
          next made habove =>
            split at hmade
            next => cases hmade
            next hprovide =>
              obtain ⟨-, rfl⟩ := Prod.mk.inj hmade
              exact provideDirectory_error hprovide
      next =>
        obtain ⟨hfault, rfl⟩ := Prod.mk.inj hmade
        split at hfault
        next => cases hfault
        next hdirectory => exact Bool.eq_false_iff.mpr hdirectory

theorem makeDirectories_sound (hsound : disk.Sound) {result : Except Fault Unit} {disk' : Disk}
    (hmade : disk.makeDirectories p = (result, disk')) : disk'.Sound := by
  have hwithin := makeDirectoriesWithin_sound hsound (p.segments.length + 1) p
  rwa [← makeDirectories, hmade] at hwithin

theorem makeDirectories_error (hsound : disk.Sound) {fault : Fault} {disk' : Disk}
    (hmade : disk.makeDirectories p = (.error fault, disk')) :
    p.text ≠ "" ∧ disk'.hasDirectory p = false :=
  makeDirectoriesWithin_error hsound
    (.inr (Nat.lt_succ_of_le (Path.length_trimmed_le p.segments))) hmade

end Disk

end ModelHost
