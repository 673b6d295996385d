import ModelHost.Disk.Edit
import ModelHost.Proofs.Disk.Alike

/-!
Making directories. Nothing that is there is lost by it, and where anything was made, the last
directory of the path is new or missing, so that nothing is in it. A path that goes on from there
with one more name therefore leads to nothing, before and after. Only a path that comes back over
two dots from a directory that is made for it can meet this directory.
-/

namespace ModelHost.Disk

structure Grown (disk disk' : Disk) : Prop where
  keeps : ∀ {place : Location} {entry : Entry},
    disk.entries[place]? = some entry → disk'.entries[place]? = some entry
  contents : disk'.contents = disk.contents
  working : disk'.working = disk.working
  sound : disk'.Sound

def Fresh (disk : Disk) (p : Path) : Prop := ∀ left directory,
  disk.descend linkLimit (origin p disk.working) p.names = some (left, directory) →
    ∀ name : String, disk.entries[name :: directory]? = none

/-- Says that a path comes back over two dots only from directories that are there. -/
def Straight (disk : Disk) (p : Path) : Prop := ∃ front back left directory,
  p.names = front ++ back ∧ ".." ∉ back ∧
    disk.descend linkLimit (origin p disk.working) front = some (left, directory)

section Descent

variable {disk : Disk} {p : Path} {links left : Nat} {location place : Location}
  {names : List String} {name : String}

private theorem exists_entry_of_descend (hidle : Path.isIdle name = false) (hup : name ≠ "..")
    (h : disk.descend links location (names ++ [name]) = some (left, place)) :
    ∃ left' directory, disk.descend links location names = some (left', directory) ∧
      ∃ entry, disk.entries[name :: directory]? = some entry := by
  rw [descend_append] at h
  obtain ⟨⟨left', directory⟩, hnames, hname⟩ := Option.bind_eq_some_iff.mp h
  refine ⟨left', directory, hnames, ?_⟩
  dsimp only at hname
  rw [descend_cons, if_neg (by simp [hidle]), if_neg hup] at hname
  cases hentry : disk.entries[name :: directory]? with
  | none => simp [hentry] at hname
  | some entry => exact ⟨entry, rfl⟩

end Descent

namespace Grown

variable {disk disk' disk'' : Disk}

theorem trans (h : disk.Grown disk') (h' : disk'.Grown disk'') : disk.Grown disk'' :=
  ⟨fun hentry => h'.keeps (h.keeps hentry), h'.contents.trans h.contents,
    h'.working.trans h.working, h'.sound⟩

theorem keepsPassages (h : disk.Grown disk') : disk.KeepsPassages disk' :=
  fun hentry _ => h.keeps hentry

theorem resolve (h : disk.Grown disk') {p : Path} {place : Location} {entry : Entry}
    (hresolve : disk.resolve p = .ok (place, some entry)) :
    disk'.resolve p = .ok (place, some entry) := by
  rw [resolve_eq_ok_iff] at hresolve ⊢
  rw [h.working]
  exact ⟨hresolve.1, walk_mono h.keepsPassages h.keeps hresolve.2⟩

theorem kept (h : disk.Grown disk') {p : Path} (hnone : disk'.seen p = none) :
    disk.Kept disk' p := by
  refine .of_resolve h.contents fun place entry => ⟨h.resolve, fun hresolve => ?_⟩
  rw [seen_of_resolve hresolve] at hnone
  nomatch hnone

end Grown

private theorem grown_insert {disk : Disk} (h : disk.Sound) {directory : Location} {name : String}
    (hdirectory : disk.entries[directory]? = some .directory)
    (hfree : disk.entries[name :: directory]? = none) :
    disk.Grown { disk with entries := disk.entries.insert (name :: directory) .directory } :=
  ⟨entry_insert_of_free hfree, rfl, rfl, h.insert hdirectory hfree disk.contents disk.unused⟩

theorem makeDirectory_grown {disk disk' : Disk} (h : disk.Sound) {p : Path}
    (hmake : disk.makeDirectory p = .ok disk') : disk.Grown disk' ∧ disk'.Fresh p := by
  unfold makeDirectory at hmake
  cases hsite : disk.site p with
  | error fault => simp [hsite, bind, Except.bind] at hmake
  | ok site =>
    simp only [hsite, bind, Except.bind] at hmake
    cases site with
    | special => nomatch hmake
    | name directory name slash =>
      obtain ⟨front, slashes, left, hroute⟩ := exists_route hsite
      dsimp only at hmake
      split at hmake
      next => nomatch hmake
      next hfree =>
        obtain rfl := Except.ok.inj hmake
        have hgrown := grown_insert h hroute.entry hfree
        refine ⟨hgrown, ?_⟩
        intro left' directory' hdescend' other
        have hfront := descend_mono hgrown.keepsPassages hroute.descends
        rw [hroute.names, descend_append, hgrown.working, descend_filter, hfront] at hdescend'
        dsimp only [Option.bind_some] at hdescend'
        rw [descend_directory (by simp [hroute.real]) hroute.notUp hroute.short (by simp),
          descend_nil] at hdescend'
        obtain ⟨-, rfl⟩ := Prod.mk.inj (Option.some.inj hdescend')
        rw [Std.TreeMap.getElem?_insert, if_neg (by simp)]
        exact h.free_below hfree other

private theorem Fresh.append {disk : Disk} {p q : Path} {name : String} (h : disk.Fresh q)
    (hnames : p.names = q.names ++ [name]) (hroot : q.isRooted = p.isRooted)
    (hidle : Path.isIdle name = false) (hup : name ≠ "..") : disk.Fresh p := by
  intro left directory hdescend
  rw [hnames] at hdescend
  obtain ⟨left', directory', hparent, entry, hentry⟩ := exists_entry_of_descend hidle hup hdescend
  rw [origin, ← hroot] at hparent
  rw [h left' directory' hparent name] at hentry
  nomatch hentry

def GrownTo (disk disk' : Disk) (p : Path) : Prop := disk' = disk ∨ disk.Grown disk' ∧ disk'.Fresh p

theorem GrownTo.sound {disk disk' : Disk} {p : Path} (h : disk.GrownTo disk' p)
    (hsound : disk.Sound) : disk'.Sound := by
  rcases h with rfl | ⟨hgrown, -⟩
  · exact hsound
  · exact hgrown.sound

theorem GrownTo.trans {disk disk' disk'' : Disk} {p : Path} (h : disk.GrownTo disk' p)
    (h' : disk'.GrownTo disk'' p) : disk.GrownTo disk'' p := by
  rcases h' with rfl | ⟨hgrown', hfresh⟩
  · exact h
  · rcases h with rfl | ⟨hgrown, -⟩
    · exact .inr ⟨hgrown', hfresh⟩
    · exact .inr ⟨hgrown.trans hgrown', hfresh⟩

theorem provideDirectory_grownTo {disk disk' : Disk} (h : disk.Sound) {p : Path}
    (hprovide : disk.provideDirectory p = .ok disk') : disk.GrownTo disk' p := by
  unfold provideDirectory at hprovide
  split at hprovide
  next disk'' hmake =>
    obtain rfl := Except.ok.inj hprovide
    exact .inr (makeDirectory_grown h hmake)
  next =>
    split at hprovide
    next => exact .inl (Except.ok.inj hprovide).symm
    next => nomatch hprovide

private theorem check_ne_absent {p : Path} {fault : Fault} (hp : p.text ≠ "")
    (h : check p = .error fault) : fault ≠ .absent := by
  unfold check at h
  rw [if_neg hp] at h
  split at h
  next =>
    obtain rfl := Except.error.inj h
    simp
  next =>
    split at h
    next =>
      obtain rfl := Except.error.inj h
      simp
    next => nomatch h

theorem makeDirectory_of_descend {disk : Disk} (h : disk.Sound) {p : Path} (hp : p.text ≠ "")
    {left : Nat} {location : Location}
    (hdescend : disk.descend linkLimit (origin p disk.working) p.names = some (left, location)) :
    ∃ fault, disk.makeDirectory p = .error fault ∧ fault ≠ .absent := by
  cases hcheck : check p with
  | error fault =>
    refine ⟨fault, ?_, check_ne_absent hp hcheck⟩
    simp [makeDirectory, site, hcheck, bind, Except.bind]
  | ok =>
    refine ⟨.exists, ?_, by simp⟩
    rw [Path.names, descend_filter] at hdescend
    obtain ⟨slashes, hsegments, hslashes, hslash⟩ := exists_slashes p.segments
    unfold makeDirectory site
    cases hlast : (withoutSlashes p.segments).getLast? with
    | none => simp [hcheck, hlast, bind, Except.bind]
    | some last =>
      obtain ⟨front, hfront⟩ := List.getLast?_eq_some_iff.mp hlast
      rw [hsegments, hfront, List.append_assoc, descend_append] at hdescend
      obtain ⟨⟨left', directory⟩, hparent, hrest⟩ := Option.bind_eq_some_iff.mp hdescend
      have hwalk := walk_of_descend hparent
      rw [h.descend (h.origin p h.working) hparent] at hwalk
      have hdrop : (withoutSlashes p.segments).dropLast = front := by
        rw [hfront, List.dropLast_concat]
      simp only [hcheck, hlast, bind, Except.bind, hdrop, hwalk]
      by_cases hspecial : last = "." ∨ last = ".."
      · simp [hspecial]
      · rw [not_or] at hspecial
        have hidle : ¬Path.isIdle last = true := by
          simp [Path.isIdle, hslash last hlast, hspecial.1]
        dsimp only at hrest
        rw [List.cons_append, descend_cons, if_neg hidle, if_neg hspecial.2] at hrest
        split at hrest
        next => cases hrest
        next hlong =>
          cases hfound : disk.entries[last :: directory]? with
          | none => simp [hfound] at hrest
          | some entry => simp [hspecial, hlong, hfound]

private theorem makeDirectoriesWithin_of_descend {disk : Disk} (h : disk.Sound) (levels : Nat)
    {p : Path} {left : Nat} {location : Location}
    (hdescend : disk.descend linkLimit (origin p disk.working) p.names = some (left, location)) :
    (disk.makeDirectoriesWithin levels p).2 = disk := by
  cases levels with
  | zero => rfl
  | succ levels =>
    rw [makeDirectoriesWithin]
    split
    next => rfl
    next hp =>
      obtain ⟨fault, hmake, hfault⟩ := makeDirectory_of_descend h hp hdescend
      rw [hmake]
      split
      next hok => nomatch hok
      next habsent => exact absurd (Except.error.inj habsent) hfault
      next => rfl

private theorem Straight.cases {disk : Disk} {p q : Path} {last : String} (h : disk.Straight p)
    (hnames : p.names = q.names ++ [last]) (hroot : q.isRooted = p.isRooted) :
    (∃ left location,
        disk.descend linkLimit (origin p disk.working) p.names = some (left, location)) ∨
      disk.Straight q ∧ last ≠ ".." := by
  obtain ⟨front, back, left, directory, hsplit, hup, hdescend⟩ := h
  rcases List.eq_nil_or_concat back with rfl | ⟨back, name, rfl⟩
  · rw [List.append_nil] at hsplit
    exact .inl ⟨left, directory, by rw [hsplit, hdescend]⟩
  · rw [List.concat_eq_append] at hsplit hup
    rw [hnames, ← List.append_assoc] at hsplit
    obtain ⟨hfront, hname⟩ := List.append_inj' hsplit rfl
    obtain rfl := (List.cons.inj hname).1
    rw [List.mem_append, not_or] at hup
    have horigin : origin q disk.working = origin p disk.working := by
      simp only [origin, hroot]
    refine .inr ⟨⟨front, back, left, directory, hfront, hup.1, by rw [horigin, hdescend]⟩, ?_⟩
    exact fun hlast => hup.2 (by simp [hlast])

private theorem makeDirectoriesWithin_empty (disk : Disk) (levels : Nat) {p : Path}
    (h : p.text = "") :
    (disk.makeDirectoriesWithin levels p).2 = disk := by
  cases levels with
  | zero => rfl
  | succ levels => rw [makeDirectoriesWithin, if_pos h]

theorem makeDirectoriesWithin_grownTo {disk : Disk} (h : disk.Sound) (levels : Nat) {p : Path}
    (hstraight : disk.Straight p) : disk.GrownTo (disk.makeDirectoriesWithin levels p).2 p := by
  induction levels generalizing p with
  | zero => exact .inl rfl
  | succ levels ih =>
    rw [makeDirectoriesWithin]
    split
    next => exact .inl rfl
    next hp =>
      split
      next disk' hmake => exact .inr (makeDirectory_grown h hmake)
      next hmake =>
        split
        next => exact .inl rfl
        next q hparent =>
          have habove : disk.GrownTo (disk.makeDirectoriesWithin levels q).2 p := by
            rcases Path.parent?_eq_some hparent with ⟨hempty, -⟩ | ⟨last, hidle, hnames, hroot, -⟩
            · exact .inl (makeDirectoriesWithin_empty disk levels hempty)
            · rcases hstraight.cases hnames hroot with ⟨left, location, hdescend⟩ | ⟨hq, hup⟩
              · obtain ⟨fault, hexists, hfault⟩ := makeDirectory_of_descend h hp hdescend
                exact absurd (Except.error.inj (hexists.symm.trans hmake)) hfault
              · exact (ih hq).imp_right fun ⟨hgrown, hfresh⟩ =>
                  ⟨hgrown, hfresh.append hnames hroot hidle hup⟩
          split
          next fault disk' hmade => rwa [hmade] at habove
          next disk' hmade =>
            rw [hmade] at habove
            split
            next disk'' hprovide =>
              exact habove.trans (provideDirectory_grownTo (habove.sound h) hprovide)
            next => exact habove
      next => exact .inl rfl

section Fresh

variable {disk : Disk} {p q : Path} {name : String} (h : disk.Fresh q)
  (hnames : p.names = q.names ++ [name]) (hroot : q.isRooted = p.isRooted)

include h hroot

private theorem Fresh.entry_eq_none {left : Nat} {directory : Location} {front : List String}
    (hdescend : disk.descend linkLimit (origin p disk.working) front = some (left, directory))
    (hfront : front.filter (!Path.isIdle ·) = q.names) (name : String) :
    disk.entries[name :: directory]? = none := by
  rw [← descend_filter, hfront, origin, ← hroot] at hdescend
  exact h left directory hdescend name

include hnames

private theorem Fresh.seen_eq_none (hidle : Path.isIdle name = false) (hup : name ≠ "..") :
    disk.seen p = none := by
  unfold Disk.seen entry?
  split
  next place found hresolve =>
    obtain ⟨hcheck, hwalk⟩ := resolve_eq_ok_iff.mp hresolve
    obtain hnil | ⟨front, last, hsegments⟩ := List.eq_nil_or_concat p.segments
    · exact absurd hnil p.segments_ne_nil
    rw [List.concat_eq_append] at hsegments
    have hfilter : p.names = front.filter (!Path.isIdle ·) ++ [last].filter (!Path.isIdle ·) := by
      rw [Path.names, hsegments, List.filter_append]
    rw [hsegments] at hwalk
    obtain ⟨left, directory, hdescend⟩ := exists_descend_of_walk hwalk
    by_cases hlast : Path.isIdle last = true
    · have hfront : front.filter (!Path.isIdle ·) = q.names ++ [name] := by
        rw [← hnames, hfilter]
        simp [hlast]
      rw [← descend_filter, hfront] at hdescend
      obtain ⟨left', directory', hparent, entry, hentry⟩ :=
        exists_entry_of_descend hidle hup hdescend
      rw [h.entry_eq_none hroot hparent (by simp [Path.names]) name] at hentry
      cases hentry
    · have hone : [last].filter (!Path.isIdle ·) = [last] := by simp [hlast]
      rw [hone, hnames] at hfilter
      obtain ⟨hfront, hname⟩ := List.append_inj' hfilter rfl
      obtain rfl := (List.cons.inj hname).1
      have hfree := h.entry_eq_none hroot hdescend hfront.symm name
      rw [walk_append hdescend, walk_cons, if_neg hlast, if_neg hup, hfree] at hwalk
      split at hwalk
      next => cases hwalk
      next =>
        obtain ⟨-, rfl⟩ := Prod.mk.inj (Except.ok.inj hwalk)
        rfl
  next => rfl

private theorem Fresh.isLink_eq_false : disk.isLink p = false := by
  unfold isLink
  split
  next directory name' slash hsite =>
    obtain ⟨front, slashes, left, hroute⟩ := exists_route hsite
    have hsplit := hroute.names
    rw [hnames] at hsplit
    obtain ⟨hfront, -⟩ := List.append_inj' hsplit rfl
    rw [h.entry_eq_none hroot hroute.descends hfront.symm name']
  next => rfl

end Fresh

theorem straight_of_not_mem (disk : Disk) {p : Path} (h : ".." ∉ p.names) : disk.Straight p :=
  ⟨[], p.names, linkLimit, origin p disk.working, rfl, h, descend_nil _ _ _⟩

theorem Straight.mono {disk disk' : Disk} {p : Path} (h : disk.Straight p)
    (hkeep : disk.KeepsPassages disk') (hworking : disk'.working = disk.working) :
    disk'.Straight p := by
  obtain ⟨front, back, left, directory, hsplit, hup, hdescend⟩ := h
  exact ⟨front, back, left, directory, hsplit, hup,
    by rw [hworking, descend_mono hkeep hdescend]⟩

/-- Making the directory of a path changes nothing, or nothing at any path in the directory, which
the path then is one of. -/
theorem makeDirectories_kept {disk : Disk} (h : disk.Sound) {p q : Path}
    (hstraight : disk.Straight p) (hparent : p.parent? = some q) :
    let made := (disk.makeDirectories q).2
    made = disk ∨ (∃ name, p.Extends q name) ∧ disk.Grown made ∧
      ∀ {r : Path} {name : String}, r.Extends q name →
        disk.Kept made r ∧ made.isLink r = false := by
  intro made
  rcases Path.parent?_eq_some hparent with ⟨hempty, -⟩ | ⟨last, hidle, hnames, hroot, -⟩
  · exact .inl (makeDirectoriesWithin_empty disk _ hempty)
  rcases hstraight.cases hnames hroot with ⟨left, location, hdescend⟩ | ⟨hstraight', hup⟩
  · rw [hnames, descend_append] at hdescend
    obtain ⟨⟨left', location'⟩, hdirectory, -⟩ := Option.bind_eq_some_iff.mp hdescend
    rw [origin, ← hroot] at hdirectory
    exact .inl (makeDirectoriesWithin_of_descend h _ hdirectory)
  refine (makeDirectoriesWithin_grownTo h (q.segments.length + 1) hstraight').imp_right ?_
  rintro ⟨hgrown, hfresh⟩
  refine ⟨⟨last, hnames, hroot, hidle, hup⟩, hgrown, fun hr => ⟨hgrown.kept ?_, ?_⟩⟩
  · exact hfresh.seen_eq_none hr.names hr.isRooted hr.real hr.notUp
  · exact hfresh.isLink_eq_false hr.names hr.isRooted

end ModelHost.Disk
