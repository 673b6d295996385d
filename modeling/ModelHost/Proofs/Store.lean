import ModelHost.Proofs.Text.Encoding
import ModelHost.Proofs.Traverse
import ModelHost.Store

/-!
What can be done to a store of descriptors. A descriptor is put in, taken out, or read with others
from a file; whatever is done, every descriptor stays under its own name. After a history of such
edits a name has the descriptor that was put under it last, unless it was taken out since.
-/

namespace ModelHost.Store

inductive Edit where
  | insert (d : Descriptor)
  | remove (name : String)
  /-- A file that cannot be loaded changes nothing. -/
  | load (disk : Disk) (path : Path)

def edit (s : Store) : Edit → Store
  | .insert d => s.insert d
  | .remove name => (s.remove name).2
  | .load disk path =>
    match s.load disk path with
    | .ok (_, loaded) => loaded
    | .error _ => s

def Keyed (s : Store) : Prop := ∀ name d, s.lookup name = some d → d.name = name

theorem keyed_empty : empty.Keyed := by
  intro name d h
  rw [lookup_empty] at h
  nomatch h

namespace Keyed

variable {s : Store} (h : s.Keyed)

include h

theorem insert (d : Descriptor) : (s.insert d).Keyed := by
  intro name e he
  rw [lookup_insert] at he
  split at he
  next hname =>
    cases he
    exact hname
  next => exact h name e he

theorem insertMany (ds : List Descriptor) : (s.insertMany ds).Keyed := by
  unfold Store.insertMany
  induction ds generalizing s with
  | nil => exact h
  | cons d ds ih => exact ih (h.insert d)

theorem remove (name : String) : (s.remove name).2.Keyed := by
  intro other d hd
  rw [lookup_remove] at hd
  split at hd
  next => nomatch hd
  next => exact h other d hd

theorem load {disk : Disk} {path : Path} {count : Nat} {loaded : Store}
    (hload : s.load disk path = .ok (count, loaded)) : loaded.Keyed := by
  unfold Store.load at hload
  split at hload
  next => nomatch hload
  next ds _ =>
    cases hload
    exact h.insertMany ds

theorem edit (e : Edit) : (s.edit e).Keyed := by
  cases e with
  | insert d => exact h.insert d
  | remove name => exact h.remove name
  | load disk path =>
    unfold Store.edit
    dsimp only
    split
    next hload => exact h.load hload
    next => exact h

end Keyed

theorem keyed_ofDescriptors (ds : List Descriptor) : (ofDescriptors ds).Keyed :=
  keyed_empty.insertMany ds

/-! Files. -/

/-- Says that a file is the text of an array, and what descriptor each of its entries writes. -/
structure Lists (disk : Disk) (path : Path) (entries : List Json) (ds : List Descriptor) :
    Prop where
  readable : ∃ text : String, disk.read path = .ok text.toUTF8 ∧
    Json.read? text = some (.array entries)
  decoded : List.Forall₂ (fun entry d => Descriptor.ofJson? entry = some d) entries ds

private theorem parse?_eq_some_iff {text : String} {ds : List Descriptor} :
    parse? text = some ds ↔ ∃ entries, Json.read? text = some (.array entries) ∧
      List.Forall₂ (fun entry d => Descriptor.ofJson? entry = some d) entries ds := by
  simp only [parse?, Json.list?, Option.bind_eq_some_iff, mapM_eq_some_iff]
  constructor
  · rintro ⟨json, hread, entries, hentries, hdecoded⟩
    cases json with
    | array items =>
      cases hentries
      exact ⟨entries, hread, hdecoded⟩
    | _ => cases hentries
  · rintro ⟨entries, hread, hdecoded⟩
    exact ⟨.array entries, hread, entries, rfl, hdecoded⟩

theorem readContent_eq_ok_iff {path : Path} {content : Option ByteArray} {ds : List Descriptor} :
    readContent path content = .ok ds ↔
      ∃ text : String, content = some text.toUTF8 ∧ parse? text = some ds := by
  unfold readContent
  cases content with
  | none => simp
  | some bytes =>
    simp only [Option.bind_some, Option.some.injEq, ← Text.Utf8.decodeText?_eq_some_iff]
    cases Text.Utf8.decodeText? bytes with
    | none => simp
    | some text => cases hparse : parse? text <;> simp [hparse]

section Load

variable {disk : Disk} {path : Path} {entries : List Json} {ds : List Descriptor}

theorem exists_lists_iff : (∃ entries, Lists disk path entries ds) ↔
    readContent path (disk.read path).toOption = .ok ds := by
  rw [readContent_eq_ok_iff]
  constructor
  · rintro ⟨entries, ⟨text, hread, hentries⟩, hdecoded⟩
    refine ⟨text, by rw [hread]; rfl, parse?_eq_some_iff.mpr ⟨entries, hentries, hdecoded⟩⟩
  · rintro ⟨text, hcontent, hparse⟩
    obtain ⟨entries, hentries, hdecoded⟩ := parse?_eq_some_iff.mp hparse
    have hread : disk.read path = .ok text.toUTF8 := by
      cases hresult : disk.read path with
      | error fault =>
        rw [hresult] at hcontent
        cases hcontent
      | ok content =>
        rw [hresult] at hcontent
        cases hcontent
        rfl
    exact ⟨entries, ⟨text, hread, hentries⟩, hdecoded⟩

private theorem load_of_lists (s : Store) (h : Lists disk path entries ds) :
    s.load disk path = .ok (entries.length, s.insertMany ds) := by
  rw [load, exists_lists_iff.mp ⟨entries, h⟩, h.decoded.length_eq]

private theorem load_of_not_lists (s : Store) (h : ∀ entries ds, ¬ Lists disk path entries ds) :
    ∃ error, s.load disk path = .error error := by
  cases hcontent : readContent path (disk.read path).toOption with
  | error e => exact ⟨e, by rw [load, hcontent]⟩
  | ok ds =>
    obtain ⟨entries, hlists⟩ := exists_lists_iff.mpr hcontent
    exact absurd hlists (h entries ds)

private theorem edit_of_lists (s : Store) (h : Lists disk path entries ds) :
    s.edit (.load disk path) = s.insertMany ds := by
  rw [edit, load_of_lists s h]

private theorem edit_of_not_lists (s : Store) (h : ∀ entries ds, ¬ Lists disk path entries ds) :
    s.edit (.load disk path) = s := by
  obtain ⟨error, herror⟩ := load_of_not_lists s h
  rw [edit, herror]

end Load

/-! Histories. -/

inductive Event where
  | put (d : Descriptor)
  | clear (name : String)

def Event.name : Event → String
  | .put d => d.name
  | .clear name => name

inductive Edit.Tells : Edit → List Event → Prop where
  | insert (d : Descriptor) : Tells (.insert d) [.put d]
  | remove (name : String) : Tells (.remove name) [.clear name]
  | load {disk : Disk} {path : Path} {entries : List Json} {ds : List Descriptor}
      (h : Lists disk path entries ds) : Tells (.load disk path) (ds.map .put)
  | refused {disk : Disk} {path : Path} (h : ∀ entries ds, ¬ Lists disk path entries ds) :
      Tells (.load disk path) []

theorem Edit.exists_tells (e : Edit) : ∃ events, e.Tells events := by
  cases e with
  | insert d => exact ⟨_, .insert d⟩
  | remove name => exact ⟨_, .remove name⟩
  | load disk path =>
    by_cases hlists : ∃ entries ds, Lists disk path entries ds
    · obtain ⟨entries, ds, h⟩ := hlists
      exact ⟨_, .load h⟩
    · exact ⟨_, .refused fun entries ds h => hlists ⟨entries, ds, h⟩⟩

/-- Says that a descriptor was put under a name, and that nothing was told of the name since. -/
def Latest (events : List Event) (name : String) (d : Descriptor) : Prop :=
  ∃ before after, events = before ++ .put d :: after ∧ d.name = name ∧
    ∀ event ∈ after, event.name ≠ name

private theorem not_latest_nil (name : String) (d : Descriptor) : ¬ Latest [] name d := by
  rintro ⟨before, after, hnil, -⟩
  simp at hnil

private theorem latest_snoc_iff {events : List Event} {event : Event} {name : String}
    {d : Descriptor} :
    Latest (events ++ [event]) name d ↔
      event = .put d ∧ d.name = name ∨ event.name ≠ name ∧ Latest events name d := by
  constructor
  · rintro ⟨before, after, hevents, hname, hafter⟩
    rcases List.eq_nil_or_concat after with rfl | ⟨after, last, rfl⟩
    · obtain ⟨-, hevent⟩ := List.append_inj' hevents rfl
      exact .inl ⟨List.singleton_inj.mp hevent, hname⟩
    · rw [List.concat_eq_append, ← List.cons_append, ← List.append_assoc] at hevents
      obtain ⟨rfl, hevent⟩ := List.append_inj' hevents rfl
      obtain rfl := List.singleton_inj.mp hevent
      rw [List.concat_eq_append] at hafter
      exact .inr ⟨hafter event (by simp),
        before, after, rfl, hname, fun e he => hafter e (by simp [he])⟩
  · rintro (⟨rfl, hname⟩ | ⟨hother, before, after, rfl, hname, hafter⟩)
    · exact ⟨events, [], rfl, hname, by simp⟩
    · refine ⟨before, after ++ [event], by simp, hname, fun e he => ?_⟩
      rcases List.mem_append.mp he with he | he
      · exact hafter e he
      · rwa [List.mem_singleton.mp he]

def Follows (s : Store) (events : List Event) : Prop :=
  ∀ name d, s.lookup name = some d ↔ Latest events name d

theorem follows_empty : empty.Follows [] := by
  intro name d
  simp [not_latest_nil]

namespace Follows

variable {s : Store} {events : List Event} (h : s.Follows events)

include h

theorem insert (d : Descriptor) : (s.insert d).Follows (events ++ [.put d]) := by
  intro name e
  rw [lookup_insert, latest_snoc_iff, ← h name e]
  by_cases hname : d.name = name
  · simp only [hname, if_true, Option.some.injEq, Event.put.injEq, Event.name, ne_eq,
      not_true, false_and, or_false]
    constructor
    · rintro rfl
      exact ⟨rfl, hname⟩
    · exact fun h => h.1
  · rw [if_neg hname]
    constructor
    · exact fun hlookup => .inr ⟨hname, hlookup⟩
    · rintro (⟨heq, hname'⟩ | ⟨-, hlookup⟩)
      · cases heq
        exact absurd hname' hname
      · exact hlookup

theorem insertMany (ds : List Descriptor) : (s.insertMany ds).Follows (events ++ ds.map .put) := by
  unfold Store.insertMany
  induction ds generalizing s events with
  | nil =>
    rw [List.map_nil, List.append_nil]
    exact h
  | cons d ds ih =>
    have hrest := ih (h.insert d)
    rwa [List.append_assoc] at hrest

theorem remove (name : String) : (s.remove name).2.Follows (events ++ [.clear name]) := by
  intro other d
  rw [lookup_remove, latest_snoc_iff, ← h other d]
  by_cases hname : name = other
  · simp [hname, Event.name]
  · simp [hname, Event.name]

theorem edit {e : Edit} {told : List Event} (htold : e.Tells told) :
    (s.edit e).Follows (events ++ told) := by
  cases htold with
  | insert d => exact h.insert d
  | remove name => exact h.remove name
  | load hlists =>
    rw [edit_of_lists s hlists]
    exact h.insertMany _
  | refused hnone =>
    rw [edit_of_not_lists s hnone, List.append_nil]
    exact h

theorem foldl_edit {edits : List Edit} {told : List (List Event)}
    (htold : List.Forall₂ Edit.Tells edits told) :
    (edits.foldl Store.edit s).Follows (events ++ told.flatten) := by
  induction htold generalizing s events with
  | nil =>
    rw [List.flatten_nil, List.append_nil]
    exact h
  | cons hfirst _ ih =>
    have hrest := ih (h.edit hfirst)
    rwa [List.append_assoc] at hrest

end Follows

theorem exists_told (edits : List Edit) : ∃ told, List.Forall₂ Edit.Tells edits told := by
  induction edits with
  | nil => exact ⟨[], .nil⟩
  | cons e edits ih =>
    obtain ⟨events, hevents⟩ := e.exists_tells
    obtain ⟨told, htold⟩ := ih
    exact ⟨events :: told, .cons hevents htold⟩

theorem lookup_insertMany (s : Store) (ds : List Descriptor) (name : String) :
    (s.insertMany ds).lookup name = (ds.reverse.find? (·.name = name)).or (s.lookup name) := by
  unfold Store.insertMany
  induction ds generalizing s with
  | nil => rfl
  | cons d ds ih =>
    rw [List.foldl_cons, ih, lookup_insert, List.reverse_cons, List.find?_append, Option.or_assoc]
    by_cases hname : d.name = name <;> simp [hname]

/-! Names. -/

theorem mem_names_iff {s : Store} {name : String} :
    name ∈ s.names ↔ ∃ d, s.lookup name = some d := by
  rw [names, Std.TreeMap.mem_keys, Std.TreeMap.mem_iff_isSome_getElem?, Option.isSome_iff_exists]
  rfl

theorem names_ascending (s : Store) : s.names.Pairwise fun a b =>
    a < b ∧ a.toUTF8.data.toList < b.toUTF8.data.toList := by
  refine s.descriptors.ordered_keys.imp ?_
  intro a b h
  have hlt : a < b := compareOfLessAndEq_eq_lt.mp h
  rw [Text.Utf8.data_toUTF8, Text.Utf8.data_toUTF8]
  exact ⟨hlt, Text.Utf8.encode_lt_encode hlt⟩

/-- A store has under each name the descriptor that was put or loaded under it last, unless it was
taken out since. A file counts as a whole or not at all, and its last entry for a name counts; the
names are listed in ascending order, each of them once. -/
theorem follows_edits (ds : List Descriptor) (edits : List Edit) :
    let s := edits.foldl edit (ofDescriptors ds)
    (∃ told, List.Forall₂ Edit.Tells edits told ∧
        ∀ name d, s.lookup name = some d ↔ Latest (ds.map .put ++ told.flatten) name d) ∧
      (∀ disk path entries loaded, Lists disk path entries loaded →
        s.load disk path = .ok (entries.length, s.edit (.load disk path)) ∧
        ∀ name, (s.edit (.load disk path)).lookup name =
          (loaded.reverse.find? (·.name = name)).or (s.lookup name)) ∧
      (∀ disk path, (∀ entries loaded, ¬ Lists disk path entries loaded) →
        (∃ error, s.load disk path = .error error) ∧
        ∀ name, (s.edit (.load disk path)).lookup name = s.lookup name) ∧
      (∀ name, (s.remove name).1 = s.lookup name) ∧
      s.names.Pairwise (fun a b => a < b ∧ a.toUTF8.data.toList < b.toUTF8.data.toList) ∧
      ∀ name, name ∈ s.names ↔ ∃ d, s.lookup name = some d := by
  intro s
  refine ⟨?_, ?_, ?_, fun _ => rfl, names_ascending s, fun _ => mem_names_iff⟩
  · obtain ⟨told, htold⟩ := exists_told edits
    exact ⟨told, htold, (follows_empty.insertMany ds).foldl_edit htold⟩
  · intro disk path entries loaded hlists
    rw [edit_of_lists s hlists]
    exact ⟨load_of_lists s hlists, lookup_insertMany s loaded⟩
  · intro disk path hnone
    rw [edit_of_not_lists s hnone]
    exact ⟨load_of_not_lists s hnone, fun _ => rfl⟩

end ModelHost.Store
