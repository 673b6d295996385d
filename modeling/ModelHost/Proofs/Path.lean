import ModelHost.Path
import ModelHost.Proofs.Text.Split

/-!
Paths by the names they go along. Idle segments apart, a path that ends in a name goes along the
names of its parent and then that name, and so does the path with another name at its end.
-/

namespace ModelHost

namespace Path

def names (p : Path) : List String := p.segments.filter (!isIdle ·)

structure Extends (p base : Path) (name : String) : Prop where
  names : p.names = base.names ++ [name]
  isRooted : base.isRooted = p.isRooted
  real : isIdle name = false
  notUp : name ≠ ".."

theorem segments_ne_nil (p : Path) : p.segments ≠ [] := by
  simp [segments, Text.splitAt_ne_nil]

theorem not_mem_of_mem_segments {p : Path} {segment : String} (h : segment ∈ p.segments) :
    '/' ∉ segment.toList := by
  obtain ⟨piece, hpiece, rfl⟩ := List.mem_map.mp h
  simpa using Text.not_mem_of_mem_splitAt hpiece

private theorem segments_of_not_mem {text : String} (h : '/' ∉ text.toList) :
    (Path.mk text).segments = [text] := by
  simp [segments, Text.splitAt_eq_splitOn, List.splitOn_eq_singleton h]

theorem segments_append (text more : String) :
    (Path.mk (text ++ "/" ++ more)).segments =
      (Path.mk text).segments ++ (Path.mk more).segments := by
  simp [segments, Text.splitAt_eq_splitOn, List.splitOn_append_cons_self]

theorem segments_intercalate {segments : List String} (hne : segments ≠ [])
    (h : ∀ segment ∈ segments, '/' ∉ segment.toList) :
    (Path.mk ("/".intercalate segments)).segments = segments := by
  have hsplit : (['/'].intercalate (segments.map String.toList)).splitOn '/' =
      segments.map String.toList :=
    List.splitOn_intercalate '/' (by simpa using h) (by simpa using hne)
  simp [Path.segments, Text.splitAt_eq_splitOn, hsplit, Function.comp_def]

theorem intercalate_segments (p : Path) : "/".intercalate p.segments = p.text := by
  apply String.toList_injective
  simp [segments, Text.splitAt_eq_splitOn, Function.comp_def, List.intercalate_splitOn]

private theorem isRooted_intercalate {first : String} (rest : List String)
    (h : '/' ∉ first.toList) :
    (Path.mk ("/".intercalate (first :: rest))).isRooted = decide (first = "" ∧ rest ≠ []) := by
  have hhead : first.toList.head? ≠ some '/' := by
    intro hhead
    exact h (List.mem_of_head? hhead)
  cases rest with
  | nil => simp [isRooted, hhead]
  | cons second rest =>
    cases hfirst : first.toList with
    | nil => simp [isRooted, String.toList_eq_nil_iff.mp hfirst]
    | cons c cs =>
      have hne : first ≠ "" := by rintro rfl; nomatch hfirst
      simp [isRooted, hne, hfirst] at hhead ⊢
      exact hhead

private theorem isRooted_of_segments {p : Path} {first : String} {rest : List String}
    (h : p.segments = first :: rest) : p.isRooted = decide (first = "" ∧ rest ≠ []) := by
  have hroot := isRooted_intercalate rest (p.not_mem_of_mem_segments (h ▸ List.mem_cons_self))
  rwa [← h, intercalate_segments] at hroot

theorem ofSegments_eq {segments : List String} (h : segments ≠ [""]) :
    ofSegments segments = ⟨"/".intercalate segments⟩ := by
  unfold ofSegments
  split
  next => exact absurd rfl h
  next => rfl

section OfSegments

variable {first : String} {rest : List String}
  (h : ∀ segment ∈ first :: rest, '/' ∉ segment.toList)

include h

theorem names_ofSegments :
    (ofSegments (first :: rest)).names = (first :: rest).filter (!isIdle ·) := by
  by_cases hroot : first :: rest = [""]
  · rw [hroot]
    decide +kernel
  · rw [ofSegments_eq hroot, names, segments_intercalate (by simp) h]

theorem isRooted_ofSegments : (ofSegments (first :: rest)).isRooted = decide (first = "") := by
  by_cases hroot : first :: rest = [""]
  · obtain ⟨rfl, rfl⟩ := List.cons.inj hroot
    decide +kernel
  · rw [ofSegments_eq hroot, isRooted_intercalate rest (h first (by simp))]
    by_cases hfirst : first = ""
    · subst hfirst
      have hrest : rest ≠ [] := by rintro rfl; exact hroot rfl
      simp [hrest]
    · simp [hfirst]

end OfSegments

theorem trimmed_cons (first : String) (tail : List String) :
    ∃ rest idle, tail = rest ++ idle ∧ trimmed (first :: tail) = first :: rest ∧
      (∀ segment ∈ idle, isIdle segment = true) ∧
      ∀ last ∈ rest.getLast?, isIdle last = false := by
  refine ⟨(tail.reverse.dropWhile isIdle).reverse, (tail.reverse.takeWhile isIdle).reverse, ?_, rfl,
    ?_, ?_⟩
  · rw [← List.reverse_append, List.takeWhile_append_dropWhile, List.reverse_reverse]
  · intro segment hsegment
    exact List.all_eq_true.mp List.all_takeWhile segment (List.mem_reverse.mp hsegment)
  · intro last hlast
    rw [List.getLast?_reverse] at hlast
    have hnot := List.head?_dropWhile_not isIdle tail.reverse
    rw [hlast] at hnot
    exact hnot

theorem names_of_segments {p : Path} {segments idle : List String}
    (h : p.segments = segments ++ idle) (hidle : ∀ segment ∈ idle, isIdle segment = true) :
    p.names = segments.filter (!isIdle ·) := by
  have hnone : idle.filter (!isIdle ·) = [] := by simpa using hidle
  rw [names, h, List.filter_append, hnone, List.append_nil]

theorem segments_of_parent? {p q : Path} (h : p.parent? = some q) :
    (∃ first idle, p.segments = first :: idle ∧ (∀ segment ∈ idle, isIdle segment = true) ∧
        trimmed p.segments = [first] ∧ first ≠ "" ∧ q = ⟨""⟩) ∨
      ∃ first rest more last idle, p.segments = first :: rest ++ more ++ [last] ++ idle ∧
        (∀ segment ∈ more ++ idle, isIdle segment = true) ∧ isIdle last = false ∧
        trimmed p.segments = first :: rest ++ more ++ [last] ∧ q = ofSegments (first :: rest) ∧
        (∀ segment ∈ first :: rest, '/' ∉ segment.toList) ∧
        ∀ real ∈ rest.getLast?, isIdle real = false := by
  obtain ⟨first, tail, hsegments⟩ := List.exists_cons_of_ne_nil p.segments_ne_nil
  obtain ⟨rest, idle, rfl, htrimmed, hidle, hlast⟩ := trimmed_cons first tail
  rw [parent?, hsegments, htrimmed] at h
  rcases List.eq_nil_or_concat rest with rfl | ⟨front, last, rfl⟩
  · left
    simp only at h
    split at h
    next => nomatch h
    next hfirst =>
      exact ⟨first, idle, hsegments, hidle, by rw [hsegments, htrimmed], hfirst,
        (Option.some.inj h).symm⟩
  · right
    rw [List.concat_eq_append] at hsegments hlast h
    obtain ⟨rest, more, rfl, htrimmed', hmore, hreal⟩ := trimmed_cons first front
    have hsplit : p.segments = first :: rest ++ more ++ [last] ++ idle := by simpa using hsegments
    refine ⟨first, rest, more, last, idle, hsplit, ?_, hlast last (by simp), ?_, ?_, ?_, hreal⟩
    · simpa [or_imp, forall_and] using ⟨hmore, hidle⟩
    · rw [hsegments, ← List.concat_eq_append, htrimmed, List.concat_eq_append]
      rfl
    · split at h
      next hnil => simp at hnil
      next hsingle => simp at hsingle
      next segments =>
        rw [← Option.some.inj h, ← List.cons_append, List.dropLast_concat, htrimmed']
    · intro segment hsegment
      refine not_mem_of_mem_segments (p := p) ?_
      rw [hsplit]
      exact List.mem_append_left _ (List.mem_append_left _ (List.mem_append_left _ hsegment))

theorem parent?_eq_some {p q : Path} (h : p.parent? = some q) :
    (q.text = "" ∧ p.isRooted = false ∧ ∃ first, p.names = [first].filter (!isIdle ·) ∧
        trimmed p.segments = [first]) ∨
      ∃ last, isIdle last = false ∧ p.names = q.names ++ [last] ∧ q.isRooted = p.isRooted ∧
        (trimmed p.segments).getLast? = some last := by
  rcases segments_of_parent? h with
    ⟨first, idle, hsegments, hidle, htrimmed, hfirst, rfl⟩ |
    ⟨first, rest, more, last, idle, hsegments, hidle, hreal, htrimmed, rfl, hslash, -⟩
  · refine .inl ⟨rfl, ?_, first, names_of_segments hsegments hidle, htrimmed⟩
    rw [isRooted_of_segments hsegments]
    simp [hfirst]
  · refine .inr ⟨last, hreal, ?_, ?_, by rw [htrimmed, List.getLast?_concat]⟩
    · have hnone : (more ++ idle).filter (!isIdle ·) = [] :=
        List.filter_eq_nil_iff.mpr (by simpa using hidle)
      rw [List.filter_append, List.append_eq_nil_iff] at hnone
      rw [names_ofSegments hslash, names, hsegments]
      simp only [List.filter_append, hnone]
      simp [hreal]
    · rw [isRooted_ofSegments hslash, isRooted_of_segments hsegments]
      simp

theorem fileName?_eq_some {p : Path} {name : String} (h : p.fileName? = some name) :
    ∃ front idle, p.segments = front ++ [name] ++ idle ∧
      (∀ segment ∈ idle, isIdle segment = true) ∧ isIdle name = false ∧ name ≠ ".." := by
  obtain ⟨first, tail, hsegments⟩ := List.exists_cons_of_ne_nil p.segments_ne_nil
  obtain ⟨rest, idle, rfl, htrimmed, hidle, -⟩ := trimmed_cons first tail
  rw [fileName?, hsegments, htrimmed] at h
  split at h
  next => nomatch h
  next last hlast =>
    split at h
    next => nomatch h
    next hname =>
      obtain rfl := Option.some.inj h
      obtain ⟨front, hfront⟩ := List.getLast?_eq_some_iff.mp hlast
      refine ⟨front, idle, by rw [hsegments, ← hfront, List.cons_append], hidle, ?_, ?_⟩
      · simp [isIdle]
        exact ⟨fun h => hname (.inl h), fun h => hname (.inr (.inl h))⟩
      · exact fun h => hname (.inr (.inr h))

private theorem fileName?_of_trimmed {p : Path} {name : String}
    (h : (trimmed p.segments).getLast? = some name) (hidle : isIdle name = false)
    (hup : name ≠ "..") : p.fileName? = some name := by
  rw [fileName?, h]
  simp only [isIdle, Bool.or_eq_false_iff, decide_eq_false_iff_not] at hidle
  simp [hidle, hup]

theorem fileName?_of_segments {p : Path} {front idle : List String} {name : String}
    (h : p.segments = front ++ [name] ++ idle) (hall : ∀ segment ∈ idle, isIdle segment = true)
    (hidle : isIdle name = false) (hup : name ≠ "..") : p.fileName? = some name := by
  refine fileName?_of_trimmed ?_ hidle hup
  have hreverse : ∀ segment ∈ idle.reverse, isIdle segment = true := by simpa using hall
  cases front with
  | nil =>
    have hnone : (idle.reverse ++ []).dropWhile isIdle = [] :=
      List.dropWhile_append_of_pos hreverse
    rw [List.append_nil] at hnone
    rw [h]
    simp [trimmed, hnone]
  | cons first front =>
    have hkept : trimmed (first :: front ++ [name] ++ idle) = first :: front ++ [name] := by
      simp only [List.cons_append, trimmed, List.reverse_append,
        List.dropWhile_append_of_pos hreverse]
      simp [hidle]
    rw [h, hkept]
    exact List.getLast?_concat

theorem exists_parent? {p : Path} {name : String} (h : p.fileName? = some name) :
    ∃ q, p.parent? = some q ∧ p.Extends q name := by
  obtain ⟨front, idle, hsegments, hidle, hreal, hup⟩ := fileName?_eq_some h
  have hnames : p.names = front.filter (!isIdle ·) ++ [name] := by
    rw [names_of_segments hsegments hidle, List.filter_append]
    simp [hreal]
  have hsome : ∃ q, p.parent? = some q := by
    unfold parent?
    split
    next hnil =>
      rw [fileName?, hnil] at h
      nomatch h
    next first hone =>
      rw [fileName?, hone] at h
      split
      next hfirst => simp [hfirst] at h
      next => exact ⟨_, rfl⟩
    next => exact ⟨_, rfl⟩
  obtain ⟨q, hq⟩ := hsome
  suffices hq' : p.names = q.names ++ [name] ∧ q.isRooted = p.isRooted from
    ⟨q, hq, hq'.1, hq'.2, hreal, hup⟩
  rcases parent?_eq_some hq with
    ⟨htext, hrooted, first, hfirst, htrimmed⟩ | ⟨last, -, hlast, hroot, -⟩
  · have hempty : q = ⟨""⟩ := by rw [← htext]
    rw [fileName?, htrimmed] at h
    obtain ⟨-, hname⟩ : _ ∧ first = name := by simpa using h
    subst hname hempty
    refine ⟨?_, ?_⟩
    · rw [hfirst]
      simp [hreal]
      decide +kernel
    · rw [hrooted]
      decide +kernel
  · have hsame := (List.append_inj' (hlast.symm.trans hnames) rfl).2
    rw [List.cons.inj hsame |>.1] at hlast
    exact ⟨hlast, hroot⟩

theorem real_of_length {name : String} (h : 2 < name.length) :
    isIdle name = false ∧ name ≠ ".." := by
  have hne : ∀ {other : String}, other.length ≤ 2 → name ≠ other := by
    rintro other hother rfl
    omega
  exact ⟨by simp [isIdle, hne (show "".length ≤ 2 by decide), hne (show ".".length ≤ 2 by decide)],
    hne (by decide)⟩

namespace Extends

variable {p q r base : Path} {name name' : String}

theorem fileName?_eq (h : p.Extends base name) : p.fileName? = some name := by
  obtain ⟨front, rest, hsegments, -, hrest⟩ := List.filter_eq_append_iff.mp h.names
  obtain ⟨middle, idle, rfl, -, -, hidle⟩ := List.filter_eq_cons_iff.mp hrest
  have hsegments' : p.segments = (front ++ middle) ++ [name] ++ idle := by simpa using hsegments
  exact fileName?_of_segments hsegments' (by simpa using hidle) h.real h.notUp

/-- Two paths that one path goes on from can stand for each other. -/
theorem rebase (h : p.Extends base name) (hq : p.Extends q name) (hr : r.Extends base name') :
    r.Extends q name' := by
  have hsame := (List.append_inj' (h.names.symm.trans hq.names) rfl).1
  exact ⟨by rw [hr.names, hsame], by rw [hq.isRooted, ← h.isRooted, hr.isRooted], hr.real, hr.notUp⟩

theorem parent (h : p.Extends base name) (hparent : p.parent? = some q)
    (hr : r.Extends base name') : r.Extends q name' := by
  obtain ⟨q', hq', hextends⟩ := exists_parent? h.fileName?_eq
  obtain rfl := Option.some.inj (hq'.symm.trans hparent)
  exact h.rebase hextends hr

end Extends

theorem isRooted_append {text : String} (h : text ≠ "") (more : String) :
    (Path.mk (text ++ more)).isRooted = (Path.mk text).isRooted := by
  simp [isRooted, h]

section Join

variable (base : Path) {name : String} (hslash : '/' ∉ name.toList)

include hslash

theorem isRooted_of_not_mem : (Path.mk name).isRooted = false := by
  have hhead : name.toList.head? ≠ some '/' := fun hhead => hslash (List.mem_of_head? hhead)
  simp [isRooted, hhead]

theorem join_name (hreal : isIdle name = false) :
    (base.join ⟨name⟩).names = base.names ++ [name] ∧
      (base.join ⟨name⟩).isRooted = base.isRooted := by
  have hone : [name].filter (!isIdle ·) = [name] := by simp [hreal]
  have hsegments := segments_of_not_mem hslash
  rw [join, if_neg (by simp [isRooted_of_not_mem hslash])]
  split
  next hbase =>
    by_cases hempty : base.text = ""
    · have hnone : base.names = [] := by
        rw [show base = ⟨""⟩ by rw [← hempty]]
        decide +kernel
      rw [hempty, String.empty_append, hnone, names, hsegments, hone]
      refine ⟨rfl, ?_⟩
      rw [isRooted_of_not_mem hslash]
      simp [isRooted, hempty]
    · have hlast := hbase.resolve_left hempty
      obtain ⟨front, hfront⟩ := List.getLast?_eq_some_iff.mp hlast
      have htext : base.text = String.ofList front ++ "/" := by
        apply String.toList_injective
        simp [hfront]
      have happend := segments_append (String.ofList front) name
      have hbase' := segments_append (String.ofList front) ""
      rw [String.append_empty, ← htext] at hbase'
      refine ⟨?_, isRooted_append hempty name⟩
      rw [names, htext, happend, hsegments, List.filter_append, hone, names, hbase',
        List.filter_append, show (Path.mk "").segments.filter (!isIdle ·) = [] by decide +kernel,
        List.append_nil]
  next hbase =>
    rw [not_or] at hbase
    have happend := segments_append base.text name
    constructor
    · rw [names, happend, hsegments, List.filter_append, hone]
      rfl
    · rw [String.append_assoc, isRooted_append hbase.1]

theorem join_extends (hreal : isIdle name = false) (hup : name ≠ "..") :
    (base.join ⟨name⟩).Extends base name :=
  ⟨(base.join_name hslash hreal).1, (base.join_name hslash hreal).2.symm, hreal, hup⟩

end Join

private theorem trimmed_of_real {first : String} {rest : List String}
    (h : ∀ last ∈ rest.getLast?, isIdle last = false) :
    trimmed (first :: rest) = first :: rest := by
  rcases List.eq_nil_or_concat rest with rfl | ⟨front, last, rfl⟩
  · rfl
  · have hlast : isIdle last = false := h last (by simp)
    simp [trimmed, hlast]

private theorem segments_join_ofSegments {first : String} {rest : List String} {name : String}
    (hslash : ∀ segment ∈ first :: rest, '/' ∉ segment.toList)
    (hreal : ∀ last ∈ rest.getLast?, isIdle last = false) (hname : '/' ∉ name.toList) :
    ((ofSegments (first :: rest)).join ⟨name⟩).segments = first :: rest ++ [name] := by
  have hjoin := segments_of_not_mem hname
  by_cases hroot : first :: rest = [""]
  · rw [hroot, join, if_neg (by simp [isRooted_of_not_mem hname]),
      if_pos (.inr (by decide +kernel)), show (ofSegments [""]).text = "" ++ "/" by decide,
      segments_append, hjoin]
    rfl
  · have hsegments := segments_intercalate (List.cons_ne_nil first rest) hslash
    have hopen : ¬("/".intercalate (first :: rest) = "" ∨
        ("/".intercalate (first :: rest)).toList.getLast? = some '/') := by
      rintro (hempty | hlast)
      · rw [hempty] at hsegments
        exact hroot (hsegments.symm.trans (by decide +kernel))
      · obtain ⟨front, hfront⟩ := List.getLast?_eq_some_iff.mp hlast
        have htext : "/".intercalate (first :: rest) = String.ofList front ++ "/" ++ "" := by
          apply String.toList_injective
          simp [hfront]
        rw [htext, segments_append, segments_of_not_mem (show '/' ∉ "".toList by simp)] at hsegments
        obtain ⟨first', rest', hfirst⟩ := List.exists_cons_of_ne_nil
          (Path.mk (String.ofList front)).segments_ne_nil
        rw [hfirst] at hsegments
        have hrest : rest' ++ [""] = rest := (List.cons.inj hsegments).2
        exact absurd (hreal "" (by simp [← hrest])) (by decide)
    rw [ofSegments_eq hroot, join, if_neg (by simp [isRooted_of_not_mem hname]), if_neg hopen,
      segments_append, hsegments, hjoin]

theorem parent?_join {p q : Path} {name : String} (h : p.parent? = some q)
    (hslash : '/' ∉ name.toList) (hidle : isIdle name = false) :
    (q.join ⟨name⟩).parent? = some q := by
  rcases segments_of_parent? h with
    ⟨first, idle, -, -, -, -, rfl⟩ | ⟨first, rest, more, last, idle, -, -, -, -, rfl, hnone, hreal⟩
  · have hne : name ≠ "" := by
      rintro rfl
      exact absurd hidle (by decide)
    have hjoin : (Path.mk "").join ⟨name⟩ = ⟨name⟩ := by
      simp [join, isRooted_of_not_mem hslash]
    rw [hjoin, parent?, segments_of_not_mem hslash]
    simp [trimmed, hne]
  · have htrimmed : trimmed (first :: (rest ++ [name])) = first :: (rest ++ [name]) :=
      trimmed_of_real (by simpa using hidle)
    rw [parent?, segments_join_ofSegments hnone hreal hslash, List.cons_append, htrimmed]
    split
    next hnil => simp at hnil
    next hsingle => simp at hsingle
    next => rw [← List.cons_append, List.dropLast_concat, trimmed_of_real hreal]

end Path

end ModelHost
