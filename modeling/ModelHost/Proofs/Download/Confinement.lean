import ModelHost.Proofs.Download.Targets

/-!
Where downloads are written. Whatever a model is called, its target is one name further than the
models directory, and the part file is beside it; only a file that a source names itself can be
elsewhere.
-/

namespace ModelHost.Download

private theorem not_mem_of_ending {c : Char} {name ending : String} (h : isNameChar c = false)
    (hending : c ∉ ending.toList) : c ∉ (fileStem name ++ ending).toList := by
  rw [String.toList_append, List.mem_append]
  rintro (hstem | hmem)
  · exact absurd (isNameChar_of_mem_fileStem hstem) (by simp [h])
  · exact hending hmem

namespace Table

/-- The target of a model without a file of its own is in the models directory, under one name that
is made from the name of the model. The part file is beside it, under this name and an ending. -/
theorem target_confined (t : Table) {d : Descriptor}
    (h : d.source.bind (·.cacheFile) = none) :
    let name := fileStem d.name ++ ".gguf"
    let part := partFile (t.target d)
    t.target d = t.modelsDirectory.join ⟨name⟩ ∧
      (t.target d).Extends t.modelsDirectory name ∧
      ('/' ∉ name.toList ∧ '\x00' ∉ name.toList ∧ name ≠ "." ∧ name ≠ "..") ∧
      (∃ directory, (t.target d).parent? = some directory ∧ part.parent? = some directory ∧
        directory.names = t.modelsDirectory.names ∧
        directory.isRooted = t.modelsDirectory.isRooted ∧
        part = directory.join ⟨name ++ ".part"⟩) ∧
      part.Extends t.modelsDirectory (name ++ ".part") ∧ part ≠ t.target d ∧
      ((∀ c ∈ d.name.toList, Text.isAlphanumeric c = true ∨ c = '-' ∨ c = '_' ∨ c = '.') →
        name = d.name ++ ".gguf") := by
  intro name part
  have htarget : (t.target d).Extends t.modelsDirectory name := t.target_extends h
  have hpart : part.Extends t.modelsDirectory (name ++ ".part") := partFile_extends htarget
  obtain ⟨directory, hparent, hextends, hjoin, hsame⟩ := partFile_eq_join htarget.fileName?_eq
  have hnames := (List.append_inj' (htarget.names.symm.trans hextends.names) rfl).1
  refine ⟨by simp [target, h, name], htarget, ⟨?_, ?_, ?_, htarget.notUp⟩, ?_, hpart, ?_, ?_⟩
  · exact not_mem_of_ending (by decide +kernel) (by decide)
  · exact not_mem_of_ending (by decide +kernel) (by decide)
  · intro hdot
    exact absurd htarget.real (by simp [hdot, Path.isIdle])
  · exact ⟨directory, hparent, hsame, hnames.symm, hextends.isRooted.trans htarget.isRooted.symm,
      hjoin⟩
  · intro heq
    have hname := hpart.fileName?_eq.symm.trans (heq ▸ htarget.fileName?_eq)
    have hlength := congrArg String.length (Option.some.inj hname)
    rw [length_part] at hlength
    omega
  · intro hchars
    have hstem : fileStem d.name = d.name :=
      fileStem_of_isNameChar fun c hc => by simpa [isNameChar, or_assoc] using hchars c hc
    exact congrArg (· ++ ".gguf") hstem

theorem target_confined_upward :
    let d : Descriptor := { name := "/../..\\etc/passwd\x00" }
    let t := start ⟨"/srv/models//"⟩ "1.0"
    d.source.bind (·.cacheFile) = none ∧
      t.target d = ⟨"/srv/models//-..-..-etc-passwd-.gguf"⟩ ∧
      partFile (t.target d) = ⟨"/srv/models/-..-..-etc-passwd-.gguf.part"⟩ ∧
      (t.target d).Extends ⟨"/srv/models//"⟩ "-..-..-etc-passwd-.gguf" ∧
      (t.target d).parent? = (partFile (t.target d)).parent? := by
  intro d t
  have hstem : fileStem d.name ++ ".gguf" = "-..-..-etc-passwd-.gguf" := by decide +kernel
  obtain ⟨htarget, hextends, -, ⟨directory, hparent, hpart, -⟩, -⟩ :=
    target_confined t (d := d) rfl
  rw [hstem] at htarget hextends
  exact ⟨rfl, htarget.trans (by decide +kernel), by decide +kernel, hextends,
    hparent.trans hpart.symm⟩

end Table

end ModelHost.Download
