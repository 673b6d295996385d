import ModelHost.Proofs.Disk.Directories
import ModelHost.Proofs.Disk.Replace
import ModelHost.Proofs.Download.Job

/-!
A target and its part file. They are in the same directory under different names, so that nothing a
job does to the one is seen at the other before the part file takes the place of the target. A
target must not come back over two dots from a directory that is not there: making this directory
could make one in the target's own place.
-/

namespace ModelHost.Download

theorem length_part (name : String) : (name ++ ".part").length = name.length + 5 := by
  rw [String.length_append]
  rfl

theorem not_mem_partName (p : Path) : '/' ∉ (partName p).toList := by
  unfold partName
  cases hname : p.fileName? with
  | none => decide
  | some name =>
    obtain ⟨front, idle, hsegments, -⟩ := Path.fileName?_eq_some hname
    have hnot : '/' ∉ name.toList :=
      Path.not_mem_of_mem_segments (p := p) (by simp [hsegments])
    simp [hnot]

private theorem partName_real (p : Path) {name : String} (h : p.fileName? = some name) :
    '/' ∉ (name ++ ".part").toList ∧ Path.isIdle (name ++ ".part") = false ∧
      name ++ ".part" ≠ ".." := by
  have hpartName : partName p = name ++ ".part" := by simp [partName, h]
  have hlength : 2 < (name ++ ".part").length := by
    rw [length_part]
    omega
  exact ⟨hpartName ▸ not_mem_partName p, Path.real_of_length hlength⟩

theorem partFile_eq_join {p : Path} {name : String} (h : p.fileName? = some name) :
    ∃ directory, p.parent? = some directory ∧ p.Extends directory name ∧
      partFile p = directory.join ⟨name ++ ".part"⟩ ∧ (partFile p).parent? = some directory := by
  obtain ⟨directory, hparent, hextends⟩ := Path.exists_parent? h
  have hjoin : partFile p = directory.join ⟨name ++ ".part"⟩ := by
    simp [partFile, Path.withFileName, partName, h, hparent]
  obtain ⟨hslash, hreal, -⟩ := partName_real p h
  exact ⟨directory, hparent, hextends, hjoin, hjoin ▸ Path.parent?_join hparent hslash hreal⟩

theorem partFile_extends {p q : Path} {name : String} (h : p.Extends q name) :
    (partFile p).Extends q (name ++ ".part") := by
  have hname := h.fileName?_eq
  obtain ⟨directory, -, hextends, hjoin, -⟩ := partFile_eq_join hname
  obtain ⟨hslash, hreal, hup⟩ := partName_real p hname
  rw [hjoin]
  exact hextends.rebase h (directory.join_extends hslash hreal hup)

/-- A target and its part file never name the same place. -/
theorem apart_partFile (disk : Disk) (p : Path) : disk.Apart (partFile p) p := by
  intro directory directory' name name' slash slash' hpart hsite hsame
  obtain ⟨front, slashes, left, hroute⟩ := Disk.exists_route hsite
  have hname : p.fileName? = some name' :=
    Path.fileName?_of_segments hroute.segments hroute.idle hroute.real hroute.notUp
  obtain ⟨q, -, hextends⟩ := Path.exists_parent? hname
  obtain ⟨front', slashes', left', hroute'⟩ := Disk.exists_route hpart
  have hsplit := hroute'.names
  rw [(partFile_extends hextends).names] at hsplit
  have hlast := (List.cons.inj (List.append_inj' hsplit rfl).2).1
  have hlength := congrArg String.length ((List.cons.inj hsame).1.symm.trans hlast.symm)
  rw [length_part] at hlength
  omega

/-- What a job counts on while it runs: a disk whose paths lead through directories, no links where
it writes, no directory at the part file, and a target whose path does not come back over two dots
from a directory that is still to be made. -/
structure Job.Undisturbed (j : Job) (disk : Disk) : Prop where
  sound : disk.Sound
  target : disk.isLink j.target = false
  part : disk.isLink j.part = false
  file : disk.seen j.part ≠ some .directory
  straight : disk.Straight j.target

theorem Job.Undisturbed.makeDirectories {j : Job} {disk : Disk} (h : j.Undisturbed disk)
    {directory : Path} (hparent : j.target.parent? = some directory) :
    let made := (disk.makeDirectories directory).2
    j.Undisturbed made ∧ made.seen j.target = disk.seen j.target ∧
      made.seen j.part = disk.seen j.part := by
  rcases Disk.makeDirectories_kept h.sound h.straight hparent with
    hsame | ⟨⟨name, htarget⟩, hgrown, hkept⟩
  · rw [hsame]
    exact ⟨h, rfl, rfl⟩
  · obtain ⟨hseen, hlink⟩ := hkept htarget
    obtain ⟨hpart, hpartlink⟩ := hkept (r := j.part) (partFile_extends htarget)
    have hstraight := h.straight.mono hgrown.keepsPassages hgrown.working
    refine ⟨⟨hgrown.sound, hlink, hpartlink, ?_, hstraight⟩, hseen.seen, hpart.seen⟩
    rw [hpart.seen]
    exact h.file

end ModelHost.Download
