/-
What is left when a report directory has been prepared. If it is there in the end, its
files are gone but for the one to be kept, and elsewhere only directories are new that
were made on the way to it; if it is not, no file has changed (`prepare_clears`).

The path of the file to be kept is looked up when the directories are made, since it may
lead through one of them. What it led to before, it leads to then.
-/
import Mathlib.Tactic.ByContra
import MemberAudit.Proofs.Report.KeptFiles

namespace MemberAudit.Report

open FileTree (resolve_of_directories)

variable {tree : FileTree} {directory keep : String} {m : Location}

/-- A directory that was made on the way to a path. -/
structure MadeOnTheWay (before after : FileTree) (path : String) (m : Location) : Prop where
  nothing : before.stateAt m = none
  made : after.DirectoryAt m
  above : ∃ above ∈ Path.ancestors path, after.resolve above = .ok m

/-- A file that is no longer there. -/
structure TakenAway (before after : FileTree) (m : Location) : Prop where
  file : ∃ content, before.root.fileAt m = some content
  gone : after.stateAt m = none

/-- What preparing changes at a place: it takes a file away, or makes a directory. -/
theorem prepare_changes (hwf : tree.root.WellFormed)
    (hdiffers : (prepare tree directory keep).1.stateAt m ≠ tree.stateAt m) :
    TakenAway tree (prepare tree directory keep).1 m ∨
      MadeOnTheWay tree (prepare tree directory keep).1 directory m := by
  obtain ⟨hlater, hold⟩ := prepare_spec hwf directory keep
  by_cases hafter : (prepare tree directory keep).1.DirectoryAt m
  · rcases prepare_made hwf (FileTree.directoryAt_iff.mp hafter) with hbefore | hnew
    · exact absurd (hafter.trans (FileTree.directoryAt_iff.mpr hbefore).symm) hdiffers
    · obtain ⟨hnone, habove⟩ := hnew
      exact .inr ⟨by simp [FileTree.stateAt, hnone], hafter, habove⟩
  · have hbefore : ¬tree.DirectoryAt m := fun hdir =>
      hafter (FileTree.directoryAt_iff.mpr (hlater.directories (FileTree.directoryAt_iff.mp hdir)))
    rw [FileTree.stateAt_eq_of_not_directory hafter,
      FileTree.stateAt_eq_of_not_directory hbefore] at hdiffers
    cases hfile : (prepare tree directory keep).1.root.fileAt m with
    | some content => exact absurd (by rw [hfile, hold m content hfile]) hdiffers
    | none =>
      refine .inl ⟨?_, by rw [FileTree.stateAt_eq_of_not_directory hafter, hfile]; rfl⟩
      cases hcontent : tree.root.fileAt m with
      | some content => exact ⟨content, rfl⟩
      | none => exact absurd (by rw [hfile, hcontent]) hdiffers

/-- A directory, at the end of its path, that was cleared of its files. -/
structure Clears (before after : FileTree) (directory keep : String) (l : Location) : Prop where
  leads : after.resolve directory = .ok l
  isDirectory : after.DirectoryAt l
  /-- The files left in it are those, with their content, to which `keep` leads. -/
  left : ∀ name content, after.root.fileAt (l ++ [name]) = some content ↔
    before.root.fileAt (l ++ [name]) = some content ∧ after.resolve keep = .ok (l ++ [name])
  /-- What `keep` led to before is kept. -/
  kept : ∀ m content, before.resolve keep = .ok m → before.root.fileAt m = some content →
    after.read? keep = some content
  /-- If the directory was there before, nothing else is. -/
  keptOnly : before.hasDirectory directory = true → ∀ name content,
    after.root.fileAt (l ++ [name]) = some content → before.resolve keep = .ok (l ++ [name])
  /-- What differs elsewhere is a directory on the way. -/
  changes : ∀ m, after.stateAt m ≠ before.stateAt m →
    (TakenAway before after m ∧ ∃ name, m = l ++ [name]) ∨ MadeOnTheWay before after directory m

/-- Of the files in a cleared directory those are left to which `keep` leads, be it
looked up before or afterwards. -/
theorem fileAt_clearFiles_iff {l : Location} {name : String} {content : ByteArray}
    (hwf : tree.root.WellFormed) :
    (tree.clearFiles l (tree.resolve keep).toOption).root.fileAt (l ++ [name]) = some content ↔
      tree.root.fileAt (l ++ [name]) = some content ∧
        (tree.clearFiles l (tree.resolve keep).toOption).resolve keep = .ok (l ++ [name]) := by
  have hagree := agreeOn_clearFiles hwf l (tree.resolve keep).toOption
  constructor
  · intro hfile
    have hbefore := fileAt_of_clearFiles hwf hfile
    rw [fileAt_clearFiles hwf] at hfile
    split at hfile
    · rename_i hkeep
      exact ⟨hbefore, (hagree.resolve_iff (.inr hkeep) hbefore).mp (eq_ok_of_toOption hkeep)⟩
    · cases hfile
  · intro hparts
    obtain ⟨hfile, hresolve⟩ := hparts
    have hbefore : tree.resolve keep = .ok (l ++ [name]) :=
      resolve_of_directories hagree.home (fun m => (hagree.directories m).mpr)
        (Node.isSome_kindAt_of_fileAt hfile) hresolve
    rw [fileAt_clearFiles hwf, if_pos (by rw [hbefore]; rfl), hfile]

theorem clears_of_prepare (hwf : tree.root.WellFormed)
    (hok : (prepare tree directory keep).2 = .ok ()) :
    ∃ l, Clears tree (prepare tree directory keep).1 directory keep l := by
  obtain ⟨hlater, -⟩ := prepare_spec hwf directory keep
  obtain ⟨hgrown, hhome, -⟩ := FileTree.createAll_madeUnder tree directory
  have hmade := hgrown.wellFormed hwf
  rcases prepare_cases tree directory keep with hfault | hcleared
  · obtain ⟨-, fault, hprepare⟩ := hfault
    rw [hprepare] at hok
    cases hok
  obtain ⟨l, hresolve, hdir, hprepare⟩ := hcleared
  have hopens : (prepare tree directory keep).1.Opens directory l := by
    rw [hprepare]
    exact opens_clearFiles hmade _ hresolve hdir
  have hleft : ∀ name content, (prepare tree directory keep).1.root.fileAt (l ++ [name]) = some content ↔
      tree.root.fileAt (l ++ [name]) = some content ∧
        (prepare tree directory keep).1.resolve keep = .ok (l ++ [name]) := by
    intro name content
    rw [hprepare, fileAt_clearFiles_iff hmade, hgrown.fileAt]
  obtain ⟨hleads, hleadsDir⟩ :=
    (FileTree.opens_iff_resolve (FileTree.resolve_eq_ok.mp hresolve).1).mp hopens
  refine ⟨l, hleads, FileTree.directoryAt_iff.mpr hleadsDir, hleft, ?kept, ?keptOnly, ?changes⟩
  case kept =>
    intro m content hkeep hfile
    exact hlater.read? (.inr hkeep) hfile hkeep
  case keptOnly =>
    intro hthere name content hfile
    rw [hprepare, FileTree.createAll_of_hasDirectory hthere] at hfile
    rw [fileAt_clearFiles hwf] at hfile
    split at hfile
    · rename_i hkeep
      exact eq_ok_of_toOption hkeep
    · cases hfile
  case changes =>
    intro m hdiffers
    refine (prepare_changes hwf hdiffers).imp_left fun htaken => ⟨htaken, ?_⟩
    by_contra hnot
    -- what is not in the directory is spared
    have hspared : Spares tree directory keep m :=
      .inl fun l' name hopens' hm => hnot ⟨name, hopens.unique hopens' ▸ hm⟩
    obtain ⟨⟨content, hcontent⟩, hgone⟩ := htaken
    rw [← hlater.fileAt hspared, Node.fileAt_eq_some] at hcontent
    rw [FileTree.stateAt, hcontent] at hgone
    cases hgone

theorem untouched_of_prepare {fault : DirectoryFault}
    (herror : (prepare tree directory keep).2 = .error fault) :
    (prepare tree directory keep).1.hasDirectory directory = false ∧
      ∀ m, (prepare tree directory keep).1.root.fileAt m = tree.root.fileAt m := by
  rcases prepare_cases tree directory keep with hfault | hcleared
  · obtain ⟨hnone, fault', hprepare⟩ := hfault
    rw [hprepare]
    exact ⟨hnone, (FileTree.createAll_madeUnder tree directory).grown.fileAt⟩
  · obtain ⟨l, -, -, hprepare⟩ := hcleared
    rw [hprepare] at herror
    cases herror

/-- **Preparing a report directory takes exactly its files away,** except the one to be
kept. Where it fails there is no such directory, and nothing is changed but for
directories that were made on the way. -/
theorem prepare_clears (hwf : tree.root.WellFormed) (directory keep : String) :
    let after := (prepare tree directory keep).1
    ((prepare tree directory keep).2 = .ok () → ∃ l, Clears tree after directory keep l) ∧
    ∀ fault, (prepare tree directory keep).2 = .error fault →
      after.hasDirectory directory = false ∧
        (∀ m, after.root.fileAt m = tree.root.fileAt m) ∧
        ∀ m, after.stateAt m ≠ tree.stateAt m → MadeOnTheWay tree after directory m := by
  intro after
  refine ⟨clears_of_prepare hwf, fun fault herror => ?_⟩
  obtain ⟨hnone, hfiles⟩ := untouched_of_prepare herror
  refine ⟨hnone, hfiles, fun m hdiffers => ?_⟩
  refine (prepare_changes hwf hdiffers).resolve_left fun htaken => ?_
  obtain ⟨⟨content, hcontent⟩, hgone⟩ := htaken
  rw [← hfiles, Node.fileAt_eq_some] at hcontent
  rw [FileTree.stateAt, hcontent] at hgone
  cases hgone

/-- A directory with two reports and a directory of its own. -/
def reportsWithin : FileTree :=
  ⟨.directory [("work", .directory [("reports", .directory
    [("old.json", .file "[]".toUTF8), ("kept.json", .file "[[]]".toUTF8),
      ("past", .directory [("old.json", .file "[]".toUTF8)])])])], ["work"]⟩

/-- Both paths lead through a directory that is not there yet. A file is no directory that
could be prepared. -/
theorem prepare_clears_stepUp :
    let tree := reportsWithin
    let keep := "new/.././reports/kept.json"
    let after := (prepare tree "new/../reports/." keep).1
    tree.root.WellFormed ∧
    (prepare tree "new/../reports/." keep).2 = .ok () ∧
    (∃ l, Clears tree after "new/../reports/." keep l) ∧
    after.read? "reports/old.json" = none ∧ after.read? "reports/kept.json" = some "[[]]".toUTF8 ∧
    after.read? "reports/past/old.json" = some "[]".toUTF8 ∧ after.hasDirectory "new" = true ∧
    (prepare tree "reports/old.json" keep).2 = .error (.notCreated "reports/old.json") ∧
    (prepare tree "reports/old.json" keep).1.hasDirectory "reports/old.json" = false := by
  intro tree keep after
  have hwf : tree.root.WellFormed := by
    simp [tree, reportsWithin, Node.wellFormed_directory, Node.WellFormed.file]
  have hok : (prepare tree "new/../reports/." keep).2 = .ok () := by decide +kernel
  have herror : (prepare tree "reports/old.json" keep).2 = .error (.notCreated "reports/old.json") := by
    decide +kernel
  exact ⟨hwf, hok, (prepare_clears hwf _ _).1 hok, by decide +kernel, by decide +kernel,
    by decide +kernel, by decide +kernel, herror, ((prepare_clears hwf _ _).2 _ herror).1⟩

end MemberAudit.Report
