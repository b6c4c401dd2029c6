/-
What a run may change. Whatever the rules, the baseline and the class files hold, and
however the run ends, what differs afterwards is a directory on the way to the report
directory, a file directly in it, or the log (`run_confined`); without rules it is the
log. Names of owners lead nowhere else, for a report is made in the report directory
under any name (`Report.opens_of_makes_report`).

Places are compared and not paths: a path with a step up in it may lead nowhere until
a directory is made, and then to a place that is as it was.
-/
import Mathlib.Tactic.ByContra
import MemberAudit.Console
import MemberAudit.Proofs.Audit.KeptFiles

namespace MemberAudit

variable {tree after : FileTree} {a : Arguments} {m : Location}

/-! ## What a run may change -/

namespace Audit

open FileTree (Later resolve_of_directories)

/-- A directory that was made on the way to the report directory. -/
structure OnTheWay (tree : FileTree) (a : Arguments) (after : FileTree) (m : Location) : Prop where
  nothing : tree.stateAt m = none
  made : after.DirectoryAt m
  above : ∃ path ∈ Path.ancestors (reportDirOf a), after.resolve path = .ok m

/-- A place that has no directory, neither before nor after. -/
structure ForFile (tree after : FileTree) (m : Location) : Prop where
  before : ¬tree.DirectoryAt m
  after : ¬after.DirectoryAt m

/-- A file directly in the report directory. -/
structure InReports (tree : FileTree) (a : Arguments) (after : FileTree) (m : Location) : Prop where
  file : ForFile tree after m
  child : ∃ l name, after.Opens (reportDirOf a) l ∧ m = l ++ [name]

/-- The file that is made under the path of the log. -/
structure IsLog (tree : FileTree) (a : Arguments) (after : FileTree) (m : Location) : Prop where
  file : ForFile tree after m
  output : ∃ path, a.output = some path ∧ isStandardOutput path = false ∧ after.Makes path m

/-- The places that a run may change. -/
inductive Confined (tree : FileTree) (a : Arguments) (after : FileTree) (m : Location) : Prop where
  | onTheWay : configOf tree a ≠ none → OnTheWay tree a after m → Confined tree a after m
  | inReports : configOf tree a ≠ none → InReports tree a after m → Confined tree a after m
  | log : IsLog tree a after m → Confined tree a after m

/-- Without rules a run may change its log only. -/
theorem Confined.isLog (h : Confined tree a after m) (hnone : configOf tree a = none) :
    IsLog tree a after m := by
  cases h with
  | onTheWay hrules _ => exact absurd hnone hrules
  | inReports hrules _ => exact absurd hnone hrules
  | log hlog => exact hlog

/-- A directory of the tree that is scanned is an old one, or on the way to the report
directory. -/
theorem preparedOf_made (hwf : tree.root.WellFormed)
    (hdir : (preparedOf tree a).root.kindAt m = some true) :
    tree.root.kindAt m = some true ∨ configOf tree a ≠ none ∧ tree.root.get? m = none ∧
      ∃ above ∈ Path.ancestors (reportDirOf a), (preparedOf tree a).resolve above = .ok m := by
  cases hconfig : configOf tree a with
  | none =>
    rw [preparedOf_none hconfig] at hdir
    exact .inl hdir
  | some config =>
    rw [preparedOf_some hconfig] at hdir ⊢
    exact (Report.prepare_made hwf hdir).imp id fun hnew => ⟨by simp, hnew⟩

/-- A run changes what it does not leave untouched: it clears the place away with the
files of the report directory, or writes to it. -/
theorem touched (h : ¬Untouched tree a m) :
    InReportDir tree a m ∨ ∃ path, WritesTo tree a path ∧ (preparedOf tree a).Makes path m := by
  by_contra hnot
  rw [not_or] at hnot
  obtain ⟨hout, hunwritten⟩ := hnot
  exact h ⟨.inl hout, fun path hwrites hmakes => hunwritten ⟨path, hwrites, hmakes⟩⟩

/-- **A run is confined to its outputs.** -/
theorem run_confined (call : List String) (hwf : tree.root.WellFormed) (a : Arguments)
    (hdiffers : (run call tree a).tree.stateAt m ≠ tree.stateAt m) :
    Confined tree a (run call tree a).tree m := by
  have hlater := run_later call hwf a
  rcases run_agreeOn call hwf a with hsame | hagree
  · exact absurd (by rw [hsame]) hdiffers
  generalize (run call tree a).tree = after at *
  have hopens : ∀ {l}, (preparedOf tree a).Opens (reportDirOf a) l → after.Opens (reportDirOf a) l :=
    Later.opens ⟨_, .refl _, rfl, hagree⟩
  by_cases hbefore : tree.DirectoryAt m
  · have hafter : after.DirectoryAt m :=
      FileTree.directoryAt_iff.mpr (hlater.directories (FileTree.directoryAt_iff.mp hbefore))
    exact absurd (hafter.trans hbefore.symm) hdiffers
  by_cases hafter : after.DirectoryAt m
  · have hdir := FileTree.directoryAt_iff.mp hafter
    rcases preparedOf_made hwf ((hagree.directories m).mpr hdir) with hold | hnew
    · exact absurd (FileTree.directoryAt_iff.mpr hold) hbefore
    · obtain ⟨hrules, hnone, above, habove, hresolve⟩ := hnew
      refine .onTheWay hrules ⟨by simp [FileTree.stateAt, hnone], hafter, above, habove, ?_⟩
      exact resolve_of_directories hagree.home.symm (fun l => (hagree.directories l).mp)
        (by rw [hdir]; rfl) hresolve
  -- Neither tree has a directory here, so it is the file that differs.
  have hfile : ForFile tree after m := ⟨hbefore, hafter⟩
  have htouched : ¬Untouched tree a m := by
    intro huntouched
    rw [FileTree.stateAt_eq_of_not_directory hbefore, FileTree.stateAt_eq_of_not_directory hafter,
      hlater.fileAt huntouched] at hdiffers
    exact hdiffers rfl
  rcases touched htouched with hcleared | hwritten
  · obtain ⟨l, name, hprepared, hm⟩ := hcleared.child
    exact .inReports hcleared.rules ⟨hfile, l, name, hopens hprepared, hm⟩
  · obtain ⟨path, hwrites, hmakes⟩ := hwritten
    cases hwrites with
    | report hconfig _ hmem =>
      obtain ⟨l, hprepared, hm⟩ := Report.opens_of_makes_report hmem hmakes
      exact .inReports (by simp [hconfig]) ⟨hfile, l, _, hopens hprepared, hm⟩
    | log houtput hstandard =>
      exact .log ⟨hfile, path, houtput, hstandard, hagree.makes.mp hmakes⟩

end Audit

/-! ## The command line -/

namespace Console

open Audit (Confined IsLog configOf)

/-- A call with words that ask for a run leaves the tree of its run. -/
theorem call_tree_of_parse {words : List String} (h : Arguments.parse words = .ok a) :
    (call tree words).tree = (Audit.run (callWords words) tree a).tree := by
  unfold call
  rw [h]
  simp only
  split <;> rfl

/-- A call whose words cannot be used, or ask for no run, leaves the tree; any other
leaves that of its run. -/
theorem call_tree (tree : FileTree) (words : List String) :
    (call tree words).tree = tree ∨ ∃ a, Arguments.parse words = .ok a ∧
      (call tree words).tree = (Audit.run (callWords words) tree a).tree := by
  cases hparse : Arguments.parse words with
  | ok a => exact .inr ⟨a, rfl, call_tree_of_parse hparse⟩
  | error stop =>
    refine .inl ?_
    unfold call
    rw [hparse]
    cases stop <;> rfl

/-- **A call of the program is confined to its outputs**, whatever its words. Without
rules, given or found, it may change its log only. -/
theorem call_confined (hwf : tree.root.WellFormed) (words : List String)
    (hdiffers : (call tree words).tree.stateAt m ≠ tree.stateAt m) :
    ∃ a, Arguments.parse words = .ok a ∧ Confined tree a (call tree words).tree m ∧
      (configOf tree a = none → IsLog tree a (call tree words).tree m) := by
  rcases call_tree tree words with hsame | hrun
  · exact absurd (by rw [hsame]) hdiffers
  · obtain ⟨a, hparse, htree⟩ := hrun
    rw [htree] at hdiffers ⊢
    have hconfined := Audit.run_confined (callWords words) hwf a hdiffers
    exact ⟨a, hparse, hconfined, hconfined.isLog⟩

/-- The path of the report directory makes a directory that is no part of where it
leads; the file that was there is cleared away, and the log is new. -/
theorem call_confined_stepUp :
    let tree := Audit.reviewTree "old.txt" "x".toUTF8
    let words := ["--input=classes", "--report-dir=new/../reports", "--output", "log.sarif"]
    tree.root.WellFormed ∧
    ∀ m ∈ [["work", "new"], ["work", "reports", "old.txt"], ["work", "log.sarif"]],
      (call tree words).tree.stateAt m ≠ tree.stateAt m ∧
      ∃ a, Arguments.parse words = .ok a ∧ Confined tree a (call tree words).tree m ∧
        (configOf tree a = none → IsLog tree a (call tree words).tree m) := by
  intro tree words
  have hdiffers : ∀ m ∈ [["work", "new"], ["work", "reports", "old.txt"], ["work", "log.sarif"]],
      (call tree words).tree.stateAt m ≠ tree.stateAt m := by
    decide +kernel
  refine ⟨Audit.wellFormed_reviewTree _ _, ?_⟩
  intro m hm
  exact ⟨hdiffers m hm, call_confined (Audit.wellFormed_reviewTree _ _) words (hdiffers m hm)⟩

end Console

end MemberAudit
