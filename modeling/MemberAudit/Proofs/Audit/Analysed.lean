/-
What a run analyses: the class files and jars of its input, and the file of rules
(`Analysed`). If none of these is directly in the report directory, a run leaves
them as they are, scans the classes that were there when it began, and finds the
same file of rules when it is started again (`run_keeps_analysed`).

Those in the report directory are not looked at in time: what is cleared away is
told by where it stands, whether or not it is a report (`run_clears_classes`).
-/
import Mathlib.Data.List.Find
import MemberAudit.Proofs.Audit.KeptFiles
import MemberAudit.Proofs.Audit.Rules
import MemberAudit.Proofs.Inventory.SameFiles

namespace MemberAudit.Audit

open FileTree (Later)
open Inventory (fileKind pathAt)

variable {call : List String} {tree : FileTree} {a : Arguments} {m : Location} {content : ByteArray}

/-- Where a run looks for classes and rules: at the files of its input that are of a
kind, and at the file of rules. -/
inductive Analysed (tree : FileTree) (a : Arguments) : Location → Prop where
  | classes {l rest : Location} {content : ByteArray} : tree.resolve a.input = .ok l →
      tree.root.fileAt (l ++ rest) = some content → fileKind (pathAt a.input rest) ≠ .unsupported →
      Analysed tree a (l ++ rest)
  | rules {config : String} {m : Location} : configOf tree a = some config →
      tree.resolve config = .ok m → Analysed tree a m

/-- The directories in which a file of rules is looked for, the nearest first. -/
def searched (tree : FileTree) (input : String) : List String :=
  match if tree.hasDirectory input then some input else Path.parent? input with
  | some first => Path.ancestors first
  | none => []

theorem nearestConfig_eq (tree : FileTree) (input : String) :
    nearestConfig tree input =
      ((searched tree input).map fun directory => Path.child directory configName).find?
        tree.hasFile := by
  unfold nearestConfig searched
  cases if tree.hasDirectory input then some input else Path.parent? input <;> rfl

theorem configOf_none (h : a.config = none) (tree : FileTree) :
    configOf tree a = nearestConfig tree a.input := by
  rw [configOf, h]
  rfl

/-- The directories above an input are there. -/
theorem opens_searched {input : String} (hpath : tree.hasPath input = true) :
    ∀ directory ∈ searched tree input, ∃ l, tree.Opens directory l := by
  obtain ⟨l, hresolve, -⟩ := FileTree.hasPath_iff.mp hpath
  unfold searched
  split
  · rename_i first hfirst
    obtain ⟨m, hm⟩ : ∃ m, tree.Opens first m := by
      split at hfirst
      · rename_i hdir
        cases hfirst
        obtain ⟨m, hm⟩ := FileTree.hasDirectory_iff.mp hdir
        exact ⟨m, (FileTree.opens_iff_resolve (FileTree.resolve_eq_ok.mp hresolve).1).mpr hm⟩
      · exact FileTree.opens_parent hresolve hfirst
    exact FileTree.opens_ancestors hm
  · simp

/-- What a run with rules clears away and writes to is apart from what it analyses,
and from where files of rules are looked for. -/
structure Apart (tree : FileTree) (a : Arguments) : Prop where
  analysed : ∀ m, Analysed tree a m → ¬InReportDir tree a m
  searched : a.config = none → ∀ directory ∈ searched tree a.input, ∀ l, tree.Opens directory l →
    ¬InReportDir tree a (l ++ [configName])

/-- With its log on standard output a run leaves all that is not in its report directory. -/
theorem untouched_of_standardOutput (houtput : ∀ path ∈ a.output, isStandardOutput path = true)
    (hm : ¬InReportDir tree a m) : Untouched tree a m where
  spared := .inl hm
  unwritten path hpath hmakes := by
    cases hpath with
    | report hconfig htake hmem =>
      obtain ⟨l, hopens, heq⟩ := Report.opens_of_makes_report hmem hmakes
      exact hm ⟨by simp [hconfig], l, _, hopens, heq⟩
    | log hpath hstandard =>
      rw [houtput path hpath] at hstandard
      cases hstandard

/-- The scan finds the class files that were there when the run began. -/
theorem take_preparedOf (hwf : tree.root.WellFormed) (hpath : tree.hasPath a.input = true)
    (hapart : ∀ m, Analysed tree a m → ¬InReportDir tree a m) :
    Inventory.take (preparedOf tree a) a.input = Inventory.take tree a.input := by
  obtain ⟨hlater, hold⟩ := preparedOf_spec hwf a
  obtain ⟨l, hresolve, hthere⟩ := FileTree.hasPath_iff.mp hpath
  refine Inventory.take_of_sameFiles hwf hlater.wellFormed hlater.home (fun _ => hlater.directories)
    hresolve hthere (hlater.hasDirectory hpath) ?_
  intro rest hkind
  cases hfile : tree.root.fileAt (l ++ rest) with
  | some content => rw [hlater.fileAt (.inl (hapart _ (.classes hresolve hfile hkind))), hfile]
  | none =>
    cases hprepared : (preparedOf tree a).root.fileAt (l ++ rest) with
    | none => rfl
    | some content =>
      rw [hold _ content hprepared] at hfile
      cases hfile

/-- A file of rules is there later exactly where one was. -/
theorem hasFile_configName {directory : String} {l : Location} {later : FileTree}
    {places : Location → Prop} (hlater : Later places tree later) (hopens : tree.Opens directory l)
    (hplace : places (l ++ [configName])) :
    later.hasFile (Path.child directory configName) =
      tree.hasFile (Path.child directory configName) := by
  have hname := plainName_configName
  rw [Bool.eq_iff_iff, FileTree.hasFile_iff, FileTree.hasFile_iff, hopens.read?_child hname,
    (hlater.opens hopens).read?_child hname, hlater.fileAt hplace]

/-- **A run keeps what it analyses** if that is apart from its report directory and the
log is no file. -/
theorem run_keeps_analysed (call : List String) (hwf : tree.root.WellFormed)
    (houtput : ∀ path ∈ a.output, isStandardOutput path = true) (hapart : Apart tree a) :
    (∀ m content, Analysed tree a m → tree.root.fileAt m = some content →
      Stays m content tree (run call tree a).tree) ∧
    (tree.hasPath a.input = true →
      Inventory.take (preparedOf tree a) a.input = Inventory.take tree a.input) ∧
    configOf (run call tree a).tree a = configOf tree a := by
  refine ⟨?_, fun hpath => take_preparedOf hwf hpath hapart.analysed, ?_⟩
  · intro m content hm hfile
    exact (untouched_of_standardOutput houtput (hapart.analysed m hm)).stays call hwf hfile
  · cases hconfig : a.config with
    | some config => rw [configOf, configOf, hconfig]; rfl
    | none =>
      rw [configOf_none hconfig, configOf_none hconfig]
      cases hpath : tree.hasPath a.input with
      | false => simp [run, runWith, hpath]
      | true =>
        have hlater := run_later call hwf a
        have hsearched : searched (run call tree a).tree a.input = searched tree a.input := by
          rw [searched, searched, hlater.hasDirectory hpath]
        rw [nearestConfig_eq, nearestConfig_eq, hsearched]
        refine List.find?_congr ?_
        intro path hmem
        obtain ⟨directory, hdirectory, rfl⟩ := List.mem_map.mp hmem
        obtain ⟨l, hopens⟩ := opens_searched hpath directory hdirectory
        exact hasFile_configName hlater hopens (untouched_of_standardOutput houtput
          (hapart.searched hconfig directory hdirectory l hopens))

/-! A directory with a class and the file of rules. -/

def classesTree : FileTree :=
  ⟨.directory [("work", .directory [("classes", .directory
    [("Main.class", .file ⟨#[0xCA, 0xFE, 0xBA, 0xBE]⟩), (configName, .file "\x7b\x7d".toUTF8)])])],
    ["work"]⟩

def classesArguments (reportDir : String) : Arguments :=
  { input := "classes", reportDir := some reportDir }

theorem wellFormed_classesTree : classesTree.root.WellFormed := by
  have hnames : "Main.class" ≠ configName := by decide
  simp [classesTree, Node.wellFormed_directory, Node.WellFormed.file, hnames]

theorem eq_of_inReportDir {m : Location}
    (h : InReportDir classesTree (classesArguments "reports") m) :
    ∃ name, m = ["work", "reports", name] := by
  obtain ⟨l, name, hopens, rfl⟩ := h.child
  have hl := FileTree.locationOf_of_opens (by decide) hopens
  rw [(preparedOf_spec wellFormed_classesTree _).1.home] at hl
  have hreports : FileTree.locationOf classesTree.home (reportDirOf (classesArguments "reports")) =
      ["work", "reports"] := by decide +kernel
  exact ⟨name, by rw [hl, hreports]; rfl⟩

/-- With a report directory of its own, the run keeps the class and finds the same rules. -/
theorem run_keeps_analysed_classes :
    let a := classesArguments "reports"
    Stays ["work", "classes", "Main.class"] ⟨#[0xCA, 0xFE, 0xBA, 0xBE]⟩ classesTree
        (run [] classesTree a).tree ∧
      Inventory.take (preparedOf classesTree a) a.input = Inventory.take classesTree a.input ∧
      configOf (run [] classesTree a).tree a = some "classes/collector_config.json" := by
  intro a
  have hinput : classesTree.resolve a.input = .ok ["work", "classes"] :=
    Report.eq_ok_of_toOption (by decide +kernel)
  have hconfig : configOf classesTree a = some "classes/collector_config.json" := by decide +kernel
  have hrules : classesTree.resolve "classes/collector_config.json" =
      .ok ["work", "classes", configName] := Report.eq_ok_of_toOption (by decide +kernel)
  have hapart : Apart classesTree a := by
    constructor
    · intro m hm hin
      obtain ⟨name, heq⟩ := eq_of_inReportDir hin
      cases hm with
      | classes hl _ _ =>
        rw [← Except.ok.inj (hinput.symm.trans hl)] at heq
        simp at heq
      | rules hfound hm =>
        rw [← Option.some.inj (hconfig.symm.trans hfound)] at hm
        rw [← Except.ok.inj (hrules.symm.trans hm)] at heq
        simp at heq
    · intro _ directory hdirectory l hopens hin
      obtain ⟨name, heq⟩ := eq_of_inReportDir hin
      have hplain : ∀ directory ∈ searched classesTree a.input, ".." ∉ FileTree.names directory ∧
          FileTree.locationOf classesTree.home directory ∈ [["work", "classes"], ["work"]] := by
        decide +kernel
      obtain ⟨hup, hlocation⟩ := hplain directory hdirectory
      rw [← FileTree.locationOf_of_opens hup hopens] at hlocation
      simp only [List.mem_cons, List.not_mem_nil, or_false] at hlocation
      rcases hlocation with rfl | rfl <;> simp at heq
  obtain ⟨hstays, htake, hsame⟩ :=
    run_keeps_analysed [] wellFormed_classesTree (by simp [a, classesArguments]) hapart
  have hclass : classesTree.root.fileAt (["work", "classes"] ++ ["Main.class"]) =
      some ⟨#[0xCA, 0xFE, 0xBA, 0xBE]⟩ := by decide +kernel
  exact ⟨hstays _ _ (.classes hinput hclass (by decide +kernel)) hclass, htake (by decide +kernel),
    hsame.trans hconfig⟩

/-- The classes in the report directory and the file of rules there are cleared away
before they are looked at, and the run succeeds without them. -/
theorem run_clears_classes :
    let a := classesArguments "classes"
    (classesTree.read? "classes/Main.class").isSome = true ∧
      configOf classesTree a = some "classes/collector_config.json" ∧
      (run [] classesTree a).tree.read? "classes/Main.class" = none ∧
      (run [] classesTree a).tree.read? "classes/collector_config.json" = none ∧
      (run [] classesTree a).outcome.isOk = true := by
  decide +kernel

end MemberAudit.Audit
