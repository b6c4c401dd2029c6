/-
The stages of a run that has rules, from its arguments and tree: the tree it scans,
the uses it finds and those it reports, the reports it writes and the log. What the
run leaves is told by its inventory and the uses found in it (`runWith_of_take`), and
a run that succeeds has an inventory (`take_of_run`). A run without rules scans the tree
as it is and logs no results (`run_without_rules`).
-/
import MemberAudit.Audit

namespace MemberAudit.Audit

def reportDirOf (a : Arguments) : String :=
  a.reportDir.getD usualReportDir

/-- Where the baseline is: in the report directory, unless the arguments say. -/
def baselinePathOf (a : Arguments) : String :=
  a.baseline.getD (Path.child (reportDirOf a) Baseline.fileName)

/-- The tree that is scanned. -/
def scanned (tree : FileTree) (a : Arguments) : FileTree :=
  (Report.prepare tree (reportDirOf a) (baselinePathOf a)).1

/-- The violations found in an inventory, and their uses. -/
def scanOf (tree : FileTree) (a : Arguments) (config : String) (inventory : Inventory) :
    List Violation × UseSet :=
  Violation.record .empty (loadRules tree a.input (some config)).2.dotForm inventory.classes

/-- The baseline, with the warnings of its reading. -/
def baselineOf (tree : FileTree) (a : Arguments) : List Warning × Baseline :=
  Baseline.load (baselinePathOf a) ((scanned tree a).read? (baselinePathOf a))

/-- The uses reported. -/
def leftOf (tree : FileTree) (a : Arguments) (config : String) (inventory : Inventory) : UseSet :=
  (scanOf tree a config inventory).2.newSince (baselineOf tree a).2

/-- The reports written. -/
def writtenOf (tree : FileTree) (a : Arguments) (config : String) (inventory : Inventory) :
    Report.Written :=
  Report.write (scanned tree a) (loadRules tree a.input (some config)).2.grain
    (a.projectName.getD (projectOf (scanned tree a) a.input)) (leftOf tree a config inventory)
    (reportDirOf a)

/-- The violations in the log. -/
def resultsOf (tree : FileTree) (a : Arguments) (config : String) (inventory : Inventory) :
    List Violation :=
  Violation.reported (leftOf tree a config inventory) (scanOf tree a config inventory).1

/-- The log where the arguments send it: the tree with its file, or the text. -/
def emitted (call : List String) (tree : FileTree) (a : Arguments) (config : String)
    (inventory : Inventory) : FileTree × Except RunFault String :=
  emit (writtenOf tree a config inventory).tree a.output
    (Report.document (Sarif.log call inventory.artifacts (resultsOf tree a config inventory)))

theorem prepareReports_true (tree : FileTree) (directory keep : String) :
    (prepareReports tree true directory keep).1 = (Report.prepare tree directory keep).1 := by
  rw [prepareReports, if_pos rfl]
  split <;> rename_i h <;> rw [h]

variable {call : List String} {tree : FileTree} {a : Arguments} {config : String}

theorem scanned_eq (tree : FileTree) (a : Arguments) :
    (Report.prepare tree (a.reportDir.getD usualReportDir)
      (a.baseline.getD (Path.child (a.reportDir.getD usualReportDir) Baseline.fileName))).1 =
        scanned tree a := rfl

/-- What a run comes to that has rules and finds some uses in its inventory. -/
def endWith (call : List String) (tree : FileTree) (a : Arguments) (config : String)
    (inventory : Inventory) (found : UseSet) : Run :=
  let (ruleWarnings, rules) := loadRules tree a.input (some config)
  let reported := found.newSince (baselineOf tree a).2
  let written := Report.write (scanned tree a) rules.grain
    (a.projectName.getD (projectOf (scanned tree a) a.input)) reported (reportDirOf a)
  let results := Violation.reported reported (scanOf tree a config inventory).1
  let log := emit written.tree a.output
    (Report.document (Sarif.log call inventory.artifacts results))
  { tree := log.1
    warnings := ruleWarnings ++ (prepareReports tree true (reportDirOf a) (baselinePathOf a)).2
      ++ (Inventory.take (scanned tree a) a.input).1 ++ (baselineOf tree a).1 ++ written.warnings
    outcome := log.2.map fun text =>
      (text, ⟨inventory.classCount, inventory.artifacts.length, results.length⟩) }

/-- What a run that takes an inventory leaves, told by the uses it finds. -/
theorem runWith_of_take (collect : Policy → List PlacedClass → UseSet) (call : List String)
    (hconfig : (a.config <|> nearestConfig tree a.input) = some config)
    (hpath : tree.hasPath a.input = true) {inventory : Inventory}
    (htake : (Inventory.take (scanned tree a) a.input).2 = .ok inventory) :
    runWith collect call tree a = endWith call tree a config inventory
      (collect (loadRules tree a.input (some config)).2.dotForm inventory.classes) := by
  obtain ⟨scanWarnings, hresult⟩ : ∃ scanWarnings,
      Inventory.take (scanned tree a) a.input = (scanWarnings, .ok inventory) :=
    ⟨_, Prod.ext rfl htake⟩
  unfold runWith
  simp only [hpath, hconfig, Option.isSome_some, prepareReports_true, scanned_eq, hresult]
  rw [endWith, hresult]
  rfl

/-- What a run that takes an inventory leaves. -/
theorem run_of_take (call : List String)
    (hconfig : (a.config <|> nearestConfig tree a.input) = some config)
    (hpath : tree.hasPath a.input = true) {inventory : Inventory}
    (htake : (Inventory.take (scanned tree a) a.input).2 = .ok inventory) :
    run call tree a =
      { tree := (emitted call tree a config inventory).1
        warnings := (loadRules tree a.input (some config)).1
          ++ (prepareReports tree true (reportDirOf a) (baselinePathOf a)).2
          ++ (Inventory.take (scanned tree a) a.input).1 ++ (baselineOf tree a).1
          ++ (writtenOf tree a config inventory).warnings
        outcome := (emitted call tree a config inventory).2.map fun text =>
          (text, ⟨inventory.classCount, inventory.artifacts.length,
            (resultsOf tree a config inventory).length⟩) } :=
  runWith_of_take collectInTurn call hconfig hpath htake

/-- No rules flag nothing. -/
theorem all_without_rules (classes : List PlacedClass) :
    Violation.all ({} : Policy).dotForm classes = [] := by
  have hof : ∀ cls method reference,
      Violation.of? ({} : Policy).dotForm cls method reference = none := by
    intro cls method reference
    have hanswer : ∀ query, ({} : Policy).dotForm.answer? query = none := by
      intro query
      cases query with
      | mk kind => cases kind <;> rfl
    rw [Violation.of?, hanswer]
  simp [Violation.all, Violation.ofClass, funext (hof _ _)]

/-- What a run leaves that takes an inventory but has no rules: a log without results. -/
theorem run_without_rules (call : List String)
    (hconfig : (a.config <|> nearestConfig tree a.input) = none)
    (hpath : tree.hasPath a.input = true) {inventory : Inventory}
    (htake : (Inventory.take tree a.input).2 = .ok inventory) :
    let emitted := emit tree a.output (Report.document (Sarif.log call inventory.artifacts []))
    (run call tree a).tree = emitted.1 ∧
      (run call tree a).outcome = emitted.2.map fun text =>
        (text, ⟨inventory.classCount, inventory.artifacts.length, 0⟩) := by
  obtain ⟨scanWarnings, hresult⟩ : ∃ scanWarnings,
      Inventory.take tree a.input = (scanWarnings, .ok inventory) :=
    ⟨_, Prod.ext rfl htake⟩
  unfold run runWith
  simp only [hpath, hconfig, Option.isSome_none, prepareReports, Bool.not_true, Bool.false_eq_true,
    ite_false, hresult, loadRules, all_without_rules]
  exact ⟨rfl, rfl⟩

theorem take_of_run {result : String × Summary}
    (hconfig : (a.config <|> nearestConfig tree a.input) = some config)
    (hok : (run call tree a).outcome = .ok result) :
    tree.hasPath a.input = true ∧
      ∃ inventory, (Inventory.take (scanned tree a) a.input).2 = .ok inventory := by
  unfold run runWith at hok
  cases hpath : tree.hasPath a.input with
  | false =>
    simp only [hpath] at hok
    cases hok
  | true =>
    refine ⟨rfl, ?_⟩
    simp only [hpath, hconfig, Option.isSome_some, prepareReports_true, scanned_eq] at hok
    cases htake : (Inventory.take (scanned tree a) a.input).2 with
    | ok inventory => exact ⟨inventory, rfl⟩
    | error fault =>
      simp only [htake] at hok
      cases hok

/-- A log on standard output leaves the tree. -/
theorem emit_of_standardOutput (h : ∀ path ∈ a.output, isStandardOutput path = true) (log : String) :
    emit tree a.output log = (tree, .ok log) := by
  cases houtput : a.output with
  | none => rfl
  | some path => rw [emit, if_pos (h path houtput)]

theorem emitted_of_standardOutput (h : ∀ path ∈ a.output, isStandardOutput path = true)
    (inventory : Inventory) :
    emitted call tree a config inventory =
      ((writtenOf tree a config inventory).tree,
        .ok (Report.document
          (Sarif.log call inventory.artifacts (resultsOf tree a config inventory)))) :=
  emit_of_standardOutput h _

end MemberAudit.Audit
