/-
A run of the audit: find the rules, prepare the report directory, take the
inventory, look for members that should not be used, drop what the baseline
accepts, write reports, and log the new uses.

Only three things make a run fail: an input that does not exist, an input that
has no inventory, and an output file that cannot be opened. Rules and reports
that cannot be read or written give warnings. A file that can be opened takes all
that is written to it, for a tree has no end of space; so a run does not fail
halfway through its log.

The classes may be examined at the same time, and the set of uses found may depend
on how they take turns. So a run is told for any set that they may come to (`runWith`);
`run` is the one whose classes are examined one after another.
-/
import MemberAudit.Arguments
import MemberAudit.Baseline
import MemberAudit.Report.Directory
import MemberAudit.Policy.Document
import MemberAudit.Sarif

namespace MemberAudit

/-- Why a run fails. That a log breaks off while it is written is none of the causes:
see `Audit.emit`. -/
inductive RunFault where
  | inputNotFound (path : String)
  | scan (fault : ScanFault)
  | outputNotOpened (path : String)
  deriving DecidableEq, Repr

/-- The fault, from the whole to the part. -/
def RunFault.chain : RunFault → List String
  | inputNotFound path => ["input not found: " ++ path]
  | scan fault => fault.chain
  | outputNotOpened path => ["failed to open " ++ path]

namespace Audit

/-- The name of a file of rules that is found by itself. -/
def configName : String := "collector_config.json"

def usualReportDir : String := "build/reports/method-collector"

/-- The file of rules in the input's directory or in the nearest directory above
it that has one, going up the path as it is written. -/
def nearestConfig (tree : FileTree) (input : String) : Option String :=
  let first? := if tree.hasDirectory input then some input else Path.parent? input
  first?.bind fun first =>
    ((Path.ancestors first).map fun directory => Path.child directory configName).find? tree.hasFile

/-- The name of an input directory, or of an input file without its extension. -/
def projectOf (tree : FileTree) (input : String) : String :=
  let name? :=
    if tree.hasDirectory input then (tree.resolve input).toOption.bind List.getLast?
    else Path.stem? input
  match name? with
  | some name => if name.isEmpty then "project" else name
  | none => "project"

/-- Counts of a run, for its timing line. -/
structure Summary where
  classes : Nat
  artifacts : Nat
  results : Nat
  deriving DecidableEq, Repr

/-- What a run leaves behind. -/
structure Run where
  tree : FileTree
  warnings : List Warning
  /-- The text on standard output, and counts. -/
  outcome : Except RunFault (String × Summary)

/-- Whether a path stands for standard output, which is written as a dash. -/
def isStandardOutput (path : String) : Bool :=
  !Path.isAbsolute path && Path.components path = [['-']]

/-- The tree with the log written to its file, or the log as output. What can be opened
takes the whole log: neither a file nor standard output is full or closed. -/
def emit (tree : FileTree) (output : Option String) (log : String) :
    FileTree × Except RunFault String :=
  match output with
  | none => (tree, .ok log)
  | some path =>
    if isStandardOutput path then (tree, .ok log)
    else
      match tree.write? path log.toUTF8 with
      | some tree => (tree, .ok "")
      | none => (tree, .error (.outputNotOpened path))

/-- The rules of a run and the warnings that come with them. -/
def loadRules (tree : FileTree) (input : String) : Option String → List Warning × Policy
  | some path => Policy.load path (tree.read? path)
  | none => ([.noRuleSet input], {})

/-- The tree with the report directory prepared, if reports will be written. -/
def prepareReports (tree : FileTree) (wanted : Bool) (directory keep : String) :
    FileTree × List Warning :=
  if wanted then
    match Report.prepare tree directory keep with
    | (tree, .ok ()) => (tree, [])
    | (tree, .error _) => (tree, [.reportDirectoryNotPrepared directory])
  else (tree, [])

/-- A run with the given words as the call of the program. `collect` is the set of uses
that is there when all classes have been examined. -/
def runWith (collect : Policy → List PlacedClass → UseSet) (call : List String)
    (tree : FileTree) (arguments : Arguments) : Run :=
  if !tree.hasPath arguments.input then
    ⟨tree, [], .error (.inputNotFound arguments.input)⟩
  else
    let config? := arguments.config <|> nearestConfig tree arguments.input
    let (ruleWarnings, rules) := loadRules tree arguments.input config?
    let rules := rules.dotForm
    let reportDir := arguments.reportDir.getD usualReportDir
    let baselinePath := arguments.baseline.getD (Path.child reportDir Baseline.fileName)
    let (tree, prepareWarnings) := prepareReports tree config?.isSome reportDir baselinePath
    let (scanWarnings, inventory?) := Inventory.take tree arguments.input
    let warnings := ruleWarnings ++ prepareWarnings ++ scanWarnings
    match inventory? with
    | .error fault => ⟨tree, warnings, .error (.scan fault)⟩
    | .ok inventory =>
      let violations := Violation.all rules inventory.classes
      let (baselineWarnings, baseline) := Baseline.load baselinePath (tree.read? baselinePath)
      let reported := (collect rules inventory.classes).newSince baseline
      let written : Report.Written :=
        if config?.isSome then
          Report.write tree rules.grain
            (arguments.projectName.getD (projectOf tree arguments.input)) reported reportDir
        else ⟨tree, [], []⟩
      let results := Violation.reported reported violations
      let log := Report.document (Sarif.log call inventory.artifacts results)
      let (tree, output) := emit written.tree arguments.output log
      ⟨tree, warnings ++ baselineWarnings ++ written.warnings,
        output.map fun text =>
          (text, ⟨inventory.classCount, inventory.artifacts.length, results.length⟩)⟩

/-- The set of uses when the classes are examined one after another. -/
def collectInTurn (rules : Policy) (classes : List PlacedClass) : UseSet :=
  (Violation.record .empty rules classes).2

/-- The run that examines one class after another. -/
def run (call : List String) (tree : FileTree) (arguments : Arguments) : Run :=
  runWith collectInTurn call tree arguments

end Audit
end MemberAudit
