/-
The program as its caller sees it: what it prints, and the number it ends with,
which is 0 for success, 1 for a run that fails and 2 for arguments that cannot
be used.
-/
import MemberAudit.Audit

namespace MemberAudit.Console

/-- The name under which the program is called. -/
def programName : String := Sarif.toolName

def versionText : String := programName ++ " " ++ Sarif.toolVersion ++ "\n"

def helpText : String :=
  "Report JVM call sites and field accesses matching configured owner rules.\n\n"
  ++ "Usage: " ++ programName ++ " [OPTIONS] --input <PATH>\n\n"
  ++ "Options:\n"
  ++ "      --input <PATH>\n      --config <PATH>\n      --report-dir <PATH>\n"
  ++ "      --baseline <PATH>\n      --project-name <NAME>\n      --output <PATH>\n"
  ++ "      --quiet\n      --timing\n"
  ++ "  -h, --help     Print help\n  -V, --version  Print version\n"

/-- Why arguments cannot be used, in words. -/
def usageText : UsageStop → String
  | .missingRequired => "the option --input is required"
  | .invalidValue => "an option lacks its value"
  | .unknown => "unexpected argument"
  | .conflict => "an option is given more than once"
  | .tooManyValues => "a value is given to an option that takes none"
  | .help | .version => ""

/-- What a call leaves behind and prints. -/
structure Result where
  tree : FileTree
  exitCode : UInt32
  output : String
  warnings : List Warning
  /-- Why the run failed, from the whole to the part. -/
  fault : List String
  /-- The counts of the timing line, if one is printed. -/
  timing : Option String
  /-- Why the arguments cannot be used. -/
  usage : Option UsageStop

/-- The counts of a run as the timing line shows them. -/
def timingText (summary : Audit.Summary) : String :=
  "classes=" ++ Text.decimal summary.classes ++ " artifacts=" ++ Text.decimal summary.artifacts
    ++ " matches=" ++ Text.decimal summary.results

/-- The words of a call as the log shows them. -/
def callWords (words : List String) : List String :=
  programName :: words

/-- A call whose arguments ask for no run, or cannot be used. -/
def stopped (tree : FileTree) (exitCode : UInt32) (output : String) (stop : UsageStop) : Result :=
  ⟨tree, exitCode, output, [], [], none, some stop⟩

/-- A call of the program with the words of its command line. -/
def call (tree : FileTree) (words : List String) : Result :=
  match Arguments.parse words with
  | .error .help => stopped tree 0 helpText .help
  | .error .version => stopped tree 0 versionText .version
  | .error stop => stopped tree 2 "" stop
  | .ok arguments =>
    let run := Audit.run (callWords words) tree arguments
    match run.outcome with
    | .error fault => ⟨run.tree, 1, "", run.warnings, fault.chain, none, none⟩
    | .ok (output, summary) =>
      let timing := if arguments.timing && !arguments.quiet then some (timingText summary) else none
      ⟨run.tree, 0, output, run.warnings, [], timing, none⟩

/-- The causes of a fault, numbered if there are several. -/
def causesText : List String → String
  | [] => ""
  | [cause] => "\n\nCaused by:\n    " ++ cause
  | causes => "\n\nCaused by:" ++ String.join (causes.zipIdx.map fun (cause, i) =>
      "\n    " ++ Text.decimal i ++ ": " ++ cause)

/-- A fault as it is printed. -/
def faultText : List String → String
  | [] => ""
  | whole :: causes => "Error: " ++ whole ++ causesText causes

end MemberAudit.Console
