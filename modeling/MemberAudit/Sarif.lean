/-
The log of a run in SARIF, the exchange format of static analysis: how the
program was called, the files it read, and a result for each new use. Of the format
these parts are here and no others; a part that is absent is left out, never null.
-/
import MemberAudit.Violation
import MemberAudit.Json.Value

namespace MemberAudit.Sarif

open Json (Value)

def toolName : String := "refwatch"

def toolVersion : String := "0.1.0"

def schema : String := "https://schemastore.azurewebsites.net/schemas/json/sarif-2.1.0.json"

def ruleId : String := "MEMBER_REFERENCE"

/-- The call of the program, whose arguments begin with its name. -/
def invocation (arguments : List String) : Value :=
  .object
    [("arguments", .array (arguments.map .text)),
     ("commandLine", .text (" ".intercalate arguments)),
     ("executionSuccessful", .bool true)]

def logicalLocation (name kind : String) : Value :=
  .object [("kind", .text kind), ("name", .text name)]

/-- What a member is in a log. -/
def memberWord : MemberSort → String
  | .method => "function"
  | .field => "member"

/-- The place of a violation: its file and, if it is known, its line. -/
def physicalLocation (violation : Violation) : Value :=
  let file : List (String × Value) :=
    [("artifactLocation", .object [("index", .int violation.artifact)])]
  if 0 < violation.use.callerLine.toInt then
    .object (file ++ [("region", .object [("startLine", .int violation.use.callerLine.toInt)])])
  else .object file

/-- The message of a result. -/
def resultText (violation : Violation) : String :=
  violation.message ++ " (line " ++ Text.decimal violation.use.callerLine.toInt ++ ")"

def result (violation : Violation) : Value :=
  let use := violation.use
  .object
    [("locations", .array
      [.object
        [("logicalLocations", .array
           [logicalLocation (use.callerClass ++ "." ++ use.callerMember) "function",
            logicalLocation (use.ownerClass ++ "#" ++ use.ownerMember) (memberWord use.kind)]),
         ("physicalLocation", physicalLocation violation)]]),
     ("message", .object [("text", .text (resultText violation))]),
     ("ruleId", .text ruleId)]

def artifact (file : Artifact) : Value :=
  .object <|
    [("length", .int file.size), ("location", .object [("uri", .text file.path)])]
      ++ if file.isInput then [("roles", .array [.text "analysisTarget"])] else []

/-- The log of one run. -/
def log (arguments : List String) (artifacts : List Artifact) (violations : List Violation) : Value :=
  let run : List (String × Value) :=
    (if artifacts.isEmpty then [] else [("artifacts", .array (artifacts.map artifact))])
      ++ [("invocations", .array [invocation arguments]),
          ("results", .array (violations.map result)),
          ("tool", .object [("driver", .object
            [("name", .text toolName), ("version", .text toolVersion)])])]
  .object
    [("$schema", .text schema), ("runs", .array [.object run]), ("version", .text "2.1.0")]

end MemberAudit.Sarif
