/-
The baseline: uses that an earlier run reported and that are accepted. A JSON
report is a baseline as it stands, whether it lists groups of uses or uses only.
A baseline that cannot be read accepts nothing.
-/
import MemberAudit.MemberUse.Record
import MemberAudit.UseSet
import MemberAudit.Warning

namespace MemberAudit

open Json

abbrev Baseline := List (List MemberUse)

namespace Baseline

/-- The file of the report directory that holds the baseline. -/
def fileName : String := "lint-method-collector.json"

/-- The groups of a document: a list of lists, or one list. The whole document
has to stand for a value, also in the parts that are passed over. -/
def ofDocument? (document : Document) : Option Baseline :=
  if document.sound Document.maxDepth then
    match (Document.asList (Document.asList MemberUse.ofDocument) document).result? with
    | some groups => some groups
    | none => (Document.asList MemberUse.ofDocument document).result?.map ([·])
  else none

def parse? (text : String) : Option Baseline :=
  let (document, rest) := Document.read text
  if rest.isEmpty then ofDocument? document else none

/-- The baseline of a file. Without a file there is none, and that is no fault. -/
def load (path : String) : Option ByteArray → List Warning × Baseline
  | none => ([], [])
  | some content =>
    match (String.fromUTF8? content).bind parse? with
    | some baseline => ([], baseline)
    | none => ([.baselineIgnored path], [])

end Baseline

namespace UseSet

/-- The uses that a baseline does not accept. -/
def newSince (set : UseSet) (baseline : Baseline) : UseSet :=
  set.strike baseline.flatten

end UseSet
end MemberAudit
