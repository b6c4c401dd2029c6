/-
Logs read back. What a reader looks up in the document of a log is told here without the
way it is written: the results of the run, the files it lists, and of each result the
message, the file, the line and the members it is about. Each result tells of the
violation that it was written for (`Tells`), in the order of the violations
(`tells_log`).
-/
import Mathlib.Data.List.Forall2
import MemberAudit.Proofs.Json.RoundTrip
import MemberAudit.Sarif

namespace MemberAudit

/-! ## Parts of a document -/

namespace Json.Document

/-- The value of a member of an object. -/
def member? (key : String) : Document → Option Document
  | .object members => members.lookup (some key)
  | _ => none

/-- The items of an array. -/
def items? : Document → Option (List Document)
  | .array items => some items
  | _ => none

def text? : Document → Option String
  | .text text? => text?
  | _ => none

def int? : Document → Option Int
  | .number n => n.toInt?
  | _ => none

/-- The first item of an array that is a member of an object. -/
def firstOf? (key : String) (document : Document) : Option Document :=
  ((document.member? key).bind items?).bind List.head?

end Json.Document

namespace Sarif

open Json (Document)

/-! ## Parts of a log -/

/-- The results of the first run in a log. -/
def results? (log : Document) : Option (List Document) :=
  ((((log.member? "runs").bind Document.items?).bind List.head?).bind
    (Document.member? "results")).bind Document.items?

/-- The artifacts of the first run in a log. A log that has none leaves out the list. -/
def artifacts (log : Document) : List Document :=
  (((log.firstOf? "runs").bind (Document.member? "artifacts")).bind Document.items?).getD []

def uri? (artifact : Document) : Option String :=
  ((artifact.member? "location").bind (Document.member? "uri")).bind Document.text?

def roles (artifact : Document) : List String :=
  (((artifact.member? "roles").bind Document.items?).getD []).filterMap Document.text?

theorem results?_ofValue_log (call : List String) (artifacts : List Artifact)
    (violations : List Violation) :
    results? (.ofValue (log call artifacts violations)) =
      some (violations.map fun violation => .ofValue (result violation)) := by
  have hresults : Document.ofItems (violations.map result) =
      violations.map fun violation => .ofValue (result violation) := by
    rw [Document.ofItems_eq_map, List.map_map]
    rfl
  rw [← hresults]
  cases artifacts <;> rfl

theorem artifacts_ofValue_log (call : List String) (files : List Artifact) (violations : List Violation) :
    artifacts (.ofValue (log call files violations)) =
      files.map fun file => .ofValue (artifact file) := by
  have hitems : Document.ofItems (files.map artifact) =
      files.map fun file => .ofValue (artifact file) := by
    rw [Document.ofItems_eq_map, List.map_map]
    rfl
  rw [← hitems]
  cases files <;> rfl

theorem uri?_artifact (file : Artifact) : uri? (.ofValue (artifact file)) = some file.path := rfl

theorem roles_artifact (file : Artifact) :
    roles (.ofValue (artifact file)) = if file.isInput then ["analysisTarget"] else [] := by
  obtain ⟨path, size, isInput⟩ := file
  cases isInput <;> rfl

/-! ## Parts of a result -/

def message? (result : Document) : Option String :=
  ((result.member? "message").bind (Document.member? "text")).bind Document.text?

def rule? (result : Document) : Option String :=
  (result.member? "ruleId").bind Document.text?

/-- The place of a result in a file. -/
def place? (result : Document) : Option Document :=
  (result.firstOf? "locations").bind (Document.member? "physicalLocation")

/-- The number of the artifact that a result is about. -/
def index? (result : Document) : Option Int :=
  (((place? result).bind (Document.member? "artifactLocation")).bind (Document.member? "index")).bind
    Document.int?

def line? (result : Document) : Option Int :=
  (((place? result).bind (Document.member? "region")).bind (Document.member? "startLine")).bind
    Document.int?

/-- The caller that a result is about. -/
def caller? (result : Document) : Option String :=
  (((result.firstOf? "locations").bind (Document.firstOf? "logicalLocations")).bind
    (Document.member? "name")).bind Document.text?

/-- The members that a result is about, each with the word for what it is. -/
def members (result : Document) : List (Option String × Option String) :=
  ((((result.firstOf? "locations").bind (Document.member? "logicalLocations")).bind
    Document.items?).getD []).map fun place =>
      ((place.member? "name").bind Document.text?, (place.member? "kind").bind Document.text?)

/-- What a reader of a result learns of a violation. -/
structure Tells (result : Document) (violation : Violation) : Prop where
  message : message? result = some (violation.message ++ " (line "
    ++ Text.decimal violation.use.callerLine.toInt ++ ")")
  artifact : index? result = some violation.artifact
  /-- A line is told if it is known. -/
  line : line? result =
    if 0 < violation.use.callerLine.toInt then some violation.use.callerLine.toInt else none
  /-- The caller, and the member that it uses. -/
  members : members result =
    [(some (violation.use.callerClass ++ "." ++ violation.use.callerMember), some "function"),
     (some (violation.use.ownerClass ++ "#" ++ violation.use.ownerMember), some
       (match violation.use.kind with | .method => "function" | .field => "member"))]
  rule : rule? result = some "MEMBER_REFERENCE"

theorem place?_result (violation : Violation) :
    place? (.ofValue (result violation)) = some (.ofValue (physicalLocation violation)) := rfl

theorem index?_result (violation : Violation) :
    index? (.ofValue (result violation)) = some violation.artifact := by
  have hindex : ((Document.ofValue (physicalLocation violation)).member? "artifactLocation").bind
      (Document.member? "index") = some (.number (.ofInt violation.artifact)) := by
    rw [physicalLocation]
    split <;> rfl
  rw [index?, place?_result, Option.bind_some, hindex]
  exact Json.Number.toInt?_ofInt violation.artifact

theorem line?_result (violation : Violation) :
    line? (.ofValue (result violation)) =
      if 0 < violation.use.callerLine.toInt then some violation.use.callerLine.toInt else none := by
  rw [line?, place?_result, physicalLocation]
  split
  · exact Json.Number.toInt?_ofInt violation.use.callerLine.toInt
  · rfl

theorem caller?_result (violation : Violation) :
    caller? (.ofValue (result violation)) =
      some (violation.use.callerClass ++ "." ++ violation.use.callerMember) := rfl

theorem tells_result (violation : Violation) : Tells (.ofValue (result violation)) violation where
  message := rfl
  artifact := index?_result violation
  line := line?_result violation
  members := by
    obtain ⟨⟨_, _, kind, _, _, _⟩, _, _⟩ := violation
    cases kind <;> rfl
  rule := rfl

/-- **A log tells of its violations,** of each once and in their order. -/
theorem tells_log (call : List String) (files : List Artifact) (violations : List Violation) :
    ∃ results, results? (.ofValue (log call files violations)) = some results ∧
      List.Forall₂ Tells results violations := by
  refine ⟨_, results?_ofValue_log call files violations, ?_⟩
  rw [List.forall₂_map_left_iff, List.forall₂_same]
  exact fun violation _ => tells_result violation

end Sarif

end MemberAudit
