/-
Violations: the references of the classes in an inventory that a rule flags. A
reference is looked up under the names that reports show, the caller under its
bare method name. The first rule that applies decides, and flags the reference
if it has a message; a rule without one lets the reference pass.
-/
import MemberAudit.Inventory
import MemberAudit.UseSet

namespace MemberAudit

open ClassFile (Reference)

structure Violation where
  use : MemberUse
  message : String
  /-- The number of the artifact that holds the caller. -/
  artifact : Int
  deriving DecidableEq, Repr

namespace Violation

/-- The line of a method in a report: -1 if there is none, or none that fits. -/
def reportLine (method : Method) : Int32 :=
  match method.line? with
  | some line => if line < 0x80000000 then Int32.ofNat line else -1
  | none => -1

/-- The signature of the member used. -/
def memberText (reference : Reference) : String :=
  match reference.op.kind with
  | .method => Signature.method reference.name reference.descriptor
  | .field => Signature.field reference.name reference.descriptor

/-- A reference in a method of a class as a use. -/
def useOf (cls : JvmClass) (method : Method) (reference : Reference) : MemberUse :=
  { ownerClass := Signature.className reference.owner
    ownerMember := memberText reference
    kind := reference.op.kind
    callerClass := Signature.className cls.name
    callerMember := Signature.caller method.name method.descriptor
    callerLine := reportLine method }

/-- What is looked up for a reference. -/
def queryOf (cls : JvmClass) (method : Method) (reference : Reference) : Query :=
  { kind := reference.op.kind
    owner := Signature.className reference.owner
    member := reference.name
    caller := Signature.className cls.name
    callerMember := method.name }

/-- The violation of a reference, if the rules flag it. -/
def of? (rules : Policy) (cls : PlacedClass) (method : Method) (reference : Reference) :
    Option Violation :=
  match rules.answer? (queryOf cls.toJvmClass method reference) with
  | some message =>
    if message.isEmpty then none
    else some ⟨useOf cls.toJvmClass method reference, message, cls.artifact⟩
  | none => none

/-- The violations of a class, in the order of its methods and instructions. -/
def ofClass (rules : Policy) (cls : PlacedClass) : List Violation :=
  cls.toJvmClass.methods.flatMap fun method =>
    method.references.filterMap (of? rules cls method)

/-- The violations of all classes, in their order. -/
def all (rules : Policy) (classes : List PlacedClass) : List Violation :=
  classes.flatMap (ofClass rules)

/-- The violations of all classes, and the set that holds their uses in place of
what it held before. The classes add to the set one after another. -/
def record (set : UseSet) (rules : Policy) (classes : List PlacedClass) :
    List Violation × UseSet :=
  let violations := all rules classes
  (violations, set.clear.addAll (violations.map use))

/-- The violations whose use is in a set, each use at its first violation only.
Those in `seen` have come before. -/
def reportedFrom (reported : UseSet) (seen : List MemberUse) : List Violation → List Violation
  | [] => []
  | violation :: rest =>
    if reported.contains violation.use && !seen.any violation.use.same then
      violation :: reportedFrom reported (violation.use :: seen) rest
    else reportedFrom reported seen rest

def reported (found : UseSet) (violations : List Violation) : List Violation :=
  reportedFrom found [] violations

end Violation
end MemberAudit
