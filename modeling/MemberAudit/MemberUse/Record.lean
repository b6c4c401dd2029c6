/-
Uses in JSON. A use is written with its member under a key that tells its kind;
read back, a record may leave out any part, and a member that is named but empty
counts as left out.
-/
import MemberAudit.MemberUse
import MemberAudit.Json.Record
import MemberAudit.Json.Value

namespace MemberAudit

open Json

/-- The parts of a use as a document gives them. -/
structure UseRecord where
  ownerClass : String := ""
  ownerMethod : Option String := none
  ownerField : Option String := none
  callerClass : String := ""
  callerMethod : String := ""
  callerLine : Int32 := 0
  deriving DecidableEq, Repr

namespace UseRecord

def fields : List (Field Empty UseRecord) :=
  [.of "ownerClassName" [] Document.asText fun s r => { r with ownerClass := s },
   .of "ownerClassMethodName" [] (Document.orNull Document.asText)
     fun s r => { r with ownerMethod := s },
   .of "ownerClassFieldName" [] (Document.orNull Document.asText)
     fun s r => { r with ownerField := s },
   .of "callerClassName" [] Document.asText fun s r => { r with callerClass := s },
   .of "callerClassMethodName" [] Document.asText fun s r => { r with callerMethod := s },
   .of "callerClassMethodLine" [] Document.asInt32 fun n r => { r with callerLine := n }]

/-- A text that is given and not empty. -/
def given? : Option String → Option String
  | some s => if s.isEmpty then none else some s
  | none => none

/-- A method if one is given, else a field, else a method without a name. -/
def toUse (r : UseRecord) : MemberUse :=
  let (member, kind) : String × MemberSort :=
    match given? r.ownerMethod, given? r.ownerField with
    | some method, _ => (method, .method)
    | none, some field => (field, .field)
    | none, none => ("", .method)
  ⟨r.ownerClass, member, kind, r.callerClass, r.callerMethod, r.callerLine⟩

end UseRecord

namespace MemberUse

def ofDocument (document : Document) : Noted Empty MemberUse := do
  return (← Document.asRecord UseRecord.fields {} document).toUse

/-- The key of the member. -/
def memberKey : MemberSort → String
  | .method => "ownerClassMethodName"
  | .field => "ownerClassFieldName"

def toValue (use : MemberUse) : Value :=
  .object
    [("ownerClassName", .text use.ownerClass),
     (memberKey use.kind, .text use.ownerMember),
     ("callerClassName", .text use.callerClass),
     ("callerClassMethodName", .text use.callerMember),
     ("callerClassMethodLine", .int use.callerLine.toInt)]

end MemberUse
end MemberAudit
