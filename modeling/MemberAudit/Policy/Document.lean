/-
Policies as JSON documents.

    { "methods": [ { "owner": "com.app.Logger", "name": "debug", "match": "class",
                     "message": "no logging", "excludes": [ { "caller": "com.app.log" } ] } ],
      "fields": [], "output": { "type": "multi" } }

Any part may be left out. A match mode or output type that does not exist is
noted and the default taken; any other fault makes the whole document fail.
-/
import MemberAudit.Json.Record
import MemberAudit.Policy
import MemberAudit.Warning

namespace MemberAudit

open Json

/-- Reading a part of a policy. -/
abbrev Reading (α : Type) := Noted Warning α

namespace Scope

def ofDocument (document : Document) : Reading Scope := do
  match ← document.asText with
  | "" | "class" => return .member
  | "package" => return .package
  | other => do
    Noted.note (.unknownScope other)
    return .member

end Scope

namespace Grain

def ofDocument (document : Document) : Reading Grain := do
  match ← document.asText with
  | "single" => return .single
  | "multi" => return .perOwner
  | other => do
    Noted.note (.unknownGrain other)
    return .single

/-- The output settings of a policy, which have one field. -/
def ofSettings : Document → Reading Grain :=
  Document.asRecord [.of "type" [] ofDocument fun grain _ => grain] .single

end Grain

namespace Exemption

def fields : List (Field Warning Exemption) :=
  [.of "caller" [] Document.asText fun s e => { e with caller := s },
   .of "name" ["member"] Document.asText fun s e => { e with member := s }]

def ofDocument : Document → Reading Exemption :=
  Document.asRecord fields {}

end Exemption

namespace Rule

def fields : List (Field Warning Rule) :=
  [.of "owner" [] Document.asText fun s r => { r with owner := s },
   .of "name" ["member"] Document.asText fun s r => { r with member := s },
   .of "match" ["matchMode"] Scope.ofDocument fun scope r => { r with scope },
   .of "message" [] Document.asText fun s r => { r with message := s },
   .of "excludes" [] (Document.asList Exemption.ofDocument) fun es r => { r with exempt := es }]

def ofDocument : Document → Reading Rule :=
  Document.asRecord fields {}

end Rule

namespace Policy

def fieldsOfDocument : List (Field Warning Policy) :=
  [.of "methods" [] (Document.asList Rule.ofDocument) fun rs set => { set with methods := rs },
   .of "fields" [] (Document.asList Rule.ofDocument) fun rs set => { set with fields := rs },
   .of "output" [] Grain.ofSettings fun grain set => { set with grain }]

def ofDocument : Document → Reading Policy :=
  Document.asRecord fieldsOfDocument {}

/-- The policy of a text. What follows the document makes it fail. -/
def parse (text : String) : Reading Policy := do
  let (document, rest) := Document.read text
  let rules ← ofDocument document
  if rest.isEmpty then return rules else .fail

/-- The failure of a text that is no policy. -/
def parseFailure : String := "failed to parse rule set"

/-- The policy of a file's content, or the empty one with a warning when there
is no such content. -/
def load (path : String) (content? : Option ByteArray) : List Warning × Policy :=
  let reading : Reading Policy := do parse (← .ofOption (content?.bind String.fromUTF8?))
  match reading.result? with
  | some rules => (reading.notes, rules)
  | none => (reading.notes ++ [.ruleSetUnavailable path], {})

end Policy
end MemberAudit
