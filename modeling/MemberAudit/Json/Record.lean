/-
Reading records from documents. A record is written as an object, or as an array
of its fields in their order. In an object a field answers to its name and its
aliases, may be left out and may not come twice, and keys that name no field are
passed over. In an array the last fields may be left out, and there may be no
more items than fields. No value is converted: a number is no text, and a text no number.
-/
import MemberAudit.Noted
import MemberAudit.Json.Document

namespace MemberAudit.Json

variable {ν ρ α : Type}

/-- A field of the record type `ρ`: its name, its other names, and how its
value is read into a record. -/
structure Field (ν ρ : Type) where
  name : String
  aliases : List String
  put : Document → ρ → Noted ν ρ

/-- Whether a key names the field. -/
def Field.answersTo (field : Field ν ρ) (key : String) : Bool :=
  key = field.name || field.aliases.contains key

/-- A field whose value is read by itself and then set. -/
def Field.of (name : String) (aliases : List String) (read : Document → Noted ν α)
    (set : α → ρ → ρ) : Field ν ρ :=
  ⟨name, aliases, fun document record => do return set (← read document) record⟩

namespace Document

/-- A text value. -/
def asText : Document → Noted ν String
  | .text s => .ofOption s
  | _ => .fail

/-- A 32-bit integer. -/
def asInt32 : Document → Noted ν Int32
  | .number n => .ofOption n.toInt32?
  | _ => .fail

/-- A value that may be null. -/
def orNull (read : Document → Noted ν α) : Document → Noted ν (Option α)
  | .null => return none
  | document => return some (← read document)

/-- The items of an array, each read in turn. -/
def eachItem (read : Document → Noted ν α) : List Document → Noted ν (List α)
  | [] => return []
  | item :: rest => do
    let first ← read item
    let others ← eachItem read rest
    return first :: others

/-- An array of values. -/
def asList (read : Document → Noted ν α) : Document → Noted ν (List α)
  | .array items => eachItem read items
  | _ => .fail

/-- The fields of a record in their order. -/
def putItems : List (Field ν ρ) → List Document → ρ → Noted ν ρ
  | _, [], record => return record
  | field :: fields, item :: items, record => do
    let record ← field.put item record
    putItems fields items record
  | [], _ :: _, _ => .fail

/-- The fields of a record by their keys. The names in `seen` have come before. -/
def putMembers (fields : List (Field ν ρ)) (seen : List String) :
    List (Option String × Document) → ρ → Noted ν ρ
  | [], record => return record
  | (none, _) :: _, _ => .fail
  | (some key, value) :: members, record =>
    match fields.find? (·.answersTo key) with
    | none => if value.intact then putMembers fields seen members record else .fail
    | some field =>
      if seen.contains field.name then .fail
      else do
        let record ← field.put value record
        putMembers fields (field.name :: seen) members record

/-- A record with the given fields, those left out as in `blank`. -/
def asRecord (fields : List (Field ν ρ)) (blank : ρ) : Document → Noted ν ρ
  | .array items => putItems fields items blank
  | .object members => putMembers fields [] members blank
  | _ => .fail

end Document
end MemberAudit.Json
