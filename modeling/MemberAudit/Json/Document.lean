/-
A JSON document as its reader meets it. Reading never fails: where the text
stops being JSON, the document ends in a leaf `cut`, and what was read before
stands in front of it. A reader that goes through a document in its order can so
tell what came before the first fault.

`intact` says that a document has no cut. `sound` says more: that all of it
stands for a value, with strings that are text, numbers in range, and no deeper
nesting than allowed.

The grammar is the strict one, without comments or trailing commas. Of a number it is
kept how it is written; what it comes to as a floating-point number is left out but
for its range, because no record has such a field.
-/
import MemberAudit.Json.Token

namespace MemberAudit.Json

inductive Document where
  | null
  | bool (value : Bool)
  | number (value : Number)
  | text (value : Option String)
  | array (items : List Document)
  | object (members : List (Option String × Document))
  | cut
  deriving Repr, Inhabited

namespace Document

/-! ## Reading tokens

Each reader takes a bound on the number of its steps; the number of tokens is
one that is never reached. What cannot be read leaves no tokens behind. -/

mutual

/-- The value at the front of the tokens, and the tokens after it. -/
def valueOf : Nat → List Token → Document × List Token
  | 0, _ => (.cut, [])
  | _ + 1, .openArray :: .closeArray :: rest => (.array [], rest)
  | steps + 1, .openArray :: rest =>
    let (items, after) := itemsOf steps rest
    (.array items, after)
  | _ + 1, .openObject :: .closeObject :: rest => (.object [], rest)
  | steps + 1, .openObject :: rest =>
    let (members, after) := membersOf steps rest
    (.object members, after)
  | _ + 1, .null :: rest => (.null, rest)
  | _ + 1, .bool b :: rest => (.bool b, rest)
  | _ + 1, .number n :: rest => (.number n, rest)
  | _ + 1, .text s :: rest => (.text s, rest)
  | _ + 1, _ => (.cut, [])

/-- The items of an array up to its closing bracket. -/
def itemsOf : Nat → List Token → List Document × List Token
  | 0, _ => ([.cut], [])
  | steps + 1, tokens =>
    match valueOf steps tokens with
    | (item, .comma :: rest) =>
      let (items, after) := itemsOf steps rest
      (item :: items, after)
    | (item, .closeArray :: rest) => ([item], rest)
    | (item, _) => ([item, .cut], [])

/-- The members of an object up to its closing brace. -/
def membersOf : Nat → List Token → List (Option String × Document) × List Token
  | steps + 1, .text key :: .colon :: tokens =>
    match valueOf steps tokens with
    | (value, .comma :: rest) =>
      let (members, after) := membersOf steps rest
      ((key, value) :: members, after)
    | (value, .closeObject :: rest) => ([(key, value)], rest)
    | (value, _) => ([(key, value), (none, .cut)], [])
  | _, _ => ([(none, .cut)], [])

end

/-- The document of a text, and the tokens that follow it. -/
def read (text : String) : Document × List Token :=
  let tokens := Token.scan text.toList
  valueOf (2 * tokens.length + 1) tokens

/-! ## Properties of documents -/

mutual

/-- Whether reading went through the whole document. -/
def intact : Document → Bool
  | .array items => intactItems items
  | .object members => intactMembers members
  | .cut => false
  | _ => true

def intactItems : List Document → Bool
  | [] => true
  | item :: rest => intact item && intactItems rest

def intactMembers : List (Option String × Document) → Bool
  | [] => true
  | (_, value) :: rest => intact value && intactMembers rest

end

mutual

/-- Whether the whole document stands for a value, nested `depth` levels at most. -/
def sound (depth : Nat) : Document → Bool
  | .null | .bool _ => true
  | .number n => n.inRange
  | .text s => s.isSome
  | .array items => depth ≠ 0 && soundItems (depth - 1) items
  | .object members => depth ≠ 0 && soundMembers (depth - 1) members
  | .cut => false

def soundItems (depth : Nat) : List Document → Bool
  | [] => true
  | item :: rest => sound depth item && soundItems depth rest

def soundMembers (depth : Nat) : List (Option String × Document) → Bool
  | [] => true
  | (key, value) :: rest => key.isSome && sound depth value && soundMembers depth rest

end

/-- The deepest nesting that is read. -/
def maxDepth : Nat := 127

end Document
end MemberAudit.Json
