/-
JSON values and how they are printed: two blanks of indentation a level, one
item or member a line, `[]` for an empty array, and in strings only the quote,
the backslash and the characters below the blank escaped. What is printed has no
other numbers than integers, and no null: a part that is absent is left out.
-/
import MemberAudit.Text.Numeral

namespace MemberAudit.Json

inductive Value where
  | bool (value : Bool)
  | int (value : Int)
  | text (value : String)
  | array (items : List Value)
  | object (members : List (String × Value))
  deriving Repr, Inhabited

namespace Value

/-- A character as it stands in a string. -/
def escape (c : Char) : List Char :=
  if c = '"' then ['\\', '"']
  else if c = '\\' then ['\\', '\\']
  else if c = '\x08' then ['\\', 'b']
  else if c = '\x0c' then ['\\', 'f']
  else if c = '\n' then ['\\', 'n']
  else if c = '\r' then ['\\', 'r']
  else if c = '\t' then ['\\', 't']
  else if c < ' ' then ['\\', 'u', '0', '0'] ++ Text.hexByte c.toUInt8
  else [c]

/-- A text in quotes. -/
def quote (s : String) : List Char :=
  '"' :: s.toList.flatMap escape ++ ['"']

/-- A new line, indented. -/
def newLine (depth : Nat) : List Char :=
  '\n' :: List.replicate (2 * depth) ' '

mutual

/-- A value whose first line stands `depth` levels deep. -/
def chars (depth : Nat) : Value → List Char
  | .bool true => ['t', 'r', 'u', 'e']
  | .bool false => ['f', 'a', 'l', 's', 'e']
  | .int n => Text.decimalChars n
  | .text s => quote s
  | .array [] => ['[', ']']
  | .array (item :: items) =>
    '[' :: newLine (depth + 1) ++ chars (depth + 1) item ++ itemChars (depth + 1) items
      ++ newLine depth ++ [']']
  | .object [] => ['{', '}']
  | .object ((key, value) :: members) =>
    '{' :: newLine (depth + 1) ++ quote key ++ [':', ' '] ++ chars (depth + 1) value
      ++ memberChars (depth + 1) members ++ newLine depth ++ ['}']

/-- The items of an array after its first. -/
def itemChars (depth : Nat) : List Value → List Char
  | [] => []
  | item :: items => ',' :: newLine depth ++ chars depth item ++ itemChars depth items

/-- The members of an object after its first. -/
def memberChars (depth : Nat) : List (String × Value) → List Char
  | [] => []
  | (key, value) :: members =>
    ',' :: newLine depth ++ quote key ++ [':', ' '] ++ chars depth value
      ++ memberChars depth members

end

/-- The text of a value. -/
def print (value : Value) : String :=
  String.ofList (value.chars 0)

end Value
end MemberAudit.Json
