/-
Readable signatures. A class file writes a type as a descriptor, such as
`[Ljava/lang/String;`, and a method as `(I[J)V`; reports show the words a
programmer would write, `java.lang.String[]` and `void name(int, long[])`.

Decoding is total. What is no descriptor is shown as it stands, so one odd
name never stops a scan. The pieces of a parameter block are its tokens
(`parameterTokens`), each of them decoded on its own.
-/
import MemberAudit.Text.Split

namespace MemberAudit

/-- A class name with its packages separated by dots. -/
def withDots (name : String) : String :=
  name.map fun c => if c = '/' then '.' else c

namespace Signature

/-- The word of a one-letter type code. -/
def primitive? : Char → Option String
  | 'B' => some "byte"
  | 'S' => some "short"
  | 'Z' => some "boolean"
  | 'C' => some "char"
  | 'I' => some "int"
  | 'J' => some "long"
  | 'F' => some "float"
  | 'D' => some "double"
  | 'V' => some "void"
  | _ => none

/-- An object type without its `L`: all before the first `;`, with dots. -/
def objectName (body : List Char) : String :=
  withDots (String.ofList (body.takeWhile (· ≠ ';')))

/-- The readable form of one type token. A single character that is no type
code stands for itself, also a bracket or an `L`. -/
def typeOfChars : List Char → String
  | [code] => (primitive? code).getD (String.singleton code)
  | '[' :: component => typeOfChars component ++ "[]"
  | 'L' :: body => objectName body
  | body => objectName body

/-- The tokens of a fragment, after `depth` brackets of the next token. A
token is its brackets and one character, or its brackets, an `L` and all that
follows, or brackets alone where the fragment ends in them. -/
def tokensAfter (depth : Nat) : List Char → List (List Char)
  | [] => if depth = 0 then [] else [List.replicate depth '[']
  | '[' :: rest => tokensAfter (depth + 1) rest
  | 'L' :: rest => [List.replicate depth '[' ++ 'L' :: rest]
  | code :: rest => (List.replicate depth '[' ++ [code]) :: tokensAfter 0 rest

/-- The tokens of a parameter block, fragment by fragment between the `;`. -/
def parameterTokens (block : List Char) : List (List Char) :=
  (Text.split ';' block).flatMap (tokensAfter 0)

/-- The readable parameters of a parameter block. -/
def parameters (block : List Char) : List String :=
  (parameterTokens block).map typeOfChars

/-- A text without one leading opening parenthesis. -/
def afterOpening : List Char → List Char
  | '(' :: rest => rest
  | text => text

/-- The parameter block and the return token: what stands before and after
the first closing parenthesis. Without one the whole text is the return token. -/
def methodParts (descriptor : List Char) : List Char × List Char :=
  match descriptor.dropWhile (· ≠ ')') with
  | [] => ([], descriptor)
  | _ :: result => (afterOpening (descriptor.takeWhile (· ≠ ')')), result)

/-- The readable form of a type descriptor. -/
def type (descriptor : String) : String :=
  typeOfChars descriptor.toList

/-- A field as `type name`. -/
def field (name descriptor : String) : String :=
  type descriptor ++ " " ++ name

/-- A calling method as `name(parameters)`. -/
def caller (name descriptor : String) : String :=
  name ++ "(" ++ ", ".intercalate (parameters (methodParts descriptor.toList).1) ++ ")"

/-- A called method as `result name(parameters)`. -/
def method (name descriptor : String) : String :=
  typeOfChars (methodParts descriptor.toList).2 ++ " " ++ caller name descriptor

/-- The name under which a class is shown. An array that owns a member, such
as the `clone` of an array, is named by its descriptor and shown as a type. -/
def className (internal : String) : String :=
  match internal.toList with
  | '[' :: _ => type internal
  | _ => withDots internal

/-- The parameters of a block are those of its two halves around a `;`. -/
theorem parameters_append (a b : List Char) :
    parameters (a ++ ';' :: b) = parameters a ++ parameters b := by
  simp [parameters, parameterTokens, Text.split_append_sep]

end Signature
end MemberAudit
