/-
Paths as text. A path is cut at its slashes; empty parts and single dots name
nothing, except a dot that begins a relative path. All here is done to the text
alone, so that `in/a/../a` has the parent `in/a/..`.
-/
import MemberAudit.Text.Split

namespace MemberAudit.Path

/-- The parts between the slashes. -/
def parts (path : String) : List (List Char) :=
  Text.split '/' path.toList

def ofParts (parts : List (List Char)) : String :=
  String.ofList (Text.join '/' parts)

def isAbsolute (path : String) : Bool :=
  path.toList.head? = some '/'

/-- Whether a part after the first names something. -/
def isNamed (part : List Char) : Bool :=
  part ≠ [] && part ≠ ['.']

/-- The names in a path, with the dot that begins a relative one. -/
def components (path : String) : List (List Char) :=
  match parts path with
  | [] => []
  | first :: rest => (if first = [] then [] else [first]) ++ rest.filter isNamed

/-- The parts up to the last one that names something, which is left out. The
parts are given last first. -/
def dropNamed : List (List Char) → Option (List (List Char))
  | [] => none
  | part :: rest => if isNamed part then some rest else dropNamed rest

/-- The parts up to and with the last one that names something, last first. -/
def trimUnnamed : List (List Char) → List (List Char)
  | [] => []
  | part :: rest => if isNamed part then part :: rest else trimUnnamed rest

/-- The path without its last name. The parent of a single name is the empty
path, and neither the empty path nor the root has a parent. -/
def parent? (path : String) : Option String :=
  match parts path with
  | [] => none
  | [] :: rest =>
    if isAbsolute path then
      (dropNamed rest.reverse).map fun before =>
        match trimUnnamed before with
        | [] => "/"
        | named => ofParts ([] :: named.reverse)
    else none
  | first :: rest =>
    match dropNamed rest.reverse with
    | some before => some (ofParts (first :: (trimUnnamed before).reverse))
    | none => some ""

/-- A path, its parent, the parent's parent and so on, at most `steps` of them. -/
def ancestorsWithin : Nat → String → List String
  | 0, path => [path]
  | steps + 1, path =>
    path :: match parent? path with
      | none => []
      | some parent => ancestorsWithin steps parent

/-- A path and all paths above it, the nearest first. Each step up takes a part
at least. -/
def ancestors (path : String) : List String :=
  ancestorsWithin (parts path).length path

/-- The path of an entry of a directory. -/
def child (directory name : String) : String :=
  if directory.isEmpty then name
  else if directory.toList.getLast? = some '/' then directory ++ name
  else directory ++ "/" ++ name

/-- The last name of a path, unless it is the step to a parent. -/
def fileName? (path : String) : Option (List Char) :=
  match trimUnnamed (parts path).reverse with
  | [] => none
  | name :: _ => if name = ['.', '.'] then none else some name

/-- A name before and after its last dot. A name without a dot, or with one at
its beginning only, has nothing after it. -/
def splitName (name : List Char) : List Char × Option (List Char) :=
  match name.reverse.span (· ≠ '.') with
  | (_, []) => (name, none)
  | (_, [_]) => (name, none)
  | (after, _ :: before) => (before.reverse, some after.reverse)

/-- What follows the last dot of the file name. -/
def extension? (path : String) : Option String :=
  (fileName? path).bind fun name => (splitName name).2.map String.ofList

/-- The file name without its extension. -/
def stem? (path : String) : Option String :=
  (fileName? path).map fun name => String.ofList (splitName name).1

end MemberAudit.Path
