/-
A tree of files and directories with a current directory, and what a program can
do to it: look a path up, make directories, write files, and clear a directory.

A path is followed part by part (`walk`), each step from a directory; `..` goes
up to the directory that holds the current one. Where a path leads is a location,
the list of names from the root. Operations that fail leave the tree as it is,
except that `createAll` keeps the directories made on the way.

A tree has files and directories and nothing else. Links, devices and permissions are
left out, the space does not run out, and nobody else changes the tree meanwhile: all
that is there can be read and written over.
-/
import MemberAudit.FileTree.Path

namespace MemberAudit

inductive Node where
  | file (content : ByteArray)
  | directory (entries : List (String × Node))
  deriving Inhabited

/-- The names from the root to a file or directory. -/
abbrev Location := List String

/-- Why a path leads nowhere, or why nothing can be made there. -/
inductive PathFault where
  | missing
  | notDirectory
  | nameTooLong
  | unnameable
  | occupied
  deriving DecidableEq, Repr

namespace Node

def isDirectory : Node → Bool
  | file _ => false
  | directory _ => true

def isFile : Node → Bool
  | file _ => true
  | directory _ => false

def content? : Node → Option ByteArray
  | file content => some content
  | directory _ => none

def child? : Node → String → Option Node
  | file _, _ => none
  | directory entries, name => entries.lookup name

def get? : Node → Location → Option Node
  | node, [] => some node
  | node, name :: rest => (node.child? name).bind (get? · rest)

/-- The tree with the node at a location changed. -/
def modify (f : Node → Node) : Location → Node → Node
  | [], node => f node
  | _ :: _, file content => file content
  | name :: rest, directory entries =>
    directory (entries.map fun (key, node) =>
      if key = name then (key, modify f rest node) else (key, node))

/-- Entries with one of them set, which is added if it is new. -/
def setEntry (name : String) (node : Node) : List (String × Node) → List (String × Node)
  | [] => [(name, node)]
  | (key, old) :: rest =>
    if key = name then (name, node) :: rest else (key, old) :: setEntry name node rest

/-- A directory with an entry set. -/
def put (name : String) (node : Node) : Node → Node
  | file content => file content
  | directory entries => directory (setEntry name node entries)

/-- A directory without the entries that are refused. -/
def keepEntries (keep : String → Node → Bool) : Node → Node
  | file content => file content
  | directory entries => directory (entries.filter fun (name, node) => keep name node)

/-- Where the parts of a path lead from a location. -/
def walk (root : Node) : Location → List String → Except PathFault Location
  | here, [] => .ok here
  | here, part :: parts =>
    match root.get? here with
    | some (directory entries) =>
      if part = "" ∨ part = "." then walk root here parts
      else if part = ".." then walk root here.dropLast parts
      else if (entries.lookup part).isSome then walk root (here ++ [part]) parts
      else if part.utf8ByteSize > 255 then .error .nameTooLong
      else .error .missing
    | _ => .error .notDirectory

theorem lookup_setEntry (name key : String) (node : Node) (entries : List (String × Node)) :
    (setEntry name node entries).lookup key =
      if key = name then some node else entries.lookup key := by
  induction entries with
  | nil =>
    by_cases h : key = name
    · simp [setEntry, h]
    · simp [setEntry, List.lookup_cons, h, beq_eq_false_iff_ne.mpr h]
  | cons entry rest ih =>
    obtain ⟨k, old⟩ := entry
    by_cases hk : k = name
    · subst hk
      by_cases h : key = k
      · simp [setEntry, h]
      · simp [setEntry, List.lookup_cons, h, beq_eq_false_iff_ne.mpr h]
    · by_cases h : key = k
      · subst h; simp [setEntry, hk]
      · simp [setEntry, hk, List.lookup_cons, beq_eq_false_iff_ne.mpr h, ih]

theorem child?_put (name key : String) (entry : Node) {node : Node}
    (h : node.isDirectory = true) :
    (put name entry node).child? key = if key = name then some entry else node.child? key := by
  cases node with
  | file content => cases h
  | directory entries => exact lookup_setEntry name key entry entries

theorem lookup_modifyEntry (name key : String) (f : Node → Node)
    (entries : List (String × Node)) :
    (entries.map fun (k, node) => if k = name then (k, f node) else (k, node)).lookup key =
      (entries.lookup key).map fun node => if key = name then f node else node := by
  induction entries with
  | nil => rfl
  | cons entry rest ih =>
    obtain ⟨k, node⟩ := entry
    by_cases hk : key = k
    · subst hk; by_cases h : key = name <;> simp [h]
    · by_cases h : k = name
      · subst h; simpa [List.lookup_cons, beq_eq_false_iff_ne.mpr hk, hk] using ih
      · simpa [List.lookup_cons, beq_eq_false_iff_ne.mpr hk, h] using ih

theorem child?_modify (f : Node → Node) (name key : String) (rest : Location) (node : Node) :
    (modify f (name :: rest) node).child? key =
      if key = name then (node.child? key).map (modify f rest) else node.child? key := by
  cases node with
  | file content => by_cases h : key = name <;> simp [modify, child?, h]
  | directory entries =>
    simp only [modify, child?, lookup_modifyEntry]
    by_cases h : key = name <;> simp [h]

/-- The node at the changed location. -/
theorem get?_modify (f : Node → Node) (location : Location) (node : Node) :
    (modify f location node).get? location = (node.get? location).map f := by
  induction location generalizing node with
  | nil => simp [modify, get?]
  | cons name rest ih =>
    simp only [get?, child?_modify, ite_true, Option.bind_map]
    cases node.child? name with
    | none => rfl
    | some child => simp [Function.comp, ih]

/-- A location that neither lies below the changed one nor leads to it is as it was. -/
theorem get?_modify_elsewhere (f : Node → Node) {changed location : Location}
    (h : ¬changed <+: location) (h' : ¬location <+: changed) (node : Node) :
    (modify f changed node).get? location = node.get? location := by
  induction changed generalizing location node with
  | nil => exact absurd (List.nil_prefix) h
  | cons name rest ih =>
    cases location with
    | nil => exact absurd (List.nil_prefix) h'
    | cons key others =>
      simp only [get?, child?_modify]
      by_cases hk : key = name
      · subst hk
        simp only [List.cons_prefix_cons, true_and] at h h'
        simp only [ite_true, Option.bind_map]
        cases node.child? key with
        | none => rfl
        | some child => simp [Function.comp, ih h h']
      · simp [hk]

end Node

structure FileTree where
  root : Node
  /-- The current directory. -/
  home : Location
  deriving Inhabited

namespace FileTree

/-- A tree with nothing but a current directory, which is empty. -/
def ofHome (name : String) : FileTree :=
  ⟨.directory [(name, .directory [])], [name]⟩

/-- The names in a path. -/
def names (path : String) : List String :=
  (Path.parts path).map String.ofList

/-- Where a path starts. -/
def start (tree : FileTree) (path : String) : Location :=
  if Path.isAbsolute path then [] else tree.home

/-- Where a path leads. The empty path leads nowhere, and so does one with the
character U+0000. -/
def resolve (tree : FileTree) (path : String) : Except PathFault Location :=
  if path.isEmpty then .error .missing
  else if path.toList.contains '\x00' then .error .unnameable
  else tree.root.walk (tree.start path) (names path)

/-- What a path leads to. -/
def node? (tree : FileTree) (path : String) : Option Node :=
  match tree.resolve path with
  | .ok location => tree.root.get? location
  | .error _ => none

def hasPath (tree : FileTree) (path : String) : Bool :=
  (tree.node? path).isSome

def hasDirectory (tree : FileTree) (path : String) : Bool :=
  (tree.node? path).any Node.isDirectory

def hasFile (tree : FileTree) (path : String) : Bool :=
  (tree.node? path).any Node.isFile

def read? (tree : FileTree) (path : String) : Option ByteArray :=
  (tree.node? path).bind Node.content?

/-- The directory in which the last name of a path stands, and that name, which
may be a dot, two dots or empty. -/
def place (tree : FileTree) (path : String) (names : List String) :
    Except PathFault (Location × String) :=
  if path.isEmpty then .error .missing
  else if path.toList.contains '\x00' then .error .unnameable
  else
    match names.reverse with
    | [] => .error .occupied
    | name :: before => do
      let location ← tree.root.walk (tree.start path) before.reverse
      match tree.root.get? location with
      | some (.directory _) => .ok (location, name)
      | _ => .error .notDirectory

/-- Whether a name stands for the directory it is in or the one above. -/
def isStep (name : String) : Bool :=
  name = "" || name = "." || name = ".."

/-- The tree with a new empty directory. -/
def createDirectory (tree : FileTree) (path : String) : Except PathFault FileTree := do
  let named := ((names path).reverse.dropWhile (· = "")).reverse
  let (location, name) ← tree.place path named
  if isStep name then .error .occupied
  else if (tree.root.get? (location ++ [name])).isSome then .error .occupied
  else if name.utf8ByteSize > 255 then .error .nameTooLong
  else .ok { tree with root := tree.root.modify (Node.put name (.directory [])) location }

/-- The tree with a directory and, where they are missing, the directories above
it, and whether it is there now. At most `steps` directories up are made. -/
def createAllWithin : Nat → FileTree → String → FileTree × Bool
  | steps, tree, path =>
    if path.isEmpty then (tree, true)
    else
      match tree.createDirectory path with
      | .ok tree => (tree, true)
      | .error .missing =>
        match steps, Path.parent? path with
        | steps + 1, some parent =>
          match createAllWithin steps tree parent with
          | (tree, false) => (tree, false)
          | (tree, true) =>
            match tree.createDirectory path with
            | .ok tree => (tree, true)
            | .error _ => (tree, tree.hasDirectory path)
        | _, _ => (tree, false)
      | .error _ => (tree, tree.hasDirectory path)

def createAll (tree : FileTree) (path : String) : FileTree × Bool :=
  createAllWithin (Path.parts path).length tree path

/-- The tree with a file written, which may have been there before. -/
def write? (tree : FileTree) (path : String) (content : ByteArray) : Option FileTree :=
  match tree.place path (names path) with
  | .error _ => none
  | .ok (location, name) =>
    if isStep name then none
    else
      match tree.root.get? (location ++ [name]) with
      | some (.directory _) => none
      | some (.file _) =>
        some { tree with root := tree.root.modify (Node.put name (.file content)) location }
      | none =>
        if name.utf8ByteSize > 255 then none
        else some { tree with root := tree.root.modify (Node.put name (.file content)) location }

/-- The tree without what a path leads to. -/
def remove (tree : FileTree) (path : String) : FileTree :=
  match tree.resolve path with
  | .error _ => tree
  | .ok location =>
    match location.reverse with
    | [] => tree
    | name :: above =>
      { tree with root := tree.root.modify (Node.keepEntries fun key _ => key ≠ name) above.reverse }

/-- The tree without the files of a directory, except the one at a location. -/
def clearFiles (tree : FileTree) (directory : Location) (keep : Option Location) : FileTree :=
  let kept (name : String) (node : Node) : Bool :=
    node.isDirectory || keep = some (directory ++ [name])
  { tree with root := tree.root.modify (Node.keepEntries kept) directory }

end FileTree
end MemberAudit
