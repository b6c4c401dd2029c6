/-
Taking the inventory of an input: the classes in it and the files they came from.
An input is a class file, a jar, or a directory, whose files are visited depth
first, the entries of each directory in the order of their names.

Each file is examined by itself (`examine`), which may skip it with a warning or
fail; the inventory is what the examined files give in their order, up to the
first failure (`collect`). A class knows its file by the number of the artifact.
-/
import MemberAudit.Archive
import MemberAudit.ClassFile.Class
import MemberAudit.FileTree
import MemberAudit.Text.Affix
import MemberAudit.Warning

namespace MemberAudit

/-- A file in which classes were looked for. -/
structure Artifact where
  path : String
  size : Nat
  /-- Whether the file is the input itself. -/
  isInput : Bool
  deriving DecidableEq, Repr

/-- A class and the number of the artifact it came from. -/
structure PlacedClass where
  toJvmClass : JvmClass
  artifact : Int
  deriving DecidableEq, Repr

structure Inventory where
  artifacts : List Artifact
  classes : List PlacedClass
  /-- How many classes have been read, counted as they come. -/
  classCount : Nat
  deriving DecidableEq, Repr, Inhabited

/-- Why an input has no inventory. -/
inductive ScanFault where
  | unreadable (path : String)
  | unopenable (path : String)
  | unreadableEntry (jar entry : String)
  | unsupported (path : String)
  | noClass (path : String) (fault : ClassFault)
  deriving DecidableEq, Repr

/-- The fault, from the whole to the part. -/
def ScanFault.chain : ScanFault → List String
  | unreadable path => ["failed to read " ++ path]
  | unopenable path => ["failed to open " ++ path]
  | unreadableEntry jar entry => ["failed to read " ++ jar ++ ":" ++ entry]
  | unsupported path => ["unsupported input file: " ++ path]
  | noClass path fault => ("failed to parse " ++ path) :: fault.chain

namespace Inventory

/-! ## One file -/

/-- What examining a file gives: its classes if it is an artifact, or nothing if
it is passed over, and warnings; or a failure after warnings. -/
structure Examined where
  warnings : List Warning
  outcome : Except ScanFault (Option (List JvmClass))

namespace Examined

def passed : Examined := ⟨[], .ok none⟩

def failed (fault : ScanFault) : Examined := ⟨[], .error fault⟩

def skipped (warning : Warning) : Examined := ⟨[warning], .ok none⟩

end Examined

def examineClass (path : String) (isInput : Bool) (content : ByteArray) : Examined :=
  match JvmClass.ofBytes content.data.toList with
  | .ok cls => ⟨[], .ok (some [cls])⟩
  | .error fault =>
    if isInput then .failed (.noClass path fault) else .skipped (.classFileSkipped path)

/-- Whether an entry of a jar is a class to look at: module descriptors and
classes for other versions of the platform are not. -/
def isEligible (name : String) : Bool :=
  Text.endsWith ".class" name && !Text.endsWith "module-info.class" name
    && !Text.beginsWith "META-INF/versions/" name

/-- The classes of entries, in their order. -/
def examineEntries (path : String) : List Archive.Entry → Examined
  | [] => ⟨[], .ok (some [])⟩
  | entry :: rest =>
    match entry.content with
    | .closed | .damaged => .failed (.unreadableEntry path entry.name)
    | .intact bytes =>
      let later := examineEntries path rest
      match JvmClass.ofBytes bytes with
      | .ok cls => ⟨later.warnings, later.outcome.map fun classes? => classes?.map (cls :: ·)⟩
      | .error _ => ⟨.jarEntrySkipped path entry.name :: later.warnings, later.outcome⟩

/-- The eligible entries in the order of their names. -/
def eligible (entries : List Archive.Entry) : List Archive.Entry :=
  (entries.filter fun entry => isEligible entry.name).mergeSort fun a b =>
    (compare a.name b.name).isLE

/-- The classes of an archive. Each entry has to open, eligible or not. -/
def examineArchive (path : String) (entries : List Archive.Entry) : Examined :=
  if entries.any fun entry => !entry.opens then .failed (.unreadable path)
  else examineEntries path (eligible entries)

/-- The classes of a jar. -/
def examineJar (path : String) (isInput : Bool) (content : ByteArray) : Examined :=
  match Archive.open? content.data.toList with
  | none => if isInput then .failed (.unreadable path) else .skipped (.jarSkipped path)
  | some entries => examineArchive path entries

/-- What a file is by its extension. -/
inductive FileKind where
  | classFile
  | jar
  | unsupported
  deriving DecidableEq, Repr

def fileKind (path : String) : FileKind :=
  match Path.extension? path with
  | some "class" => .classFile
  | some "jar" => .jar
  | _ => .unsupported

/-- A file in an input directory. -/
def examine (path : String) (content : ByteArray) : Examined :=
  match fileKind path with
  | .classFile => examineClass path false content
  | .jar => examineJar path false content
  | .unsupported => .passed

/-- The input itself, which is not a directory and may not be there at all. -/
def examineInput (path : String) (content? : Option ByteArray) : Examined :=
  match fileKind path, content? with
  | .classFile, some content => examineClass path true content
  | .classFile, none => .failed (.unreadable path)
  | .jar, some content => examineJar path true content
  | .jar, none => .failed (.unopenable path)
  | .unsupported, _ => .failed (.unsupported path)

/-! ## All files -/

mutual

/-- The files at and below a node, with their paths. -/
def filesAt (path : String) : Node → List (String × ByteArray)
  | .file content => [(path, content)]
  | .directory entries =>
    ((entryFiles path entries).mergeSort fun a b => (compare a.1 b.1).isLE).flatMap (·.2)

/-- The files at and below each entry, with the entry's path. -/
def entryFiles (path : String) : List (String × Node) → List (String × List (String × ByteArray))
  | [] => []
  | (name, node) :: rest =>
    (Path.child path name, filesAt (Path.child path name) node) :: entryFiles path rest

end

/-- A file with what examining it gave. -/
structure Visit where
  path : String
  size : Nat
  isInput : Bool
  examined : Examined

/-- The inventory with the artifact and the classes of a visit added. -/
def add (inventory : Inventory) (visit : Visit) (classes : List JvmClass) : Inventory :=
  { artifacts := inventory.artifacts ++ [⟨visit.path, visit.size, visit.isInput⟩]
    classes := inventory.classes ++ classes.map (⟨·, inventory.artifacts.length⟩)
    classCount := inventory.classCount + classes.length }

/-- The inventory of visits, after those that gave `inventory`. -/
def collect (inventory : Inventory) : List Visit → List Warning × Except ScanFault Inventory
  | [] => ([], .ok inventory)
  | visit :: rest =>
    match visit.examined.outcome with
    | .error fault => (visit.examined.warnings, .error fault)
    | .ok classes? =>
      let next := match classes? with
        | none => inventory
        | some classes => inventory.add visit classes
      let (warnings, result) := collect next rest
      (visit.examined.warnings ++ warnings, result)

/-- The visits of an input. -/
def visits (tree : FileTree) (input : String) : List Visit :=
  match tree.node? input with
  | some (.directory entries) =>
    (filesAt input (.directory entries)).map fun (path, content) =>
      ⟨path, content.size, false, examine path content⟩
  | node? =>
    let content? := node?.bind Node.content?
    [⟨input, (content?.map ByteArray.size).getD 0, true, examineInput input content?⟩]

/-- The inventory of an input. -/
def take (tree : FileTree) (input : String) : List Warning × Except ScanFault Inventory :=
  collect ⟨[], [], 0⟩ (visits tree input)

end Inventory
end MemberAudit
