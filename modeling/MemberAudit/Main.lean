/-
The command line. The parts of the disk that a run may look at are read into a
tree, the run works on the tree, and its changes are carried out on the disk.
-/
import MemberAudit.Console

namespace MemberAudit.Disk

/-- How much of a directory is read. -/
inductive Depth where
  /-- Its presence. -/
  | bare
  /-- Its entries, without what is in them. -/
  | listed
  /-- All below it; of files only those that may hold classes or rules. -/
  | full
  deriving DecidableEq

/-- A file or directory of the disk as a node. -/
partial def load (path : String) (depth : Depth) (name : String) : IO (Option Node) := do
  let here := (← IO.currentDir) / path
  if ← here.isDir then
    match depth with
    | .bare => return some (.directory [])
    | _ => do
      let mut entries := []
      for entry in ← here.readDir do
        let below := if depth = .full then .full else .bare
        match ← load (Path.child path entry.fileName) below entry.fileName with
        | some node => entries := entries ++ [(entry.fileName, node)]
        | none => pure ()
      return some (.directory entries)
  else if ← here.pathExists then
    let needed :=
      depth ≠ .full || Inventory.fileKind name ≠ .unsupported || name = Audit.configName
    return some (.file (← if needed then IO.FS.readBinFile here else pure .empty))
  else return none

/-- Two readings of one place of the disk, the later one in front where both are
files. -/
partial def merge : Node → Node → Node
  | .directory old, .directory new =>
    .directory (new.foldl (fun entries (name, node) =>
      Node.setEntry name (((entries.lookup name).map (merge · node)).getD node) entries) old)
  | _, new => new

/-- The tree with the part of the disk that a location leads to, and with the
rules that stand in a directory on the way. -/
partial def graft (tree : Node) (before : Location) (rest : Location) (depth : Depth) : IO Node := do
  let text := "/" ++ "/".intercalate before
  match rest with
  | [] =>
    match ← load text depth (before.getLastD "") with
    | some node => return merge tree node
    | none => return tree
  | name :: rest => do
    let config := Path.child text Audit.configName
    let tree ← match tree, ← load config .bare Audit.configName with
      | .directory entries, some (.file content) =>
        pure (Node.directory (Node.setEntry Audit.configName (.file content) entries))
      | tree, _ => pure tree
    match ← load (Path.child text name) .bare name with
    | none => return tree
    | some shallow => do
      let inner ← graft ((tree.child? name).getD shallow) (before ++ [name]) rest depth
      return Node.put name inner tree

/-- The location that the names of a path lead to. -/
def locate : Location → List String → Location
  | here, [] => here
  | here, name :: rest =>
    if name = "" || name = "." then locate here rest
    else if name = ".." then locate here.dropLast rest
    else locate (here ++ [name]) rest

/-- The tree of all that a run with these arguments may look at. -/
def snapshot (arguments : Arguments) : IO FileTree := do
  let home := locate [] (FileTree.names (← IO.currentDir).toString)
  let reports := arguments.reportDir.getD Audit.usualReportDir
  let wanted : List (String × Depth) :=
    [(".", .bare), (arguments.input, .full), (reports, .listed)]
      ++ (arguments.config.toList ++ arguments.baseline.toList ++ arguments.output.toList).map (·, .bare)
  let mut root := Node.directory []
  for (path, depth) in wanted do
    let start := if Path.isAbsolute path then [] else home
    root ← graft root [] (locate start (FileTree.names path)) depth
  return ⟨root, home⟩

/-- Carries out on the disk what turns one node into another. -/
partial def commit (path : String) (old : Option Node) (new : Option Node) : IO Unit := do
  match old, new with
  | some (.file _), none => IO.FS.removeFile path
  | some (.file before), some (.file after) =>
    if before ≠ after then IO.FS.writeBinFile path after
  | none, some (.file content) => IO.FS.writeBinFile path content
  | some (.directory before), some (.directory after) => entries before after
  | none, some (.directory after) => do
    IO.FS.createDir path
    entries [] after
  | _, _ => return
where
  entries (before after : List (String × Node)) : IO Unit := do
    for (name, node) in before do
      commit (Path.child path name) (some node) (after.lookup name)
    for (name, node) in after do
      if (before.lookup name).isNone then commit (Path.child path name) none (some node)

end MemberAudit.Disk

open MemberAudit in
def main (words : List String) : IO UInt32 := do
  let begun ← IO.monoMsNow
  let tree ← match Arguments.parse words with
    | .ok arguments => Disk.snapshot arguments
    | .error _ => pure default
  let result := Console.call tree words
  let quiet := words.contains "--quiet"
  unless quiet do
    for warning in result.warnings do
      IO.eprintln ("WARN " ++ Console.programName ++ ": " ++ warning.message)
  Disk.commit "/" (some tree.root) (some result.tree.root)
  IO.print result.output
  match result.timing with
  | some counts =>
    IO.eprintln ("timing: total_ms=" ++ Text.decimal ((← IO.monoMsNow) - begun) ++ " " ++ counts)
  | none => pure ()
  unless result.fault.isEmpty do
    IO.eprintln (Console.faultText result.fault)
  match result.usage with
  | some stop =>
    unless (Console.usageText stop).isEmpty do
      IO.eprintln ("error: " ++ Console.usageText stop)
  | none => pure ()
  return result.exitCode
