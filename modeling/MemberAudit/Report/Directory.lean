/-
The report directory. Before a run its files are cleared away, except the
baseline; after it the reports are written, first as JSON and then as HTML. A
format whose files cannot all be written is given up with a warning, and what it
has written so far stays.
-/
import MemberAudit.FileTree
import MemberAudit.Report.Listing
import MemberAudit.Report.Page
import MemberAudit.Warning

namespace MemberAudit.Report

/-- Why a report directory could not be prepared. -/
inductive DirectoryFault where
  | notCreated (path : String)
  | notReadable (path : String)
  deriving DecidableEq, Repr

def DirectoryFault.message : DirectoryFault → String
  | notCreated path => "failed to create " ++ path
  | notReadable path => "failed to read directory " ++ path

/-- The tree with a report directory made if it was missing, and without the
files in it, except the one that `keep` leads to. -/
def prepare (tree : FileTree) (directory keep : String) : FileTree × Except DirectoryFault Unit :=
  match tree.createAll directory with
  | (tree, false) => (tree, .error (.notCreated directory))
  | (tree, true) =>
    match tree.resolve directory with
    | .ok location =>
      if (tree.root.get? location).any Node.isDirectory then
        (tree.clearFiles location (tree.resolve keep).toOption, .ok ())
      else (tree, .error (.notReadable directory))
    | .error _ => (tree, .error (.notReadable directory))

/-- The name of an owner's reports, without their extension: its separators of
directories become dots. -/
def bareName (owner : String) : String :=
  owner.map fun c => if c = '/' ∨ c = '\\' then '.' else c

inductive Format where
  | json
  | html
  deriving DecidableEq, Repr

def Format.word : Format → String
  | json => "json"
  | html => "html"

def formats : List Format := [.json, .html]

/-- The files of a format: their names, and what is written to them. -/
def files (format : Format) (grain : Grain) (project : String) (found : UseSet) :
    List (String × String) :=
  match format, grain with
  | .json, .single => [("all.json", listing found)]
  | .html, .single => [("all.html", page project found)]
  | .json, .perOwner =>
    found.byOwner.map fun (owner, bucket) => (bareName owner ++ ".json", ownerListing bucket)
  | .html, .perOwner =>
    found.byOwner.map fun (owner, bucket) =>
      (bareName owner ++ ".html", ownerPage project found.size owner bucket)

/-- The tree with files written to a directory up to the first that cannot be
written, and whether all are. -/
def writeFiles (tree : FileTree) (directory : String) : List (String × String) → FileTree × Bool
  | [] => (tree, true)
  | (name, text) :: rest =>
    match tree.write? (Path.child directory name) text.toUTF8 with
    | none => (tree, false)
    | some tree => writeFiles tree directory rest

/-- What writing reports gives. -/
structure Written where
  tree : FileTree
  /-- The paths of the formats that are complete. -/
  paths : List String
  warnings : List Warning

/-- The reports of one format, after what has been written before. -/
def writeFormat (grain : Grain) (project : String) (found : UseSet) (directory : String)
    (before : Written) (format : Format) : Written :=
  let files := files format grain project found
  match writeFiles before.tree directory files with
  | (tree, true) =>
    { before with tree, paths := before.paths ++ files.map fun (name, _) => Path.child directory name }
  | (tree, false) =>
    { before with tree, warnings := before.warnings ++ [.reportNotWritten format.word] }

/-- The reports of all formats. -/
def write (tree : FileTree) (grain : Grain) (project : String) (found : UseSet)
    (directory : String) : Written :=
  formats.foldl (writeFormat grain project found directory) ⟨tree, [], []⟩

end MemberAudit.Report
