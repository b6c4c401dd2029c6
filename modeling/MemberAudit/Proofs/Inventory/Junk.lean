/-
Files that hold no classes leave no trace in an inventory. A file of another name, a class
file that is no class and a jar that is no archive are all passed over
(`yields_none_iff`), and what is passed over may come and go: the artifacts, the classes and
their numbers stay as they are, or the same file ends the scan (`take_littered`).
-/
import MemberAudit.Proofs.Inventory.Damage
import MemberAudit.Proofs.Inventory.Kinds

namespace MemberAudit.Inventory

open FileTree (PlainName)

variable {name : String} {content : ByteArray}

/-- Whether a file of the given name holds no classes. -/
inductive Junk (name : String) (content : ByteArray) : Prop where
  | otherFile : ¬Named "class" name → ¬Named "jar" name → Junk name content
  | noClass {fault : ClassFault} : Named "class" name →
      JvmClass.ofBytes content.data.toList = .error fault → Junk name content
  | noArchive : Named "jar" name → Archive.open? content.data.toList = none → Junk name content

/-- The files that are passed over are those without classes. -/
theorem yields_none_iff (directory : String) (hname : PlainName name) :
    Yields (Path.child directory name) content none ↔ Junk name content := by
  have hkind := fileKind_child directory hname
  constructor
  · intro h
    cases h with
    | otherFile hother =>
      obtain ⟨hclass, hjar⟩ := (fileKind_eq_unsupported_iff hname).mp (hkind.symm.trans hother)
      exact .otherFile hclass hjar
    | noClass hclass hfault =>
      exact .noClass ((fileKind_eq_classFile_iff hname).mp (hkind.symm.trans hclass)) hfault
    | noArchive hjar hopen =>
      exact .noArchive ((fileKind_eq_jar_iff hname).mp (hkind.symm.trans hjar)) hopen
  · intro h
    cases h with
    | otherFile hclass hjar =>
      exact .otherFile (hkind.trans ((fileKind_eq_unsupported_iff hname).mpr ⟨hclass, hjar⟩))
    | noClass hclass hfault =>
      exact .noClass (hkind.trans ((fileKind_eq_classFile_iff hname).mpr hclass)) hfault
    | noArchive hjar hopen =>
      exact .noArchive (hkind.trans ((fileKind_eq_jar_iff hname).mpr hjar)) hopen

/-! ## Files that are passed over -/

/-- Files that yield nothing may be left out. -/
theorem snd_collect_filter {inventory : Inventory} {files : List (String × ByteArray)}
    {p : String × ByteArray → Bool}
    (h : ∀ file ∈ files, p file = false → Yields file.1 file.2 none) :
    (collect inventory ((files.filter p).map visitOf)).2 = (collect inventory (files.map visitOf)).2 := by
  induction files generalizing inventory with
  | nil => rfl
  | cons file files ih =>
    obtain ⟨hfile, hfiles⟩ := List.forall_mem_cons.mp h
    rw [List.filter_cons]
    split
    · simp only [List.map_cons, collect]
      cases (visitOf file).examined.outcome with
      | error fault => rfl
      | ok classes? => exact ih hfiles
    · rename_i hp
      have hnone : (visitOf file).examined.outcome = .ok none :=
        examine_of_yields (hfile (by simpa using hp))
      rw [ih hfiles, List.map_cons, collect, hnone]

variable {tree tree' : FileTree} {input : String} {entries entries' : List (String × Node)}

/-- The files of a directory that yield something decide what is found in it. -/
theorem snd_take_congr (hnode : tree.node? input = some (.directory entries))
    (hnode' : tree'.node? input = some (.directory entries'))
    (hwf : (Node.directory entries).WellFormed) (hwf' : (Node.directory entries').WellFormed)
    (h : ∀ rest content, ¬Yields (pathAt input rest) content none →
      ((Node.directory entries).fileAt rest = some content ↔
        (Node.directory entries').fileAt rest = some content)) :
    (take tree input).2 = (take tree' input).2 := by
  classical
  -- the files are chosen by location, where both directories can be compared
  have hyielding : ∀ found : Node,
      (collect ⟨[], [], 0⟩ ((filesAt input found).map visitOf)).2 =
        (collect ⟨[], [], 0⟩ ((((located found).filter fun file =>
          ¬Yields (pathAt input file.1) file.2 none).map fun file =>
            (pathAt input file.1, file.2)).map visitOf)).2 := by
    intro found
    rw [← snd_collect_filter (p := fun file => ¬Yields file.1 file.2 none) (by simp), filesAt_eq_map,
      List.filter_map]
    rfl
  rw [snd_take hnode, snd_take hnode', hyielding, hyielding, filter_located_congr hwf hwf']
  intro file hfile
  exact h file.1 file.2 (of_decide_eq_true hfile)

/-! ## Junk files -/

/-- Whether all files of a node are in another one, and what this has besides is junk. -/
structure Littered (node node' : Node) : Prop where
  kept : ∀ rest content, node.fileAt rest = some content → node'.fileAt rest = some content
  added : ∀ rest content, node'.fileAt rest = some content →
    node.fileAt rest = some content ∨
      ∃ above name, rest = above ++ [name] ∧ PlainName name ∧ Junk name content

/-- **Junk files do not change what is found in a directory.** -/
theorem take_littered (hnode : tree.node? input = some (.directory entries))
    (hnode' : tree'.node? input = some (.directory entries'))
    (hwf : (Node.directory entries).WellFormed) (hwf' : (Node.directory entries').WellFormed)
    (h : Littered (.directory entries) (.directory entries')) :
    (take tree' input).2 = (take tree input).2 := by
  refine snd_take_congr hnode' hnode hwf' hwf fun rest content hyields => ⟨fun hfile => ?_, h.kept rest content⟩
  rcases h.added rest content hfile with hthere | ⟨above, name, rfl, hname, hjunk⟩
  · exact hthere
  · rw [pathAt_append_singleton] at hyields
    exact absurd ((yields_none_iff _ hname).mpr hjunk) hyields

/-! A directory of two classes, and the same with a text, a jar that is none and a class of
which the second method has an instruction that does not exist. -/

/-- A method `m` of little code, by the constants of `brokenMethod`. -/
def methodOf (code : List UInt8) : List UInt8 :=
  [0, 1, 0, 3, 0, 4, 0, 1, 0, 5, 0, 0, 0, (12 + code.length).toUInt8, 0, 0, 0, 1, 0, 0, 0,
    code.length.toUInt8] ++ code ++ [0, 0, 0, 0]

/-- A class `B` with the constants `B`, itself, `m`, `()V` and `Code`. -/
def brokenMethod : ByteArray :=
  ⟨([0xCA, 0xFE, 0xBA, 0xBE, 0, 0, 0, 52, 0, 6, 1, 0, 1, 66, 7, 0, 1, 1, 0, 1, 109, 1, 0, 3, 40, 41,
    86, 1, 0, 4, 67, 111, 100, 101, 0, 33, 0, 2, 0, 0, 0, 0, 0, 0, 0, 2] ++ methodOf [0xB1]
    ++ methodOf [0xCB] ++ [0, 0]).toArray⟩

def cleanDirectory : List (String × Node) :=
  [("app", .directory [("A.class", .file (bareClass "A"))]), ("z.class", .file (bareClass "Z"))]

def litteredDirectory : List (String × Node) :=
  [("z.class", .file (bareClass "Z")), ("notes", .file cutClass),
    ("app", .directory [("B.class", .file brokenMethod), ("A.class", .file (bareClass "A"))]),
    ("lib", .directory [("a.jar", .file cutClass)])]

theorem littered_cleanDirectory :
    Littered (.directory cleanDirectory) (.directory litteredDirectory) where
  kept := forall_fileAt_cons (forall_fileAt_cons (forall_fileAt_file rfl) forall_fileAt_nil)
    (forall_fileAt_cons (forall_fileAt_file rfl) forall_fileAt_nil)
  added := by
    refine forall_fileAt_cons ?_ (forall_fileAt_cons ?_ (forall_fileAt_cons (forall_fileAt_cons ?_ ?_)
      (forall_fileAt_cons (forall_fileAt_cons ?_ forall_fileAt_nil) forall_fileAt_nil)))
    · exact forall_fileAt_file (.inl rfl)
    · have hname : PlainName "notes" := by decide
      obtain ⟨hclass, hjar⟩ := (fileKind_eq_unsupported_iff hname).mp (by decide)
      exact forall_fileAt_file (.inr ⟨[], "notes", rfl, hname, .otherFile hclass hjar⟩)
    · have hname : PlainName "B.class" := by decide
      have hbroken : JvmClass.ofBytes brokenMethod.data.toList =
          .error (.code "m" "()V" (.unsupportedOpcode 0xCB)) := by decide +kernel
      exact forall_fileAt_file
        (.inr ⟨["app"], "B.class", rfl, hname, .noClass ⟨"B", by decide, rfl⟩ hbroken⟩)
    · exact forall_fileAt_cons (forall_fileAt_file (.inl rfl)) forall_fileAt_nil
    · have hname : PlainName "a.jar" := by decide
      have hopen : Archive.open? cutClass.data.toList = none := by decide +kernel
      exact forall_fileAt_file
        (.inr ⟨["lib"], "a.jar", rfl, hname, .noArchive ⟨"a", by decide, rfl⟩ hopen⟩)

/-- The classes are found with what was added as without it. -/
theorem take_littered_app :
    (treeOf cleanDirectory).node? "in" = some (.directory cleanDirectory) ∧
      (treeOf litteredDirectory).node? "in" = some (.directory litteredDirectory) ∧
      (Node.directory cleanDirectory).WellFormed ∧ (Node.directory litteredDirectory).WellFormed ∧
      Littered (.directory cleanDirectory) (.directory litteredDirectory) ∧
      (take (treeOf litteredDirectory) "in").2 =
        .ok ⟨[⟨"in/app/A.class", 31, false⟩, ⟨"in/z.class", 31, false⟩],
          [⟨⟨"A", []⟩, 0⟩, ⟨⟨"Z", []⟩, 1⟩], 2⟩ := by
  have hwf : (Node.directory cleanDirectory).WellFormed := by
    simp [cleanDirectory, Node.wellFormed_directory, Node.WellFormed.file]
  have hwf' : (Node.directory litteredDirectory).WellFormed := by
    simp [litteredDirectory, Node.wellFormed_directory, Node.WellFormed.file]
  have hnode : (treeOf cleanDirectory).node? "in" = some (.directory cleanDirectory) := rfl
  have hnode' : (treeOf litteredDirectory).node? "in" = some (.directory litteredDirectory) := rfl
  have hfiles : filesAt "in" (.directory cleanDirectory) =
      [("in/app/A.class", bareClass "A"), ("in/z.class", bareClass "Z")] := by
    rw [filesAt_of_ascending (by decide)]
    decide +kernel
  refine ⟨hnode, hnode', hwf, hwf', littered_cleanDirectory, ?_⟩
  rw [take_littered hnode hnode' hwf hwf' littered_cleanDirectory, take_eq_ok_iff hnode, hfiles]
  have hA : Yields "in/app/A.class" (bareClass "A") (some [⟨"A", []⟩]) :=
    .classFile (by decide) (by decide +kernel)
  have hZ : Yields "in/z.class" (bareClass "Z") (some [⟨"Z", []⟩]) :=
    .classFile (by decide) (by decide +kernel)
  exact .added hA (.added hZ .done)

end MemberAudit.Inventory
