/-
What damaged files do to the scan of a directory. Files that are no class or no archive,
and entries of jars that are no class, are skipped, and all files that hold classes are
artifacts with these; only a spoilt jar ends the scan (`take_survives`). It does so from
inside a directory too: no class of any other file is found then (`take_loses_classes`).
-/
import MemberAudit.Proofs.Inventory.Tally

namespace MemberAudit.Inventory

/-! ## Artifacts with their classes -/

/-- Whether an inventory has an artifact with the given classes. -/
def Holding (inventory : Inventory) (artifact : Artifact) (classes : List JvmClass) : Prop :=
  ∃ number, inventory.artifacts[number]? = some artifact ∧ inventory.classesFrom number = classes

variable {holds : Artifact → List JvmClass → Prop} {inventory result : Inventory} {visit : Visit}
  {artifact : Artifact} {classes : List JvmClass} {files : List (String × ByteArray)}

theorem not_holding_empty : ¬Holding ⟨[], [], 0⟩ artifact classes := by
  simp [Holding]

/-- A visit leaves the artifacts before it with their classes. -/
theorem Numbered.holding_add {found : List JvmClass} (h : Numbered holds inventory) :
    (inventory.add visit found).Holding artifact classes ↔
      inventory.Holding artifact classes ∨ artifact = artifactOf visit ∧ classes = found := by
  have hlast : (inventory.add visit found).artifacts[inventory.artifacts.length]? =
      some (artifactOf visit) := List.getElem?_concat_length ..
  have hclasses : (inventory.add visit found).classesFrom inventory.artifacts.length = found := by
    rw [classesFrom_add, if_pos rfl, h.classesFrom_length, List.nil_append]
  have hbefore : ∀ number < inventory.artifacts.length,
      (inventory.add visit found).artifacts[number]? = inventory.artifacts[number]? ∧
        (inventory.add visit found).classesFrom number = inventory.classesFrom number := by
    intro number hlt
    refine ⟨List.getElem?_append_left hlt, ?_⟩
    rw [classesFrom_add, if_neg (by omega), List.append_nil]
  constructor
  · intro hex
    obtain ⟨number, hartifact, hfound⟩ := hex
    have hle : number < inventory.artifacts.length + 1 := by
      have hlt := (List.getElem?_eq_some_iff.mp hartifact).1
      simpa [Inventory.add] using hlt
    rcases Nat.lt_succ_iff_lt_or_eq.mp hle with hlt | rfl
    · rw [(hbefore number hlt).1] at hartifact
      rw [(hbefore number hlt).2] at hfound
      exact .inl ⟨number, hartifact, hfound⟩
    · rw [hlast] at hartifact
      exact .inr ⟨(Option.some.inj hartifact).symm, hfound.symm.trans hclasses⟩
  · intro hor
    rcases hor with ⟨number, hartifact, hfound⟩ | ⟨rfl, rfl⟩
    · have hlt := (List.getElem?_eq_some_iff.mp hartifact).1
      exact ⟨number, (hbefore number hlt).1.trans hartifact, (hbefore number hlt).2.trans hfound⟩
    · exact ⟨_, hlast, hclasses⟩

/-- The artifacts of a tally are those before it and the files that yield classes. -/
theorem Tally.holding_iff (h : Tally inventory files result)
    (hnumbered : Numbered (fun _ _ => True) inventory) :
    result.Holding artifact classes ↔ inventory.Holding artifact classes ∨
      ∃ file ∈ files, artifact = ⟨file.1, file.2.size, false⟩ ∧ Yields file.1 file.2 (some classes) := by
  induction h with
  | done => simp
  | passed hyields _ ih =>
    rw [ih hnumbered, List.exists_mem_cons_iff]
    refine or_congr_right (or_iff_right ?_).symm
    intro hfile
    cases hyields.unique hfile.2
  | @added inventory result path content files found hyields _ ih =>
    have hnext : Numbered (fun _ _ => True) (inventory.add (visitOf (path, content)) found) :=
      hnumbered.add trivial
    have hfirst : artifact = ⟨path, content.size, false⟩ ∧ Yields path content (some classes) ↔
        artifact = artifactOf (visitOf (path, content)) ∧ classes = found := by
      refine and_congr_right fun _ => ⟨fun hclasses => ?_, fun hclasses => hclasses ▸ hyields⟩
      exact Option.some.inj (hclasses.unique hyields)
    have hadded : (inventory.add (visitOf (path, content)) found).Holding artifact classes ↔ _ :=
      hnumbered.holding_add
    rw [List.exists_mem_cons_iff, hfirst, ← or_assoc]
    exact (ih hnext).trans (or_congr_left hadded)

/-! ## Directories with damaged files -/

variable {tree : FileTree} {input : String} {entries : List (String × Node)}

/-- The files of a directory with their paths have what its locations have. -/
theorem exists_mem_filesAt {node : Node} {path : String} (hwf : node.WellFormed)
    (P : String → ByteArray → Prop) :
    (∃ file ∈ filesAt path node, P file.1 file.2) ↔
      ∃ rest content, node.fileAt rest = some content ∧ P (pathAt path rest) content := by
  constructor
  · intro hex
    obtain ⟨⟨_, content⟩, hfile, hP⟩ := hex
    obtain ⟨rest, hrest, rfl⟩ := (mem_filesAt hwf).mp hfile
    exact ⟨rest, content, hrest, hP⟩
  · intro hex
    obtain ⟨rest, content, hrest, hP⟩ := hex
    exact ⟨(pathAt path rest, content), (mem_filesAt hwf).mpr ⟨rest, hrest, rfl⟩, hP⟩

theorem SpoiltBy.exists_mem {fault : ScanFault} (h : SpoiltBy files fault) :
    ∃ file ∈ files, Spoils file.1 file.2 fault := by
  induction h with
  | here hspoils => exact ⟨_, List.mem_cons_self, hspoils⟩
  | later _ _ ih =>
    obtain ⟨file, hfile, hspoils⟩ := ih
    exact ⟨file, List.mem_cons_of_mem _ hfile, hspoils⟩

theorem exists_take_iff (hnode : tree.node? input = some (.directory entries)) :
    (∃ inventory, (take tree input).2 = .ok inventory) ↔
      ¬∃ file ∈ filesAt input (.directory entries), IsSpoilt file.1 file.2 := by
  simp only [take_eq_ok_iff hnode]
  constructor
  · intro hex hspoilt
    obtain ⟨inventory, htally⟩ := hex
    obtain ⟨fault, hfault⟩ := exists_spoiltBy hspoilt
    cases (collect_of_tally htally).symm.trans (collect_of_spoiltBy hfault _)
  · intro hgood
    exact exists_tally (fun file hfile hspoilt => hgood ⟨file, hfile, hspoilt⟩) _

/-- **A directory can be scanned if no jar in it is spoilt.** Its artifacts are then all files
in it that yield classes; else one of the spoilt jars is at fault. -/
theorem take_survives (hnode : tree.node? input = some (.directory entries))
    (hwf : (Node.directory entries).WellFormed) :
    ((∃ inventory, (take tree input).2 = .ok inventory) ↔
      ¬∃ rest content, (Node.directory entries).fileAt rest = some content ∧
        IsSpoilt (pathAt input rest) content) ∧
    (∀ inventory, (take tree input).2 = .ok inventory → ∀ artifact classes,
      (inventory.Holding artifact classes ↔
        ∃ rest content, (Node.directory entries).fileAt rest = some content ∧
          artifact = ⟨pathAt input rest, content.size, false⟩ ∧
          Yields (pathAt input rest) content (some classes))) ∧
    ∀ fault, (take tree input).2 = .error fault →
      ∃ rest content, (Node.directory entries).fileAt rest = some content ∧
        Spoils (pathAt input rest) content fault := by
  refine ⟨?_, ?_, ?_⟩
  · rw [exists_take_iff hnode, exists_mem_filesAt hwf IsSpoilt]
  · intro inventory hinventory artifact classes
    have htally := (take_eq_ok_iff hnode).mp hinventory
    rw [htally.holding_iff .empty, or_iff_right not_holding_empty]
    exact exists_mem_filesAt hwf fun path content =>
      artifact = ⟨path, content.size, false⟩ ∧ Yields path content (some classes)
  · intro fault hfault
    have hspoilt := ((take_eq_error_iff hnode).mp hfault).exists_mem
    exact (exists_mem_filesAt hwf fun path content => Spoils path content fault).mp hspoilt

/-! A directory of a class that is none, a jar that is none, a jar with a text that is damaged
and an entry that is no class, and a class. -/

def treeOf (entries : List (String × Node)) : FileTree :=
  ⟨.directory [("work", .directory [("in", .directory entries)])], ["work"]⟩

def cutClass : ByteArray := ⟨#[0xCA, 0xFE, 0xBA, 0xBE]⟩

def mixedEntries : List Archive.Entry :=
  [⟨"README", false, 0, 0, some [82]⟩, Archive.stored "A.class" (bareClass "A").data.toList,
    Archive.stored "B.class" cutClass.data.toList]

def mixedDirectory : List (String × Node) :=
  [("a.class", .file cutClass), ("b.jar", .file cutClass), ("c.jar", .file (jarOf mixedEntries)),
    ("d.class", .file (bareClass "D"))]

/-- What is damaged in the directory is skipped, and the two classes are found. -/
theorem take_survives_mixed :
    (treeOf mixedDirectory).node? "in" = some (.directory mixedDirectory) ∧
      (Node.directory mixedDirectory).WellFormed ∧
      ∃ inventory, (take (treeOf mixedDirectory) "in").2 = .ok inventory ∧
        inventory.Holding ⟨"in/c.jar", (jarOf mixedEntries).size, false⟩ [⟨"A", []⟩] ∧
        inventory.Holding ⟨"in/d.class", (bareClass "D").size, false⟩ [⟨"D", []⟩] := by
  have hwf : (Node.directory mixedDirectory).WellFormed := by
    simp [mixedDirectory, Node.wellFormed_directory, Node.WellFormed.file]
  obtain ⟨hsurvives, hholding, -⟩ :=
    take_survives (show (treeOf mixedDirectory).node? "in" = some (.directory mixedDirectory) from rfl) hwf
  have hgood : ¬∃ file ∈ filesAt "in" (.directory mixedDirectory), IsSpoilt file.1 file.2 := by
    rw [filesAt_of_ascending (by decide)]
    decide +kernel
  obtain ⟨inventory, hinventory⟩ := hsurvives.mpr fun hspoilt =>
    hgood ((exists_mem_filesAt hwf IsSpoilt).mpr hspoilt)
  have hopen : Archive.open? (jarOf mixedEntries).data.toList = some mixedEntries := by decide +kernel
  have hlisted : Ascending mixedEntries mixedEntries.tail :=
    ⟨by decide +kernel, by decide⟩
  have hjar : Yields "in/c.jar" (jarOf mixedEntries) (some [⟨"A", []⟩]) := by
    refine .jar (by decide) hopen (by decide) hlisted ?_
    have hcut : JvmClass.ofBytes cutClass.data.toList = .error .malformed := by decide +kernel
    exact .cls (Archive.content_stored ..) (by decide +kernel)
      (.noClass (Archive.content_stored ..) hcut .nil)
  refine ⟨rfl, hwf, inventory, hinventory, ?_, ?_⟩
  · exact (hholding inventory hinventory _ _).mpr ⟨["c.jar"], _, rfl, rfl, hjar⟩
  · exact (hholding inventory hinventory _ _).mpr
      ⟨["d.class"], _, rfl, rfl, .classFile (by decide) (by decide +kernel)⟩

/-! A directory of a class and, before it, a jar of which one class has the wrong checksum. -/

def brokenEntry : Archive.Entry :=
  { Archive.stored "A.class" (bareClass "A").data.toList with checksum := 0 }

def brokenDirectory : List (String × Node) :=
  [("a.jar", .file (jarOf [brokenEntry])), ("b.class", .file (bareClass "B"))]

/-- The damaged class ends the scan of the directory, and the other class is lost. -/
theorem take_loses_classes :
    (Node.directory brokenDirectory).WellFormed ∧
      Yields "in/b.class" (bareClass "B") (some [⟨"B", []⟩]) ∧
      take (treeOf brokenDirectory) "in" = ([], .error (.unreadableEntry "in/a.jar" "A.class")) := by
  have hwf : (Node.directory brokenDirectory).WellFormed := by
    simp [brokenDirectory, Node.wellFormed_directory, Node.WellFormed.file]
  refine ⟨hwf, .classFile (by decide) (by decide +kernel), ?_⟩
  rw [take, visits_directory rfl, filesAt_of_ascending (by decide)]
  decide +kernel

end MemberAudit.Inventory
