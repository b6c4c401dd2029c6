/-
The order in which directories list their entries, and archives theirs, does not matter: a
scan comes out the same (`take_eq_of_relisted`). It goes through the files of a directory as
a walk does that goes down into each entry before the next one, the entries in the order of
their paths (`walk_iff`).
-/
import MemberAudit.Proofs.Inventory.Damage

namespace MemberAudit.Inventory

/-! ## Other orders of entries -/

/-- Archives of one size with the same entries, in any order. -/
structure Repacked (content content' : ByteArray) : Prop where
  size : content'.size = content.size
  entries : ∃ packed packed', Archive.open? content.data.toList = some packed ∧
    Archive.open? content'.data.toList = some packed' ∧ packed'.Perm packed

mutual

/-- Nodes that differ in nothing but the order of the entries of directories and of jars. -/
inductive Relisted : String → Node → Node → Prop where
  | same {path : String} {content : ByteArray} : Relisted path (.file content) (.file content)
  | jar {path : String} {content content' : ByteArray} : fileKind path = .jar →
      Repacked content content' → Relisted path (.file content) (.file content')
  | directory {path : String} {entries listed entries' : List (String × Node)} :
      RelistedEntries path entries listed → entries'.Perm listed →
      Relisted path (.directory entries) (.directory entries')

inductive RelistedEntries : String → List (String × Node) → List (String × Node) → Prop where
  | nil {path : String} : RelistedEntries path [] []
  | cons {path name : String} {node node' : Node} {entries entries' : List (String × Node)} :
      Relisted (Path.child path name) node node' → RelistedEntries path entries entries' →
      RelistedEntries path ((name, node) :: entries) ((name, node') :: entries')

end

theorem examineArchive_perm {packed packed' : List Archive.Entry}
    (hnodup : (packed.map (·.name)).Nodup) (h : packed'.Perm packed) (path : String) :
    examineArchive path packed' = examineArchive path packed := by
  have heligible : eligible packed' = eligible packed := by
    have hsublist := List.filter_sublist (p := fun entry => isEligible entry.name) (l := packed)
    exact mergeSort_keyLE_perm (hnodup.sublist (hsublist.map _)) (h.filter _)
  rw [examineArchive, examineArchive, h.any_eq, heligible]

theorem Repacked.examineJar_eq {content content' : ByteArray} (h : Repacked content content')
    (path : String) (isInput : Bool) :
    examineJar path isInput content' = examineJar path isInput content := by
  obtain ⟨packed, packed', hopen, hopen', hperm⟩ := h.entries
  rw [examineJar, examineJar, hopen, hopen']
  exact examineArchive_perm (Archive.nodup_names_of_open? hopen) hperm path

/-! ## The visits of a node -/

/-- The visits of the files at and below a node. -/
def visitsAt (path : String) (node : Node) : List Visit :=
  (filesAt path node).map visitOf

/-- The visits below an entry, with its name. -/
def entryVisits (path : String) (entry : String × Node) : String × List Visit :=
  (entry.1, visitsAt (Path.child path entry.1) entry.2)

theorem visitsAt_directory (path : String) (entries : List (String × Node)) :
    visitsAt path (.directory entries) =
      ((entries.map (entryVisits path)).mergeSort (keyLE (·.1))).flatMap (·.2) := by
  have hsort := List.map_mergeSort (r := keyLE (·.1)) (s := keyLE (·.1)) (l := entries)
    (f := entryVisits path) fun _ _ _ _ => rfl
  rw [visitsAt, filesAt_directory, List.map_flatMap, ← hsort, List.flatMap_map]
  rfl

mutual

theorem Relisted.visitsAt_eq {path : String} {node node' : Node} (h : Relisted path node node')
    (hwf : node.WellFormed) : visitsAt path node' = visitsAt path node := by
  cases h with
  | same => rfl
  | @jar _ content content' hkind hrepacked =>
    have hexamine : examine path content' = examine path content := by
      simp only [examine, hkind]
      exact hrepacked.examineJar_eq path false
    simp [visitsAt, filesAt, visitOf, hrepacked.size, hexamine]
  | @directory _ entries listed entries' hlisted hperm =>
    obtain ⟨hnodup, hentries⟩ := Node.wellFormed_directory.mp hwf
    have hnames : ((entries.map (entryVisits path)).map (·.1)).Nodup := by
      rwa [List.map_map]
    -- the order differs, but what is visited below an entry of a name does not
    have hvisits : (entries'.map (entryVisits path)).Perm (entries.map (entryVisits path)) :=
      (hperm.map _).trans (.of_eq (hlisted.map_entryVisits hentries))
    rw [visitsAt_directory, visitsAt_directory, mergeSort_keyLE_perm hnames hvisits]

theorem RelistedEntries.map_entryVisits {path : String} {entries listed : List (String × Node)}
    (h : RelistedEntries path entries listed) (hwf : ∀ entry ∈ entries, entry.2.WellFormed) :
    listed.map (entryVisits path) = entries.map (entryVisits path) := by
  cases h with
  | nil => rfl
  | cons hnode hentries =>
    obtain ⟨hfirst, hothers⟩ := List.forall_mem_cons.mp hwf
    rw [List.map_cons, List.map_cons, hentries.map_entryVisits hothers, entryVisits, entryVisits,
      hnode.visitsAt_eq hfirst]

end

/-- **What is relisted is scanned alike.** -/
theorem take_eq_of_relisted {tree tree' : FileTree} {input : String} {node node' : Node}
    (hnode : tree.node? input = some node) (hnode' : tree'.node? input = some node')
    (hwf : node.WellFormed) (h : Relisted input node node') : take tree' input = take tree input := by
  cases h with
  | same => exact take_congr (hnode'.trans hnode.symm)
  | @jar _ content content' hkind hrepacked =>
    have hexamine : examineInput input (some content') = examineInput input (some content) := by
      simp only [examineInput, hkind]
      exact hrepacked.examineJar_eq input true
    simp only [take, visits, hnode, hnode', Option.bind_some, Node.content?, Option.map_some,
      hrepacked.size, hexamine]
  | directory hlisted hperm =>
    have hvisits := Relisted.visitsAt_eq (.directory hlisted hperm) hwf
    rw [take, take, visits_directory hnode, visits_directory hnode']
    exact congrArg _ hvisits

/-! ## Walks -/

mutual

/-- The files of a node in the order of a walk: the entries of a directory in the order of
their paths, all that is below one before the next. -/
inductive Walk : String → Node → List (String × ByteArray) → Prop where
  | file {path : String} {content : ByteArray} : Walk path (.file content) [(path, content)]
  | directory {path : String} {entries listed : List (String × Node)}
      {files : List (String × ByteArray)} : listed.Perm entries →
      listed.Pairwise (fun a b => Path.child path a.1 < Path.child path b.1) →
      WalkEntries path listed files → Walk path (.directory entries) files

inductive WalkEntries : String → List (String × Node) → List (String × ByteArray) → Prop where
  | nil {path : String} : WalkEntries path [] []
  | cons {path name : String} {node : Node} {entries : List (String × Node)}
      {files later : List (String × ByteArray)} : Walk (Path.child path name) node files →
      WalkEntries path entries later → WalkEntries path ((name, node) :: entries) (files ++ later)

end

section

variable {path : String} {entries : List (String × Node)} {files : List (String × ByteArray)}

/-- A walk through entries is one walk after the other. -/
theorem walkEntries_iff
    (h : ∀ entry ∈ entries, ∀ files, Walk (Path.child path entry.1) entry.2 files ↔
      files = filesAt (Path.child path entry.1) entry.2) :
    WalkEntries path entries files ↔
      files = entries.flatMap fun entry => filesAt (Path.child path entry.1) entry.2 := by
  induction entries generalizing files with
  | nil =>
    constructor
    · rintro ⟨⟩
      rfl
    · rintro rfl
      exact .nil
  | cons entry entries ih =>
    obtain ⟨hentry, hentries⟩ := List.forall_mem_cons.mp h
    constructor
    · intro hwalk
      cases hwalk with
      | cons hfirst hlater => rw [(hentry _).mp hfirst, (ih hentries).mp hlater, List.flatMap_cons]
    · rintro rfl
      exact .cons ((hentry _).mpr rfl) ((ih hentries).mpr rfl)

/-- **The files of a node are listed as one walks through them.** -/
theorem walk_iff {node : Node} (hwf : node.WellFormed) :
    Walk path node files ↔ files = filesAt path node := by
  induction node using Node.inductOn generalizing path files with
  | file content =>
    constructor
    · rintro ⟨⟩
      rfl
    · rintro rfl
      exact .file
  | directory entries ih =>
    obtain ⟨hnodup, hentries⟩ := Node.wellFormed_directory.mp hwf
    have hsorted : ∀ listed : List (String × Node),
        (listed.Perm entries ∧ listed.Pairwise fun a b => Path.child path a.1 < Path.child path b.1) ↔
          listed = entries.mergeSort (keyLE (·.1)) := by
      intro listed
      simp only [child_lt_child_iff]
      exact (eq_mergeSort_iff hnodup).symm
    have hflat : WalkEntries path (entries.mergeSort (keyLE (·.1))) files ↔
        files = filesAt path (.directory entries) := by
      rw [filesAt_directory]
      refine walkEntries_iff fun entry hentry _ => ?_
      have hmem := List.mem_mergeSort.mp hentry
      exact ih entry hmem (hentries entry hmem)
    constructor
    · intro hwalk
      cases hwalk with
      | directory hperm hascending hfiles =>
        obtain rfl := (hsorted _).mp ⟨hperm, hascending⟩
        exact hflat.mp hfiles
    · intro hfiles
      obtain ⟨hperm, hascending⟩ := (hsorted _).mpr rfl
      exact .directory hperm hascending (hflat.mpr hfiles)

end

variable {entries entries' : List (String × Node)}

/-- **The order of entries does not change the scan of a directory.** It goes by the one
walk through the files: the inventory is the tally of these, and the first of them that
spoils the scan is at fault. -/
theorem take_relisted {tree tree' : FileTree} {input : String}
    (hnode : tree.node? input = some (.directory entries))
    (hnode' : tree'.node? input = some (.directory entries'))
    (hwf : (Node.directory entries).WellFormed)
    (h : Relisted input (.directory entries) (.directory entries')) :
    take tree' input = take tree input ∧
      ∃ files, (∀ other, Walk input (.directory entries) other ↔ other = files) ∧
        (∀ inventory, (take tree input).2 = .ok inventory ↔ Tally ⟨[], [], 0⟩ files inventory) ∧
        ∀ fault, (take tree input).2 = .error fault ↔ SpoiltBy files fault :=
  ⟨take_eq_of_relisted hnode hnode' hwf h, filesAt input (.directory entries), fun _ => walk_iff hwf,
    fun _ => take_eq_ok_iff hnode, fun _ => take_eq_error_iff hnode⟩

/-! A directory of a jar and two classes in a directory, with all entries in the order of their
names and in the opposite one. -/

def jarEntries : List Archive.Entry :=
  [Archive.stored "A.class" (bareClass "A").data.toList,
    Archive.stored "B.class" (bareClass "B").data.toList]

def classesAscending : List (String × Node) :=
  [("C.class", .file (bareClass "C")), ("D.class", .file (bareClass "D"))]

def entriesAscending : List (String × Node) :=
  [("a.jar", .file (jarOf jarEntries)), ("b", .directory classesAscending)]

def entriesDescending : List (String × Node) :=
  [("b", .directory classesAscending.reverse), ("a.jar", .file (jarOf jarEntries.reverse))]

theorem relisted_entriesDescending :
    Relisted "in" (.directory entriesAscending) (.directory entriesDescending) := by
  have hrepacked : Repacked (jarOf jarEntries) (jarOf jarEntries.reverse) :=
    ⟨by decide +kernel, jarEntries, jarEntries.reverse, by decide +kernel, by decide +kernel,
      List.reverse_perm _⟩
  have hclasses : Relisted "in/b" (.directory classesAscending) (.directory classesAscending.reverse) :=
    .directory (.cons .same (.cons .same .nil)) (List.reverse_perm _)
  exact .directory (.cons (.jar (by decide) hrepacked) (.cons hclasses .nil)) (.swap ..)

/-- The jar is scanned before the directory, and its classes are in the order of their names. -/
theorem take_relisted_descending :
    (treeOf entriesAscending).node? "in" = some (.directory entriesAscending) ∧
      (treeOf entriesDescending).node? "in" = some (.directory entriesDescending) ∧
      (Node.directory entriesAscending).WellFormed ∧
      Relisted "in" (.directory entriesAscending) (.directory entriesDescending) ∧
      (take (treeOf entriesDescending) "in").2 =
        .ok ⟨[⟨"in/a.jar", 264, false⟩, ⟨"in/b/C.class", 31, false⟩, ⟨"in/b/D.class", 31, false⟩],
          [⟨⟨"A", []⟩, 0⟩, ⟨⟨"B", []⟩, 0⟩, ⟨⟨"C", []⟩, 1⟩, ⟨⟨"D", []⟩, 2⟩], 4⟩ := by
  have hnode : (treeOf entriesAscending).node? "in" = some (.directory entriesAscending) := rfl
  have hnode' : (treeOf entriesDescending).node? "in" = some (.directory entriesDescending) := rfl
  have hwf : (Node.directory entriesAscending).WellFormed := by
    simp [entriesAscending, classesAscending, Node.wellFormed_directory, Node.WellFormed.file]
  refine ⟨hnode, hnode', hwf, relisted_entriesDescending, ?_⟩
  obtain ⟨hsame, files, hwalk, htally, -⟩ := take_relisted hnode hnode' hwf relisted_entriesDescending
  have hclasses : Walk "in/b" (.directory classesAscending)
      [("in/b/C.class", bareClass "C"), ("in/b/D.class", bareClass "D")] :=
    .directory (.refl _) (by decide) (.cons .file (.cons .file .nil))
  obtain rfl := (hwalk _).mp (.directory (.refl _) (by decide) (.cons .file (.cons hclasses .nil)))
  have hsize : (jarOf jarEntries).size = 264 := by decide +kernel
  rw [hsame, htally, ← hsize]
  have hjar : Yields "in/a.jar" (jarOf jarEntries) (some [⟨"A", []⟩, ⟨"B", []⟩]) := by
    have hopen : Archive.open? (jarOf jarEntries).data.toList = some jarEntries := by decide +kernel
    have hopens : ∀ entry ∈ jarEntries, entry.opens = true := by decide +kernel
    have hlisted : Ascending jarEntries jarEntries := ⟨by decide +kernel, by decide⟩
    refine .jar (by decide) hopen hopens hlisted ?_
    exact .cls (Archive.content_stored ..) (by decide +kernel)
      (.cls (Archive.content_stored ..) (by decide +kernel) .nil)
  have hC : Yields "in/b/C.class" (bareClass "C") (some [⟨"C", []⟩]) :=
    .classFile (by decide) (by decide +kernel)
  have hD : Yields "in/b/D.class" (bareClass "D") (some [⟨"D", []⟩]) :=
    .classFile (by decide) (by decide +kernel)
  exact .added hjar (.added hC (.added hD .done))

end MemberAudit.Inventory
