/-
An inventory depends on no more than which class files and jars there are, and
what is in them: not on the directories between them, nor on the order in which
these hold their entries (`take_of_sameFiles`). The files of a directory are listed
under the paths that lead to them (`mem_filesAt`), in an order that is told from
these paths.
-/
import MemberAudit.Proofs.FileTree.AgreeOn
import MemberAudit.Proofs.Inventory.Locations

namespace MemberAudit.Inventory

variable {node node' : Node} {path : String}

/-- The files below a node are listed with their paths. -/
theorem mem_filesAt (hwf : node.WellFormed) {file : String × ByteArray} :
    file ∈ filesAt path node ↔
      ∃ rest, node.fileAt rest = some file.2 ∧ file.1 = pathAt path rest := by
  rw [filesAt_eq_map, List.mem_map]
  constructor
  · intro hex
    obtain ⟨located, hmem, rfl⟩ := hex
    exact ⟨located.1, (mem_located hwf).mp hmem, rfl⟩
  · intro hex
    obtain ⟨rest, hrest, hpath⟩ := hex
    exact ⟨(rest, file.2), (mem_located hwf).mpr hrest, Prod.ext hpath.symm rfl⟩

/-! ## Nodes with the same files -/

/-- Whether nodes hold the same class files and jars at the same locations. -/
def SameFiles (path : String) (node node' : Node) : Prop :=
  ∀ rest, fileKind (pathAt path rest) ≠ .unsupported → node.fileAt rest = node'.fileAt rest

theorem classFilesAt_eq_map (path : String) (node : Node) :
    classFilesAt path node =
      ((located node).filter fun file => fileKind (pathAt path file.1) ≠ .unsupported).map
        fun file => (pathAt path file.1, file.2) := by
  rw [classFilesAt, filesAt_eq_map, List.filter_map]
  rfl

/-- **Nodes that hold the same class files list the same class files.** -/
theorem classFilesAt_congr (hwf : node.WellFormed) (hwf' : node'.WellFormed)
    (h : SameFiles path node node') : classFilesAt path node = classFilesAt path node' := by
  rw [classFilesAt_eq_map, classFilesAt_eq_map, filter_located_congr hwf hwf']
  intro file hkind
  rw [h file.1 (of_decide_eq_true hkind)]

/-! ## Inventories -/

/-- An input of no kind has no inventory. -/
theorem take_unsupported {tree : FileTree} {input : String} (hkind : fileKind input = .unsupported)
    (hdir : tree.hasDirectory input = false) :
    take tree input = ([], .error (.unsupported input)) := by
  unfold take visits
  split
  · rename_i entries hnode
    simp [FileTree.hasDirectory, hnode, Node.isDirectory] at hdir
  · simp [collect, examineInput, hkind, Examined.failed]

/-- **An input that holds the same class files has the same inventory.** -/
theorem take_of_sameFiles {tree tree' : FileTree} {input : String} {l : Location}
    (hwf : tree.root.WellFormed) (hwf' : tree'.root.WellFormed) (hhome : tree'.home = tree.home)
    (hdirs : ∀ m, tree.root.kindAt m = some true → tree'.root.kindAt m = some true)
    (hresolve : tree.resolve input = .ok l) (hthere : (tree.root.kindAt l).isSome)
    (hdirectory : tree'.hasDirectory input = tree.hasDirectory input)
    (hfiles : ∀ rest, fileKind (pathAt input rest) ≠ .unsupported →
      tree'.root.fileAt (l ++ rest) = tree.root.fileAt (l ++ rest)) :
    take tree' input = take tree input := by
  have hresolve' : (tree'.root.kindAt l).isSome → tree'.resolve input = .ok l := fun hthere' =>
    FileTree.resolve_of_directories hhome hdirs hthere' hresolve
  have hnode : ∀ {t : FileTree} {found : Node}, t.resolve input = .ok l → t.root.get? l = some found →
      t.node? input = some found := fun hl hfound => FileTree.node?_eq_some.mpr ⟨l, hl, hfound⟩
  have hfileAt : ∀ {root found : Node}, root.get? l = some found → ∀ rest,
      root.fileAt (l ++ rest) = found.fileAt rest := by
    intro root found hfound rest
    rw [Node.fileAt, Node.get?_append, hfound]
    rfl
  cases hget : tree.root.get? l with
  | none => simp [Node.kindAt, hget] at hthere
  | some found =>
    cases found with
    | directory entries =>
      have hdir' := hdirs l (Node.kindAt_eq_true.mpr ⟨entries, hget⟩)
      obtain ⟨entries', hget'⟩ := Node.kindAt_eq_true.mp hdir'
      rw [take_directory (hnode hresolve hget),
        take_directory (hnode (hresolve' (by rw [hdir']; rfl)) hget'),
        classFilesAt_congr (hwf'.get? hget') (hwf.get? hget)]
      intro rest hkind
      rw [← hfileAt hget', ← hfileAt hget, hfiles rest hkind]
    | file content =>
      by_cases hkind : fileKind input = .unsupported
      · have hdir : tree.hasDirectory input = false := by
          simp [FileTree.hasDirectory, hnode hresolve hget, Node.isDirectory]
        rw [take_unsupported hkind hdir, take_unsupported hkind (hdirectory.trans hdir)]
      · have hfile := hfiles [] hkind
        rw [List.append_nil, Node.fileAt_eq_some.mpr hget] at hfile
        have hthere' := Node.isSome_kindAt_of_fileAt hfile
        exact take_congr ((hnode (hresolve' hthere') (Node.fileAt_eq_some.mp hfile)).trans
          (hnode hresolve hget).symm)

end MemberAudit.Inventory
