/-
The files at and below a node, by their locations. They are listed name by name, whatever
the path of the node (`filesAt_eq_map`) and the order in which directories hold their
entries: each at its own location (`mem_located`), the locations ascending
(`pairwise_located`). So a choice among the files of a node is told from which of them are
there, and where (`filter_located_congr`).
-/
import Mathlib.Data.List.Sort
import Mathlib.Data.String.Basic
import MemberAudit.Proofs.Inventory.ClassFiles

namespace MemberAudit

/-! ## Sorting by a text -/

section

variable {α : Type} {key : α → String} {l l' : List α}

/-- Whether one thing may stand before another, by a text of each. -/
def keyLE (key : α → String) (a b : α) : Bool :=
  (compare (key a) (key b)).isLE

theorem keyLE_iff {a b : α} : keyLE key a b = true ↔ key a ≤ key b :=
  Std.LawfulBCmp.isLE_iff_le

theorem pairwise_mergeSort_keyLE (key : α → String) (l : List α) :
    (l.mergeSort (keyLE key)).Pairwise fun a b => key a ≤ key b := by
  have htrans : ∀ a b c : α, keyLE key a b = true → keyLE key b c = true → keyLE key a c = true :=
    fun a b c hab hbc => keyLE_iff.mpr ((keyLE_iff.mp hab).trans (keyLE_iff.mp hbc))
  have htotal : ∀ a b : α, (keyLE key a b || keyLE key b a) = true :=
    fun a b => by simpa [keyLE_iff] using le_total (key a) (key b)
  exact (List.pairwise_mergeSort htrans htotal l).imp keyLE_iff.mp

/-- Things of different texts are sorted in one way only. -/
theorem eq_mergeSort_iff (hnodup : (l.map key).Nodup) :
    l' = l.mergeSort (keyLE key) ↔ l'.Perm l ∧ l'.Pairwise fun a b => key a < key b := by
  have hsorted : (l.mergeSort (keyLE key)).Pairwise fun a b => key a < key b := by
    have hdistinct : (l.mergeSort (keyLE key)).Pairwise fun a b => key a ≠ key b :=
      List.pairwise_map.mp (((List.mergeSort_perm l _).map key).nodup_iff.mpr hnodup)
    exact ((pairwise_mergeSort_keyLE key l).and hdistinct).imp fun h => lt_of_le_of_ne h.1 h.2
  constructor
  · rintro rfl
    exact ⟨List.mergeSort_perm l _, hsorted⟩
  · intro h
    refine (h.1.trans (List.mergeSort_perm l _).symm).eq_of_pairwise ?_ h.2 hsorted
    intro a b _ _ hab hba
    exact absurd hab hba.asymm

theorem mergeSort_keyLE_perm (hnodup : (l.map key).Nodup) (h : l'.Perm l) :
    l'.mergeSort (keyLE key) = l.mergeSort (keyLE key) := by
  have hsorted := (eq_mergeSort_iff (((h.map key).nodup_iff).mpr hnodup)).mp rfl
  exact (eq_mergeSort_iff hnodup).mpr ⟨hsorted.1.trans h, hsorted.2⟩

end

/-! ## Paths of entries -/

namespace Text

theorem append_lt_append_iff {front a b : List Char} : front ++ a < front ++ b ↔ a < b := by
  induction front with
  | nil => rfl
  | cons c front ih => simp [ih]

end Text

namespace Inventory

/-- The path of what stands at a location below a path. -/
def pathAt (path : String) (rest : Location) : String :=
  rest.foldl Path.child path

theorem pathAt_append_singleton (path : String) (above : Location) (name : String) :
    pathAt path (above ++ [name]) = Path.child (pathAt path above) name := by
  rw [pathAt, List.foldl_append]
  rfl

theorem exists_child_eq (path : String) : ∃ front, ∀ name, Path.child path name = front ++ name := by
  by_cases hempty : path = ""
  · exact ⟨"", fun name => by simp [Path.child, hempty]⟩
  · by_cases hslash : path.toList.getLast? = some '/'
    · exact ⟨path, fun name => by simp [Path.child, hempty, hslash]⟩
    · exact ⟨path ++ "/", fun name => by simp [Path.child, hempty, hslash]⟩

/-- Paths of entries are in the order of the names. -/
theorem child_lt_child_iff {path a b : String} : Path.child path a < Path.child path b ↔ a < b := by
  obtain ⟨front, hfront⟩ := exists_child_eq path
  rw [hfront, hfront, String.lt_iff_toList_lt, String.lt_iff_toList_lt, String.toList_append,
    String.toList_append, Text.append_lt_append_iff]

theorem keyLE_child (path a b : String) :
    keyLE (Path.child path) a b = keyLE id a b := by
  rw [Bool.eq_iff_iff, keyLE_iff, keyLE_iff, ← not_lt, ← not_lt, child_lt_child_iff, id, id]

/-! ## Files by their locations -/

mutual

/-- The files at and below a node with their locations, ascending. -/
def located : Node → List (Location × ByteArray)
  | .file content => [([], content)]
  | .directory entries => ((locatedEntries entries).mergeSort (keyLE (·.1))).flatMap (·.2)

/-- The files at and below each entry with their locations, and the entry's name. -/
def locatedEntries : List (String × Node) → List (String × List (Location × ByteArray))
  | [] => []
  | (name, node) :: rest =>
    (name, (located node).map fun file => (name :: file.1, file.2)) :: locatedEntries rest

end

variable {node node' : Node} {path : String}

theorem locatedEntries_eq_map (entries : List (String × Node)) :
    locatedEntries entries = entries.map fun entry =>
      (entry.1, (located entry.2).map fun file => (entry.1 :: file.1, file.2)) := by
  induction entries with
  | nil => rfl
  | cons entry entries ih => rw [locatedEntries, ih, List.map_cons]

theorem located_directory (entries : List (String × Node)) :
    located (.directory entries) = (entries.mergeSort (keyLE (·.1))).flatMap fun entry =>
      (located entry.2).map fun file => (entry.1 :: file.1, file.2) := by
  have hsort := List.map_mergeSort (r := keyLE (·.1)) (s := keyLE (·.1)) (l := entries)
    (f := fun entry => (entry.1, (located entry.2).map fun file => (entry.1 :: file.1, file.2)))
    fun _ _ _ _ => rfl
  rw [located, locatedEntries_eq_map, ← hsort, List.flatMap_map]

theorem filesAt_directory (path : String) (entries : List (String × Node)) :
    filesAt path (.directory entries) = (entries.mergeSort (keyLE (·.1))).flatMap fun entry =>
      filesAt (Path.child path entry.1) entry.2 := by
  have hsort : (entryFiles path entries).mergeSort (keyLE (·.1)) =
      (entries.mergeSort (keyLE (·.1))).map fun entry =>
        (Path.child path entry.1, filesAt (Path.child path entry.1) entry.2) := by
    rw [entryFiles_eq_map, List.map_mergeSort]
    exact fun a _ b _ => (keyLE_child path a.1 b.1).symm
  calc filesAt path (.directory entries)
      = ((entryFiles path entries).mergeSort (keyLE (·.1))).flatMap (·.2) := by rw [filesAt]; rfl
    _ = _ := by rw [hsort, List.flatMap_map]

/-- Entries that stand in the order of their names are gone through as they stand. -/
theorem filesAt_of_ascending {entries : List (String × Node)}
    (h : entries.Pairwise fun a b => a.1 < b.1) (path : String) :
    filesAt path (.directory entries) =
      entries.flatMap fun entry => filesAt (Path.child path entry.1) entry.2 := by
  rw [filesAt_directory, List.mergeSort_of_pairwise]
  exact h.imp fun hlt => keyLE_iff.mpr hlt.le

/-- **The files of a node are listed in the order of their locations.** -/
theorem filesAt_eq_map (path : String) (node : Node) :
    filesAt path node = (located node).map fun file => (pathAt path file.1, file.2) := by
  induction node using Node.inductOn generalizing path with
  | file content => rfl
  | directory entries ih =>
    rw [filesAt_directory, located_directory, List.map_flatMap]
    refine List.flatMap_congr ?_
    intro entry hentry
    rw [ih entry (List.mem_mergeSort.mp hentry), List.map_map]
    rfl

theorem fileAt_directory_cons {entries : List (String × Node)} (name : String) (rest : Location) :
    Node.fileAt (.directory entries) (name :: rest) = (entries.lookup name).bind (·.fileAt rest) := by
  rw [Node.fileAt, Node.get?, Option.bind_assoc]
  rfl

section

variable {P : Location → ByteArray → Prop}

theorem forall_fileAt_file {content : ByteArray} (h : P [] content) :
    ∀ rest found, (Node.file content).fileAt rest = some found → P rest found := by
  intro rest found hfound
  cases rest with
  | nil =>
    cases hfound
    exact h
  | cons name rest => simp [Node.fileAt, Node.get?_file_cons] at hfound

theorem forall_fileAt_nil :
    ∀ rest content, (Node.directory []).fileAt rest = some content → P rest content := by
  intro rest content hcontent
  cases rest <;> cases hcontent

/-- What holds of the files of the first entry and of the others holds of all files. -/
theorem forall_fileAt_cons {name : String} {entries : List (String × Node)}
    (hfirst : ∀ rest content, node.fileAt rest = some content → P (name :: rest) content)
    (hothers : ∀ rest content, (Node.directory entries).fileAt rest = some content → P rest content) :
    ∀ rest content, (Node.directory ((name, node) :: entries)).fileAt rest = some content →
      P rest content := by
  intro rest content hcontent
  cases rest with
  | nil => cases hcontent
  | cons key rest =>
    rw [fileAt_directory_cons, List.lookup_cons] at hcontent
    by_cases hkey : key = name
    · subst hkey
      exact hfirst rest content (by simpa using hcontent)
    · refine hothers (key :: rest) content ?_
      rw [fileAt_directory_cons]
      simpa [beq_false_of_ne hkey] using hcontent

end

theorem mem_located (hwf : node.WellFormed) {file : Location × ByteArray} :
    file ∈ located node ↔ node.fileAt file.1 = some file.2 := by
  obtain ⟨rest, content⟩ := file
  induction node using Node.inductOn generalizing rest with
  | file other =>
    cases rest with
    | nil => simp [located, Node.fileAt, Node.get?, Node.content?, eq_comm]
    | cons name rest => simp [located, Node.fileAt, Node.get?_file_cons]
  | directory entries ih =>
    obtain ⟨hnodup, hentries⟩ := Node.wellFormed_directory.mp hwf
    rw [located_directory, List.mem_flatMap]
    simp only [List.mem_mergeSort, List.mem_map]
    constructor
    · intro hex
      obtain ⟨entry, hentry, file, hfile, heq⟩ := hex
      cases heq
      rw [fileAt_directory_cons, Node.lookup_of_mem hnodup hentry]
      exact (ih entry hentry (hentries entry hentry) file.1).mp hfile
    · intro hat
      cases rest with
      | nil => cases hat
      | cons name rest =>
        rw [fileAt_directory_cons, Option.bind_eq_some_iff] at hat
        obtain ⟨found, hfound, hat⟩ := hat
        have hentry := Node.mem_of_lookup hfound
        exact ⟨_, hentry, _, (ih _ hentry (hentries _ hentry) rest).mpr hat, rfl⟩

/-- Each file has a location of its own, and later files later ones. -/
theorem pairwise_located (hwf : node.WellFormed) :
    (located node).Pairwise fun a b => a.1 < b.1 := by
  induction node using Node.inductOn with
  | file content => exact List.pairwise_singleton ..
  | directory entries ih =>
    obtain ⟨hnodup, hentries⟩ := Node.wellFormed_directory.mp hwf
    rw [located_directory, List.pairwise_flatMap]
    constructor
    · intro entry hentry
      have hmem := List.mem_mergeSort.mp hentry
      refine List.pairwise_map.mpr ((ih entry hmem (hentries entry hmem)).imp fun h => ?_)
      exact List.cons_lt_cons_iff.mpr (.inr ⟨rfl, h⟩)
    · refine ((eq_mergeSort_iff hnodup).mp rfl).2.imp fun hlt => ?_
      intro file hfile other hother
      obtain ⟨_, -, rfl⟩ := List.mem_map.mp hfile
      obtain ⟨_, -, rfl⟩ := List.mem_map.mp hother
      exact List.cons_lt_cons_iff.mpr (.inl hlt)

/-- **Nodes of which the same files are chosen list them alike.** -/
theorem filter_located_congr {p : Location × ByteArray → Bool} (hwf : node.WellFormed)
    (hwf' : node'.WellFormed)
    (h : ∀ file, p file = true → (node.fileAt file.1 = some file.2 ↔ node'.fileAt file.1 = some file.2)) :
    (located node).filter p = (located node').filter p := by
  -- both lists ascend, so they have no doubles and are equal as soon as they have the same members
  have hsorted : ∀ {found : Node}, found.WellFormed →
      ((located found).filter p).Pairwise fun a b => a.1 < b.1 :=
    fun hfound => (pairwise_located hfound).filter _
  have hnodup : ∀ {found : Node}, found.WellFormed → ((located found).filter p).Nodup := by
    intro found hfound
    refine (hsorted hfound).imp ?_
    rintro a b hlt rfl
    exact List.lt_irrefl _ hlt
  have hperm := (List.perm_ext_iff_of_nodup (hnodup hwf) (hnodup hwf')).mpr fun file => by
    rw [List.mem_filter, List.mem_filter, mem_located hwf, mem_located hwf']
    exact and_congr_left (h file)
  refine hperm.eq_of_pairwise ?_ (hsorted hwf) (hsorted hwf')
  intro a b _ _ hab hba
  exact absurd hba (List.lt_asymm hab)

end Inventory
end MemberAudit
