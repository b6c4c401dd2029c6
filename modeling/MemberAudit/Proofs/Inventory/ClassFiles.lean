/-
The inventory depends on class files and jars only. Other files may come and go:
the files of a directory that are of some kind to the program stand in the order
of their names whatever stands between them (`classFilesAt_directory`), and those
that are of none leave the inventory as it is (`collect_filter`).
-/
import MemberAudit.Proofs.FileTree.Walks
import MemberAudit.Inventory

namespace MemberAudit

/-! ## Sorting and leaving out -/

theorem takeWhile_append_of_all {α : Type} {p : α → Bool} {xs ys : List α}
    (hx : ∀ a ∈ xs, p a = true) (hy : ∀ a ∈ ys, p a = false) : (xs ++ ys).takeWhile p = xs := by
  rw [List.takeWhile_append_of_pos hx]
  cases ys with
  | nil => simp
  | cons a ys => simp [hy a List.mem_cons_self]

/-- A list is cut in one way only where a condition ends to hold. -/
theorem append_inj_of_all {α : Type} {p : α → Bool} {xs ys xs' ys' : List α}
    (h : xs ++ ys = xs' ++ ys') (hx : ∀ a ∈ xs, p a = true) (hy : ∀ a ∈ ys, p a = false)
    (hx' : ∀ a ∈ xs', p a = true) (hy' : ∀ a ∈ ys', p a = false) : xs = xs' ∧ ys = ys' := by
  have hxs : xs = xs' := by
    rw [← takeWhile_append_of_all hx hy, h, takeWhile_append_of_all hx' hy']
  exact ⟨hxs, List.append_cancel_left (hxs ▸ h)⟩

/-- What is left out before sorting may be left out after it. -/
theorem filter_mergeSort {α : Type} {le : α → α → Bool}
    (trans : ∀ a b c : α, le a b → le b c → le a c) (total : ∀ a b : α, le a b || le b a)
    (p : α → Bool) (l : List α) : (l.mergeSort le).filter p = (l.filter p).mergeSort le := by
  induction l with
  | nil => simp
  | cons a l ih =>
    obtain ⟨l₁, l₂, hsort, hl, hbefore⟩ := List.mergeSort_cons trans total a l
    rw [hl, List.filter_append] at ih
    by_cases hp : p a = true
    · obtain ⟨m₁, m₂, hsort', hm, hbefore'⟩ := List.mergeSort_cons trans total a (l.filter p)
      have hafter : ∀ b ∈ l₂, le a b = true := by
        have := List.pairwise_mergeSort trans total (a :: l)
        rw [hsort] at this
        exact (List.pairwise_cons.mp (List.pairwise_append.mp this).2.1).1
      have hafter' : ∀ b ∈ m₂, le a b = true := by
        have := List.pairwise_mergeSort trans total (a :: l.filter p)
        rw [hsort'] at this
        exact (List.pairwise_cons.mp (List.pairwise_append.mp this).2.1).1
      obtain ⟨rfl, rfl⟩ : m₁ = l₁.filter p ∧ m₂ = l₂.filter p :=
        append_inj_of_all (hm.symm.trans ih.symm) hbefore' (fun b hb => by simp [hafter' b hb])
          (fun b hb => hbefore b (List.mem_filter.mp hb).1)
          (fun b hb => by simp [hafter b (List.mem_filter.mp hb).1])
      rw [List.filter_cons_of_pos hp, hsort, hsort', List.filter_append, List.filter_cons_of_pos hp]
    · rw [List.filter_cons_of_neg hp, hsort, List.filter_append, List.filter_cons_of_neg hp, ih]

namespace Inventory

/-! ## Files of a directory -/

/-- The class files and jars at and below a node, with their paths. -/
def classFilesAt (path : String) (node : Node) : List (String × ByteArray) :=
  (filesAt path node).filter fun file => fileKind file.1 ≠ .unsupported

theorem entryFiles_eq_map (path : String) (entries : List (String × Node)) :
    entryFiles path entries =
      entries.map fun entry => (Path.child path entry.1, filesAt (Path.child path entry.1) entry.2) := by
  induction entries with
  | nil => rfl
  | cons entry entries ih => rw [entryFiles, ih, List.map_cons]

/-- Entries by the order of their paths. -/
def pathLE (a b : String × List (String × ByteArray)) : Bool :=
  (compare a.1 b.1).isLE

theorem pathLE_trans (a b c : String × List (String × ByteArray)) (hab : pathLE a b = true)
    (hbc : pathLE b c = true) : pathLE a c = true :=
  Std.TransCmp.isLE_trans hab hbc

theorem pathLE_total (a b : String × List (String × ByteArray)) :
    (pathLE a b || pathLE b a) = true := by
  have hswap : compare b.1 a.1 = (compare a.1 b.1).swap := Std.OrientedCmp.eq_swap
  rw [pathLE, pathLE, hswap]
  cases compare a.1 b.1 <;> rfl

/-- The class files below each entry that has any, with the entry's path. -/
def classEntries (path : String) (entries : List (String × Node)) :
    List (String × List (String × ByteArray)) :=
  (entries.map fun entry =>
    (Path.child path entry.1, classFilesAt (Path.child path entry.1) entry.2)).filter (!·.2.isEmpty)

theorem flatMap_filter_nonempty {α β : Type} (f : α → List β) (l : List α) :
    (l.filter fun a => !(f a).isEmpty).flatMap f = l.flatMap f := by
  induction l with
  | nil => rfl
  | cons a l ih =>
    rw [List.filter_cons, List.flatMap_cons, ← ih]
    cases h : f a <;> simp [h]

theorem classFilesAt_directory (path : String) (entries : List (String × Node)) :
    classFilesAt path (.directory entries) =
      ((classEntries path entries).mergeSort pathLE).flatMap (·.2) := by
  have hsort : (entries.map fun entry =>
      (Path.child path entry.1, classFilesAt (Path.child path entry.1) entry.2)).mergeSort pathLE =
        ((entryFiles path entries).mergeSort pathLE).map fun entry =>
          (entry.1, entry.2.filter fun file => fileKind file.1 ≠ .unsupported) := by
    have h := List.map_mergeSort (r := pathLE) (s := pathLE) (l := entryFiles path entries)
      (f := fun entry => (entry.1, entry.2.filter fun file => fileKind file.1 ≠ .unsupported))
      fun _ _ _ _ => rfl
    rw [h, entryFiles_eq_map, List.map_map]
    rfl
  rw [classEntries, ← filter_mergeSort pathLE_trans pathLE_total, flatMap_filter_nonempty, hsort,
    List.flatMap_map, classFilesAt, filesAt, List.filter_flatMap]
  rfl

theorem classEntries_filter {p : String × Node → Bool} {path : String} {entries : List (String × Node)}
    (h : ∀ entry, p entry = false → classFilesAt (Path.child path entry.1) entry.2 = []) :
    classEntries path (entries.filter p) = classEntries path entries := by
  induction entries with
  | nil => rfl
  | cons entry entries ih =>
    cases hp : p entry with
    | true =>
      rw [List.filter_cons_of_pos hp]
      simp only [classEntries, List.map_cons, List.filter_cons] at ih ⊢
      rw [ih]
    | false =>
      rw [List.filter_cons_of_neg (by simp [hp]), ih, classEntries, classEntries, List.map_cons,
        List.filter_cons_of_neg (by simp [h entry hp])]

theorem classEntries_map {g : String × Node → String × Node} {path : String}
    {entries : List (String × Node)} (hname : ∀ entry, (g entry).1 = entry.1)
    (hfiles : ∀ path entry, classFilesAt path (g entry).2 = classFilesAt path entry.2) :
    classEntries path (entries.map g) = classEntries path entries := by
  rw [classEntries, classEntries, List.map_map]
  refine congrArg _ (List.map_congr_left fun entry _ => ?_)
  rw [Function.comp_apply, hname, hfiles]

/-- Entries without class files may be taken out of a directory. -/
theorem classFilesAt_keepEntries {keep : String → Node → Bool} {path : String} {node : Node}
    (h : ∀ name entry, keep name entry = false → classFilesAt (Path.child path name) entry = []) :
    classFilesAt path (Node.keepEntries keep node) = classFilesAt path node := by
  cases node with
  | file content => rfl
  | directory entries =>
    rw [Node.keepEntries, classFilesAt_directory, classFilesAt_directory, classEntries_filter]
    exact fun entry hdrop => h entry.1 entry.2 hdrop

/-- What leaves the class files of a node as they are does so below a directory. -/
theorem classFilesAt_modify {f : Node → Node}
    (hf : ∀ path node, classFilesAt path (f node) = classFilesAt path node)
    (l : Location) (path : String) (node : Node) :
    classFilesAt path (node.modify f l) = classFilesAt path node := by
  induction l generalizing path node with
  | nil => exact hf path node
  | cons name l ih =>
    cases node with
    | file content => rfl
    | directory entries =>
      rw [Node.modify, classFilesAt_directory, classFilesAt_directory, classEntries_map]
      · intro entry
        obtain ⟨key, node⟩ := entry
        by_cases hkey : key = name <;> simp [hkey]
      · intro path entry
        obtain ⟨key, node⟩ := entry
        by_cases hkey : key = name <;> simp [hkey, ih]

/-! ## Visits -/

theorem collect_filter {inventory : Inventory} {visits : List Visit} {p : Visit → Bool}
    (h : ∀ visit ∈ visits, p visit = false → visit.examined = .passed) :
    collect inventory (visits.filter p) = collect inventory visits := by
  induction visits generalizing inventory with
  | nil => rfl
  | cons visit visits ih =>
    have hrest : ∀ inventory, collect inventory (visits.filter p) = collect inventory visits :=
      fun _ => ih fun v hv => h v (List.mem_cons_of_mem _ hv)
    rw [List.filter_cons]
    split
    · simp only [collect, hrest]
    · rename_i hp
      have hpassed := h visit List.mem_cons_self (by simpa using hp)
      rw [hrest]
      simp [collect, hpassed, Examined.passed]

/-- A file in a directory as it is visited. -/
def visitOf (file : String × ByteArray) : Visit :=
  ⟨file.1, file.2.size, false, examine file.1 file.2⟩

theorem visits_directory {tree : FileTree} {input : String} {entries : List (String × Node)}
    (h : tree.node? input = some (.directory entries)) :
    visits tree input = (filesAt input (.directory entries)).map visitOf := by
  unfold visits
  rw [h]
  rfl

theorem take_directory {tree : FileTree} {input : String} {entries : List (String × Node)}
    (h : tree.node? input = some (.directory entries)) :
    take tree input = collect ⟨[], [], 0⟩ ((classFilesAt input (.directory entries)).map visitOf) := by
  have hpassed : ∀ visit ∈ (filesAt input (.directory entries)).map visitOf,
      decide (fileKind visit.path ≠ .unsupported) = false → visit.examined = .passed := by
    intro visit hvisit hkind
    obtain ⟨file, -, rfl⟩ := List.mem_map.mp hvisit
    have hkind : fileKind file.1 = .unsupported := Decidable.not_not.mp (of_decide_eq_false hkind)
    simp [visitOf, examine, hkind]
  rw [take, visits_directory h, ← collect_filter hpassed, classFilesAt, List.filter_map]
  rfl

theorem take_congr {tree tree' : FileTree} {input : String} (h : tree.node? input = tree'.node? input) :
    take tree input = take tree' input := by
  rw [take, take, visits, visits, h]

/-- An input that has an inventory is there. -/
theorem node?_isSome_of_take {tree : FileTree} {input : String} {warnings : List Warning}
    {inventory : Inventory} (h : take tree input = (warnings, .ok inventory)) :
    (tree.node? input).isSome := by
  cases hnode : tree.node? input with
  | some node => rfl
  | none =>
    rw [take, visits, hnode] at h
    simp only [Option.bind_none, collect, examineInput] at h
    cases hkind : fileKind input <;> simp [hkind, Examined.failed] at h

/-- The inventory of a class file. -/
theorem take_classFile {tree : FileTree} {input : String} {content : ByteArray} {cls : JvmClass}
    (hread : tree.read? input = some content) (hkind : fileKind input = .classFile)
    (hclass : JvmClass.ofBytes content.data.toList = .ok cls) :
    take tree input = ([], .ok ⟨[⟨input, content.size, true⟩], [⟨cls, 0⟩], 1⟩) := by
  obtain ⟨node, hnode, hcontent⟩ := Option.bind_eq_some_iff.mp hread
  cases node with
  | directory entries => cases hcontent
  | file other =>
    cases hcontent
    simp only [take, visits, hnode, Option.bind_some, Node.content?, examineInput, hkind,
      examineClass, hclass, collect]
    rfl

end Inventory

end MemberAudit
