/-
The numbers in an inventory. Artifacts are numbered as they come, and each class has
the number of the file it was read from. What is to hold of a file and the classes
under its number is a parameter of `Numbered`: a visit that holds it keeps the
inventory numbered (`Numbered.add`), and so do all visits one after another
(`Numbered.collect`).

Of an input, the artifacts are files at and below it (`take_numbered`), each with the
classes that its content gives (`Holds`).
-/
import MemberAudit.Proofs.Inventory.SameFiles

namespace MemberAudit.Inventory

open Archive (Bytes)

/-! ## Numbers -/

/-- The classes read from the artifact of a number. -/
def classesFrom (inventory : Inventory) (number : Nat) : List JvmClass :=
  (inventory.classes.filter fun cls => cls.artifact = (number : Int)).map (·.toJvmClass)

def artifactOf (visit : Visit) : Artifact :=
  ⟨visit.path, visit.size, visit.isInput⟩

/-- The classes are counted, each has the number of an artifact, numbers do not fall along
the classes, and an artifact holds the classes of its number. -/
structure Numbered (holds : Artifact → List JvmClass → Prop) (inventory : Inventory) : Prop where
  counted : inventory.classCount = inventory.classes.length
  placed : ∀ cls ∈ inventory.classes, ∃ number < inventory.artifacts.length, cls.artifact = (number : Int)
  ascending : inventory.classes.Pairwise (·.artifact ≤ ·.artifact)
  holds : ∀ number artifact, inventory.artifacts[number]? = some artifact →
    holds artifact (inventory.classesFrom number)

variable {holds : Artifact → List JvmClass → Prop} {inventory : Inventory} {visit : Visit}
  {classes : List JvmClass}

theorem classesFrom_add (inventory : Inventory) (visit : Visit) (classes : List JvmClass) (number : Nat) :
    (inventory.add visit classes).classesFrom number =
      inventory.classesFrom number ++
        if number = inventory.artifacts.length then classes else [] := by
  simp only [classesFrom, add, List.filter_append, List.map_append, List.filter_map]
  congr 1
  by_cases h : number = inventory.artifacts.length
  · subst h
    simp [Function.comp_def]
  · have hne : (inventory.artifacts.length : Int) ≠ number := by omega
    simp [h, hne, Function.comp_def]

theorem Numbered.empty : Numbered holds ⟨[], [], 0⟩ where
  counted := rfl
  placed := by simp
  ascending := .nil
  holds := by simp

/-- Nothing is read from an artifact that is still to come. -/
theorem Numbered.classesFrom_length (h : Numbered holds inventory) :
    inventory.classesFrom inventory.artifacts.length = [] := by
  simp only [classesFrom, List.map_eq_nil_iff, List.filter_eq_nil_iff, decide_eq_true_iff]
  intro cls hcls heq
  obtain ⟨number, hlt, hnumber⟩ := h.placed cls hcls
  omega

theorem Numbered.add (h : Numbered holds inventory) (hvisit : holds (artifactOf visit) classes) :
    Numbered holds (inventory.add visit classes) where
  counted := by
    rw [Inventory.add, h.counted, List.length_append, List.length_map]
  placed := by
    intro cls hcls
    simp only [Inventory.add, List.length_append, List.length_singleton]
    rcases List.mem_append.mp hcls with hcls | hcls
    · obtain ⟨number, hlt, hnumber⟩ := h.placed cls hcls
      exact ⟨number, by omega, hnumber⟩
    · obtain ⟨cls, -, rfl⟩ := List.mem_map.mp hcls
      exact ⟨inventory.artifacts.length, by omega, rfl⟩
  ascending := by
    refine List.pairwise_append.mpr ⟨h.ascending, List.pairwise_map.mpr (List.pairwise_of_forall ?_), ?_⟩
    · intro _ _
      exact Int.le_refl _
    · intro cls hcls later hlater
      obtain ⟨_, -, rfl⟩ := List.mem_map.mp hlater
      obtain ⟨number, hlt, hnumber⟩ := h.placed cls hcls
      rw [hnumber]
      exact Int.ofNat_le.mpr hlt.le
  holds := by
    intro number artifact hartifact
    rw [classesFrom_add]
    rcases Nat.lt_trichotomy number inventory.artifacts.length with hlt | rfl | hgt
    · rw [if_neg (by omega), List.append_nil]
      refine h.holds number artifact ?_
      rwa [Inventory.add, List.getElem?_append_left hlt] at hartifact
    · rw [if_pos rfl, h.classesFrom_length, List.nil_append]
      rw [Inventory.add, List.getElem?_concat_length] at hartifact
      rwa [← Option.some.inj hartifact]
    · rw [Inventory.add, List.getElem?_eq_none (by simp; omega)] at hartifact
      cases hartifact

theorem Numbered.collect {visits : List Visit} {result : Inventory} (h : Numbered holds inventory)
    (hvisits : ∀ visit ∈ visits, ∀ classes, visit.examined.outcome = .ok (some classes) →
      holds (artifactOf visit) classes)
    (hresult : (collect inventory visits).2 = .ok result) : Numbered holds result := by
  induction visits generalizing inventory with
  | nil =>
    cases hresult
    exact h
  | cons visit visits ih =>
    have hrest := fun v hv => hvisits v (List.mem_cons_of_mem visit hv)
    rw [Inventory.collect] at hresult
    cases houtcome : visit.examined.outcome with
    | error fault =>
      rw [houtcome] at hresult
      cases hresult
    | ok classes? =>
      rw [houtcome] at hresult
      cases classes? with
      | none => exact ih h hrest hresult
      | some classes =>
        exact ih (h.add (hvisits visit List.mem_cons_self classes houtcome)) hrest hresult

/-! ## Files and their classes -/

/-- The classes of entries: of each entry its class, if it holds one. -/
inductive EntriesHold : List Archive.Entry → List JvmClass → Prop where
  | nil : EntriesHold [] []
  | cls {entry : Archive.Entry} {entries : List Archive.Entry} {bytes : Bytes} {cls : JvmClass}
      {classes : List JvmClass} : entry.content = .intact bytes → JvmClass.ofBytes bytes = .ok cls →
      EntriesHold entries classes → EntriesHold (entry :: entries) (cls :: classes)
  | noClass {entry : Archive.Entry} {entries : List Archive.Entry} {bytes : Bytes} {fault : ClassFault}
      {classes : List JvmClass} : entry.content = .intact bytes → JvmClass.ofBytes bytes = .error fault →
      EntriesHold entries classes → EntriesHold (entry :: entries) classes

/-- The classes that a file gives: a class file gives one, and a jar those of its
eligible entries in the order of their names. -/
inductive Holds (path : String) (content : ByteArray) : List JvmClass → Prop where
  | classFile {cls : JvmClass} : fileKind path = .classFile →
      JvmClass.ofBytes content.data.toList = .ok cls → Holds path content [cls]
  | jar {entries : List Archive.Entry} {classes : List JvmClass} : fileKind path = .jar →
      Archive.open? content.data.toList = some entries → (∀ entry ∈ entries, entry.opens = true) →
      EntriesHold (eligible entries) classes → Holds path content classes

variable {path : String} {content : ByteArray}

theorem entriesHold_of_examine {entries : List Archive.Entry}
    (h : (examineEntries path entries).outcome = .ok (some classes)) : EntriesHold entries classes := by
  induction entries generalizing classes with
  | nil =>
    cases h
    exact .nil
  | cons entry entries ih =>
    simp only [examineEntries] at h
    split at h
    · cases h
    · cases h
    · rename_i bytes hcontent
      split at h
      · rename_i cls hclass
        cases hlater : (examineEntries path entries).outcome with
        | error fault =>
          rw [hlater] at h
          cases h
        | ok classes? =>
          rw [hlater] at h
          cases classes? with
          | none => cases h
          | some later =>
            cases h
            exact .cls hcontent hclass (ih hlater)
      · rename_i fault hclass
        exact .noClass hcontent hclass (ih h)

theorem holds_of_examineClass {isInput : Bool} (hkind : fileKind path = .classFile)
    (h : (examineClass path isInput content).outcome = .ok (some classes)) :
    Holds path content classes := by
  rw [examineClass] at h
  split at h
  · rename_i cls hclass
    cases h
    exact .classFile hkind hclass
  · split at h <;> cases h

theorem holds_of_examineJar {isInput : Bool} (hkind : fileKind path = .jar)
    (h : (examineJar path isInput content).outcome = .ok (some classes)) :
    Holds path content classes := by
  rw [examineJar] at h
  split at h
  · split at h <;> cases h
  · rename_i entries hopen
    rw [examineArchive] at h
    split at h
    · cases h
    · rename_i hopens
      exact .jar hkind hopen (by simpa using hopens) (entriesHold_of_examine h)

theorem holds_of_examine (h : (examine path content).outcome = .ok (some classes)) :
    Holds path content classes := by
  rw [examine] at h
  split at h
  · exact holds_of_examineClass ‹_› h
  · exact holds_of_examineJar ‹_› h
  · cases h

/-- An input that is no directory has to be a file to give classes. -/
theorem holds_of_examineInput {content? : Option ByteArray}
    (h : (examineInput path content?).outcome = .ok (some classes)) :
    ∃ content, content? = some content ∧ Holds path content classes := by
  rw [examineInput.eq_def] at h
  split at h
  · exact ⟨_, rfl, holds_of_examineClass ‹_› h⟩
  · cases h
  · exact ⟨_, rfl, holds_of_examineJar ‹_› h⟩
  · cases h
  · cases h

/-! ## Artifacts of an input -/

/-- An artifact that is a file at or below an input, and the classes in it. Its path leads
to the file, if the names below the input can be parts of a path. -/
structure IsFileOf (tree : FileTree) (input : String) (artifact : Artifact)
    (classes : List JvmClass) : Prop where
  file : ∃ l rest content, tree.resolve input = .ok l ∧ tree.root.fileAt (l ++ rest) = some content ∧
    artifact = ⟨pathAt input rest, content.size, decide (rest = [])⟩ ∧
    ((∀ name ∈ rest, FileTree.PlainName name) → tree.read? artifact.path = some content) ∧
    Holds artifact.path content classes

theorem resolve_pathAt {tree : FileTree} {l rest : Location} {path : String}
    (hplain : ∀ name ∈ rest, FileTree.PlainName name) (hresolve : tree.resolve path = .ok l)
    (hfile : tree.root.fileAt (l ++ rest) = some content) :
    tree.resolve (pathAt path rest) = .ok (l ++ rest) := by
  induction rest generalizing path l with
  | nil => rwa [List.append_nil]
  | cons name rest ih =>
    have hne : path ≠ "" := (FileTree.resolve_eq_ok.mp hresolve).1
    have hdir := Node.kindAt_above (List.prefix_append l (name :: rest)) (by simp)
      (Node.isSome_kindAt_of_fileAt hfile)
    rw [List.append_cons] at hfile ⊢
    have hthere : (tree.root.kindAt (l ++ [name])).isSome := by
      rw [Node.kindAt, Option.isSome_map]
      rw [Node.fileAt, Node.get?_append, Option.bind_assoc] at hfile
      exact Option.isSome_of_isSome_bind (Option.isSome_of_eq_some hfile)
    exact ih (fun other hother => hplain other (List.mem_cons_of_mem _ hother))
      ((FileTree.resolve_child (hplain name List.mem_cons_self)).mpr
        ⟨l, (FileTree.opens_iff_resolve hne).mpr ⟨hresolve, hdir⟩, rfl, hthere⟩) hfile

theorem read?_pathAt {tree : FileTree} {l rest : Location} {path : String}
    (hresolve : tree.resolve path = .ok l) (hfile : tree.root.fileAt (l ++ rest) = some content)
    (hplain : ∀ name ∈ rest, FileTree.PlainName name) :
    tree.read? (pathAt path rest) = some content :=
  FileTree.read?_eq_some.mpr ⟨l ++ rest, resolve_pathAt hplain hresolve hfile, hfile⟩

theorem take_numbered {tree : FileTree} {input : String} (hwf : tree.root.WellFormed)
    (h : (take tree input).2 = .ok inventory) : Numbered (IsFileOf tree input) inventory := by
  refine Numbered.empty.collect ?_ h
  intro visit hvisit classes houtcome
  rw [visits.eq_def] at hvisit
  split at hvisit
  · rename_i entries hnode
    obtain ⟨l, hresolve, hget⟩ := FileTree.node?_eq_some.mp hnode
    obtain ⟨⟨path, content⟩, hfile, rfl⟩ := List.mem_map.mp hvisit
    obtain ⟨rest, hcontent, hpath⟩ := (mem_filesAt (hwf.get? hget)).mp hfile
    have hbelow : rest ≠ [] := by
      rintro rfl
      cases hcontent
    have hat : tree.root.fileAt (l ++ rest) = some content := by
      rw [Node.fileAt, Node.get?_append, hget]
      exact hcontent
    obtain rfl : path = pathAt input rest := hpath
    refine ⟨l, rest, content, hresolve, hat, ?_, read?_pathAt hresolve hat, holds_of_examine houtcome⟩
    simp [artifactOf, hbelow]
  · obtain rfl := List.mem_singleton.mp hvisit
    obtain ⟨content, hcontent, hholds⟩ := holds_of_examineInput houtcome
    obtain ⟨node, hnode, hfile⟩ := Option.bind_eq_some_iff.mp hcontent
    obtain ⟨l, hresolve, hget⟩ := FileTree.node?_eq_some.mp hnode
    have hat : tree.root.fileAt (l ++ []) = some content := by
      rw [List.append_nil, Node.fileAt, hget]
      exact hfile
    refine ⟨l, [], content, hresolve, hat, ?_, read?_pathAt hresolve hat, hholds⟩
    simp [artifactOf, hcontent, pathAt]

/-- An inventory whose numbers lead from its classes to their files: a class file has one
class, and only a file that is the input itself is marked so. -/
structure Consistent (inventory : Inventory) (tree : FileTree) (input : String) : Prop where
  numbered : Numbered (IsFileOf tree input) inventory
  oneClass : ∀ number artifact, inventory.artifacts[number]? = some artifact →
    fileKind artifact.path = .classFile → ∃ cls, inventory.classesFrom number = [cls]
  role : ∀ artifact ∈ inventory.artifacts, artifact.isInput = true ↔
    tree.hasFile input = true ∧ artifact.path = input

theorem Holds.oneClass (h : Holds path content classes) (hkind : fileKind path = .classFile) :
    ∃ cls, classes = [cls] := by
  cases h with
  | classFile _ _ => exact ⟨_, rfl⟩
  | jar hjar _ _ _ =>
    rw [hkind] at hjar
    cases hjar

theorem IsFileOf.isInput_iff {tree : FileTree} {input : String} {artifact : Artifact}
    (h : IsFileOf tree input artifact classes) :
    artifact.isInput = true ↔ tree.hasFile input = true ∧ artifact.path = input := by
  obtain ⟨l, rest, content, hresolve, hfile, rfl, -, -⟩ := h
  rw [decide_eq_true_iff]
  constructor
  · rintro rfl
    rw [List.append_nil] at hfile
    exact ⟨FileTree.hasFile_iff.mpr ⟨content, FileTree.read?_eq_some.mpr ⟨l, hresolve, hfile⟩⟩, rfl⟩
  · intro hinput
    obtain ⟨other, hother⟩ := FileTree.hasFile_iff.mp hinput.1
    obtain ⟨l', hresolve', hfile'⟩ := FileTree.read?_eq_some.mp hother
    obtain rfl := Except.ok.inj (hresolve.symm.trans hresolve')
    refine Decidable.byContradiction fun hbelow => ?_
    obtain ⟨entries, hdir⟩ := Node.exists_directory_of_get? hbelow (Node.fileAt_eq_some.mp hfile)
    rw [Node.fileAt_eq_some, hdir] at hfile'
    cases hfile'

theorem take_consistent {tree : FileTree} {input : String} (hwf : tree.root.WellFormed)
    (h : (take tree input).2 = .ok inventory) : inventory.Consistent tree input := by
  have hnumbered := take_numbered hwf h
  refine ⟨hnumbered, ?_, ?_⟩
  · intro number artifact hartifact hkind
    obtain ⟨l, rest, content, -, -, -, -, hholds⟩ := hnumbered.holds number artifact hartifact
    exact hholds.oneClass hkind
  · intro artifact hartifact
    obtain ⟨number, hnumber⟩ := List.mem_iff_getElem?.mp hartifact
    exact (hnumbered.holds number artifact hnumber).isInput_iff

end MemberAudit.Inventory
