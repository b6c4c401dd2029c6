/-
Trees that are the same but for some files of one directory, which are known by
their names (`SameBut`). Such trees have the same directories, and the same files
elsewhere (`kindAt_eq`, `fileAt_eq`), so paths lead to the same places in them
(`resolve_of_sameBut`); and if the files are none of classes, an input has the
same inventory in both (`take_of_sameBut`).

Writing one of the files and clearing the directory of them give such trees
(`SameBut.put`, `SameBut.keepEntries`).
-/
import MemberAudit.Proofs.FileTree.Directories
import MemberAudit.Proofs.Inventory.ClassFiles

namespace MemberAudit

namespace Node

/-! ## Without the files -/

/-- The tree without the files of a directory whose names are of a kind. -/
def without (own : String → Bool) (l : Location) (node : Node) : Node :=
  node.modify (Node.keepEntries fun name entry => entry.isDirectory || !own name) l

variable {own : String → Bool} {l m : Location} {node : Node}

theorem get?_without (hwf : node.WellFormed) (name : String) (rest : Location) :
    (node.without own l).get? (l ++ name :: rest) =
      ((node.get? (l ++ [name])).filter fun entry => entry.isDirectory || !own name).bind
        (·.get? rest) :=
  get?_modify_keepEntries hwf _ name rest

/-- What is below a directory, or is not named so, stays. -/
theorem get?_without_of_kept (hwf : node.WellFormed) {name : String} (rest : Location)
    (h : node.kindAt (l ++ [name]) = some true ∨ own name = false) :
    (node.without own l).get? (l ++ name :: rest) = node.get? (l ++ name :: rest) := by
  rw [get?_without hwf, get?_append_cons node l name rest]
  rcases h with h | h
  · obtain ⟨entries, hentries⟩ := kindAt_eq_true.mp h
    rw [hentries]
    rfl
  · cases node.get? (l ++ [name]) with
    | none => rfl
    | some found => simp [h, Option.filter]

theorem content?_get?_without (hwf : node.WellFormed) (hm : ∀ name, own name = true → m ≠ l ++ [name]) :
    ((node.without own l).get? m).map content? = (node.get? m).map content? := by
  by_cases hbelow : ∃ name rest, m = l ++ name :: rest
  · obtain ⟨name, rest, rfl⟩ := hbelow
    cases hown : own name with
    | false => rw [get?_without_of_kept hwf rest (.inr hown)]
    | true =>
      cases rest with
      | nil => exact absurd rfl (hm name hown)
      | cons key rest =>
        cases hget : node.get? (l ++ [name]) with
        | none =>
          rw [get?_without hwf, get?_append_cons node l name (key :: rest), hget]
          rfl
        | some found =>
          cases found with
          | file content =>
            rw [get?_without hwf, get?_append_cons node l name (key :: rest), hget]
            simp [isDirectory, hown, get?_file_cons]
          | directory entries =>
            rw [get?_without_of_kept hwf _ (.inl (kindAt_eq_true.mpr ⟨entries, hget⟩))]
  · exact content?_get?_modify (content?_keepEntries _)
      (fun name rest heq => hbelow ⟨name, rest, heq⟩) node

theorem kindAt_without_eq_true (hwf : node.WellFormed) :
    (node.without own l).kindAt m = some true ↔ node.kindAt m = some true := by
  by_cases hm : ∃ name, own name = true ∧ m = l ++ [name]
  · obtain ⟨name, hown, rfl⟩ := hm
    rw [kindAt, kindAt, get?_without hwf name []]
    cases node.get? (l ++ [name]) with
    | none => simp
    | some found => cases found <;> simp [isDirectory, hown, get?]
  · rw [kindAt_eq_map_content?, kindAt_eq_map_content?,
      content?_get?_without hwf fun name hown heq => hm ⟨name, hown, heq⟩]

open Inventory (classFilesAt fileKind) in
/-- A directory keeps its class files, if the files that are left out are none. -/
theorem classFilesAt_of_get?_without (hwf : node.WellFormed)
    (hown : ∀ path name, own name = true → fileKind (Path.child path name) = .unsupported)
    {entries : List (String × Node)} (h : node.get? m = some (directory entries)) :
    ∃ found, (node.without own l).get? m = some found ∧
      ∀ path, classFilesAt path found = classFilesAt path (directory entries) := by
  have hkeep : ∀ path found, classFilesAt path
      (Node.keepEntries (fun name entry => entry.isDirectory || !own name) found) =
        classFilesAt path found := fun path found => by
    refine Inventory.classFilesAt_keepEntries ?_
    intro name entry hdrop
    cases entry with
    | directory entries => cases hdrop
    | file content => simp_all [isDirectory, classFilesAt, Inventory.filesAt]
  by_cases hbelow : ∃ name rest, m = l ++ name :: rest
  · obtain ⟨name, rest, rfl⟩ := hbelow
    have hdir : node.kindAt (l ++ [name]) = some true := by
      cases rest with
      | nil => exact kindAt_eq_true.mpr ⟨entries, h⟩
      | cons key rest =>
        rw [List.append_cons] at h
        exact kindAt_eq_true.mpr (exists_directory_of_get? (by simp) h)
    exact ⟨_, (get?_without_of_kept hwf rest (.inl hdir)).trans h, fun _ => rfl⟩
  · by_cases hm : m <+: l
    · obtain ⟨rest, rfl⟩ := hm
      refine ⟨_, (get?_modify_of_append _ m rest node).trans (congrArg _ h), fun path => ?_⟩
      exact Inventory.classFilesAt_modify hkeep rest path _
    · have hl : ¬l <+: m := by
        intro hex
        obtain ⟨rest, rfl⟩ := hex
        cases rest with
        | nil => exact hm (by simp)
        | cons name rest => exact hbelow ⟨name, rest, rfl⟩
      exact ⟨_, (get?_modify_elsewhere _ hl hm node).trans h, fun _ => rfl⟩

end Node

/-! ## The relation -/

/-- Well-formed trees that are the same but for files of a directory whose names
are of a kind. -/
structure SameBut (own : String → Bool) (l : Location) (a b : Node) : Prop where
  left : a.WellFormed
  right : b.WellFormed
  without : a.without own l = b.without own l

namespace SameBut

variable {own : String → Bool} {l m : Location} {a b c : Node}

theorem refl (h : a.WellFormed) : SameBut own l a a := ⟨h, h, rfl⟩

theorem symm (h : SameBut own l a b) : SameBut own l b a := ⟨h.right, h.left, h.without.symm⟩

theorem trans (hab : SameBut own l a b) (hbc : SameBut own l b c) : SameBut own l a c :=
  ⟨hab.left, hbc.right, hab.without.trans hbc.without⟩

theorem content? (h : SameBut own l a b) (hm : ∀ name, own name = true → m ≠ l ++ [name]) :
    (a.get? m).map Node.content? = (b.get? m).map Node.content? := by
  rw [← Node.content?_get?_without h.left hm, ← Node.content?_get?_without h.right hm, h.without]

theorem kindAt_eq (h : SameBut own l a b) (hm : ∀ name, own name = true → m ≠ l ++ [name]) :
    a.kindAt m = b.kindAt m := by
  rw [Node.kindAt_eq_map_content?, Node.kindAt_eq_map_content?, h.content? hm]

theorem fileAt_eq (h : SameBut own l a b) (hm : ∀ name, own name = true → m ≠ l ++ [name]) :
    a.fileAt m = b.fileAt m := by
  rw [Node.fileAt_eq_map_content?, Node.fileAt_eq_map_content?, h.content? hm]

theorem kindAt_eq_true (h : SameBut own l a b) : a.kindAt m = some true ↔ b.kindAt m = some true := by
  rw [← Node.kindAt_without_eq_true h.left, h.without, Node.kindAt_without_eq_true h.right]

open Inventory (classFilesAt fileKind) in
theorem classFilesAt_eq (h : SameBut own l a b)
    (hown : ∀ path name, own name = true → fileKind (Path.child path name) = .unsupported)
    {entries : List (String × Node)} (hget : a.get? m = some (.directory entries)) :
    ∃ entries', b.get? m = some (.directory entries') ∧
      ∀ path, classFilesAt path (.directory entries') = classFilesAt path (.directory entries) := by
  obtain ⟨entries', hget'⟩ := Node.kindAt_eq_true.mp
    (h.kindAt_eq_true.mp (Node.kindAt_eq_true.mpr ⟨entries, hget⟩))
  obtain ⟨found, hfound, hfiles⟩ := Node.classFilesAt_of_get?_without (l := l) h.left hown hget
  obtain ⟨found', hfound', hfiles'⟩ := Node.classFilesAt_of_get?_without (l := l) h.right hown hget'
  rw [h.without, hfound'] at hfound
  cases hfound
  exact ⟨entries', hget', fun path => (hfiles' path).symm.trans (hfiles path)⟩

/-- Trees that are the same but for some files are the same but for more. -/
theorem weaken {own' : String → Bool} (h : SameBut own l a b)
    (hown : ∀ name, own name = true → own' name = true) : SameBut own' l a b := by
  have hwithout : ∀ node : Node, node.without own' l = (node.without own l).without own' l := by
    intro node
    rw [Node.without, Node.without, Node.without, Node.modify_modify]
    congr 1
    funext found
    cases found with
    | file content => rfl
    | directory entries =>
      refine congrArg Node.directory ?_
      rw [List.filter_filter]
      refine List.filter_congr fun ⟨name, entry⟩ _ => ?_
      cases hname : own name with
      | false => simp [hname]
      | true => simp +contextual [hown name hname]
  exact ⟨h.left, h.right, by rw [hwithout a, hwithout b, h.without]⟩

/-- Writing one of the files. -/
theorem put (h : a.WellFormed) {name : String} (hown : own name = true) (content : ByteArray)
    (hfile : a.kindAt (l ++ [name]) ≠ some true) :
    SameBut own l a (a.modify (Node.put name (.file content)) l) := by
  refine ⟨h, Node.WellFormed.modify_put (.file content) h, ?_⟩
  rw [Node.without, Node.without, Node.modify_modify]
  refine h.modify_congr ?_
  intro found hfound
  cases found with
  | file content => rfl
  | directory entries =>
    rw [Node.kindAt_append_singleton hfound] at hfile
    refine congrArg Node.directory ?_
    clear hfound
    induction entries with
    | nil => simp [Node.setEntry, Node.isDirectory, hown]
    | cons entry entries ih =>
      obtain ⟨key, old⟩ := entry
      by_cases hkey : key = name
      · subst hkey
        cases old with
        | directory entries => simp [Node.isDirectory] at hfile
        | file content => simp [Node.setEntry, Node.isDirectory, hown]
      · have hne : (name == key) = false := beq_eq_false_iff_ne.mpr (Ne.symm hkey)
        simp only [List.lookup_cons, hne] at hfile
        simp only [Node.setEntry, hkey, ite_false, List.filter_cons, ih hfile]

/-- Taking out some of the files. -/
theorem keepEntries (h : a.WellFormed) {keep : String → Node → Bool}
    (hkeep : ∀ name entry, a.get? (l ++ [name]) = some entry → keep name entry = false →
      entry.isDirectory = false ∧ own name = true) :
    SameBut own l a (a.modify (Node.keepEntries keep) l) := by
  refine ⟨h, h.modify_keepEntries, ?_⟩
  rw [Node.without, Node.without, Node.modify_modify]
  refine h.modify_congr ?_
  intro found hfound
  cases found with
  | file content => rfl
  | directory entries =>
    have hnodup := (Node.wellFormed_directory.mp (h.get? hfound)).1
    refine congrArg Node.directory ?_
    rw [List.filter_filter]
    refine List.filter_congr fun ⟨name, entry⟩ hmem => ?_
    have hget : a.get? (l ++ [name]) = some entry := by
      rw [Node.get?_append, hfound, Option.bind_some, Node.get?_singleton]
      exact Node.lookup_of_mem hnodup hmem
    cases hk : keep name entry with
    | true => simp [hk]
    | false =>
      obtain ⟨hfile, hown⟩ := hkeep name entry hget hk
      simp [hfile, hown, hk]

end SameBut

/-! ## Paths and inventories -/

namespace FileTree

variable {own : String → Bool} {l m : Location} {t t' : FileTree} {path : String}

/-- On the way to a place that is there, and is none of the files, the kinds are
the same. -/
theorem kindAt_eq_of_above (h : SameBut own l t.root t'.root)
    (hm : ∀ name, own name = true → m ≠ l ++ [name]) (hthere : (t.root.kindAt m).isSome) :
    ∀ above, above <+: m → t.root.kindAt above = t'.root.kindAt above := by
  intro above habove
  by_cases heq : above = m
  · exact heq ▸ h.kindAt_eq hm
  · have hdir := Node.kindAt_above habove heq hthere
    rw [hdir, h.kindAt_eq_true.mp hdir]

theorem resolve_of_sameBut (h : SameBut own l t.root t'.root) (hhome : t'.home = t.home)
    (hup : ".." ∉ names path) (hm : ∀ name, own name = true → m ≠ l ++ [name])
    (hresolve : t.resolve path = .ok m) (hthere : (t.root.kindAt m).isSome) :
    t'.resolve path = .ok m := by
  refine resolve_congr hup hhome (kindAt_eq_of_above h ?_ ?_) hresolve
  · rwa [← eq_locationOf_of_resolve hup hresolve]
  · rwa [← eq_locationOf_of_resolve hup hresolve]

theorem locationOf_of_opens (hup : ".." ∉ names path) (hopens : t.Opens path m) :
    m = locationOf t.home path := by
  by_cases hne : path = ""
  · subst hne
    rw [(opens_empty.mp hopens).1]
    exact (List.append_nil _).symm
  · exact eq_locationOf_of_resolve hup ((opens_iff_resolve hne).mp hopens).1

theorem opens_of_sameBut (h : SameBut own l t.root t'.root) (hhome : t'.home = t.home)
    (hup : ".." ∉ names path) (hm : ∀ name, own name = true → m ≠ l ++ [name])
    (hopens : t.Opens path m) : t'.Opens path m := by
  have hthere : (t.root.kindAt m).isSome := by rw [hopens.isDirectory]; rfl
  by_cases hne : path = ""
  · subst hne
    obtain ⟨rfl, hdir⟩ := opens_empty.mp hopens
    exact opens_empty.mpr ⟨hhome.symm, by rw [hhome]; exact h.kindAt_eq_true.mp hdir⟩
  · obtain ⟨hresolve, hdir⟩ := (opens_iff_resolve hne).mp hopens
    exact (opens_iff_resolve hne).mpr
      ⟨resolve_of_sameBut h hhome hup hm hresolve hthere, h.kindAt_eq_true.mp hdir⟩

open Inventory (fileKind take) in
/-- **Files that are none of classes do not count in an inventory.** -/
theorem take_of_sameBut (h : SameBut own l t.root t'.root) (hhome : t'.home = t.home)
    (hown : ∀ path name, own name = true → fileKind (Path.child path name) = .unsupported)
    (hup : ".." ∉ names path) (hpath : ∀ name, own name = true → locationOf t.home path ≠ l ++ [name])
    (hthere : (t.node? path).isSome) :
    (t'.node? path).isSome ∧ take t' path = take t path := by
  obtain ⟨node, hnode⟩ := Option.isSome_iff_exists.mp hthere
  obtain ⟨m, hresolve, hget⟩ := node?_eq_some.mp hnode
  have hm := eq_locationOf_of_resolve hup hresolve
  have hresolve' := resolve_of_sameBut h hhome hup (hm ▸ hpath) hresolve (by
    rw [Node.kindAt, hget]
    rfl)
  cases node with
  | file content =>
    have hfile : t'.root.fileAt m = some content := by
      rw [← h.fileAt_eq (hm ▸ hpath)]
      exact Node.fileAt_eq_some.mpr hget
    have hnode' := node?_eq_some.mpr ⟨m, hresolve', Node.fileAt_eq_some.mp hfile⟩
    exact ⟨by rw [hnode']; rfl, Inventory.take_congr (hnode'.trans hnode.symm)⟩
  | directory entries =>
    obtain ⟨entries', hget', hfiles⟩ := h.classFilesAt_eq hown hget
    have hnode' := node?_eq_some.mpr ⟨m, hresolve', hget'⟩
    refine ⟨by rw [hnode']; rfl, ?_⟩
    rw [Inventory.take_directory hnode, Inventory.take_directory hnode', hfiles]

end FileTree

end MemberAudit
