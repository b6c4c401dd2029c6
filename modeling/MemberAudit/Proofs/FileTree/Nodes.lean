/-
Nodes of a file tree, looked at by location. A tree is well-formed if no
directory has two entries of one name, so that a location has one node only and
what is done there is done to that node (`WellFormed.modify_congr`).

The operations put an entry into a directory or take some out; both keep a tree
well-formed (`WellFormed.modify_put`, `WellFormed.modify_keepEntries`).
-/
import MemberAudit.FileTree

namespace MemberAudit.Node

/-! ## Well-formed nodes -/

mutual

/-- Whether no directory at or below the node has two entries of one name. -/
def WellFormed : Node → Prop
  | file _ => True
  | directory entries => (entries.map (·.1)).Nodup ∧ EntriesWellFormed entries

def EntriesWellFormed : List (String × Node) → Prop
  | [] => True
  | (_, node) :: rest => node.WellFormed ∧ EntriesWellFormed rest

end

theorem entriesWellFormed_iff {entries : List (String × Node)} :
    EntriesWellFormed entries ↔ ∀ entry ∈ entries, entry.2.WellFormed := by
  induction entries with
  | nil => simp [EntriesWellFormed]
  | cons entry rest ih => simp [EntriesWellFormed, ih]

theorem wellFormed_directory {entries : List (String × Node)} :
    (directory entries).WellFormed ↔
      (entries.map (·.1)).Nodup ∧ ∀ entry ∈ entries, entry.2.WellFormed := by
  rw [WellFormed, entriesWellFormed_iff]

/-- Induction on the entries of directories. -/
@[elab_as_elim]
theorem inductOn {motive : Node → Prop} (file : ∀ content, motive (file content))
    (directory : ∀ entries : List (String × Node), (∀ entry ∈ entries, motive entry.2) →
      motive (directory entries)) : ∀ node, motive node
  | .file content => file content
  | .directory entries => directory entries fun entry _ => inductOn file directory entry.2
termination_by node => sizeOf node
decreasing_by
  rename_i hentry
  have hentries := List.sizeOf_lt_of_mem hentry
  cases entry
  simp only [Prod.mk.sizeOf_spec] at hentries
  simp only [Node.directory.sizeOf_spec]
  omega

theorem WellFormed.file (content : ByteArray) : (Node.file content).WellFormed := trivial

theorem WellFormed.empty : (directory []).WellFormed := ⟨.nil, trivial⟩

theorem mem_of_lookup {entries : List (String × Node)} {name : String} {node : Node}
    (h : entries.lookup name = some node) : (name, node) ∈ entries := by
  obtain ⟨before, after, rfl, -⟩ := List.lookup_eq_some_iff.mp h
  simp

theorem lookup_of_mem {entries : List (String × Node)} (hnodup : (entries.map (·.1)).Nodup)
    {name : String} {node : Node} (h : (name, node) ∈ entries) :
    entries.lookup name = some node := by
  induction entries with
  | nil => cases h
  | cons entry rest ih =>
    obtain ⟨key, other⟩ := entry
    obtain ⟨hnot, hrest⟩ := List.nodup_cons.mp hnodup
    rcases List.mem_cons.mp h with heq | hmem
    · cases heq
      simp
    · have hne : (name == key) = false := beq_eq_false_iff_ne.mpr fun heq =>
        hnot (List.mem_map.mpr ⟨_, hmem, heq⟩)
      rw [List.lookup_cons, hne]
      exact ih hrest hmem

theorem lookup_filter {entries : List (String × Node)} (hnodup : (entries.map (·.1)).Nodup)
    (keep : String → Node → Bool) (name : String) :
    (entries.filter fun (key, node) => keep key node).lookup name =
      (entries.lookup name).filter (keep name) := by
  have hkept : ((entries.filter fun (key, node) => keep key node).map (·.1)).Nodup :=
    hnodup.sublist (List.filter_sublist.map _)
  refine Option.ext fun node => ⟨fun h => ?_, fun h => ?_⟩
  · obtain ⟨hmem, hkeep⟩ := List.mem_filter.mp (mem_of_lookup h)
    rw [lookup_of_mem hnodup hmem]
    simpa using hkeep
  · obtain ⟨hsome, hkeep⟩ := Option.filter_eq_some_iff.mp h
    exact lookup_of_mem hkept (List.mem_filter.mpr ⟨mem_of_lookup hsome, hkeep⟩)

theorem WellFormed.of_lookup {entries : List (String × Node)} (h : (directory entries).WellFormed)
    {name : String} {node : Node} (hlookup : entries.lookup name = some node) : node.WellFormed :=
  (wellFormed_directory.mp h).2 _ (mem_of_lookup hlookup)

theorem keys_setEntry (name : String) (node : Node) (entries : List (String × Node)) :
    (setEntry name node entries).map (·.1) =
      if name ∈ entries.map (·.1) then entries.map (·.1) else entries.map (·.1) ++ [name] := by
  induction entries with
  | nil => rfl
  | cons entry rest ih =>
    obtain ⟨key, old⟩ := entry
    by_cases h : key = name
    · simp [setEntry, h]
    · simp only [setEntry, h, ite_false, List.map_cons, ih, List.mem_cons, Ne.symm h, false_or]
      split <;> rfl

theorem mem_of_mem_setEntry {name : String} {node : Node} {entries : List (String × Node)}
    {entry : String × Node} (h : entry ∈ setEntry name node entries) :
    entry = (name, node) ∨ entry ∈ entries := by
  induction entries with
  | nil => exact .inl (by simpa [setEntry] using h)
  | cons first rest ih =>
    obtain ⟨key, old⟩ := first
    simp only [setEntry] at h
    split at h
    · exact (List.mem_cons.mp h).imp id (List.mem_cons_of_mem _)
    · rcases List.mem_cons.mp h with rfl | h
      · exact .inr List.mem_cons_self
      · exact (ih h).imp id (List.mem_cons_of_mem _)

theorem WellFormed.put {name : String} {entry node : Node} (hentry : entry.WellFormed)
    (h : node.WellFormed) : (put name entry node).WellFormed := by
  cases node with
  | file content => exact h
  | directory entries =>
    obtain ⟨hnodup, hall⟩ := wellFormed_directory.mp h
    refine wellFormed_directory.mpr ⟨?_, fun other hother => ?_⟩
    · rw [keys_setEntry]
      split
      · exact hnodup
      · rename_i hnot
        exact List.nodup_append.mpr ⟨hnodup, by simp, fun a ha b hb hab =>
          hnot (List.mem_singleton.mp hb ▸ hab ▸ ha)⟩
    · rcases mem_of_mem_setEntry hother with rfl | hmem
      · exact hentry
      · exact hall other hmem

theorem WellFormed.keepEntries {keep : String → Node → Bool} {node : Node} (h : node.WellFormed) :
    (Node.keepEntries keep node).WellFormed := by
  cases node with
  | file content => exact h
  | directory entries =>
    obtain ⟨hnodup, hall⟩ := wellFormed_directory.mp h
    exact wellFormed_directory.mpr ⟨hnodup.sublist (List.filter_sublist.map _),
      fun other hother => hall other (List.mem_filter.mp hother).1⟩

/-! ## Locations -/

theorem get?_append (node : Node) (l m : Location) :
    node.get? (l ++ m) = (node.get? l).bind (·.get? m) := by
  induction l generalizing node with
  | nil => rfl
  | cons name l ih =>
    simp only [List.cons_append, get?]
    cases node.child? name with
    | none => rfl
    | some child => exact ih child

theorem get?_append_cons (node : Node) (l : Location) (name : String) (rest : Location) :
    node.get? (l ++ name :: rest) = (node.get? (l ++ [name])).bind (·.get? rest) := by
  rw [List.append_cons, get?_append]

theorem get?_singleton (node : Node) (name : String) : node.get? [name] = node.child? name := by
  rw [get?]
  cases node.child? name <;> rfl

theorem get?_file_cons (content : ByteArray) (name : String) (l : Location) :
    (file content).get? (name :: l) = none := rfl

/-- What stands above a location that is there is a directory. -/
theorem exists_directory_of_get? {node found : Node} {l m : Location} (hm : m ≠ [])
    (h : node.get? (l ++ m) = some found) : ∃ entries, node.get? l = some (directory entries) := by
  rw [get?_append] at h
  obtain ⟨above, habove, h⟩ := Option.bind_eq_some_iff.mp h
  cases above with
  | file content =>
    cases m with
    | nil => exact absurd rfl hm
    | cons name m => cases h
  | directory entries => exact ⟨entries, habove⟩

theorem WellFormed.get? {node found : Node} {l : Location} (h : node.WellFormed)
    (hget : node.get? l = some found) : found.WellFormed := by
  induction l generalizing node with
  | nil => cases hget; exact h
  | cons name l ih =>
    obtain ⟨child, hchild, hrest⟩ := Option.bind_eq_some_iff.mp hget
    cases node with
    | file content => cases hchild
    | directory entries => exact ih (h.of_lookup hchild) hrest

theorem modify_append (f : Node → Node) (l m : Location) (node : Node) :
    modify f (l ++ m) node = modify (modify f m) l node := by
  induction l generalizing node with
  | nil => rfl
  | cons name l ih =>
    cases node with
    | file content => rfl
    | directory entries => simp only [List.cons_append, modify, ih]

theorem modify_modify (f g : Node → Node) (l : Location) (node : Node) :
    modify g l (modify f l node) = modify (fun n => g (f n)) l node := by
  induction l generalizing node with
  | nil => rfl
  | cons name l ih =>
    cases node with
    | file content => rfl
    | directory entries =>
      simp only [modify, List.map_map]
      refine congrArg directory (List.map_congr_left fun entry _ => ?_)
      obtain ⟨key, child⟩ := entry
      by_cases h : key = name <;> simp [h, ih]

/-- What stands at and below the changed location. -/
theorem get?_modify_append (f : Node → Node) (l m : Location) (node : Node) :
    (modify f l node).get? (l ++ m) = ((node.get? l).map f).bind (·.get? m) := by
  rw [get?_append, get?_modify]

/-- What stands above the changed location is changed there. -/
theorem get?_modify_of_append (f : Node → Node) (l m : Location) (node : Node) :
    (modify f (l ++ m) node).get? l = (node.get? l).map (modify f m) := by
  rw [modify_append, get?_modify]

/-- In a well-formed tree only the node at the location counts. -/
theorem WellFormed.modify_congr {f g : Node → Node} {l : Location} {node : Node}
    (h : node.WellFormed) (hfg : ∀ found, node.get? l = some found → f found = g found) :
    modify f l node = modify g l node := by
  induction l generalizing node with
  | nil => exact hfg node rfl
  | cons name l ih =>
    cases node with
    | file content => rfl
    | directory entries =>
      obtain ⟨hnodup, hall⟩ := wellFormed_directory.mp h
      refine congrArg directory (List.map_congr_left fun ⟨key, child⟩ hmem => ?_)
      by_cases hkey : key = name
      · subst hkey
        have hlookup := lookup_of_mem hnodup hmem
        have hchild := ih (hall _ hmem) fun found hfound => hfg found (by
          rw [Node.get?, child?, hlookup]
          exact hfound)
        simp [hchild]
      · simp [hkey]

theorem WellFormed.modify {f : Node → Node} (hf : ∀ found : Node, found.WellFormed → (f found).WellFormed)
    {l : Location} {node : Node} (h : node.WellFormed) : (Node.modify f l node).WellFormed := by
  induction l generalizing node with
  | nil => exact hf node h
  | cons name l ih =>
    cases node with
    | file content => exact h
    | directory entries =>
      obtain ⟨hnodup, hall⟩ := wellFormed_directory.mp h
      refine wellFormed_directory.mpr ⟨?_, fun other hother => ?_⟩
      · have hkeys : (fun entry : String × Node => entry.1) ∘ (fun (key, node) =>
            if key = name then (key, Node.modify f l node) else (key, node)) = (·.1) := by
          funext ⟨key, node⟩
          by_cases hkey : key = name <;> simp [hkey]
        rwa [List.map_map, hkeys]
      · obtain ⟨⟨key, child⟩, hmem, rfl⟩ := List.mem_map.mp hother
        have hchild := hall _ hmem
        by_cases hkey : key = name
        · simpa [hkey] using ih hchild
        · simpa [hkey] using hchild

theorem WellFormed.modify_put {name : String} {entry node : Node} {l : Location}
    (hentry : entry.WellFormed) (h : node.WellFormed) :
    (Node.modify (Node.put name entry) l node).WellFormed :=
  h.modify fun _ hfound => hentry.put hfound

theorem WellFormed.modify_keepEntries {keep : String → Node → Bool} {node : Node} {l : Location}
    (h : node.WellFormed) : (Node.modify (Node.keepEntries keep) l node).WellFormed :=
  h.modify fun _ hfound => hfound.keepEntries

end MemberAudit.Node
