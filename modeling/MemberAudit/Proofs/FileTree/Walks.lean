/-
Where paths lead. A path is walked part by part (`LeadsTo`, `walk_cons_eq_ok`).
Without a step up, it leads to one location, which can be told from its text
(`locationOf`), and whether it leads there depends only on which of the locations
on the way are there and are directories (`walk_congr`).

The files of a report directory are reached through the path of the directory
and a plain name; `Opens` says that such files can be made, and what becomes of
reading and writing them is then a matter of one location (`read?_child`,
`write?_child_eq_some`).
-/
import MemberAudit.Proofs.FileTree.Nodes

namespace MemberAudit

/-! ## Kinds and contents -/

namespace Node

/-- Whether there is a directory at a location, or a file, or nothing. -/
def kindAt (node : Node) (l : Location) : Option Bool :=
  (node.get? l).map isDirectory

/-- The content of the file at a location. -/
def fileAt (node : Node) (l : Location) : Option ByteArray :=
  (node.get? l).bind content?

theorem kindAt_eq_true {node : Node} {l : Location} :
    node.kindAt l = some true ↔ ∃ entries, node.get? l = some (directory entries) := by
  unfold kindAt
  cases node.get? l with
  | none => simp
  | some found => cases found <;> simp [isDirectory]

theorem fileAt_eq_some {node : Node} {l : Location} {content : ByteArray} :
    node.fileAt l = some content ↔ node.get? l = some (file content) := by
  unfold fileAt
  cases node.get? l with
  | none => simp
  | some found => cases found <;> simp [content?]

theorem kindAt_of_fileAt {node : Node} {l : Location} {content : ByteArray}
    (h : node.fileAt l = some content) : node.kindAt l = some false := by
  rw [kindAt, fileAt_eq_some.mp h]
  rfl

theorem isSome_kindAt_of_fileAt {node : Node} {l : Location} {content : ByteArray}
    (h : node.fileAt l = some content) : (node.kindAt l).isSome := by
  rw [kindAt_of_fileAt h]
  rfl

theorem kindAt_append_singleton {node : Node} {l : Location} {entries : List (String × Node)}
    (h : node.get? l = some (directory entries)) (name : String) :
    node.kindAt (l ++ [name]) = (entries.lookup name).map isDirectory := by
  rw [kindAt, get?_append, h, Option.bind_some, get?_singleton]
  rfl

/-- All locations above one that is there are directories. -/
theorem kindAt_above {node : Node} {l m : Location} (hl : l <+: m) (hne : l ≠ m)
    (h : (node.kindAt m).isSome) : node.kindAt l = some true := by
  obtain ⟨rest, rfl⟩ := hl
  have hrest : rest ≠ [] := by
    rintro rfl
    exact hne (List.append_nil l).symm
  cases hget : node.get? (l ++ rest) with
  | none => simp [kindAt, hget] at h
  | some found => exact kindAt_eq_true.mpr (exists_directory_of_get? hrest hget)

/-! ## Walks -/

/-- The parts of a path that name an entry, if none of them is a step up. -/
def named (parts : List String) : List String :=
  parts.filter fun part => part ≠ "" && part ≠ "."

theorem named_append (ps qs : List String) : named (ps ++ qs) = named ps ++ named qs :=
  List.filter_append ..

theorem named_cons {part : String} (h : FileTree.isStep part = false) (parts : List String) :
    named (part :: parts) = part :: named parts := by
  simp only [FileTree.isStep, Bool.or_eq_false_iff, decide_eq_false_iff_not] at h
  simp [named, h.1]

/-- Where a part of a path leads from a directory: nowhere else, up, or down to the
entry that it names. -/
inductive LeadsTo (root : Node) (here : Location) : String → Location → Prop where
  | stay {part : String} : part = "" ∨ part = "." → LeadsTo root here part here
  | up : LeadsTo root here ".." here.dropLast
  | down {name : String} : FileTree.isStep name = false → (root.kindAt (here ++ [name])).isSome →
      LeadsTo root here name (here ++ [name])

namespace LeadsTo

variable {root root' : Node} {here next : Location} {part : String}

/-- A part that is no step up leads to what it names. -/
theorem eq_append (h : LeadsTo root here part next) (hup : part ≠ "..") :
    next = here ++ named [part] := by
  cases h with
  | stay hpart => rcases hpart with rfl | rfl <;> exact (List.append_nil _).symm
  | up => exact absurd rfl hup
  | down hname _ => rw [named_cons hname]; rfl

theorem of_name (h : LeadsTo root here part next) (hname : FileTree.isStep part = false) :
    next = here ++ [part] ∧ (root.kindAt next).isSome := by
  cases h with
  | stay hpart => rcases hpart with rfl | rfl <;> cases hname
  | up => cases hname
  | down _ hthere => exact ⟨rfl, hthere⟩

/-- A part leads to the same in a tree that has what it leads to. -/
theorem of_isSome (h : LeadsTo root here part next)
    (hnext : (root.kindAt next).isSome → (root'.kindAt next).isSome) : LeadsTo root' here part next := by
  cases h with
  | stay hpart => exact .stay hpart
  | up => exact .up
  | down hname hthere => exact .down hname (hnext hthere)

end LeadsTo

/-- **A walk goes part by part,** through directories. -/
theorem walk_cons_eq_ok {root : Node} {here l : Location} {part : String} {parts : List String} :
    walk root here (part :: parts) = .ok l ↔
      root.kindAt here = some true ∧
        ∃ next, LeadsTo root here part next ∧ walk root next parts = .ok l := by
  constructor
  · intro h
    rw [walk] at h
    split at h
    · rename_i entries hentries
      refine ⟨kindAt_eq_true.mpr ⟨entries, hentries⟩, ?_⟩
      split at h
      · rename_i hpart
        exact ⟨here, .stay hpart, h⟩
      · rename_i hpart
        split at h
        · rename_i hup
          exact ⟨_, hup ▸ .up, h⟩
        · rename_i hup
          split at h
          · rename_i hthere
            rw [← Option.isSome_map, ← kindAt_append_singleton hentries] at hthere
            have hname : FileTree.isStep part = false := by
              simp [FileTree.isStep, not_or.mp hpart, hup]
            exact ⟨_, .down hname hthere, h⟩
          · split at h <;> cases h
    · cases h
  · intro h
    obtain ⟨hdir, next, hnext, hwalk⟩ := h
    obtain ⟨entries, hentries⟩ := kindAt_eq_true.mp hdir
    cases hnext with
    | stay hpart => simpa only [walk, hentries, if_pos hpart] using hwalk
    | up => simpa [walk, hentries] using hwalk
    | down hname hthere =>
      rw [kindAt_append_singleton hentries, Option.isSome_map] at hthere
      have hplain : part ≠ "" ∧ part ≠ "." ∧ part ≠ ".." := by
        simpa [FileTree.isStep, and_assoc] using hname
      simpa [walk, hentries, hplain, hthere] using hwalk

theorem walk_append_eq_ok {root : Node} {here l : Location} {ps qs : List String} :
    walk root here (ps ++ qs) = .ok l ↔
      ∃ m, walk root here ps = .ok m ∧ walk root m qs = .ok l := by
  induction ps generalizing here with
  | nil => simp [walk]
  | cons part ps ih =>
    simp only [List.cons_append, walk_cons_eq_ok, ih]
    constructor
    · intro h
      obtain ⟨hdir, next, hnext, m, hm, hl⟩ := h
      exact ⟨m, ⟨hdir, next, hnext, hm⟩, hl⟩
    · intro h
      obtain ⟨m, ⟨hdir, next, hnext, hm⟩, hl⟩ := h
      exact ⟨hdir, next, hnext, m, hm, hl⟩

theorem eq_of_walk {root : Node} {here l : Location} {parts : List String} (hup : ".." ∉ parts)
    (h : walk root here parts = .ok l) : l = here ++ named parts := by
  induction parts generalizing here with
  | nil =>
    obtain rfl := Except.ok.inj h
    exact (List.append_nil _).symm
  | cons part parts ih =>
    rw [List.mem_cons, not_or] at hup
    obtain ⟨-, next, hnext, hwalk⟩ := walk_cons_eq_ok.mp h
    rw [ih hup.2 hwalk, hnext.eq_append (Ne.symm hup.1), List.append_assoc, ← named_append]
    rfl

/-- A walk goes the same way in a tree that has the same directories along it. -/
theorem walk_congr {root root' : Node} {here l : Location} {parts : List String}
    (hup : ".." ∉ parts)
    (hkinds : ∀ m, m <+: here ++ named parts → root.kindAt m = root'.kindAt m)
    (h : walk root here parts = .ok l) : walk root' here parts = .ok l := by
  induction parts generalizing here with
  | nil => exact h
  | cons part parts ih =>
    rw [List.mem_cons, not_or] at hup
    obtain ⟨hdir, next, hnext, hwalk⟩ := walk_cons_eq_ok.mp h
    have hway : here ++ named (part :: parts) = next ++ named parts := by
      rw [hnext.eq_append (Ne.symm hup.1), List.append_assoc, ← named_append]
      rfl
    have hhere := hkinds here (List.prefix_append _ _)
    rw [hway] at hkinds
    have hthere := hkinds next (List.prefix_append _ _)
    exact walk_cons_eq_ok.mpr
      ⟨hhere ▸ hdir, next, hnext.of_isSome (hthere ▸ id), ih hup.2 hkinds hwalk⟩

/-- A walk to what is there needs no more than the directories on its way. -/
theorem walk_of_directories {root root' : Node} {here l : Location} {parts : List String}
    (hdirs : ∀ m, root.kindAt m = some true → root'.kindAt m = some true)
    (hthere : (root'.kindAt l).isSome) (h : walk root here parts = .ok l) :
    walk root' here parts = .ok l := by
  induction parts generalizing here with
  | nil => exact h
  | cons part parts ih =>
    obtain ⟨hdir, next, hnext, hwalk⟩ := walk_cons_eq_ok.mp h
    refine walk_cons_eq_ok.mpr ⟨hdirs here hdir, next, hnext.of_isSome fun _ => ?_, ih hwalk⟩
    cases parts with
    | nil => rwa [Except.ok.inj hwalk]
    | cons _ _ =>
      rw [hdirs next (walk_cons_eq_ok.mp hwalk).1]
      rfl

/-- A walk goes the same way in a tree that has more. -/
theorem walk_mono {root root' : Node} {here l : Location} {parts : List String}
    (hkinds : ∀ m kind, root.kindAt m = some kind → root'.kindAt m = some kind)
    (h : walk root here parts = .ok l) : walk root' here parts = .ok l := by
  induction parts generalizing here with
  | nil => exact h
  | cons part parts ih =>
    obtain ⟨hdir, next, hnext, hwalk⟩ := walk_cons_eq_ok.mp h
    refine walk_cons_eq_ok.mpr ⟨hkinds here true hdir, next, hnext.of_isSome fun hthere => ?_, ih hwalk⟩
    obtain ⟨kind, hkind⟩ := Option.isSome_iff_exists.mp hthere
    rw [hkinds next kind hkind]
    rfl

/-- A walk along parts that name nothing stays in its directory. -/
theorem walk_of_stays {root : Node} {l : Location} {parts : List String}
    (hparts : ∀ part ∈ parts, part = "" ∨ part = ".") (h : root.kindAt l = some true) :
    walk root l parts = .ok l := by
  induction parts with
  | nil => rfl
  | cons part parts ih =>
    obtain ⟨hpart, hrest⟩ := List.forall_mem_cons.mp hparts
    exact walk_cons_eq_ok.mpr ⟨h, l, .stay hpart, ih hrest⟩

theorem walk_replicate_empty {root : Node} {l : Location} (h : root.kindAt l = some true) (k : Nat) :
    walk root l (List.replicate k "") = .ok l :=
  walk_of_stays (fun _ hpart => .inl (List.eq_of_mem_replicate hpart)) h

/-- A walk to a directory goes through directories. -/
theorem kindAt_of_walk {root : Node} {here l : Location} {parts : List String}
    (h : walk root here parts = .ok l) (hl : root.kindAt l = some true) :
    root.kindAt here = some true := by
  cases parts with
  | nil =>
    cases h
    exact hl
  | cons part parts => exact (walk_cons_eq_ok.mp h).1

end Node

/-! ## Paths -/

namespace FileTree

open Node (named)

/-- Where a path without a step up leads, if it leads anywhere. -/
def locationOf (home : Location) (path : String) : Location :=
  (if Path.isAbsolute path then [] else home) ++ named (names path)

theorem resolve_eq_ok {tree : FileTree} {path : String} {l : Location} :
    tree.resolve path = .ok l ↔
      path ≠ "" ∧ '\x00' ∉ path.toList ∧ tree.root.walk (tree.start path) (names path) = .ok l := by
  unfold resolve
  by_cases hempty : path = ""
  · simp [hempty]
  · by_cases hnul : '\x00' ∈ path.toList <;> simp [hempty, hnul]

theorem eq_locationOf_of_resolve {tree : FileTree} {path : String} {l : Location}
    (hup : ".." ∉ names path) (h : tree.resolve path = .ok l) : l = locationOf tree.home path :=
  Node.eq_of_walk hup (resolve_eq_ok.mp h).2.2

theorem start_eq {t t' : FileTree} (hhome : t'.home = t.home) (path : String) :
    t'.start path = t.start path := by
  rw [start, start, hhome]

/-- A path leads to the same place in a tree that has the same directories along it. -/
theorem resolve_congr {t t' : FileTree} {path : String} {l : Location} (hup : ".." ∉ names path)
    (hhome : t'.home = t.home)
    (hkinds : ∀ m, m <+: locationOf t.home path → t.root.kindAt m = t'.root.kindAt m)
    (h : t.resolve path = .ok l) : t'.resolve path = .ok l := by
  obtain ⟨hne, hnul, hwalk⟩ := resolve_eq_ok.mp h
  exact resolve_eq_ok.mpr ⟨hne, hnul, start_eq hhome path ▸ Node.walk_congr hup hkinds hwalk⟩

theorem node?_eq_some {tree : FileTree} {path : String} {node : Node} :
    tree.node? path = some node ↔
      ∃ l, tree.resolve path = .ok l ∧ tree.root.get? l = some node := by
  unfold node?
  cases tree.resolve path <;> simp

theorem read?_eq_some {tree : FileTree} {path : String} {content : ByteArray} :
    tree.read? path = some content ↔
      ∃ l, tree.resolve path = .ok l ∧ tree.root.fileAt l = some content := by
  unfold read? node?
  cases tree.resolve path <;> simp [Node.fileAt]

theorem hasFile_iff {tree : FileTree} {path : String} :
    tree.hasFile path = true ↔ ∃ content, tree.read? path = some content := by
  unfold hasFile read?
  cases tree.node? path with
  | none => simp
  | some node => cases node <;> simp [Node.isFile, Node.content?]

theorem hasPath_iff {tree : FileTree} {path : String} :
    tree.hasPath path = true ↔
      ∃ l, tree.resolve path = .ok l ∧ (tree.root.kindAt l).isSome := by
  unfold hasPath node?
  cases tree.resolve path <;> simp [Node.kindAt]

theorem hasDirectory_iff {tree : FileTree} {path : String} :
    tree.hasDirectory path = true ↔
      ∃ l, tree.resolve path = .ok l ∧ tree.root.kindAt l = some true := by
  unfold hasDirectory node?
  cases tree.resolve path with
  | error fault => simp
  | ok l => cases h : tree.root.get? l <;> simp [Node.kindAt, h]

theorem fileAt_of_read? {tree : FileTree} {path : String} {content : ByteArray}
    (hup : ".." ∉ names path) (h : tree.read? path = some content) :
    tree.root.fileAt (locationOf tree.home path) = some content := by
  obtain ⟨l, hresolve, hcontent⟩ := read?_eq_some.mp h
  rwa [← eq_locationOf_of_resolve hup hresolve]

/-- A file that stands where a path leads is read through the path. -/
theorem read?_congr {t t' : FileTree} {path : String} {content : ByteArray}
    (hup : ".." ∉ names path) (hhome : t'.home = t.home)
    (hfile : t'.root.fileAt (locationOf t.home path) = some content)
    (h : t.read? path = some content) : t'.read? path = some content := by
  have hcontent := fileAt_of_read? hup h
  obtain ⟨l, hresolve, -⟩ := read?_eq_some.mp h
  obtain rfl := eq_locationOf_of_resolve hup hresolve
  refine read?_eq_some.mpr ⟨_, resolve_congr hup hhome (fun m hm => ?_) hresolve, hfile⟩
  by_cases hl : m = locationOf t.home path
  · rw [hl, Node.kindAt_of_fileAt hcontent, Node.kindAt_of_fileAt hfile]
  · rw [Node.kindAt_above hm hl (Node.isSome_kindAt_of_fileAt hcontent),
      Node.kindAt_above hm hl (Node.isSome_kindAt_of_fileAt hfile)]

/-! ## Entries of a directory -/

/-- A name that can be given to a file. -/
structure PlainName (name : String) : Prop where
  oneName : '/' ∉ name.toList
  nameable : '\x00' ∉ name.toList
  notStep : isStep name = false
  short : name.utf8ByteSize ≤ 255

instance (name : String) : Decidable (PlainName name) :=
  decidable_of_iff ('/' ∉ name.toList ∧ '\x00' ∉ name.toList ∧ isStep name = false ∧ name.utf8ByteSize ≤ 255)
    ⟨fun h => ⟨h.1, h.2.1, h.2.2.1, h.2.2.2⟩, fun h => ⟨h.oneName, h.nameable, h.notStep, h.short⟩⟩

/-- The parts of a path to an entry that come before its name. -/
def above (directory : String) : List String :=
  if directory = "" then []
  else if directory.toList.getLast? = some '/' then (names directory).dropLast
  else names directory

theorem names_child (directory : String) {name : String} (h : '/' ∉ name.toList) :
    names (Path.child directory name) = above directory ++ [name] := by
  have hname : Text.split '/' name.toList = [name.toList] := Text.split_of_not_mem h
  unfold Path.child above names Path.parts
  by_cases hempty : directory = ""
  · simp [hempty, hname]
  · rw [if_neg (by simpa using hempty), if_neg hempty]
    split
    · rename_i hslash
      obtain ⟨before, hbefore⟩ := List.getLast?_eq_some_iff.mp hslash
      rw [String.toList_append, hbefore, List.append_assoc, List.singleton_append,
        Text.split_append_sep, Text.split_append_sep, hname]
      simp [Text.split]
    · rw [String.toList_append, String.toList_append, List.append_assoc,
        show "/".toList ++ name.toList = '/' :: name.toList from rfl, Text.split_append_sep, hname]
      simp

theorem child_ne_empty (directory : String) {name : String} (h : PlainName name) :
    Path.child directory name ≠ "" := by
  have hname : name ≠ "" := by
    rintro rfl
    cases h.notStep
  unfold Path.child
  split
  · exact hname
  · split <;> simp [hname]

theorem nul_mem_child_iff {directory name : String} :
    '\x00' ∈ (Path.child directory name).toList ↔
      '\x00' ∈ directory.toList ∨ '\x00' ∈ name.toList := by
  have hslash : '\x00' ∉ "/".toList := by decide
  unfold Path.child
  split
  · rename_i hempty
    have : directory = "" := by simpa using hempty
    simp [this]
  · split <;> simp only [String.toList_append, List.mem_append, hslash, or_false]

theorem nul_mem_child {directory name : String} (h : PlainName name) :
    '\x00' ∈ (Path.child directory name).toList ↔ '\x00' ∈ directory.toList := by
  rw [nul_mem_child_iff, or_iff_left h.nameable]

theorem isAbsolute_child {directory name : String} (h : '/' ∉ name.toList) :
    Path.isAbsolute (Path.child directory name) = Path.isAbsolute directory := by
  unfold Path.child
  by_cases hempty : directory = ""
  · subst hempty
    have hfirst : name.toList.head? ≠ some '/' := fun hhead =>
      h (List.mem_of_head? hhead)
    simp [Path.isAbsolute, hfirst]
  · obtain ⟨c, rest, hchars⟩ := List.exists_cons_of_ne_nil (l := directory.toList) (by simpa using hempty)
    rw [if_neg (by simpa using hempty)]
    split <;> simp [Path.isAbsolute, hchars]

theorem exists_locationOf_child (home : Location) (directory : String) {name : String}
    (h : PlainName name) : ∃ l, locationOf home (Path.child directory name) = l ++ [name] := by
  have hname : named [name] = [name] := Node.named_cons h.notStep []
  refine ⟨(if Path.isAbsolute directory then [] else home) ++ named (above directory), ?_⟩
  rw [locationOf, names_child directory h.oneName, isAbsolute_child h.oneName, Node.named_append, hname,
    List.append_assoc]

theorem start_child (tree : FileTree) {directory name : String} (h : '/' ∉ name.toList) :
    tree.start (Path.child directory name) = tree.start directory := by
  rw [start, start, isAbsolute_child h]

/-- A directory in which files can be made, and its location. -/
structure Opens (tree : FileTree) (directory : String) (l : Location) : Prop where
  nameable : '\x00' ∉ directory.toList
  walk : tree.root.walk (tree.start directory) (above directory) = .ok l
  isDirectory : tree.root.kindAt l = some true

theorem place_eq_ok {tree : FileTree} {path last : String} {parts : List String} {l : Location} :
    tree.place path parts = .ok (l, last) ↔
      path ≠ "" ∧ '\x00' ∉ path.toList ∧ ∃ before, parts = before ++ [last] ∧
        tree.root.walk (tree.start path) before = .ok l ∧ tree.root.kindAt l = some true := by
  unfold place
  by_cases hempty : path = ""
  · simp [hempty]
  · by_cases hnul : '\x00' ∈ path.toList
    · simp [hempty, hnul]
    · rw [if_neg (by simpa using hempty), if_neg (by simpa using hnul)]
      simp only [ne_eq, hempty, not_false_eq_true, hnul, true_and]
      cases hparts : parts.reverse with
      | nil => simp [List.reverse_eq_nil_iff.mp hparts]
      | cons name before =>
        have hsplit : parts = before.reverse ++ [name] := by
          rw [← List.reverse_reverse parts, hparts, List.reverse_cons]
        constructor
        · intro h
          cases hwalk : tree.root.walk (tree.start path) before.reverse with
          | error fault => simp [hwalk, bind, Except.bind] at h
          | ok m =>
            simp only [hwalk, bind, Except.bind] at h
            split at h
            · rename_i entries hentries
              cases h
              exact ⟨before.reverse, hsplit, hwalk, Node.kindAt_eq_true.mpr ⟨entries, hentries⟩⟩
            · cases h
        · intro hex
          obtain ⟨before', hbefore', hwalk, hdir⟩ := hex
          obtain ⟨rfl, hlast⟩ := List.append_inj' (hsplit.symm.trans hbefore') rfl
          obtain rfl : name = last := by simpa using hlast
          obtain ⟨entries, hentries⟩ := Node.kindAt_eq_true.mp hdir
          simp [hwalk, bind, Except.bind, hentries]

theorem place_child {tree : FileTree} {directory name last : String} {l : Location}
    (h : PlainName name) :
    tree.place (Path.child directory name) (names (Path.child directory name)) = .ok (l, last) ↔
      last = name ∧ tree.Opens directory l := by
  rw [place_eq_ok, nul_mem_child h, names_child directory h.oneName, start_child tree h.oneName]
  constructor
  · intro hparts
    obtain ⟨-, hnul, before, hbefore, hwalk, hdir⟩ := hparts
    obtain ⟨rfl, hlast⟩ := List.append_inj' hbefore rfl
    exact ⟨by simpa using hlast.symm, hnul, hwalk, hdir⟩
  · intro hparts
    obtain ⟨rfl, hopens⟩ := hparts
    exact ⟨child_ne_empty directory h, hopens.nameable, _, rfl, hopens.walk, hopens.isDirectory⟩

/-- A path to an entry leads to it through its directory, whatever the name. -/
theorem opens_of_resolve_child {tree : FileTree} {directory name : String} {m : Location}
    (hone : '/' ∉ name.toList) (hstep : isStep name = false)
    (h : tree.resolve (Path.child directory name) = .ok m) :
    ∃ l, tree.Opens directory l ∧ m = l ++ [name] ∧ (tree.root.kindAt m).isSome := by
  rw [resolve_eq_ok, nul_mem_child_iff, not_or, names_child directory hone, start_child tree hone,
    Node.walk_append_eq_ok] at h
  obtain ⟨-, ⟨hnul, -⟩, l, hwalk, hlast⟩ := h
  obtain ⟨hdir, next, hnext, hrest⟩ := Node.walk_cons_eq_ok.mp hlast
  obtain ⟨rfl, hthere⟩ := hnext.of_name hstep
  obtain rfl := Except.ok.inj hrest
  exact ⟨l, ⟨hnul, hwalk, hdir⟩, rfl, hthere⟩

theorem resolve_child {tree : FileTree} {directory name : String} {m : Location}
    (h : PlainName name) :
    tree.resolve (Path.child directory name) = .ok m ↔
      ∃ l, tree.Opens directory l ∧ m = l ++ [name] ∧ (tree.root.kindAt m).isSome := by
  refine ⟨opens_of_resolve_child h.oneName h.notStep, fun hex => ?_⟩
  obtain ⟨l, hopens, rfl, hthere⟩ := hex
  rw [resolve_eq_ok, nul_mem_child h, names_child directory h.oneName, start_child tree h.oneName,
    Node.walk_append_eq_ok]
  exact ⟨child_ne_empty directory h, hopens.nameable, l, hopens.walk,
    Node.walk_cons_eq_ok.mpr ⟨hopens.isDirectory, _, .down h.notStep hthere, rfl⟩⟩

theorem Opens.unique {tree : FileTree} {directory : String} {l m : Location}
    (hl : tree.Opens directory l) (hm : tree.Opens directory m) : l = m :=
  Except.ok.inj (hl.walk.symm.trans hm.walk)

theorem Opens.read?_child {tree : FileTree} {directory name : String} {l : Location}
    (hopens : tree.Opens directory l) (h : PlainName name) :
    tree.read? (Path.child directory name) = tree.root.fileAt (l ++ [name]) := by
  refine Option.ext ?_
  intro content
  rw [read?_eq_some]
  constructor
  · intro hex
    obtain ⟨m, hresolve, hcontent⟩ := hex
    obtain ⟨l', hopens', rfl, -⟩ := (resolve_child h).mp hresolve
    rwa [hopens.unique hopens']
  · intro hcontent
    exact ⟨_, (resolve_child h).mpr ⟨l, hopens, rfl, Node.isSome_kindAt_of_fileAt hcontent⟩, hcontent⟩

/-- A file is written under its name where its path leads, unless a directory has the
name. A new file needs a name that is not too long. -/
theorem write?_eq_some {tree written : FileTree} {path : String} {content : ByteArray} :
    tree.write? path content = some written ↔
      ∃ l name, tree.place path (names path) = .ok (l, name) ∧ isStep name = false ∧
        tree.root.kindAt (l ++ [name]) ≠ some true ∧
        ((tree.root.kindAt (l ++ [name])).isSome ∨ name.utf8ByteSize ≤ 255) ∧
        written = { tree with root := tree.root.modify (Node.put name (.file content)) l } := by
  unfold write?
  cases tree.place path (names path) with
  | error fault => simp
  | ok found =>
    obtain ⟨l, name⟩ := found
    simp only [Except.ok.injEq, Prod.mk.injEq, and_assoc, exists_and_left, exists_eq_left']
    cases isStep name with
    | true => simp
    | false =>
      simp only [Node.kindAt]
      cases tree.root.get? (l ++ [name]) with
      | none => simp [eq_comm]
      | some node => cases node <;> simp [Node.isDirectory, eq_comm]

theorem write?_child_eq_some {tree written : FileTree} {directory name : String}
    {content : ByteArray} (h : PlainName name) :
    tree.write? (Path.child directory name) content = some written ↔
      ∃ l, tree.Opens directory l ∧ tree.root.kindAt (l ++ [name]) ≠ some true ∧
        written = { tree with root := tree.root.modify (Node.put name (.file content)) l } := by
  rw [write?_eq_some]
  constructor
  · intro hex
    obtain ⟨l, last, hplace, -, hfree, -, hwritten⟩ := hex
    obtain ⟨rfl, hopens⟩ := (place_child h).mp hplace
    exact ⟨l, hopens, hfree, hwritten⟩
  · intro hex
    obtain ⟨l, hopens, hfree, hwritten⟩ := hex
    exact ⟨l, name, (place_child h).mpr ⟨rfl, hopens⟩, h.notStep, hfree, .inr h.short, hwritten⟩

end FileTree

end MemberAudit
