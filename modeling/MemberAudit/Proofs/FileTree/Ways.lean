/-
The way of a walk: where it comes through, the last location first (`Node.wayBack`). A
walk comes through each location between its start and its end (`mem_wayBack_of_walk`),
and through others too if it has steps up.

Going up a path as it is written is going back on the way of its walk: of the files with
some name that stand in the directories above a path, the one that is found first stands
in the last directory on the way that has one (`firstFile_ancestors`).
-/
import Mathlib.Data.List.Infix
import MemberAudit.Proofs.FileTree.Directories

namespace MemberAudit

theorem reverse_inits_concat {α : Type} (l : List α) (x : α) :
    (l ++ [x]).inits.reverse = (l ++ [x]) :: l.inits.reverse := by
  simp [List.inits_append, List.inits]

/-- Of the beginnings of a list, the longest first, the one that is found is the longest. -/
theorem find?_reverse_inits {α : Type} {P : List α → Bool} {l m : List α} :
    l.inits.reverse.find? P = some m ↔
      m <+: l ∧ P m = true ∧ ∀ n, n <+: l → m.length < n.length → P n = false := by
  induction l using List.reverseRecOn with
  | nil =>
    simp only [List.inits, List.reverse_singleton, List.find?_singleton, Option.ite_none_right_eq_some,
      Option.some.injEq, List.prefix_nil]
    constructor
    · rintro ⟨hP, rfl⟩
      exact ⟨rfl, hP, by simp⟩
    · rintro ⟨rfl, hP, -⟩
      exact ⟨hP, rfl⟩
  | append_singleton l x ih =>
    rw [reverse_inits_concat, List.find?_cons]
    simp only [List.prefix_concat_iff]
    cases hP : P (l ++ [x]) with
    | true =>
      simp only [Option.some.injEq]
      constructor
      · rintro rfl
        refine ⟨.inl rfl, hP, fun n hn hlt => ?_⟩
        have hle : n.length ≤ (l ++ [x]).length := by
          rcases hn with rfl | hn
          · exact Nat.le_refl _
          · exact (hn.trans (List.prefix_append l [x])).length_le
        omega
      · rintro ⟨hm, -, hlonger⟩
        rcases hm with rfl | hm
        · rfl
        · have hlt : m.length < (l ++ [x]).length := by
            rw [List.length_append, List.length_singleton]
            exact Nat.lt_succ_of_le hm.length_le
          rw [hlonger _ (.inl rfl) hlt] at hP
          cases hP
    | false =>
      rw [ih]
      constructor
      · rintro ⟨hm, hPm, hlonger⟩
        refine ⟨.inr hm, hPm, fun n hn hlt => ?_⟩
        rcases hn with rfl | hn
        · exact hP
        · exact hlonger n hn hlt
      · rintro ⟨hm, hPm, hlonger⟩
        rcases hm with rfl | hm
        · rw [hP] at hPm
          cases hPm
        · exact ⟨hm, hPm, fun n hn => hlonger n (.inr hn)⟩

namespace Node

/-- The locations that a walk comes through, the last first. -/
def wayBack (root : Node) (here : Location) (parts : List String) : List Location :=
  parts.inits.reverse.filterMap fun front => (root.walk here front).toOption

/-- Whether a directory has a file of some name. -/
def holds (root : Node) (name : String) (directory : Location) : Bool :=
  (root.fileAt (directory ++ [name])).isSome

theorem toOption_walk {root : Node} {here l : Location} {parts : List String} :
    (root.walk here parts).toOption = some l ↔ root.walk here parts = .ok l := by
  cases root.walk here parts <;> simp [Except.toOption]

/-- A walk along parts that name nothing ends where it starts. -/
theorem eq_of_walk_stays {root : Node} {here l : Location} {parts : List String}
    (hparts : ∀ part ∈ parts, part = "" ∨ part = ".") (h : root.walk here parts = .ok l) : l = here := by
  cases parts with
  | nil => exact (Except.ok.inj h).symm
  | cons part parts =>
    rw [walk_of_stays hparts (walk_cons_eq_ok.mp h).1] at h
    exact (Except.ok.inj h).symm

section Way

variable {root : Node} {here l m : Location} {part : String} {parts after : List String}
  {P : Location → Bool}

theorem mem_wayBack :
    m ∈ root.wayBack here parts ↔ ∃ front, front <+: parts ∧ root.walk here front = .ok m := by
  simp only [wayBack, List.mem_filterMap, List.mem_reverse, List.mem_inits, toOption_walk]

theorem wayBack_nil : root.wayBack here [] = [here] := rfl

theorem wayBack_append_singleton :
    root.wayBack here (parts ++ [part]) =
      (root.walk here (parts ++ [part])).toOption.toList ++ root.wayBack here parts := by
  rw [wayBack, reverse_inits_concat, List.filterMap_cons]
  cases (root.walk here (parts ++ [part])).toOption <;> rfl

/-- The end of a walk comes first on the way back. -/
theorem exists_wayBack_eq_cons (h : root.walk here parts = .ok l) :
    ∃ rest, root.wayBack here parts = l :: rest := by
  cases parts using List.reverseRecOn with
  | nil => exact ⟨[], by rw [wayBack_nil, Except.ok.inj h]⟩
  | append_singleton parts part =>
    rw [wayBack_append_singleton, toOption_walk.mpr h]
    exact ⟨_, rfl⟩

/-- Nothing else is found on a way that goes on without leaving its directory. -/
theorem find?_wayBack_stays (hafter : ∀ part ∈ after, part = "" ∨ part = ".")
    (h : root.walk here (parts ++ after) = .ok l) :
    (root.wayBack here (parts ++ after)).find? P = (root.wayBack here parts).find? P := by
  induction after using List.reverseRecOn generalizing l with
  | nil => rw [List.append_nil]
  | append_singleton after part ih =>
    have hstays := List.forall_mem_append.mp hafter
    rw [← List.append_assoc] at h ⊢
    obtain ⟨m, hm, hlast⟩ := walk_append_eq_ok.mp h
    obtain rfl := eq_of_walk_stays hstays.2 hlast
    obtain ⟨rest, hrest⟩ := exists_wayBack_eq_cons hm
    rw [wayBack_append_singleton, toOption_walk.mpr h, ← ih hstays.1 hm, hrest]
    simp only [Option.toList_some, List.singleton_append, List.find?_cons]
    cases P l <;> rfl

/-- What is found on the way back is where the longest part of the walk ends that leads to
such a place. -/
theorem find?_wayBack_eq_some (h : (root.wayBack here parts).find? P = some m) :
    ∃ front after, parts = front ++ after ∧ root.walk here front = .ok m ∧
      ∀ n ∈ root.wayBack m after, P n = true → n = m := by
  rw [wayBack, List.find?_filterMap, Option.bind_eq_some_iff] at h
  obtain ⟨front, hfind, hfront⟩ := h
  obtain ⟨⟨after, rfl⟩, -, hlonger⟩ := find?_reverse_inits.mp hfind
  refine ⟨front, after, rfl, toOption_walk.mp hfront, fun n hn hPn => ?_⟩
  obtain ⟨further, hfurther, hwalk⟩ := mem_wayBack.mp hn
  cases further with
  | nil => exact (Except.ok.inj hwalk).symm
  | cons part further =>
    have hreach : root.walk here (front ++ part :: further) = .ok n :=
      walk_append_eq_ok.mpr ⟨m, toOption_walk.mp hfront, hwalk⟩
    have hnone := hlonger (front ++ part :: further) ((List.prefix_append_right_inj front).mpr hfurther)
      (by simp)
    rw [toOption_walk.mpr hreach, Option.any_some, hPn] at hnone
    cases hnone

/-- A walk comes through each location between its start and its end. -/
theorem mem_wayBack_of_walk (h : root.walk here parts = .ok l) (hm : m <+: l)
    (hhere : m <+: here → m = here) : m ∈ root.wayBack here parts := by
  rw [mem_wayBack]
  induction parts generalizing here with
  | nil =>
    obtain rfl := Except.ok.inj h
    exact ⟨[], List.nil_prefix, by rw [hhere hm]; rfl⟩
  | cons part parts ih =>
    by_cases heq : m = here
    · exact ⟨[], List.nil_prefix, by rw [heq]; rfl⟩
    · have hout : ¬m <+: here := mt hhere heq
      obtain ⟨hdir, next, hnext, hwalk⟩ := walk_cons_eq_ok.mp h
      -- A step from outside of `m` is outside of it, or leads to it.
      have henter : m <+: next → m = next := by
        intro hmem
        cases hnext with
        | stay _ => exact absurd hmem hout
        | up => exact absurd (hmem.trans (List.dropLast_prefix here)) hout
        | down _ _ => exact (List.prefix_concat_iff.mp hmem).resolve_right hout
      obtain ⟨front, hfront, hreach⟩ := ih hwalk henter
      exact ⟨part :: front, List.cons_prefix_cons.mpr ⟨rfl, hfront⟩,
        walk_cons_eq_ok.mpr ⟨hdir, next, hnext, hreach⟩⟩

/-- A walk without a step up stays below its start and above its end. -/
theorem between_of_mem_wayBack (hup : ".." ∉ parts) (h : root.walk here parts = .ok l)
    (hm : m ∈ root.wayBack here parts) : here <+: m ∧ m <+: l := by
  obtain ⟨front, ⟨after, rfl⟩, hfront⟩ := mem_wayBack.mp hm
  rw [List.mem_append, not_or] at hup
  obtain ⟨m', hm', hafter⟩ := walk_append_eq_ok.mp h
  obtain rfl := Except.ok.inj (hfront.symm.trans hm')
  rw [eq_of_walk hup.2 hafter, eq_of_walk hup.1 hfront]
  exact ⟨List.prefix_append _ _, List.prefix_append _ _⟩

end Way
end Node

namespace FileTree

variable {tree : FileTree} {path parent name : String} {l : Location} {P : Location → Bool}

/-- The way back along a path is its end and then the way back along its parent. -/
theorem find?_wayBack_parent? (hparent : Path.parent? path = some parent)
    (h : tree.root.walk (tree.start path) (names path) = .ok l) :
    (tree.root.wayBack (tree.start path) (names path)).find? P =
      (l :: tree.root.wayBack (tree.start parent) (names parent)).find? P := by
  obtain ⟨front, between, last, after, rest, hsplits⟩ := Path.exists_splits_of_parent? hparent
  obtain ⟨hbetween, hafter⟩ := List.forall_mem_append.mp hsplits.unnamed
  have hbetween := stays_of_unnamed hbetween
  have hafter := stays_of_unnamed hafter
  have hrest := stays_of_unnamed hsplits.unnamedRest
  rw [start_of_splits hsplits, names_parent_of_splits hsplits]
  rw [names_of_splits hsplits] at h ⊢
  generalize front.map String.ofList = front at h ⊢
  generalize between.map String.ofList = between at h hbetween ⊢
  generalize after.map String.ofList = after at h hafter ⊢
  generalize rest.map String.ofList = rest at hrest ⊢
  rw [← List.append_assoc, List.append_cons] at h ⊢
  obtain ⟨l', hl', hstay⟩ := Node.walk_append_eq_ok.mp h
  obtain rfl := Node.eq_of_walk_stays hafter hstay
  obtain ⟨m, hm, hlast⟩ := Node.walk_append_eq_ok.mp hl'
  obtain ⟨m', hm', hbetween'⟩ := Node.walk_append_eq_ok.mp hm
  obtain rfl := Node.eq_of_walk_stays hbetween hbetween'
  have hdir := (Node.walk_cons_eq_ok.mp hlast).1
  have hfront : tree.root.walk (tree.start path) (front ++ rest) = .ok m :=
    Node.walk_append_eq_ok.mpr ⟨m, hm', Node.walk_of_stays hrest hdir⟩
  rw [Node.find?_wayBack_stays hafter h, Node.wayBack_append_singleton, Node.toOption_walk.mpr hl',
    Option.toList_some, List.singleton_append, List.find?_cons, List.find?_cons,
    Node.find?_wayBack_stays hbetween hm, Node.find?_wayBack_stays hrest hfront]

/-- A path without a parent does not leave its start. -/
theorem find?_wayBack_of_no_parent (hparent : Path.parent? path = none)
    (h : tree.root.walk (tree.start path) (names path) = .ok l) :
    l = tree.start path ∧
      (tree.root.wayBack (tree.start path) (names path)).find? P = [l].find? P := by
  have hstays : ∀ part ∈ names path, part = "" ∨ part = "." :=
    stays_of_unnamed (Path.unnamed_of_no_parent hparent)
  have hstart : (tree.root.wayBack (tree.start path) ([] ++ names path)).find? P =
      (tree.root.wayBack (tree.start path) []).find? P := Node.find?_wayBack_stays hstays h
  obtain rfl := Node.eq_of_walk_stays hstays h
  exact ⟨rfl, hstart⟩

theorem Opens.walk_names (hopens : tree.Opens path l) :
    tree.root.walk (tree.start path) (names path) = .ok l := by
  by_cases hempty : path = ""
  · subst hempty
    obtain ⟨rfl, hdir⟩ := opens_empty.mp hopens
    have hstays : ∀ part ∈ [""], part = "" ∨ part = "." := by simp
    exact Node.walk_of_stays hstays hdir
  · exact (resolve_eq_ok.mp ((opens_iff_resolve hempty).mp hopens).1).2.2

/-- The first file with some name in one of several directories. -/
def firstFile (tree : FileTree) (name : String) (directories : List String) : Option String :=
  (directories.map (Path.child · name)).find? tree.hasFile

/-- Where the first file is, of those directories that come after one that is there. -/
theorem map_resolve_firstFile_cons {directory : String} {directories : List String}
    (hname : PlainName name) (hopens : tree.Opens directory l) :
    (tree.firstFile name (directory :: directories)).map tree.resolve =
      if tree.root.holds name l then some (.ok (l ++ [name]))
      else (tree.firstFile name directories).map tree.resolve := by
  have hfile : tree.hasFile (Path.child directory name) = tree.root.holds name l := by
    rw [Bool.eq_iff_iff, hasFile_iff, hopens.read?_child hname, Node.holds, Option.isSome_iff_exists]
  rw [firstFile, List.map_cons, List.find?_cons, hfile]
  cases hholds : tree.root.holds name l with
  | false => rfl
  | true =>
    obtain ⟨content, hcontent⟩ := Option.isSome_iff_exists.mp hholds
    have hresolve : tree.resolve (Path.child directory name) = .ok (l ++ [name]) :=
      (resolve_child hname).mpr ⟨l, hopens, rfl, Node.isSome_kindAt_of_fileAt hcontent⟩
    simp [hresolve]

theorem firstFile_of_no_parent (hname : PlainName name) (hopens : tree.Opens path l)
    (hparent : Path.parent? path = none) :
    (tree.firstFile name [path]).map tree.resolve =
      ((tree.root.wayBack (tree.start path) (names path)).find? (tree.root.holds name)).map
        fun m => .ok (m ++ [name]) := by
  rw [map_resolve_firstFile_cons hname hopens,
    (find?_wayBack_of_no_parent hparent hopens.walk_names).2, List.find?_singleton]
  cases tree.root.holds name l <;> rfl

theorem firstFile_ancestorsWithin {steps : Nat} (hname : PlainName name) (hopens : tree.Opens path l)
    (hsteps : Path.parent? path = none ∨ (Path.parts path).length ≤ steps) :
    (tree.firstFile name (Path.ancestorsWithin steps path)).map tree.resolve =
      ((tree.root.wayBack (tree.start path) (names path)).find? (tree.root.holds name)).map
        fun m => .ok (m ++ [name]) := by
  induction steps generalizing path l with
  | zero =>
    have hparent := hsteps.resolve_right (by simp [Path.parts, Text.split_ne_nil])
    exact firstFile_of_no_parent hname hopens hparent
  | succ steps ih =>
    cases hparent : Path.parent? path with
    | none =>
      rw [Path.ancestorsWithin, hparent]
      exact firstFile_of_no_parent hname hopens hparent
    | some parent =>
      have hne : path ≠ "" := by
        rintro rfl
        cases hparent
      obtain ⟨above, habove⟩ := opens_parent ((opens_iff_resolve hne).mp hopens).1 hparent
      have hshorter : Path.parent? parent = none ∨ (Path.parts parent).length ≤ steps := by
        rw [hparent] at hsteps
        obtain ⟨front, between, last, after, rest, hsplits⟩ := Path.exists_splits_of_parent? hparent
        refine hsplits.shorter.symm.imp_right fun hrest => ?_
        have hlength := hsteps.resolve_left (by simp)
        rw [hsplits.pathParts] at hlength
        rw [hsplits.parentParts, hrest, List.append_nil]
        simp only [List.length_append, List.length_cons] at hlength
        omega
      rw [Path.ancestorsWithin, hparent, map_resolve_firstFile_cons hname hopens,
        find?_wayBack_parent? hparent hopens.walk_names, List.find?_cons, ih habove hshorter]
      cases tree.root.holds name l <;> rfl

/-- **The paths above a path lead back on the way of its walk:** the first file with some
name above a path is in the last directory on the way that has one. -/
theorem firstFile_ancestors (hname : PlainName name) (hopens : tree.Opens path l) :
    (tree.firstFile name (Path.ancestors path)).map tree.resolve =
      ((tree.root.wayBack (tree.start path) (names path)).find? (tree.root.holds name)).map
        fun m => .ok (m ++ [name]) :=
  firstFile_ancestorsWithin hname hopens (.inr (Nat.le_refl _))

end FileTree
end MemberAudit
