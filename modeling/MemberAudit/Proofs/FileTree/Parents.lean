/-
The paths above a path, as texts. A path goes on from its parent with one name and parts
that name nothing (`exists_splits_of_parent?`), so a directory has all its parents
(`hasDirectory_parent`) and a path without a step up has no parent with one
(`up_not_mem_ancestors`).
-/
import MemberAudit.Proofs.FileTree.Walks

namespace MemberAudit

/-! ## Splitting and joining -/

namespace Text

theorem split_join {sep : Char} {ps : List (List Char)} (hne : ps ≠ []) (h : ∀ p ∈ ps, sep ∉ p) :
    split sep (join sep ps) = ps := by
  induction ps with
  | nil => exact absurd rfl hne
  | cons p ps ih =>
    have hp := split_of_not_mem (h p List.mem_cons_self)
    cases ps with
    | nil => exact hp
    | cons p' ps =>
      rw [join, split_append_sep, hp, ih (by simp) fun q hq => h q (List.mem_cons_of_mem _ hq)]
      · rfl
      · simp

theorem mem_join {sep c : Char} {ps : List (List Char)} (hc : c ≠ sep) :
    c ∈ join sep ps ↔ ∃ p ∈ ps, c ∈ p := by
  induction ps with
  | nil => simp [join]
  | cons p ps ih =>
    cases ps with
    | nil => simp [join]
    | cons p' ps => simp [join, ih, hc]

/-- Pieces that are joined end with the last one. -/
theorem suffix_join (sep : Char) (ps : List (List Char)) (p : List Char) : p <:+ join sep (ps ++ [p]) := by
  induction ps with
  | nil => exact List.suffix_rfl
  | cons q ps ih =>
    have hjoin : join sep (q :: (ps ++ [p])) = q ++ sep :: join sep (ps ++ [p]) := by
      cases ps <;> rfl
    rw [List.cons_append, hjoin]
    exact ih.trans ((List.suffix_cons sep _).trans (List.suffix_append ..))

end Text

/-! ## Parents -/

namespace Path

theorem dropNamed_eq_some {ps rest : List (List Char)} (h : dropNamed ps = some rest) :
    ∃ unnamed name, (∀ part ∈ unnamed, isNamed part = false) ∧ isNamed name = true ∧
      ps = unnamed ++ name :: rest := by
  induction ps with
  | nil => cases h
  | cons p ps ih =>
    simp only [dropNamed] at h
    split at h
    · rename_i hnamed
      cases h
      exact ⟨[], p, by simp, hnamed, rfl⟩
    · rename_i hp
      obtain ⟨unnamed, name, hunnamed, hnamed, hps⟩ := ih h
      exact ⟨p :: unnamed, name, List.forall_mem_cons.mpr ⟨by simpa using hp, hunnamed⟩, hnamed,
        by rw [hps, List.cons_append]⟩

theorem dropNamed_eq_none {ps : List (List Char)} (h : dropNamed ps = none) :
    ∀ part ∈ ps, isNamed part = false := by
  induction ps with
  | nil => simp
  | cons p ps ih =>
    simp only [dropNamed] at h
    split at h
    · cases h
    · rename_i hp
      exact List.forall_mem_cons.mpr ⟨by simpa using hp, ih h⟩

theorem exists_append_trimUnnamed (ps : List (List Char)) :
    ∃ unnamed, (∀ part ∈ unnamed, isNamed part = false) ∧ ps = unnamed ++ trimUnnamed ps := by
  induction ps with
  | nil => exact ⟨[], by simp, rfl⟩
  | cons p ps ih =>
    simp only [trimUnnamed]
    split
    · exact ⟨[], by simp, rfl⟩
    · rename_i hp
      obtain ⟨unnamed, hunnamed, hps⟩ := ih
      exact ⟨p :: unnamed, List.forall_mem_cons.mpr ⟨by simpa using hp, hunnamed⟩,
        by rw [List.cons_append, ← hps]⟩

/-- What is left of the parts after the first when the last name is dropped. -/
theorem exists_append_of_reverse {rest before : List (List Char)}
    (h : dropNamed rest.reverse = some before) :
    ∃ between name after, (∀ part ∈ between ++ after, isNamed part = false) ∧ isNamed name = true ∧
      rest = (trimUnnamed before).reverse ++ (between ++ name :: after) := by
  obtain ⟨after, name, hafter, hnamed, hrest⟩ := dropNamed_eq_some h
  obtain ⟨between, hbetween, hbefore⟩ := exists_append_trimUnnamed before
  refine ⟨between.reverse, name, after.reverse, ?_, hnamed, ?_⟩
  · intro part hpart
    rcases List.mem_append.mp hpart with hpart | hpart
    · exact hbetween part (List.mem_reverse.mp hpart)
    · exact hafter part (List.mem_reverse.mp hpart)
  · have hreverse := congrArg List.reverse hrest
    rw [List.reverse_reverse, hbefore] at hreverse
    simpa using hreverse

theorem not_mem_of_mem_parts {path : String} {part : List Char} (h : part ∈ parts path) :
    '/' ∉ part :=
  Text.not_mem_of_mem_split h

theorem parts_ofParts {ps : List (List Char)} (hne : ps ≠ []) (h : ∀ p ∈ ps, '/' ∉ p) :
    parts (ofParts ps) = ps := by
  rw [parts, ofParts, String.toList_ofList, Text.split_join hne h]

theorem ofParts_parts (path : String) : ofParts (parts path) = path := by
  rw [ofParts, parts, Text.join_split, String.ofList_toList]

theorem mem_toList_iff {path : String} {c : Char} (hc : c ≠ '/') :
    c ∈ path.toList ↔ ∃ part ∈ parts path, c ∈ part := by
  rw [← Text.mem_join hc, parts, Text.join_split]

/-- A path is absolute if its first part is empty, unless that is all of it. -/
theorem isAbsolute_eq {path : String} {first : List Char} {rest : List (List Char)}
    (h : parts path = first :: rest) : isAbsolute path = decide (first = [] ∧ rest ≠ []) := by
  have hfirst : '/' ∉ first := not_mem_of_mem_parts (h ▸ List.mem_cons_self)
  rw [← ofParts_parts path, h, ofParts, isAbsolute, String.toList_ofList]
  cases first with
  | nil => cases rest <;> simp [Text.join]
  | cons c first =>
    have hc : c ≠ '/' := fun heq => hfirst (heq ▸ List.mem_cons_self)
    cases rest <;> simp [Text.join, hc]

/-- A path and its parent, in parts: after a front that both have, the path goes on with one
name, and whatever else there is names nothing. -/
structure Splits (path parent : String) (front between : List (List Char)) (name : List Char)
    (after rest : List (List Char)) : Prop where
  pathParts : parts path = front ++ (between ++ name :: after)
  parentParts : parts parent = front ++ rest
  nameNe : name ≠ []
  unnamed : ∀ part ∈ between ++ after, isNamed part = false
  unnamedRest : ∀ part ∈ rest, isNamed part = false
  absolute : isAbsolute parent = isAbsolute path
  /-- The parent has fewer parts, unless it is the last one. -/
  shorter : rest = [] ∨ parent? parent = none

theorem isNamed_ne_nil {part : List Char} (h : isNamed part = true) : part ≠ [] := by
  rintro rfl
  cases h

theorem isNamed_nil : isNamed [] = false := rfl

/-- A parent that is a path up to a slash. -/
theorem splits_ofParts {path : String} {first : List Char} {rest before : List (List Char)}
    (hpath : parts path = first :: rest) (hbefore : dropNamed rest.reverse = some before)
    (hne : first ≠ [] ∨ trimUnnamed before ≠ []) :
    ∃ between name after,
      Splits path (ofParts (first :: (trimUnnamed before).reverse)) (first :: (trimUnnamed before).reverse)
        between name after [] := by
  obtain ⟨between, name, after, hunnamed, hnamed, hrest⟩ := exists_append_of_reverse hbefore
  have hfront : parts path = (first :: (trimUnnamed before).reverse) ++ (between ++ name :: after) := by
    rw [hpath, hrest, List.cons_append]
  have hparent : parts (ofParts (first :: (trimUnnamed before).reverse)) =
      first :: (trimUnnamed before).reverse :=
    parts_ofParts (by simp) fun part hpart =>
      not_mem_of_mem_parts (hfront ▸ List.mem_append_left _ hpart)
  refine ⟨between, name, after, hfront, by rw [hparent, List.append_nil], isNamed_ne_nil hnamed,
    hunnamed, by simp, ?_, .inl rfl⟩
  rw [isAbsolute_eq hparent, isAbsolute_eq hpath]
  have hrestNe : rest ≠ [] := by
    rw [hrest]
    simp
  cases first with
  | nil => simpa [hrestNe] using hne
  | cons c first => simp

/-- A parent is the path up to a slash before its last name, or empty, or the root. -/
theorem exists_splits_of_parent? {path parent : String} (h : parent? path = some parent) :
    ∃ front between name after rest, Splits path parent front between name after rest := by
  unfold parent? at h
  split at h
  · cases h
  · rename_i rest hpath
    split at h
    · rename_i habsolute
      obtain ⟨before, hbefore, h⟩ := Option.map_eq_some_iff.mp h
      split at h
      · rename_i htrim
        obtain ⟨between, name, after, hunnamed, hnamed, hrest⟩ := exists_append_of_reverse hbefore
        rw [htrim] at hrest
        refine ⟨[], [] :: between, name, after, [[], []], ?_, ?_, isNamed_ne_nil hnamed,
          List.forall_mem_cons.mpr ⟨rfl, hunnamed⟩, by simp [isNamed_nil], ?_, ?_⟩
        · rw [hpath, hrest]
          rfl
        · rw [← h]
          decide
        · rw [← h, habsolute]
          decide
        · rw [← h]
          exact .inr (by decide)
      · rename_i hne
        cases h
        obtain ⟨between, name, after, hsplits⟩ := splits_ofParts hpath hbefore (.inr hne)
        exact ⟨_, between, name, after, [], hsplits⟩
    · cases h
  · rename_i first rest hfirst hpath
    split at h
    · rename_i before hbefore
      cases h
      obtain ⟨between, name, after, hsplits⟩ := splits_ofParts hpath hbefore (.inl hfirst)
      exact ⟨_, between, name, after, [], hsplits⟩
    · rename_i hnone
      cases h
      have hunnamed := dropNamed_eq_none hnone
      refine ⟨[], [], first, rest, [[]], hpath, rfl, hfirst,
        fun part hpart => hunnamed part (List.mem_reverse.mpr hpart), by simp [isNamed_nil], ?_, .inr rfl⟩
      rw [isAbsolute_eq hpath, decide_eq_false fun hempty => hfirst hempty.1]
      decide

/-- A path without a parent names nothing. -/
theorem unnamed_of_no_parent {path : String} (h : parent? path = none) :
    ∀ part ∈ parts path, isNamed part = false := by
  unfold parent? at h
  split at h
  · rename_i hpath
    simp [hpath]
  · rename_i rest hpath
    have hrest : ∀ part ∈ rest, isNamed part = false := by
      split at h
      · rw [Option.map_eq_none_iff] at h
        exact fun part hpart => dropNamed_eq_none h part (List.mem_reverse.mpr hpart)
      · rename_i hrelative
        have : rest = [] := by simpa [isAbsolute_eq hpath] using hrelative
        simp [this]
    rw [hpath]
    exact List.forall_mem_cons.mpr ⟨rfl, hrest⟩
  · split at h <;> cases h

end Path

namespace FileTree

/-- A path that leads somewhere goes through a directory, where it starts. -/
theorem kindAt_start_of_resolve {tree : FileTree} {path : String} {l : Location}
    (h : tree.resolve path = .ok l) : tree.root.kindAt (tree.start path) = some true := by
  have hwalk := (resolve_eq_ok.mp h).2.2
  have hnames : names path ≠ [] := by simp [names, Path.parts, Text.split_ne_nil]
  obtain ⟨part, rest, hparts⟩ := List.exists_cons_of_ne_nil hnames
  rw [hparts] at hwalk
  exact (Node.walk_cons_eq_ok.mp hwalk).1

theorem stays_of_unnamed {ps : List (List Char)} (h : ∀ part ∈ ps, Path.isNamed part = false) :
    ∀ part ∈ ps.map String.ofList, part = "" ∨ part = "." := by
  intro part hpart
  obtain ⟨chars, hmem, rfl⟩ := List.mem_map.mp hpart
  by_cases hempty : chars = []
  · exact .inl (hempty ▸ rfl)
  · have hdot : chars = ['.'] := by simpa [Path.isNamed, hempty] using h chars hmem
    exact .inr (hdot ▸ rfl)

section Splitting

variable {path parent : String} {front between after rest : List (List Char)} {name : List Char}

theorem names_of_splits (h : Path.Splits path parent front between name after rest) :
    names path = front.map String.ofList ++
      (between.map String.ofList ++ String.ofList name :: after.map String.ofList) := by
  rw [names, h.pathParts]
  simp

theorem names_parent_of_splits (h : Path.Splits path parent front between name after rest) :
    names parent = front.map String.ofList ++ rest.map String.ofList := by
  rw [names, h.parentParts, List.map_append]

theorem start_of_splits (h : Path.Splits path parent front between name after rest) (tree : FileTree) :
    tree.start parent = tree.start path := by
  rw [start, start, h.absolute]

theorem nul_mem_of_splits (h : Path.Splits path parent front between name after rest)
    (hnul : '\x00' ∈ parent.toList) : '\x00' ∈ path.toList := by
  obtain ⟨part, hpart, hmem⟩ := (Path.mem_toList_iff (by decide)).mp hnul
  rw [h.parentParts, List.mem_append] at hpart
  rcases hpart with hpart | hpart
  · exact (Path.mem_toList_iff (by decide)).mpr ⟨part, h.pathParts ▸ List.mem_append_left _ hpart, hmem⟩
  · have hunnamed := h.unnamedRest part hpart
    by_cases hempty : part = []
    · simp [hempty] at hmem
    · have hdot : part = ['.'] := by simpa [Path.isNamed, hempty] using hunnamed
      simp [hdot] at hmem

end Splitting

theorem start_parent? {path parent : String} (h : Path.parent? path = some parent) (tree : FileTree) :
    tree.start parent = tree.start path := by
  obtain ⟨_, _, _, _, _, hsplits⟩ := Path.exists_splits_of_parent? h
  exact start_of_splits hsplits tree

/-- The parent of a path is found on the way to its last name. -/
theorem exists_front_of_parent? {path parent : String} (hparent : Path.parent? path = some parent)
    (hne : parent ≠ "") :
    ∃ front back, names path = front ++ back ∧ (∃ part ∈ back, part ≠ "") ∧
      ∀ {tree : FileTree} {m : Location}, '\x00' ∉ path.toList →
        tree.root.walk (tree.start path) front = .ok m → tree.root.kindAt m = some true →
          tree.hasDirectory parent = true := by
  obtain ⟨front, between, name, after, rest, hsplits⟩ := Path.exists_splits_of_parent? hparent
  refine ⟨_, _, names_of_splits hsplits,
    ⟨String.ofList name, by simp, by simpa using hsplits.nameNe⟩, ?_⟩
  intro tree m hnul hwalk hdir
  refine hasDirectory_iff.mpr ⟨m, resolve_eq_ok.mpr ⟨hne, mt (nul_mem_of_splits hsplits) hnul, ?_⟩, hdir⟩
  rw [names_parent_of_splits hsplits, start_of_splits hsplits, Node.walk_append_eq_ok]
  exact ⟨m, hwalk, Node.walk_of_stays (stays_of_unnamed hsplits.unnamedRest) hdir⟩

/-- What is there has its parent. -/
theorem hasDirectory_parent {tree : FileTree} {path parent : String} {l : Location}
    (h : tree.resolve path = .ok l) (hparent : Path.parent? path = some parent)
    (hne : parent ≠ "") : tree.hasDirectory parent = true := by
  obtain ⟨-, hnul, hwalk⟩ := resolve_eq_ok.mp h
  obtain ⟨front, back, hnames, ⟨part, hpart, -⟩, hfront⟩ := exists_front_of_parent? hparent hne
  obtain ⟨part, rest, rfl⟩ := List.exists_cons_of_ne_nil (List.ne_nil_of_mem hpart)
  rw [hnames, Node.walk_append_eq_ok] at hwalk
  obtain ⟨m, hm, hrest⟩ := hwalk
  exact hfront hnul hm (Node.walk_cons_eq_ok.mp hrest).1

theorem up_not_mem_parent {path parent : String} (hup : ".." ∉ names path)
    (h : Path.parent? path = some parent) : ".." ∉ names parent := by
  obtain ⟨front, between, name, after, rest, hsplits⟩ := Path.exists_splits_of_parent? h
  rw [names_parent_of_splits hsplits, List.mem_append, not_or]
  refine ⟨fun hmem => hup (names_of_splits hsplits ▸ List.mem_append_left _ hmem), fun hmem => ?_⟩
  exact absurd (stays_of_unnamed hsplits.unnamedRest _ hmem) (by decide)

theorem up_not_mem_ancestors {path : String} (hup : ".." ∉ names path) :
    ∀ above ∈ Path.ancestors path, ".." ∉ names above := by
  unfold Path.ancestors
  generalize (Path.parts path).length = steps
  induction steps generalizing path with
  | zero =>
    intro above habove
    obtain rfl := List.mem_singleton.mp habove
    exact hup
  | succ steps ih =>
    intro above habove
    rcases List.mem_cons.mp habove with rfl | habove
    · exact hup
    · split at habove
      · cases habove
      · rename_i parent hparent
        exact ih (up_not_mem_parent hup hparent) above habove

theorem up_not_mem_above {directory : String} (hup : ".." ∉ names directory) :
    ".." ∉ above directory := by
  unfold above
  split
  · simp
  · split
    · exact fun hmem => hup (List.dropLast_subset _ hmem)
    · exact hup

theorem up_not_mem_child {directory name : String} (hup : ".." ∉ names directory)
    (h : PlainName name) : ".." ∉ names (Path.child directory name) := by
  have hname : name ≠ ".." := by
    rintro rfl
    cases h.notStep
  rw [names_child directory h.oneName, List.mem_append, List.mem_singleton, not_or]
  exact ⟨up_not_mem_above hup, hname.symm⟩

end FileTree

end MemberAudit
