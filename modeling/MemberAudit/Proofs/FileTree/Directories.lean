/-
Making directories. A step adds one directory and nothing else (`Grown`,
`createDirectory_leads`). How a directory is made with those above it is told once
(`CreatesAll`), with one case for each end: it says whether the directory is there
afterwards (`createAll_hasDirectory`), one that is there is left as it is
(`createAll_of_hasDirectory`), and what was made is left when it is made again
(`createAll_again`).
-/
import MemberAudit.Proofs.FileTree.Parents

namespace MemberAudit

/-! ## What is elsewhere -/

namespace Node

theorem kindAt_eq_map_content? (node : Node) (l : Location) :
    node.kindAt l = ((node.get? l).map content?).map Option.isNone := by
  unfold kindAt
  cases node.get? l with
  | none => rfl
  | some found => cases found <;> rfl

theorem fileAt_eq_map_content? (node : Node) (l : Location) :
    node.fileAt l = ((node.get? l).map content?).join := by
  unfold fileAt
  cases node.get? l <;> rfl

/-- A change in a directory that leaves it a directory shows nowhere but below it. -/
theorem content?_get?_modify {f : Node → Node} (hf : ∀ node : Node, (f node).content? = node.content?)
    {l m : Location} (h : ∀ name rest, m ≠ l ++ name :: rest) (node : Node) :
    ((modify f l node).get? m).map content? = (node.get? m).map content? := by
  by_cases hl : l <+: m
  · obtain ⟨rest, rfl⟩ := hl
    cases rest with
    | nil =>
      rw [List.append_nil, get?_modify]
      cases node.get? l <;> simp [hf]
    | cons name rest => exact absurd rfl (h name rest)
  · by_cases hm : m <+: l
    · obtain ⟨rest, rfl⟩ := hm
      rw [get?_modify_of_append]
      cases rest with
      | nil => exact absurd (by simp) hl
      | cons name rest =>
        cases node.get? m with
        | none => rfl
        | some found => cases found <;> rfl
    · rw [get?_modify_elsewhere f hl hm]

theorem content?_put (name : String) (entry node : Node) :
    (put name entry node).content? = node.content? := by
  cases node <;> rfl

theorem content?_keepEntries (keep : String → Node → Bool) (node : Node) :
    (keepEntries keep node).content? = node.content? := by
  cases node <;> rfl

/-- What is found below a directory in which an entry was put. -/
theorem get?_modify_put {node : Node} {l : Location} (h : node.kindAt l = some true)
    (name key : String) (entry : Node) (rest : Location) :
    (modify (put name entry) l node).get? (l ++ key :: rest) =
      if key = name then entry.get? rest else node.get? (l ++ key :: rest) := by
  obtain ⟨entries, hentries⟩ := kindAt_eq_true.mp h
  rw [get?_modify_append, get?_append, hentries, Option.map_some, Option.bind_some, Option.bind_some,
    get?, child?_put name key entry rfl]
  split <;> rfl

/-- Putting an entry into a directory shows nowhere but at the entry and below it. -/
theorem content?_get?_modify_put {node : Node} {l m : Location} {name : String}
    (h : node.kindAt l = some true) (entry : Node) (hm : ∀ rest, m ≠ l ++ name :: rest) :
    ((modify (put name entry) l node).get? m).map content? = (node.get? m).map content? := by
  by_cases hbelow : ∃ key rest, m = l ++ key :: rest
  · obtain ⟨key, rest, rfl⟩ := hbelow
    have hkey : key ≠ name := fun heq => hm rest (heq ▸ rfl)
    rw [get?_modify_put h, if_neg hkey]
  · exact content?_get?_modify (content?_put _ _) (fun key rest heq => hbelow ⟨key, rest, heq⟩) node

/-- What is found below a directory from which entries were taken. -/
theorem get?_modify_keepEntries {node : Node} (hwf : node.WellFormed) {l : Location}
    (keep : String → Node → Bool) (key : String) (rest : Location) :
    (modify (keepEntries keep) l node).get? (l ++ key :: rest) =
      ((node.get? (l ++ [key])).filter (keep key)).bind (·.get? rest) := by
  rw [get?_modify_append, get?_append]
  cases hget : node.get? l with
  | none => rfl
  | some found =>
    rw [Option.map_some, Option.bind_some, Option.bind_some, get?_singleton, get?]
    cases found with
    | file content => rfl
    | directory entries =>
      have hnodup := (wellFormed_directory.mp (hwf.get? hget)).1
      rw [keepEntries, child?, child?, lookup_filter hnodup]

end Node

/-! ## Growth -/

/-- A tree to which directories were added, and nothing else. -/
structure Grown (before after : Node) : Prop where
  fileAt : ∀ l, after.fileAt l = before.fileAt l
  kindAt : ∀ l kind, before.kindAt l = some kind → after.kindAt l = some kind
  wellFormed : before.WellFormed → after.WellFormed

namespace Grown

theorem refl (node : Node) : Grown node node :=
  ⟨fun _ => rfl, fun _ _ h => h, fun h => h⟩

theorem trans {a b c : Node} (hab : Grown a b) (hbc : Grown b c) : Grown a c :=
  ⟨fun l => (hbc.fileAt l).trans (hab.fileAt l), fun l kind h => hbc.kindAt l kind (hab.kindAt l kind h),
    fun h => hbc.wellFormed (hab.wellFormed h)⟩

/-- Putting an empty directory where nothing was. -/
theorem put {node : Node} {l : Location} {name : String} (hdir : node.kindAt l = some true)
    (hnew : node.get? (l ++ [name]) = none) :
    Grown node (node.modify (Node.put name (.directory [])) l) := by
  have hnone : ∀ rest, node.get? (l ++ name :: rest) = none := fun rest => by
    rw [List.append_cons, Node.get?_append, hnew]
    rfl
  constructor
  · intro m
    by_cases hm : ∃ rest, m = l ++ name :: rest
    · obtain ⟨rest, rfl⟩ := hm
      rw [Node.fileAt, Node.fileAt, hnone, Node.get?_modify_put hdir, if_pos rfl]
      cases rest <;> rfl
    · rw [Node.fileAt_eq_map_content?, Node.fileAt_eq_map_content?,
        Node.content?_get?_modify_put hdir _ fun rest heq => hm ⟨rest, heq⟩]
  · intro m kind hkind
    by_cases hm : ∃ rest, m = l ++ name :: rest
    · obtain ⟨rest, rfl⟩ := hm
      rw [Node.kindAt, hnone] at hkind
      cases hkind
    · rwa [Node.kindAt_eq_map_content?, Node.content?_get?_modify_put hdir _ fun rest heq => hm ⟨rest, heq⟩,
        ← Node.kindAt_eq_map_content?]
  · exact Node.WellFormed.modify_put .empty

end Grown

/-! ## Making directories -/

namespace FileTree

open Node (walk)

/-- The parts of a path without the empty ones at its end. -/
theorem exists_names_eq (path : String) :
    ∃ k, names path = ((names path).reverse.dropWhile (· = "")).reverse ++ List.replicate k "" := by
  generalize names path = parts
  have h := List.takeWhile_append_dropWhile (p := fun part => decide (part = "")) (l := parts.reverse)
  refine ⟨(parts.reverse.takeWhile (· = "")).length, ?_⟩
  have hempty : parts.reverse.takeWhile (· = "") =
      List.replicate (parts.reverse.takeWhile (· = "")).length "" := by
    refine List.eq_replicate_iff.mpr ⟨rfl, ?_⟩
    intro part hpart
    simpa using List.all_eq_true.mp List.all_takeWhile part hpart
  rw [← List.reverse_replicate, ← hempty, ← List.reverse_append, h, List.reverse_reverse]

theorem createDirectory_eq_ok {tree made : FileTree} {path : String}
    (h : tree.createDirectory path = .ok made) :
    ∃ before name l k, path ≠ "" ∧ '\x00' ∉ path.toList ∧
      names path = before ++ name :: List.replicate k "" ∧ isStep name = false ∧
      walk tree.root (tree.start path) before = .ok l ∧ tree.root.kindAt l = some true ∧
      tree.root.get? (l ++ [name]) = none ∧
      made = { tree with root := tree.root.modify (Node.put name (.directory [])) l } := by
  unfold createDirectory at h
  cases hplace : tree.place path ((names path).reverse.dropWhile (· = "")).reverse with
  | error fault => simp [hplace, bind, Except.bind] at h
  | ok found =>
    obtain ⟨l, name⟩ := found
    obtain ⟨hne, hnul, before, hbefore, hwalk, hdir⟩ := place_eq_ok.mp hplace
    obtain ⟨k, hk⟩ := exists_names_eq path
    simp only [hplace, bind, Except.bind] at h
    split at h
    · cases h
    · rename_i hstep
      split at h
      · cases h
      · rename_i hnew
        split at h
        · cases h
        · cases h
          refine ⟨before, name, l, k, hne, hnul, ?_, by simpa using hstep, hwalk, hdir,
            by simpa using hnew, rfl⟩
          rw [hk, hbefore, List.append_assoc]
          rfl

theorem createDirectory_grown {tree made : FileTree} {path : String}
    (h : tree.createDirectory path = .ok made) : Grown tree.root made.root ∧ made.home = tree.home := by
  obtain ⟨_, _, _, _, _, _, _, _, _, hdir, hnew, rfl⟩ := createDirectory_eq_ok h
  exact ⟨Grown.put hdir hnew, rfl⟩

/-- A path leads to the same place in a tree that has grown. -/
theorem resolve_of_grown {before after : FileTree} {path : String} {m : Location}
    (hgrown : Grown before.root after.root) (hhome : after.home = before.home)
    (h : before.resolve path = .ok m) : after.resolve path = .ok m := by
  obtain ⟨hne, hnul, hwalk⟩ := resolve_eq_ok.mp h
  have hstart : after.start path = before.start path := start_eq hhome path
  exact resolve_eq_ok.mpr ⟨hne, hnul, hstart ▸ Node.walk_mono hgrown.kindAt hwalk⟩

/-- A directory that was made is where its path leads, it is new, and it shows nowhere
else. -/
theorem createDirectory_leads {tree made : FileTree} {path : String}
    (h : tree.createDirectory path = .ok made) :
    ∃ l, made.resolve path = .ok l ∧ made.root.kindAt l = some true ∧ tree.root.get? l = none ∧
      ∀ m, m ≠ l → made.root.kindAt m = tree.root.kindAt m := by
  have hgrown := (createDirectory_grown h).1
  obtain ⟨before, name, l, k, hne, hnul, hnames, hstep, hwalk, hdir, hnew, rfl⟩ :=
    createDirectory_eq_ok h
  have hmade : Node.kindAt (tree.root.modify (Node.put name (.directory [])) l) (l ++ [name]) =
      some true := by
    rw [Node.kindAt, Node.get?_modify_put hdir, if_pos rfl]
    rfl
  refine ⟨l ++ [name], resolve_eq_ok.mpr ⟨hne, hnul, ?_⟩, hmade, hnew, ?_⟩
  · rw [hnames, Node.walk_append_eq_ok]
    exact ⟨l, Node.walk_mono hgrown.kindAt hwalk, Node.walk_cons_eq_ok.mpr
      ⟨hgrown.kindAt l true hdir, _, .down hstep (by rw [hmade]; rfl),
        Node.walk_replicate_empty hmade k⟩⟩
  · intro m hm
    by_cases hbelow : ∃ rest, m = l ++ name :: rest
    · obtain ⟨rest, rfl⟩ := hbelow
      have hrest : rest ≠ [] := by
        rintro rfl
        exact hm rfl
      obtain ⟨key, rest, rfl⟩ := List.exists_cons_of_ne_nil hrest
      rw [Node.kindAt, Node.kindAt, Node.get?_modify_put hdir, if_pos rfl, List.append_cons,
        Node.get?_append, hnew]
      rfl
    · rw [Node.kindAt_eq_map_content?, Node.kindAt_eq_map_content?,
        Node.content?_get?_modify_put hdir _ fun rest heq => hbelow ⟨rest, heq⟩]

theorem hasDirectory_of_createDirectory {tree made : FileTree} {path : String}
    (h : tree.createDirectory path = .ok made) : made.hasDirectory path = true := by
  obtain ⟨l, hresolve, hdir, -, -⟩ := createDirectory_leads h
  exact hasDirectory_iff.mpr ⟨l, hresolve, hdir⟩

/-- A directory that is there cannot be made. -/
theorem createDirectory_of_hasDirectory {tree : FileTree} {path : String}
    (h : tree.hasDirectory path = true) : tree.createDirectory path = .error .occupied := by
  obtain ⟨m, hresolve, hm⟩ := hasDirectory_iff.mp h
  obtain ⟨hne, hnul, hwalk⟩ := resolve_eq_ok.mp hresolve
  obtain ⟨k, hk⟩ := exists_names_eq path
  rw [hk] at hwalk
  unfold createDirectory
  cases hparts : ((names path).reverse.dropWhile (· = "")) with
  | nil => simp [place, hne, hnul, bind, Except.bind]
  | cons name before =>
    rw [hparts, List.reverse_cons, List.append_assoc, Node.walk_append_eq_ok] at hwalk
    obtain ⟨l, hl, hrest⟩ := hwalk
    obtain ⟨hdir, next, hnext, -⟩ := Node.walk_cons_eq_ok.mp hrest
    have hplace : tree.place path (name :: before).reverse = .ok (l, name) :=
      place_eq_ok.mpr ⟨hne, hnul, before.reverse, List.reverse_cons, hl, hdir⟩
    simp only [hplace, bind, Except.bind]
    by_cases hstep : isStep name = true
    · simp [hstep]
    · obtain ⟨rfl, hthere⟩ := hnext.of_name (by simpa using hstep)
      rw [Node.kindAt, Option.isSome_map] at hthere
      simp [hstep, hthere]

theorem hasDirectory_of_missing {tree : FileTree} {path : String}
    (h : tree.createDirectory path = .error .missing) : tree.hasDirectory path = false := by
  cases hhas : tree.hasDirectory path with
  | false => rfl
  | true =>
    rw [createDirectory_of_hasDirectory hhas] at h
    cases h

/-- A directory is made in its parent. -/
theorem hasDirectory_parent_of_createDirectory {tree made : FileTree} {path parent : String}
    (h : tree.createDirectory path = .ok made) (hparent : Path.parent? path = some parent)
    (hne : parent ≠ "") : tree.hasDirectory parent = true := by
  obtain ⟨before, name, l, k, -, hnul, hpath, -, hwalk, hdir, -, -⟩ := createDirectory_eq_ok h
  obtain ⟨front, back, hnames, ⟨part, hpart, hpart'⟩, hfront⟩ := exists_front_of_parent? hparent hne
  obtain ⟨between, hbetween⟩ : ∃ between, before = front ++ between := by
    rcases List.append_eq_append_iff.mp (hpath.symm.trans hnames) with hlonger | hshorter
    · obtain ⟨beyond, hfront, hback⟩ := hlonger
      cases beyond with
      | nil => exact ⟨[], by rw [hfront]; simp⟩
      | cons first beyond =>
        -- All that follows the last name is empty, and so is the part.
        have hempty : part ∈ List.replicate k "" := by
          rw [(List.cons.inj hback).2]
          exact List.mem_append_right _ hpart
        exact absurd (List.eq_of_mem_replicate hempty) hpart'
    · obtain ⟨between, hbefore, -⟩ := hshorter
      exact ⟨between, hbefore⟩
  rw [hbetween, Node.walk_append_eq_ok] at hwalk
  obtain ⟨m, hm, hrest⟩ := hwalk
  exact hfront hnul hm (Node.kindAt_of_walk hrest hdir)

/-- How a directory and those above it are made, with a bound on the steps up: what is
left, and whether the directory is there. It is made at once if it can be, and after its
parent if it is the parent that is missing. -/
inductive CreatesAll : Nat → FileTree → String → FileTree → Bool → Prop where
  | empty {steps : Nat} {tree : FileTree} : CreatesAll steps tree "" tree true
  | made {steps : Nat} {tree made : FileTree} {path : String} :
      tree.createDirectory path = .ok made → CreatesAll steps tree path made true
  | refused {steps : Nat} {tree : FileTree} {path : String} {fault : PathFault} : path ≠ "" →
      tree.createDirectory path = .error fault → fault ≠ .missing →
      CreatesAll steps tree path tree (tree.hasDirectory path)
  | highest {steps : Nat} {tree : FileTree} {path : String} : path ≠ "" →
      tree.createDirectory path = .error .missing → steps = 0 ∨ Path.parent? path = none →
      CreatesAll steps tree path tree false
  | noParent {steps : Nat} {tree up : FileTree} {path parent : String} : path ≠ "" →
      tree.createDirectory path = .error .missing → Path.parent? path = some parent →
      CreatesAll steps tree parent up false → CreatesAll (steps + 1) tree path up false
  | madeInParent {steps : Nat} {tree up made : FileTree} {path parent : String} : path ≠ "" →
      tree.createDirectory path = .error .missing → Path.parent? path = some parent →
      CreatesAll steps tree parent up true → up.createDirectory path = .ok made →
      CreatesAll (steps + 1) tree path made true
  | refusedInParent {steps : Nat} {tree up : FileTree} {path parent : String} {fault : PathFault} :
      path ≠ "" → tree.createDirectory path = .error .missing → Path.parent? path = some parent →
      CreatesAll steps tree parent up true → up.createDirectory path = .error fault →
      CreatesAll (steps + 1) tree path up (up.hasDirectory path)

section Creating

variable {steps : Nat} {tree after : FileTree} {path parent : String} {there : Bool} {fault : PathFault}

theorem createAllWithin_empty (steps : Nat) (tree : FileTree) :
    createAllWithin steps tree "" = (tree, true) := by
  cases steps <;> rfl

theorem createAllWithin_of_ok {made : FileTree} (h : tree.createDirectory path = .ok made) :
    createAllWithin steps tree path = (made, true) := by
  obtain ⟨_, _, _, _, hne, _⟩ := createDirectory_eq_ok h
  unfold createAllWithin
  rw [if_neg (by simpa using hne), h]

/-- A directory that cannot be made, but not for want of those above it. -/
theorem createAllWithin_of_error (hne : path ≠ "") (h : tree.createDirectory path = .error fault)
    (hfault : fault ≠ .missing) :
    createAllWithin steps tree path = (tree, tree.hasDirectory path) := by
  unfold createAllWithin
  rw [if_neg (by simpa using hne), h]
  cases fault with
  | missing => exact absurd rfl hfault
  | notDirectory | nameTooLong | unnameable | occupied => rfl

theorem createAllWithin_of_highest (hne : path ≠ "") (h : tree.createDirectory path = .error .missing)
    (hlast : steps = 0 ∨ Path.parent? path = none) :
    createAllWithin steps tree path = (tree, false) := by
  have hne' : path.isEmpty = false := by simpa using hne
  unfold createAllWithin
  simp only [hne', Bool.false_eq_true, ite_false, h]
  rcases hlast with rfl | hparent
  · rfl
  · cases steps <;> simp only [hparent]

theorem createAllWithin_of_missing (hne : path ≠ "") (h : tree.createDirectory path = .error .missing)
    (hparent : Path.parent? path = some parent) :
    createAllWithin (steps + 1) tree path =
      match createAllWithin steps tree parent with
      | (up, false) => (up, false)
      | (up, true) =>
        match up.createDirectory path with
        | .ok made => (made, true)
        | .error _ => (up, up.hasDirectory path) := by
  have hne' : ¬path.isEmpty = true := by simpa using hne
  conv => lhs; unfold createAllWithin
  refine (if_neg hne').trans ?_
  rw [h]
  generalize Path.parent? path = parent? at hparent ⊢
  subst hparent
  rfl

theorem CreatesAll.eq (h : CreatesAll steps tree path after there) :
    createAllWithin steps tree path = (after, there) := by
  induction h with
  | empty => exact createAllWithin_empty _ _
  | made hmade => exact createAllWithin_of_ok hmade
  | refused hne hfault hnot => exact createAllWithin_of_error hne hfault hnot
  | highest hne hmissing hlast => exact createAllWithin_of_highest hne hmissing hlast
  | noParent hne hmissing hparent _ ih => rw [createAllWithin_of_missing hne hmissing hparent, ih]
  | madeInParent hne hmissing hparent _ hmade ih =>
    rw [createAllWithin_of_missing hne hmissing hparent, ih]
    simp only [hmade]
  | refusedInParent hne hmissing hparent _ hfault ih =>
    rw [createAllWithin_of_missing hne hmissing hparent, ih]
    simp only [hfault]

/-- The steps up are told by the parents that are missing. -/
theorem exists_createsAll (steps : Nat) (tree : FileTree) (path : String) :
    ∃ after there, CreatesAll steps tree path after there := by
  by_cases hne : path = ""
  · exact ⟨tree, true, hne ▸ .empty⟩
  cases hcreate : tree.createDirectory path with
  | ok made => exact ⟨made, true, .made hcreate⟩
  | error fault =>
    by_cases hfault : fault = .missing
    · subst hfault
      cases hparent : Path.parent? path with
      | none => exact ⟨tree, false, .highest hne hcreate (.inr hparent)⟩
      | some parent =>
        cases steps with
        | zero => exact ⟨tree, false, .highest hne hcreate (.inl rfl)⟩
        | succ steps =>
          obtain ⟨up, there, habove⟩ := exists_createsAll steps tree parent
          cases there with
          | false => exact ⟨up, false, .noParent hne hcreate hparent habove⟩
          | true =>
            cases hcreate' : up.createDirectory path with
            | ok made => exact ⟨made, true, .madeInParent hne hcreate hparent habove hcreate'⟩
            | error fault => exact ⟨up, _, .refusedInParent hne hcreate hparent habove hcreate'⟩
    · exact ⟨tree, _, .refused hne hcreate hfault⟩

theorem createAllWithin_creates (steps : Nat) (tree : FileTree) (path : String) :
    CreatesAll steps tree path (createAllWithin steps tree path).1 (createAllWithin steps tree path).2 := by
  obtain ⟨after, there, hcreates⟩ := exists_createsAll steps tree path
  rw [hcreates.eq]
  exact hcreates

/-- The empty path is always there. -/
theorem CreatesAll.ne_empty (h : CreatesAll steps tree path after false) : path ≠ "" := by
  rintro rfl
  have heq := h.eq
  rw [createAllWithin_empty] at heq
  cases heq

/-- Making a directory and those above it says whether the directory is there now. -/
theorem CreatesAll.hasDirectory (h : CreatesAll steps tree path after there) (hne : path ≠ "") :
    there = after.hasDirectory path := by
  induction h with
  | empty => exact absurd rfl hne
  | made hmade => exact (hasDirectory_of_createDirectory hmade).symm
  | refused => rfl
  | highest _ hmissing _ => exact (hasDirectory_of_missing hmissing).symm
  | @noParent steps tree up path parent _ _ hparent habove ih =>
    have hparentNe := habove.ne_empty
    cases hhas : up.hasDirectory path with
    | false => rfl
    | true =>
      obtain ⟨_, hresolve, -⟩ := hasDirectory_iff.mp hhas
      rw [ih hparentNe]
      exact hasDirectory_parent hresolve hparent hparentNe
  | madeInParent _ _ _ _ hmade _ => exact (hasDirectory_of_createDirectory hmade).symm
  | refusedInParent => rfl

/-- A directory that is there is found. -/
theorem creates_of_hasDirectory (h : tree.hasDirectory path = true) :
    CreatesAll steps tree path tree true := by
  obtain ⟨_, hresolve, -⟩ := hasDirectory_iff.mp h
  rw [← h]
  exact .refused (resolve_eq_ok.mp hresolve).1 (createDirectory_of_hasDirectory h) (by simp)

/-- When all is made that can be, making it again changes nothing. -/
theorem CreatesAll.again (h : CreatesAll steps tree path after there) :
    CreatesAll steps after path after there := by
  have hcreates := h
  induction h with
  | empty => exact .empty
  | made hmade => exact creates_of_hasDirectory (hasDirectory_of_createDirectory hmade)
  | refused | highest => exact hcreates
  | @noParent steps tree up path parent hne _ hparent habove ih =>
    have habove' := ih habove
    have hnone := habove.hasDirectory habove.ne_empty
    cases hcreate : up.createDirectory path with
    | ok made =>
      rw [hasDirectory_parent_of_createDirectory hcreate hparent habove.ne_empty] at hnone
      cases hnone
    | error fault =>
      by_cases hfault : fault = .missing
      · subst hfault
        exact .noParent hne hcreate hparent habove'
      · rw [hcreates.hasDirectory hne]
        exact .refused hne hcreate hfault
  | madeInParent _ _ _ _ hmade _ =>
    exact creates_of_hasDirectory (hasDirectory_of_createDirectory hmade)
  | @refusedInParent steps tree up path parent fault hne _ hparent habove hcreate ih =>
    by_cases hfault : fault = .missing
    · subst hfault
      exact .refusedInParent hne hcreate hparent (ih habove) hcreate
    · exact .refused hne hcreate hfault

end Creating

theorem createAll_hasDirectory (tree : FileTree) {path : String} (hne : path ≠ "") :
    (tree.createAll path).2 = (tree.createAll path).1.hasDirectory path :=
  (createAllWithin_creates _ tree path).hasDirectory hne

theorem createAll_of_hasDirectory {tree : FileTree} {path : String}
    (h : tree.hasDirectory path = true) : tree.createAll path = (tree, true) :=
  (creates_of_hasDirectory h).eq

theorem createAll_again (tree : FileTree) (path : String) :
    (tree.createAll path).1.createAll path = tree.createAll path :=
  (createAllWithin_creates _ tree path).again.eq

/-- Files can be made where a directory is. -/
theorem opens_iff_resolve {tree : FileTree} {path : String} {l : Location} (hne : path ≠ "") :
    tree.Opens path l ↔ tree.resolve path = .ok l ∧ tree.root.kindAt l = some true := by
  obtain ⟨k, hk⟩ : ∃ k, names path = above path ++ List.replicate k "" := by
    unfold above
    rw [if_neg hne]
    split
    · rename_i hslash
      obtain ⟨before, hbefore⟩ := List.getLast?_eq_some_iff.mp hslash
      refine ⟨1, ?_⟩
      rw [names, Path.parts, hbefore, Text.split_append_sep]
      simp [Text.split]
    · exact ⟨0, by simp⟩
  rw [resolve_eq_ok, hk, Node.walk_append_eq_ok]
  constructor
  · intro hparts
    obtain ⟨hnul, hwalk, hdir⟩ := hparts
    exact ⟨⟨hne, hnul, l, hwalk, Node.walk_replicate_empty hdir k⟩, hdir⟩
  · intro hparts
    obtain ⟨⟨-, hnul, m, hm, hrest⟩, hl⟩ := hparts
    have hdir := Node.kindAt_of_walk hrest hl
    rw [Node.walk_replicate_empty hdir] at hrest
    obtain rfl := Except.ok.inj hrest
    exact ⟨hnul, hm, hdir⟩

theorem hasDirectory_of_opens {tree : FileTree} {path : String} {l : Location} (hne : path ≠ "")
    (hopens : tree.Opens path l) : tree.hasDirectory path = true :=
  hasDirectory_iff.mpr ⟨l, (opens_iff_resolve hne).mp hopens⟩

theorem opens_empty {tree : FileTree} {l : Location} :
    tree.Opens "" l ↔ l = tree.home ∧ tree.root.kindAt tree.home = some true := by
  have hstart : tree.start "" = tree.home := by
    rw [start, if_neg (by decide)]
  constructor
  · intro hparts
    obtain ⟨-, hwalk, hdir⟩ := hparts
    rw [hstart] at hwalk
    obtain rfl := Except.ok.inj hwalk
    exact ⟨rfl, hdir⟩
  · intro hparts
    obtain ⟨rfl, hdir⟩ := hparts
    exact ⟨by simp, by rw [hstart]; rfl, hdir⟩

/-- What is there stands in a directory. -/
theorem opens_parent {tree : FileTree} {path parent : String} {l : Location}
    (h : tree.resolve path = .ok l) (hparent : Path.parent? path = some parent) :
    ∃ above, tree.Opens parent above := by
  by_cases hne : parent = ""
  · subst hne
    have hstart := kindAt_start_of_resolve h
    rw [← start_parent? hparent, start, if_neg (by decide)] at hstart
    exact ⟨tree.home, opens_empty.mpr ⟨rfl, hstart⟩⟩
  · obtain ⟨above, habove⟩ := hasDirectory_iff.mp (hasDirectory_parent h hparent hne)
    exact ⟨above, (opens_iff_resolve hne).mpr habove⟩

/-- A directory stands in directories all the way up. -/
theorem opens_ancestors {tree : FileTree} {path : String} {l : Location} (h : tree.Opens path l) :
    ∀ above ∈ Path.ancestors path, ∃ m, tree.Opens above m := by
  unfold Path.ancestors
  generalize (Path.parts path).length = steps
  induction steps generalizing path l with
  | zero =>
    intro above habove
    obtain rfl := List.mem_singleton.mp habove
    exact ⟨l, h⟩
  | succ steps ih =>
    intro above habove
    rcases List.mem_cons.mp habove with rfl | habove
    · exact ⟨l, h⟩
    · split at habove
      · cases habove
      · rename_i parent hparent
        have hne : path ≠ "" := by
          rintro rfl
          cases hparent
        obtain ⟨m, hm⟩ := opens_parent ((opens_iff_resolve hne).mp h).1 hparent
        exact ih hm above habove

end FileTree

end MemberAudit
