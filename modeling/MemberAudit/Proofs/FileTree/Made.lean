/-
Which directories are made for a path. Making a directory and those above it is a run
of steps, each of which makes one directory under the path or one above it
(`CreatesAll.makesSome`). A step adds the directory to which its path then leads;
so every directory that is new in the end is one to which the path or one above it
leads (`createAll_madeUnder`), however far the run has come, and also if the paths
have steps up in them.
-/
import Mathlib.Logic.Relation
import MemberAudit.Proofs.FileTree.Directories

namespace MemberAudit.FileTree

variable {paths more : List String} {tree before middle after : FileTree} {m : Location}

/-! ## What is at a place -/

/-- What is at a place, if anything: a directory, or a file with its content. -/
def stateAt (tree : FileTree) (m : Location) : Option (Option ByteArray) :=
  (tree.root.get? m).map Node.content?

/-- Whether a place has a directory. -/
def DirectoryAt (tree : FileTree) (m : Location) : Prop :=
  tree.stateAt m = some none

theorem directoryAt_iff : tree.DirectoryAt m ↔ tree.root.kindAt m = some true := by
  unfold DirectoryAt stateAt Node.kindAt
  cases tree.root.get? m with
  | none => simp
  | some node => cases node <;> simp [Node.content?, Node.isDirectory]

/-- What is at a place without a directory is told by its file. -/
theorem stateAt_eq_of_not_directory (h : ¬tree.DirectoryAt m) :
    tree.stateAt m = (tree.root.fileAt m).map some := by
  unfold DirectoryAt stateAt at h
  unfold stateAt Node.fileAt
  cases hget : tree.root.get? m with
  | none => rfl
  | some node =>
    rw [hget] at h
    cases node with
    | file content => rfl
    | directory entries => exact absurd rfl h

/-! ## Runs of making directories -/

/-- A directory is made under one of some paths. -/
def MakesOne (paths : List String) (before after : FileTree) : Prop :=
  ∃ path ∈ paths, before.createDirectory path = .ok after

/-- Directories are made one after another, each under one of some paths. -/
def MakesSome (paths : List String) : FileTree → FileTree → Prop :=
  Relation.ReflTransGen (MakesOne paths)

theorem MakesSome.mono (h : MakesSome paths before after) (hpaths : ∀ path ∈ paths, path ∈ more) :
    MakesSome more before after := by
  refine Relation.ReflTransGen.mono ?_ _ _ h
  intro first second hstep
  obtain ⟨path, hpath, hmade⟩ := hstep
  exact ⟨path, hpaths path hpath, hmade⟩

/-- A tree that has grown, each new directory being one to which one of some paths
leads. -/
structure MadeUnder (paths : List String) (before after : FileTree) : Prop where
  grown : Grown before.root after.root
  home : after.home = before.home
  new : ∀ m, after.root.kindAt m = some true → before.root.kindAt m = some true ∨
    before.root.get? m = none ∧ ∃ path ∈ paths, after.resolve path = .ok m

namespace MadeUnder

theorem refl (tree : FileTree) : MadeUnder paths tree tree :=
  ⟨.refl _, rfl, fun _ hdir => .inl hdir⟩

theorem step (h : MadeUnder paths before middle) (hstep : MakesOne paths middle after) :
    MadeUnder paths before after := by
  obtain ⟨path, hpath, hmade⟩ := hstep
  obtain ⟨hgrown, hhome⟩ := createDirectory_grown hmade
  obtain ⟨l, hresolve, -, hnew, hothers⟩ := createDirectory_leads hmade
  refine ⟨h.grown.trans hgrown, hhome.trans h.home, ?_⟩
  intro m hdir
  by_cases hm : m = l
  · subst hm
    refine .inr ⟨?_, path, hpath, hresolve⟩
    cases hbefore : before.root.get? m with
    | none => rfl
    | some node =>
      have hkind := h.grown.kindAt m node.isDirectory (by rw [Node.kindAt, hbefore]; rfl)
      rw [Node.kindAt, hnew] at hkind
      cases hkind
  · rw [hothers m hm] at hdir
    refine (h.new m hdir).imp id ?_
    intro hnew
    obtain ⟨hnone, other, hother, hleads⟩ := hnew
    exact ⟨hnone, other, hother, resolve_of_grown hgrown hhome hleads⟩

end MadeUnder

theorem MakesSome.madeUnder (h : MakesSome paths before after) : MadeUnder paths before after := by
  induction h with
  | refl => exact .refl before
  | tail _ hstep ih => exact ih.step hstep

/-! ## A directory and those above it -/

theorem self_mem_ancestorsWithin (steps : Nat) (path : String) :
    path ∈ Path.ancestorsWithin steps path := by
  cases steps <;> exact List.mem_cons_self

theorem CreatesAll.makesSome {steps : Nat} {tree : FileTree} {path : String} {there : Bool}
    (h : CreatesAll steps tree path after there) :
    MakesSome (Path.ancestorsWithin steps path) tree after := by
  have habove : ∀ {steps : Nat} {path parent : String}, Path.parent? path = some parent →
      ∀ above ∈ Path.ancestorsWithin steps parent, above ∈ Path.ancestorsWithin (steps + 1) path := by
    intro steps path parent hparent above hmem
    simp [Path.ancestorsWithin, hparent, hmem]
  induction h with
  | empty | refused | highest => exact .refl
  | made hmade => exact .single ⟨_, self_mem_ancestorsWithin _ _, hmade⟩
  | noParent _ _ hparent _ ih | refusedInParent _ _ hparent _ _ ih => exact ih.mono (habove hparent)
  | madeInParent _ _ hparent _ hmade ih =>
    exact (ih.mono (habove hparent)).tail ⟨_, self_mem_ancestorsWithin _ _, hmade⟩

/-- **Directories are made on the way to a path only.** -/
theorem createAll_madeUnder (tree : FileTree) (path : String) :
    MadeUnder (Path.ancestors path) tree (tree.createAll path).1 :=
  (createAllWithin_creates _ tree path).makesSome.madeUnder

end MemberAudit.FileTree
