/-
Preparing a report directory again, after files were written to it. What was written
is cleared away, what was kept is kept again, and what could not be made cannot be made
now; so the tree is the one that was prepared before (`prepare_repeat`), unless the path
of the directory is empty or a file was written where the kept one is to be.
-/
import MemberAudit.Proofs.Report.KeptFiles

namespace MemberAudit

namespace Node

variable {keep : String → Node → Bool} {name : String} {entry node : Node}

/-- An entry that is refused may as well not have been put. -/
theorem keepEntries_put (hentry : keep name entry = false)
    (hold : ∀ old, node.child? name = some old → keep name old = false) :
    Node.keepEntries keep (put name entry node) = Node.keepEntries keep node := by
  cases node with
  | file content => rfl
  | directory entries =>
    refine congrArg directory ?_
    rw [child?] at hold
    induction entries with
    | nil => simp [setEntry, hentry]
    | cons first rest ih =>
      obtain ⟨key, old⟩ := first
      by_cases hkey : key = name
      · subst hkey
        simp [setEntry, hentry, hold old (by simp)]
      · have hother : (name == key) = false := beq_eq_false_iff_ne.mpr (Ne.symm hkey)
        rw [List.lookup_cons, hother] at hold
        simp only [setEntry, hkey, ite_false, List.filter_cons, ih hold]

theorem modify_id (l : Location) (node : Node) : modify id l node = node := by
  induction l generalizing node with
  | nil => rfl
  | cons name l ih =>
    cases node with
    | file content => rfl
    | directory entries => simp [modify, ih]

end Node

namespace Report

open FileTree (WritesSome AgreeOn locationOf names)

variable {tree before after written : FileTree} {directory keep name : String} {l : Location}
  {keep? : Option Location} {content : ByteArray} {own : String → Prop}

/-- The paths to files of a directory with names of a kind. -/
def ChildOf (directory : String) (own : String → Prop) (path : String) : Prop :=
  ∃ name, own name ∧ path = Path.child directory name

/-! ## Clearing again -/

/-- A directory without files but the one to be kept is clear. -/
theorem clearFiles_self (hwf : tree.root.WellFormed)
    (h : ∀ name content, tree.root.fileAt (l ++ [name]) = some content → keep? = some (l ++ [name])) :
    tree.clearFiles l keep? = tree := by
  unfold FileTree.clearFiles
  have hroot : tree.root.modify (Node.keepEntries fun name node =>
      node.isDirectory || keep? = some (l ++ [name])) l = tree.root.modify id l := by
    refine hwf.modify_congr ?_
    intro found hfound
    cases found with
    | file content => rfl
    | directory entries =>
      have hnodup := (Node.wellFormed_directory.mp (hwf.get? hfound)).1
      refine congrArg Node.directory (List.filter_eq_self.mpr ?_)
      intro entry hentry
      obtain ⟨name, node⟩ := entry
      cases node with
      | directory entries => rfl
      | file content =>
        have hfile : tree.root.fileAt (l ++ [name]) = some content := by
          rw [Node.fileAt_eq_some, Node.get?_append, hfound, Option.bind_some, Node.get?_singleton]
          exact Node.lookup_of_mem hnodup hentry
        simp [h name content hfile]
  simp only [hroot, Node.modify_id]

/-- A file of the directory that is written, and not to be kept, is cleared away. -/
theorem clearFiles_of_write? (hwf : tree.root.WellFormed) (hone : '/' ∉ name.toList)
    (hopens : tree.Opens directory l) (hkeep : keep? ≠ some (l ++ [name]))
    (h : tree.write? (Path.child directory name) content = some written) :
    written.clearFiles l keep? = tree.clearFiles l keep? := by
  obtain ⟨l', last, hplace, hstep, hfree, -, rfl⟩ := FileTree.write?_eq_some.mp h
  obtain ⟨m, hm, heq⟩ := FileTree.opens_of_makes_child hone ⟨l', last, hplace, hstep, rfl⟩
  obtain ⟨rfl, hlast⟩ := List.append_inj' heq rfl
  obtain rfl := List.singleton_inj.mp hlast
  obtain rfl := hopens.unique hm
  unfold FileTree.clearFiles
  simp only [Node.modify_modify]
  congr 1
  refine hwf.modify_congr ?_
  intro found hfound
  refine Node.keepEntries_put (by simp [Node.isDirectory, hkeep]) ?_
  intro old hold
  have hold' : tree.root.get? (l ++ [last]) = some old := by
    rw [Node.get?_append, hfound, Option.bind_some, Node.get?_singleton, hold]
  cases old with
  | directory entries => exact absurd (Node.kindAt_eq_true.mpr ⟨entries, hold'⟩) hfree
  | file content => simp [Node.isDirectory, hkeep]

/-! ## Runs of writing to a directory -/

section Runs

variable (hwrites : WritesSome (ChildOf directory own) before after) (hwf : before.root.WellFormed)
  (hone : ∀ name, own name → '/' ∉ name.toList)
include hwrites hwf

theorem opens_of_writes (hopens : before.Opens directory l) : after.Opens directory l := by
  have hagree : AgreeOn (fun _ => False) before after :=
    hwrites.agreeOn hwf fun _ _ _ hm => hm.elim
  exact FileTree.Later.opens ⟨before, .refl _, rfl, hagree⟩ hopens

include hone

/-- Only files of the directory are written. -/
theorem sameBut_of_writes (hup : ".." ∉ names directory) :
    SameBut (fun _ => true) (locationOf before.home directory) before.root after.root := by
  induction hwrites with
  | refl => exact .refl hwf
  | tail hsome hstep ih =>
    obtain ⟨path, content, ⟨name, hown, rfl⟩, hwrite⟩ := hstep
    obtain ⟨l, last, hwritten⟩ := FileTree.writtenAt_of_write? ih.right hwrite
    obtain ⟨m, hopens, heq⟩ := FileTree.opens_of_makes_child (hone name hown) hwritten.makes
    obtain ⟨rfl, -⟩ := List.append_inj' heq rfl
    have hagree : AgreeOn (fun _ => False) before _ :=
      FileTree.WritesSome.agreeOn hsome hwf fun _ _ _ hm => hm.elim
    obtain rfl := FileTree.locationOf_of_opens hup hopens
    rw [hagree.home] at ih ⊢
    exact ih.trans (hwritten.sameBut.weaken fun _ _ => rfl)

theorem clearFiles_of_writes (hopens : before.Opens directory l)
    (hkeep : ∀ name, own name → keep? ≠ some (l ++ [name])) :
    after.clearFiles l keep? = before.clearFiles l keep? := by
  induction hwrites with
  | refl => rfl
  | tail hsome hstep ih =>
    obtain ⟨path, content, ⟨name, hown, rfl⟩, hwrite⟩ := hstep
    rw [← ih]
    exact clearFiles_of_write? (FileTree.WritesSome.writable_iff hsome hwf).1 (hone name hown)
      (opens_of_writes hsome hwf hopens) (hkeep name hown) hwrite

/-- Nothing is written where there is no directory. -/
theorem eq_of_writes (hne : directory ≠ "") (hnone : before.hasDirectory directory = false) :
    after = before := by
  rcases Relation.ReflTransGen.cases_head hwrites with rfl | ⟨next, hstep, -⟩
  · rfl
  · obtain ⟨path, content, ⟨name, hown, rfl⟩, hwrite⟩ := hstep
    obtain ⟨m, last, hwritten⟩ := FileTree.writtenAt_of_write? hwf hwrite
    obtain ⟨l, hopens, -⟩ := FileTree.opens_of_makes_child (hone name hown) hwritten.makes
    rw [FileTree.hasDirectory_of_opens hne hopens] at hnone
    cases hnone

end Runs

/-! ## Preparing again -/

/-- Of the files of a cleared directory only the kept one is left, and its path leads to it
also after others were written. -/
theorem kept_of_writes (hwf : tree.root.WellFormed)
    (hopens : (tree.clearFiles l (tree.resolve keep).toOption).Opens directory l)
    (hone : ∀ name, own name → '/' ∉ name.toList)
    (hapart : ∀ name, own name → tree.resolve keep ≠ .ok (l ++ [name]))
    (hwrites : WritesSome (ChildOf directory own) (tree.clearFiles l (tree.resolve keep).toOption) after)
    (hfile : (tree.clearFiles l (tree.resolve keep).toOption).root.fileAt (l ++ [name]) = some content) :
    (after.resolve keep).toOption = some (l ++ [name]) := by
  rw [fileAt_clearFiles hwf] at hfile
  split at hfile
  · rename_i hkeep
    have hresolve := eq_ok_of_toOption hkeep
    have hcleared := (agreeOn_clearFiles hwf l (tree.resolve keep).toOption).mono
      fun m (hm : m = l ++ [name]) => .inr (hm ▸ hkeep)
    have hagree : AgreeOn (fun m => m = l ++ [name]) tree after := by
      refine hcleared.trans (hwrites.agreeOn hcleared.right ?_)
      intro path hpath m hm hmakes
      obtain ⟨other, hown, rfl⟩ := hpath
      obtain ⟨l', hopens', rfl⟩ := FileTree.opens_of_makes_child (hone other hown) hmakes
      obtain rfl := hopens.unique hopens'
      exact hapart other hown (hm ▸ hresolve)
    rw [(hagree.resolve_iff rfl hfile).mp hresolve]
    rfl
  · cases hfile

/-- A directory that is there, and was cleared and written to, is cleared to be the same. -/
theorem prepare_repeat_of_hasDirectory (hwf : tree.root.WellFormed) (hne : directory ≠ "")
    (hup : ".." ∉ names directory) (hkeepUp : ".." ∉ names keep)
    (hone : ∀ name, own name → '/' ∉ name.toList)
    (hapart : ∀ name, own name → locationOf tree.home keep ≠ locationOf tree.home directory ++ [name])
    (hdirectory : tree.hasDirectory directory = true)
    (hwrites : WritesSome (ChildOf directory own) (prepare tree directory keep).1 after) :
    prepare after directory keep = prepare tree directory keep := by
  obtain ⟨l, hresolve, hdir⟩ := FileTree.hasDirectory_iff.mp hdirectory
  obtain rfl := FileTree.eq_locationOf_of_resolve hup hresolve
  rw [prepare_of_hasDirectory hup hdirectory] at hwrites ⊢
  have hcleared := agreeOn_clearFiles hwf (locationOf tree.home directory) (tree.resolve keep).toOption
  have hopens := opens_clearFiles hwf (tree.resolve keep).toOption hresolve hdir
  have hopens' := opens_of_writes hwrites hcleared.right hopens
  have hagree : AgreeOn (fun _ => False) _ after :=
    hwrites.agreeOn hcleared.right fun _ _ _ hm => hm.elim
  have hhome : after.home = tree.home := hagree.home.symm
  have hunkept : ∀ {later : FileTree} {name : String}, later.home = tree.home → own name →
      later.resolve keep ≠ .ok (locationOf tree.home directory ++ [name]) := by
    intro later name hlater hown hkeep
    have hlocation := FileTree.eq_locationOf_of_resolve hkeepUp hkeep
    rw [hlater] at hlocation
    exact hapart name hown hlocation.symm
  rw [prepare_of_hasDirectory hup (FileTree.hasDirectory_of_opens hne hopens'), hhome,
    clearFiles_of_writes hwrites hcleared.right hone hopens]
  · rw [clearFiles_self hcleared.right]
    intro name content hfile
    exact kept_of_writes hwf hopens hone (fun name hown => hunkept rfl hown) hwrites hfile
  · intro name hown hkeep
    exact hunkept hhome hown (eq_ok_of_toOption hkeep)

/-- **A report directory that was prepared and written to is prepared to be the same
again.** -/
theorem prepare_repeat (hwf : tree.root.WellFormed) (hne : directory ≠ "") (hup : ".." ∉ names directory)
    (hkeepUp : ".." ∉ names keep) (hone : ∀ name, own name → '/' ∉ name.toList)
    (hapart : ∀ name, own name → locationOf tree.home keep ≠ locationOf tree.home directory ++ [name])
    (hwrites : WritesSome (ChildOf directory own) (prepare tree directory keep).1 after) :
    prepare after directory keep = prepare tree directory keep := by
  obtain ⟨hgrown, hhome, -⟩ := FileTree.createAll_madeUnder tree directory
  have hmade := FileTree.createAll_hasDirectory tree hne
  have hagain := FileTree.createAll_again tree directory
  obtain ⟨made, there, hcreate⟩ : ∃ made there, tree.createAll directory = (made, there) := ⟨_, _, rfl⟩
  rw [hcreate] at hgrown hhome hmade hagain
  simp only at hgrown hhome hmade hagain
  have hwf' := hgrown.wellFormed hwf
  -- What the first call made is there for the second, so both start from `made`.
  have hprepare : prepare tree directory keep = prepare made directory keep := by
    simp only [prepare, hcreate, hagain]
  rw [hprepare] at hwrites ⊢
  cases there with
  | false =>
    have hfirst : (prepare made directory keep).1 = made := by
      simp only [prepare, hagain]
    rw [hfirst] at hwrites
    rw [eq_of_writes hwrites hwf' hone hne hmade.symm]
  | true =>
    rw [← hhome] at hapart
    exact prepare_repeat_of_hasDirectory hwf' hne hup hkeepUp hone hapart hmade.symm hwrites

end Report

end MemberAudit
