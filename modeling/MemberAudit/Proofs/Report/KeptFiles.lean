/-
Files that the report directory leaves alone. Preparing it makes directories, and
then takes away no file but those that stand directly in it, and of these not the
one to be kept (`prepare_spec`). Writing reports is a run of writing files
(`write_writesSome`): it changes no file but those that are made under the paths of
reports (`agreeOn_write`), which are all entries of the directory
(`opens_of_makes_report`).
-/
import MemberAudit.Proofs.FileTree.Writes
import MemberAudit.Proofs.Report.OwnFiles

namespace MemberAudit.Report

open FileTree (AgreeOn Later WritesSome resolve_of_directories)

variable {tree : FileTree} {directory keep : String} {l m : Location} {content : ByteArray}

/-! ## Preparing -/

/-- What preparing a directory does: it makes directories, and where the path leads
then it clears the files away, but for the one to be kept. It fails if the path leads to
no directory then. -/
theorem prepare_cases (tree : FileTree) (directory keep : String) :
    let made := (tree.createAll directory).1
    (made.hasDirectory directory = false ∧ ∃ fault, prepare tree directory keep = (made, .error fault)) ∨
      ∃ l, made.resolve directory = .ok l ∧ made.root.kindAt l = some true ∧
        prepare tree directory keep = (made.clearFiles l (made.resolve keep).toOption, .ok ()) := by
  have hthere (hne : directory ≠ "") := FileTree.createAll_hasDirectory tree hne
  obtain ⟨made, there, hcreate⟩ : ∃ made there, tree.createAll directory = (made, there) := ⟨_, _, rfl⟩
  cases there with
  | false =>
    have hne : directory ≠ "" := by
      rintro rfl
      rw [FileTree.createAll, FileTree.createAllWithin_empty] at hcreate
      cases hcreate
    refine .inl ⟨?_, .notCreated directory, by simp only [prepare, hcreate]⟩
    simpa only [hcreate] using (hthere hne).symm
  | true =>
    simp only [prepare, hcreate]
    cases hresolve : made.resolve directory with
    | error fault => exact .inl ⟨by simp [FileTree.hasDirectory, FileTree.node?, hresolve], _, rfl⟩
    | ok l =>
      simp only
      cases hdir : (made.root.get? l).any Node.isDirectory with
      | false =>
        refine .inl ⟨?_, .notReadable directory, by simp⟩
        simp only [FileTree.hasDirectory, FileTree.node?, hresolve, hdir]
      | true =>
        refine .inr ⟨l, rfl, ?_, by simp⟩
        cases hnode : made.root.get? l with
        | none => simp [hnode] at hdir
        | some node => simpa [Node.kindAt, hnode] using hdir

/-- A directory that is cleared loses files, but not the one to be kept. -/
theorem agreeOn_clearFiles (hwf : tree.root.WellFormed) (l : Location) (keep? : Option Location) :
    AgreeOn (fun m => (∀ name, m ≠ l ++ [name]) ∨ keep? = some m) tree (tree.clearFiles l keep?) where
  home := rfl
  left := hwf
  right := (sameBut_cleared hwf l keep?).right
  directories _ := (sameBut_cleared hwf l keep?).kindAt_eq_true
  files m hm := by
    by_cases hchild : ∃ name, m = l ++ [name]
    · obtain ⟨name, rfl⟩ := hchild
      rw [fileAt_clearFiles hwf, if_pos (hm.resolve_left fun hnot => hnot name rfl)]
    · exact (sameBut_cleared hwf l keep?).fileAt_eq fun name _ heq => hchild ⟨name, heq⟩

theorem opens_clearFiles (hwf : tree.root.WellFormed) (keep? : Option Location)
    (hresolve : tree.resolve directory = .ok l) (hdir : tree.root.kindAt l = some true) :
    (tree.clearFiles l keep?).Opens directory l := by
  have hdirs := (agreeOn_clearFiles hwf l keep?).directories
  have hdir' := (hdirs l).mp hdir
  have hhome : (tree.clearFiles l keep?).home = tree.home := rfl
  refine (FileTree.opens_iff_resolve (FileTree.resolve_eq_ok.mp hresolve).1).mpr ⟨?_, hdir'⟩
  exact resolve_of_directories hhome (fun m => (hdirs m).mp) (by rw [hdir']; rfl) hresolve

/-- Whether preparing a report directory spares what is at a place: it is not
directly in the directory, or it is to be kept. -/
def Spares (tree : FileTree) (directory keep : String) (m : Location) : Prop :=
  (∀ l name, (prepare tree directory keep).1.Opens directory l → m ≠ l ++ [name]) ∨
    tree.resolve keep = .ok m

/-- **Preparing a report directory** makes directories, takes away only files that are
not spared, and makes none. -/
theorem prepare_spec (hwf : tree.root.WellFormed) (directory keep : String) :
    Later (Spares tree directory keep) tree (prepare tree directory keep).1 ∧
      ∀ m content, (prepare tree directory keep).1.root.fileAt m = some content →
        tree.root.fileAt m = some content := by
  have hcases := prepare_cases tree directory keep
  obtain ⟨hgrown, hhome, -⟩ := FileTree.createAll_madeUnder tree directory
  generalize (tree.createAll directory).1 = made at hcases hgrown hhome
  have hmade := hgrown.wellFormed hwf
  unfold Spares
  rcases hcases with hfault | hcleared
  · obtain ⟨-, fault, hprepare⟩ := hfault
    rw [hprepare]
    exact ⟨⟨made, hgrown, hhome, .refl hmade⟩,
      fun m content hfile => (hgrown.fileAt m).symm.trans hfile⟩
  · obtain ⟨l, hresolve, hdir, hprepare⟩ := hcleared
    rw [hprepare]
    refine ⟨⟨made, hgrown, hhome, (agreeOn_clearFiles hmade l _).mono fun m hm => hm.imp ?_ ?_⟩, ?_⟩
    · exact fun hout name => hout l name (opens_clearFiles hmade _ hresolve hdir)
    · intro hkeep
      rw [FileTree.resolve_of_grown hgrown hhome hkeep]
      rfl
    · exact fun m content hfile =>
        (hgrown.fileAt m).symm.trans (fileAt_of_clearFiles hmade hfile)

/-- The directories that are new are on the way to the report directory. -/
theorem prepare_made (hwf : tree.root.WellFormed)
    (hdir : (prepare tree directory keep).1.root.kindAt m = some true) :
    tree.root.kindAt m = some true ∨ tree.root.get? m = none ∧
      ∃ above ∈ Path.ancestors directory, (prepare tree directory keep).1.resolve above = .ok m := by
  have hcases := prepare_cases tree directory keep
  obtain ⟨hgrown, -, hnew⟩ := FileTree.createAll_madeUnder tree directory
  generalize (tree.createAll directory).1 = made at hcases hgrown hnew
  rcases hcases with hfault | hcleared
  · obtain ⟨-, fault, hprepare⟩ := hfault
    rw [hprepare] at hdir ⊢
    exact hnew m hdir
  · obtain ⟨l, -, -, hprepare⟩ := hcleared
    rw [hprepare] at hdir ⊢
    have hagree := agreeOn_clearFiles (hgrown.wellFormed hwf) l (made.resolve keep).toOption
    refine (hnew m ((hagree.directories m).mpr hdir)).imp id ?_
    intro hleads
    obtain ⟨hnone, above, habove, hresolve⟩ := hleads
    exact ⟨hnone, above, habove, resolve_of_directories hagree.home.symm
      (fun l => (hagree.directories l).mp) (by rw [hdir]; rfl) hresolve⟩

/-! ## Writing -/

section Names

variable {format : Format} {grain : Grain} {project : String} {found : UseSet} {file : String × String}

/-- The names of reports are those of the reports over all owners, or tell an owner. -/
theorem name_of_mem_files (h : file ∈ files format grain project found) :
    match grain with
    | .single => file.1 = "all.json" ∨ file.1 = "all.html"
    | .perOwner => ∃ owner, file.1 = bareName owner ++ ".json" ∨ file.1 = bareName owner ++ ".html" := by
  cases grain <;> cases format
  · exact .inl (congrArg Prod.fst (List.mem_singleton.mp h))
  · exact .inr (congrArg Prod.fst (List.mem_singleton.mp h))
  all_goals
    obtain ⟨bucket, -, rfl⟩ := List.mem_map.mp h
    exact ⟨bucket.1, by simp⟩

theorem slash_not_mem_bareName (owner : String) : '/' ∉ (bareName owner).toList := by
  rw [bareName, String.toList_map]
  intro hmem
  obtain ⟨c, -, hc⟩ := List.mem_map.mp hmem
  split at hc
  · cases hc
  · rename_i hnot
    exact hnot (.inl hc)

/-- No name of a report is a path, whatever the owner. -/
theorem slash_not_mem_of_mem_files (h : file ∈ files format grain project found) :
    '/' ∉ file.1.toList := by
  have hname := name_of_mem_files h
  cases grain with
  | single => rcases hname with hname | hname <;> rw [hname] <;> decide
  | perOwner =>
    obtain ⟨owner, hname⟩ := hname
    rcases hname with hname | hname <;> simp [hname, slash_not_mem_bareName owner]

/-- Reports are made in the report directory only. -/
theorem opens_of_makes_report (h : file ∈ files format grain project found)
    (hmakes : tree.Makes (Path.child directory file.1) m) :
    ∃ l, tree.Opens directory l ∧ m = l ++ [file.1] :=
  FileTree.opens_of_makes_child (slash_not_mem_of_mem_files h) hmakes

end Names

/-- The paths of the reports over some uses. -/
def IsReport (grain : Grain) (project : String) (found : UseSet) (directory path : String) : Prop :=
  ∃ format, ∃ file ∈ files format grain project found, path = Path.child directory file.1

theorem writeFiles_writesSome {paths : String → Prop} {files : List (String × String)}
    (hpaths : ∀ file ∈ files, paths (Path.child directory file.1)) :
    WritesSome paths tree (writeFiles tree directory files).1 := by
  induction files generalizing tree with
  | nil => exact .refl
  | cons file files ih =>
    obtain ⟨hfirst, hrest⟩ := List.forall_mem_cons.mp hpaths
    rw [writeFiles]
    split
    · exact .refl
    · rename_i written hwrite
      exact .head ⟨_, _, hfirst, hwrite⟩ (ih hrest)

theorem writeFormat_tree (grain : Grain) (project : String) (found : UseSet) (directory : String)
    (before : Written) (format : Format) :
    (writeFormat grain project found directory before format).tree =
      (writeFiles before.tree directory (files format grain project found)).1 := by
  unfold writeFormat
  simp only
  split <;> rename_i h <;> rw [h]

/-- Writing reports is a run of writing files, each under the path of a report. -/
theorem write_writesSome (tree : FileTree) (grain : Grain) (project : String) (found : UseSet)
    (directory : String) :
    WritesSome (IsReport grain project found directory) tree
      (write tree grain project found directory).tree := by
  have hformats : ∀ (order : List Format) (before : Written),
      WritesSome (IsReport grain project found directory) before.tree
        (order.foldl (writeFormat grain project found directory) before).tree := by
    intro order
    induction order with
    | nil => exact fun _ => .refl
    | cons format order ih =>
      intro before
      refine .trans ?_ (ih _)
      rw [writeFormat_tree]
      exact writeFiles_writesSome fun file hmem => ⟨format, file, hmem, rfl⟩
  exact hformats formats ⟨tree, [], []⟩

/-- **Writing reports** changes only files that are made under their paths. -/
theorem agreeOn_write {places : Location → Prop} {grain : Grain} {project : String} {found : UseSet}
    (hwf : tree.root.WellFormed)
    (hplaces : ∀ format, ∀ file ∈ files format grain project found, ∀ m, places m →
      ¬tree.Makes (Path.child directory file.1) m) :
    AgreeOn places tree (write tree grain project found directory).tree := by
  refine (write_writesSome ..).agreeOn hwf ?_
  intro path hreport
  obtain ⟨format, file, hmem, rfl⟩ := hreport
  exact hplaces format file hmem

end MemberAudit.Report
