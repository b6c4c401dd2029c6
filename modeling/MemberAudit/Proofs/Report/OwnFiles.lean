/-
The files of its own that a report directory has: the reports over all owners and
the baseline. None of them is of classes (`fileKind_of_isOwn`). Each is written next
to the others and changes nothing else (`write?_own`), and preparing the
directory takes its files away (`prepare_prepared`) but leaves the baseline
(`prepare_again`).
-/
import MemberAudit.Baseline
import MemberAudit.Proofs.FileTree.Made
import MemberAudit.Proofs.FileTree.SameBut
import MemberAudit.Proofs.Inventory.Kinds
import MemberAudit.Report.Directory

namespace MemberAudit

open FileTree (PlainName locationOf names)

namespace Report

/-! ## Names -/

/-- The names of the files of a report directory that are the program's own: the
reports over all owners and the baseline. -/
def ownNames : List String :=
  ["all.json", "all.html", Baseline.fileName]

def isOwn (name : String) : Bool :=
  ownNames.contains name

theorem isOwn_iff {name : String} :
    isOwn name = true ↔ name = "all.json" ∨ name = "all.html" ∨ name = Baseline.fileName := by
  simp [isOwn, ownNames]

theorem isOwn_json : isOwn "all.json" = true := isOwn_iff.mpr (.inl rfl)

theorem isOwn_html : isOwn "all.html" = true := isOwn_iff.mpr (.inr (.inl rfl))

theorem isOwn_baseline : isOwn Baseline.fileName = true := isOwn_iff.mpr (.inr (.inr rfl))

theorem plainName_of_isOwn {name : String} (h : isOwn name = true) : PlainName name := by
  rcases isOwn_iff.mp h with rfl | rfl | rfl <;> constructor <;> decide

/-- No file of the program's own is one of classes. -/
theorem fileKind_of_isOwn (directory name : String) (h : isOwn name = true) :
    Inventory.fileKind (Path.child directory name) = .unsupported := by
  rw [Inventory.fileKind_child directory (plainName_of_isOwn h)]
  rcases isOwn_iff.mp h with rfl | rfl | rfl <;> decide

/-! ## Writing -/

variable {tree written : FileTree} {directory name : String} {content : ByteArray}

/-- A tree with a file of the program's own written to a report directory. -/
structure Wrote (directory : String) (l : Location) (name : String) (content : ByteArray)
    (before after : FileTree) : Prop where
  home : after.home = before.home
  opens : before.Opens directory l
  stillOpens : after.Opens directory l
  noDirectory : before.root.kindAt (l ++ [name]) ≠ some true
  sameBut : SameBut isOwn l before.root after.root
  written : after.root.fileAt (l ++ [name]) = some content
  others : ∀ other, other ≠ name →
    after.root.fileAt (l ++ [other]) = before.root.fileAt (l ++ [other])

/-- A path to an entry is longer than the path to its directory. -/
theorem ne_append_singleton (l : Location) (name : String) : l ≠ l ++ [name] := by
  simp

theorem opens_of_sameBut_self {before after : FileTree}
    (h : SameBut isOwn (locationOf before.home directory) before.root after.root)
    (hhome : after.home = before.home) (hup : ".." ∉ names directory)
    (hopens : before.Opens directory (locationOf before.home directory)) :
    after.Opens directory (locationOf before.home directory) :=
  FileTree.opens_of_sameBut h hhome hup (fun name _ => ne_append_singleton _ name) hopens

theorem write?_own (hwf : tree.root.WellFormed) (hup : ".." ∉ names directory)
    (hown : isOwn name = true)
    (h : tree.write? (Path.child directory name) content = some written) :
    Wrote directory (locationOf tree.home directory) name content tree written := by
  obtain ⟨l, hopens, hfile, rfl⟩ := (FileTree.write?_child_eq_some (plainName_of_isOwn hown)).mp h
  obtain rfl := FileTree.locationOf_of_opens hup hopens
  have hsame := SameBut.put hwf hown content hfile
  refine ⟨rfl, hopens, opens_of_sameBut_self hsame rfl hup hopens, hfile, hsame, ?_, ?_⟩
  · rw [Node.fileAt, Node.get?_modify_put hopens.isDirectory, if_pos rfl]
    rfl
  · intro other hother
    rw [Node.fileAt, Node.fileAt, Node.get?_modify_put hopens.isDirectory, if_neg hother]

/-- Where files can be made, one is written unless a directory has its name. -/
theorem exists_write?_own (hwf : tree.root.WellFormed) (hup : ".." ∉ names directory)
    (hown : isOwn name = true) (hopens : tree.Opens directory (locationOf tree.home directory))
    (hfile : tree.root.kindAt (locationOf tree.home directory ++ [name]) ≠ some true)
    (content : ByteArray) :
    ∃ written, tree.write? (Path.child directory name) content = some written ∧
      Wrote directory (locationOf tree.home directory) name content tree written := by
  obtain ⟨written, hwrite⟩ : ∃ written, tree.write? (Path.child directory name) content = some written :=
    ⟨_, (FileTree.write?_child_eq_some (plainName_of_isOwn hown)).mpr ⟨_, hopens, hfile, rfl⟩⟩
  exact ⟨written, hwrite, write?_own hwf hup hown hwrite⟩

/-- A file of the program's own is read where it was written. -/
theorem Wrote.read? {l : Location} (h : Wrote directory l name content tree written)
    (hown : isOwn name = true) : written.read? (Path.child directory name) = some content := by
  rw [h.stillOpens.read?_child (plainName_of_isOwn hown), h.written]

/-- The formats are written one after the other, or one of them is given up. -/
theorem write_single {project : String} {found : UseSet} {after : FileTree} :
    (∀ format, .reportNotWritten format ∉ (write tree .single project found directory).warnings) ∧
        (write tree .single project found directory).tree = after ↔
      ∃ listed,
        tree.write? (Path.child directory "all.json") (listing found).toUTF8 = some listed ∧
        listed.write? (Path.child directory "all.html") (page project found).toUTF8 = some after := by
  simp only [write, formats, List.foldl_cons, List.foldl_nil, writeFormat, files, writeFiles]
  generalize (listing found).toUTF8 = json, (page project found).toUTF8 = html
  cases tree.write? (Path.child directory "all.json") json with
  | none =>
    refine ⟨fun ⟨hnone, _⟩ => absurd ?_ (hnone "json"), by simp⟩
    cases tree.write? (Path.child directory "all.html") html <;> simp [Format.word]
  | some listed =>
    cases hpage : listed.write? (Path.child directory "all.html") html <;> simp [Format.word, hpage]

/-! ## Preparing the directory -/

variable {keep : String}

theorem prepare_empty (tree : FileTree) (keep : String) : (prepare tree "" keep).1 = tree := by
  have hcreate : tree.createAll "" = (tree, true) := FileTree.createAllWithin_empty _ tree
  rw [prepare, hcreate]
  rfl

/-- A directory that is there is only cleared. -/
theorem prepare_of_hasDirectory (hup : ".." ∉ names directory)
    (h : tree.hasDirectory directory = true) :
    prepare tree directory keep =
      (tree.clearFiles (locationOf tree.home directory) (tree.resolve keep).toOption, .ok ()) := by
  obtain ⟨l, hresolve, hl⟩ := FileTree.hasDirectory_iff.mp h
  obtain rfl := FileTree.eq_locationOf_of_resolve hup hresolve
  obtain ⟨entries, hentries⟩ := Node.kindAt_eq_true.mp hl
  simp [prepare, FileTree.createAll_of_hasDirectory h, hresolve, hentries, Node.isDirectory]

section Clearing

variable {own : String → Bool} {l : Location} {keep? : Option Location}

/-- Of the files of a cleared directory only the kept one is left. -/
theorem fileAt_clearFiles (hwf : tree.root.WellFormed) (name : String) :
    (tree.clearFiles l keep?).root.fileAt (l ++ [name]) =
      if keep? = some (l ++ [name]) then tree.root.fileAt (l ++ [name]) else none := by
  rw [Node.fileAt, Node.fileAt, FileTree.clearFiles, Node.get?_modify_keepEntries hwf]
  cases tree.root.get? (l ++ [name]) with
  | none => simp
  | some found =>
    cases found <;> by_cases h : keep? = some (l ++ [name]) <;>
      simp [Option.filter, Node.isDirectory, Node.get?, Node.content?, h]

theorem sameBut_clearFiles (hwf : tree.root.WellFormed)
    (h : ∀ name content, tree.root.fileAt (l ++ [name]) = some content →
      keep? = some (l ++ [name]) ∨ own name = true) :
    SameBut own l tree.root (tree.clearFiles l keep?).root := by
  refine SameBut.keepEntries hwf ?_
  intro name entry hentry hdrop
  cases entry with
  | directory entries => cases hdrop
  | file content =>
    refine ⟨rfl, (h name content (Node.fileAt_eq_some.mpr hentry)).resolve_left ?_⟩
    intro hkeep
    simp [hkeep] at hdrop

theorem sameBut_cleared (hwf : tree.root.WellFormed) (l : Location) (keep? : Option Location) :
    SameBut (fun _ => true) l tree.root (tree.clearFiles l keep?).root :=
  sameBut_clearFiles hwf fun _ _ _ => .inr rfl

/-- Clearing a directory makes no file. -/
theorem fileAt_of_clearFiles {m : Location} {content : ByteArray} (hwf : tree.root.WellFormed)
    (h : (tree.clearFiles l keep?).root.fileAt m = some content) : tree.root.fileAt m = some content := by
  by_cases hchild : ∃ name, m = l ++ [name]
  · obtain ⟨name, rfl⟩ := hchild
    rw [fileAt_clearFiles hwf] at h
    split at h
    · exact h
    · cases h
  · rwa [(sameBut_cleared hwf l keep?).fileAt_eq fun name _ heq => hchild ⟨name, heq⟩]

end Clearing

theorem eq_ok_of_toOption {ε α : Type} {result : Except ε α} {value : α}
    (h : result.toOption = some value) : result = .ok value := by
  cases result with
  | error fault => cases h
  | ok other => exact congrArg _ (Option.some.inj h)

/-- A tree with its report directory prepared. Directories were made, and the
files of the report directory are gone unless its path is empty. -/
structure Prepared (directory : String) (before after : FileTree) : Prop where
  home : after.home = before.home
  grown : ∃ made : Node, Grown before.root made ∧
    SameBut (fun _ => true) (locationOf before.home directory) made after.root
  noNewFile : ∀ m content, after.root.fileAt m = some content → before.root.fileAt m = some content
  cleared : directory = "" ∨ ∀ name content,
    after.root.fileAt (locationOf before.home directory ++ [name]) = some content →
      name = Baseline.fileName

theorem prepare_prepared (hwf : tree.root.WellFormed) (hup : ".." ∉ names directory)
    (hopens : (prepare tree directory (Path.child directory Baseline.fileName)).1.Opens directory l) :
    Prepared directory tree (prepare tree directory (Path.child directory Baseline.fileName)).1 := by
  by_cases hempty : directory = ""
  · subst hempty
    rw [prepare_empty]
    exact ⟨rfl, ⟨tree.root, .refl _, .refl hwf⟩, fun _ _ h => h, .inl rfl⟩
  · obtain ⟨hgrown, hhome, -⟩ := FileTree.createAll_madeUnder tree directory
    have hmade := FileTree.createAll_hasDirectory tree hempty
    obtain ⟨made, there, hcreate⟩ : ∃ made there, tree.createAll directory = (made, there) :=
      ⟨_, _, rfl⟩
    rw [hcreate] at hgrown hhome hmade
    cases there with
    | false =>
      simp only [prepare, hcreate] at hopens
      rw [FileTree.hasDirectory_of_opens hempty hopens] at hmade
      cases hmade
    | true =>
      have hprepare : prepare tree directory (Path.child directory Baseline.fileName) =
          prepare made directory (Path.child directory Baseline.fileName) := by
        simp only [prepare, hcreate, FileTree.createAll_of_hasDirectory hmade.symm]
      have hwf' := hgrown.wellFormed hwf
      simp only at hhome hmade
      rw [hprepare, prepare_of_hasDirectory hup hmade.symm, hhome]
      generalize hkept : (made.resolve (Path.child directory Baseline.fileName)).toOption = keep?
      refine ⟨hhome, ⟨made.root, hgrown, sameBut_cleared hwf' _ keep?⟩, fun m content hfile => ?_,
        .inr fun name content hfile => ?_⟩
      · exact (hgrown.fileAt m).symm.trans (fileAt_of_clearFiles hwf' hfile)
      · rw [fileAt_clearFiles hwf'] at hfile
        split at hfile
        · rename_i hkeep
          have hresolve := eq_ok_of_toOption (hkept.trans hkeep)
          obtain ⟨m, -, hm, -⟩ :=
            (FileTree.resolve_child (plainName_of_isOwn isOwn_baseline)).mp hresolve
          exact List.singleton_inj.mp (List.append_inj' hm rfl).2
        · cases hfile

/-- A report directory whose files are all the program's own keeps the baseline
when it is prepared again. -/
theorem prepare_again {content : ByteArray} (hwf : tree.root.WellFormed) (hup : ".." ∉ names directory)
    (hopens : tree.Opens directory (locationOf tree.home directory))
    (hbaseline : tree.root.fileAt (locationOf tree.home directory ++ [Baseline.fileName]) = some content)
    (hown : directory = "" ∨ ∀ name content,
      tree.root.fileAt (locationOf tree.home directory ++ [name]) = some content → isOwn name = true) :
    let after := (prepare tree directory (Path.child directory Baseline.fileName)).1
    after.home = tree.home ∧
      SameBut isOwn (locationOf tree.home directory) tree.root after.root ∧
      after.root.fileAt (locationOf tree.home directory ++ [Baseline.fileName]) = some content := by
  by_cases hempty : directory = ""
  · subst hempty
    rw [prepare_empty]
    exact ⟨rfl, .refl hwf, hbaseline⟩
  · have hdirectory := FileTree.hasDirectory_of_opens hempty hopens
    have hkeep : tree.resolve (Path.child directory Baseline.fileName) =
        .ok (locationOf tree.home directory ++ [Baseline.fileName]) :=
      (FileTree.resolve_child (plainName_of_isOwn isOwn_baseline)).mpr
        ⟨_, hopens, rfl, Node.isSome_kindAt_of_fileAt hbaseline⟩
    rw [prepare_of_hasDirectory hup hdirectory, hkeep]
    refine ⟨rfl, sameBut_clearFiles hwf fun name content hfile => .inr ?_, ?_⟩
    · exact hown.resolve_left hempty name content hfile
    · exact (fileAt_clearFiles hwf _).trans ((if_pos rfl).trans hbaseline)

end Report

end MemberAudit
