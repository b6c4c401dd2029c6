/-
What reports are written. A file that is written does not count for the writing of
others, so if each report can be made on the tree as it is, then all are written
(`write_of_writable`). Of files with one name the last one stays
(`read?_last_of_writeFiles`). Sets of uses with the same keys have reports under the same
names (`names_of_keys`), which are written in the same way whatever they hold
(`write_alike`).
-/
import MemberAudit.Proofs.Report.KeptFiles
import MemberAudit.Proofs.UseSet.Additions
import MemberAudit.Proofs.UseSet.Buckets

namespace MemberAudit.Report

open FileTree (AlikeOn WritesSome isStep)

variable {tree after : FileTree} {grain : Grain} {project directory name : String} {found : UseSet}

/-! ## All reports -/

theorem writeFiles_of_writable {files : List (String × String)} (hwf : tree.root.WellFormed)
    (h : ∀ file ∈ files, tree.Writable (Path.child directory file.1)) :
    ∃ after, writeFiles tree directory files = (after, true) := by
  induction files generalizing tree with
  | nil => exact ⟨tree, rfl⟩
  | cons file files ih =>
    obtain ⟨hfirst, hrest⟩ := List.forall_mem_cons.mp h
    obtain ⟨written, hwrite⟩ := (FileTree.writable_iff_exists_write? tree _ file.2.toUTF8).mp hfirst
    obtain ⟨l, name, hwritten⟩ := FileTree.writtenAt_of_write? hwf hwrite
    rw [writeFiles, hwrite]
    refine ih hwritten.sameBut.right ?_
    intro other hother
    exact (FileTree.writable_iff_of_write? hwf hwrite _).mpr (hrest other hother)

/-- All reports are written if each of them can be made. -/
theorem write_of_writable (hwf : tree.root.WellFormed)
    (h : ∀ path, IsReport grain project found directory path → tree.Writable path) :
    ∃ listed paged,
      writeFiles tree directory (files .json grain project found) = (listed, true) ∧
      writeFiles listed directory (files .html grain project found) = (paged, true) ∧
      write tree grain project found directory =
        ⟨paged, formats.flatMap fun format =>
          (files format grain project found).map fun file => Path.child directory file.1, []⟩ := by
  obtain ⟨listed, hlisted⟩ : ∃ listed,
      writeFiles tree directory (files .json grain project found) = (listed, true) :=
    writeFiles_of_writable hwf fun file hmem => h _ ⟨_, file, hmem, rfl⟩
  have hjson : WritesSome (IsReport grain project found directory) tree
      (writeFiles tree directory (files .json grain project found)).1 :=
    writeFiles_writesSome fun file hmem => ⟨_, file, hmem, rfl⟩
  rw [hlisted] at hjson
  obtain ⟨hwf', hsame⟩ := hjson.writable_iff hwf
  obtain ⟨paged, hpaged⟩ : ∃ paged,
      writeFiles listed directory (files .html grain project found) = (paged, true) :=
    writeFiles_of_writable hwf' fun file hmem => (hsame _).mpr (h _ ⟨_, file, hmem, rfl⟩)
  refine ⟨listed, paged, hlisted, hpaged, ?_⟩
  simp [write, formats, writeFormat, hlisted, hpaged]

/-! ## What is read of them -/

section Reading

variable {files before rest : List (String × String)} {text : String} {content : ByteArray}

/-- Files with other names leave one of the directory. -/
theorem read?_of_writeFiles (hwf : tree.root.WellFormed) (hone : ∀ file ∈ files, '/' ∉ file.1.toList)
    (hname : '/' ∉ name.toList) (hstep : isStep name = false) (hother : name ∉ files.map (·.1))
    (hread : tree.read? (Path.child directory name) = some content) :
    (writeFiles tree directory files).1.read? (Path.child directory name) = some content := by
  induction files generalizing tree with
  | nil => exact hread
  | cons file files ih =>
    obtain ⟨hfirst, hrest⟩ := List.forall_mem_cons.mp hone
    rw [List.map_cons, List.mem_cons, not_or] at hother
    rw [writeFiles]
    split
    · exact hread
    · rename_i written hwrite
      obtain ⟨l, last, hwritten⟩ := FileTree.writtenAt_of_write? hwf hwrite
      refine ih hwritten.sameBut.right hrest hother.2 ?_
      exact FileTree.read?_child_of_write? hwf hfirst hname hstep hother.1 hwrite hread

/-- Of the files with one name the last is the one that is read. -/
theorem read?_last_of_writeFiles (hwf : tree.root.WellFormed)
    (hone : ∀ file ∈ before ++ (name, text) :: rest, '/' ∉ file.1.toList)
    (hstep : isStep name = false) (hlast : name ∉ rest.map (·.1))
    (h : writeFiles tree directory (before ++ (name, text) :: rest) = (after, true)) :
    after.read? (Path.child directory name) = some text.toUTF8 := by
  induction before generalizing tree with
  | nil =>
    obtain ⟨hname, hrest⟩ := List.forall_mem_cons.mp hone
    rw [List.nil_append, writeFiles] at h
    split at h
    · cases h
    · rename_i written hwrite
      obtain ⟨l, last, hwritten⟩ := FileTree.writtenAt_of_write? hwf hwrite
      have hkept := read?_of_writeFiles hwritten.sameBut.right hrest hname hstep hlast
        (FileTree.read?_of_write? hwf hwrite)
      rwa [h] at hkept
  | cons file before ih =>
    obtain ⟨-, hrest⟩ := List.forall_mem_cons.mp hone
    rw [List.cons_append, writeFiles] at h
    split at h
    · cases h
    · rename_i written hwrite
      obtain ⟨l, last, hwritten⟩ := FileTree.writtenAt_of_write? hwf hwrite
      exact ih hwritten.sameBut.right hrest h

/-- The JSON report over all owners is read as it was written. -/
theorem read?_listing_of_write (hwf : tree.root.WellFormed)
    (h : .reportNotWritten "json" ∉ (write tree .single project found directory).warnings) :
    (write tree .single project found directory).tree.read? (Path.child directory "all.json") =
      some (listing found).toUTF8 := by
  have hone (format : Format) : ∀ file ∈ files format .single project found, '/' ∉ file.1.toList :=
    fun _ => slash_not_mem_of_mem_files
  have hjson : files .json .single project found = [] ++ ("all.json", listing found) :: [] := rfl
  have hhtml : (files .html .single project found).map (·.1) = ["all.html"] := by
    simp only [files, List.map_cons, List.map_nil]
  simp only [write, formats, List.foldl_cons, List.foldl_nil, writeFormat_tree]
  obtain ⟨listed, done, hlisted⟩ : ∃ listed done,
      writeFiles tree directory (files .json .single project found) = (listed, done) := ⟨_, _, rfl⟩
  have hwritten : WritesSome (fun _ => True) tree
      (writeFiles tree directory (files .json .single project found)).1 :=
    writeFiles_writesSome fun _ _ => trivial
  rw [hlisted] at hwritten ⊢
  cases done with
  | false =>
    refine absurd ?_ h
    simp only [write, formats, List.foldl_cons, List.foldl_nil, writeFormat, hlisted]
    split <;> simp [Format.word]
  | true =>
    have hone' := hone .json
    rw [hjson] at hlisted hone'
    have hread := read?_last_of_writeFiles hwf hone' (by decide) (by simp) hlisted
    exact read?_of_writeFiles (hwritten.writable_iff hwf).1 (hone .html) (by decide) (by decide)
      (by simp [hhtml]) hread

end Reading

/-! ## Sets with the same keys -/

section Keys

variable {other : UseSet}

theorem mem_owners_iff {owner : String} :
    owner ∈ found.byOwner.map (·.1) ↔ ∃ key ∈ found.keys, key.1 = owner := by
  simp only [UseSet.keys, List.mem_toFinset, List.mem_map, exists_exists_and_eq_and]
  constructor
  · intro h
    obtain ⟨piece, hpiece, rfl⟩ := h
    exact exists_mem_of_mem_runs hpiece
  · intro h
    obtain ⟨use, huse, rfl⟩ := h
    rw [← found.flatMap_byOwner] at huse
    obtain ⟨piece, hpiece, hmem⟩ := List.mem_flatMap.mp huse
    exact ⟨piece, hpiece, ((found.areRuns_byOwner.keyed _ _ hpiece).2 use hmem).symm⟩

theorem owners_of_keys (h : found.keys = other.keys) :
    found.byOwner.map (·.1) = other.byOwner.map (·.1) := by
  have hperm : (found.byOwner.map (·.1)).Perm (other.byOwner.map (·.1)) := by
    refine (List.perm_ext_iff_of_nodup found.nodup_owners other.nodup_owners).mpr fun owner => ?_
    rw [mem_owners_iff, mem_owners_iff, h]
  refine hperm.eq_of_pairwise ?_ found.areRuns_byOwner.ascending other.areRuns_byOwner.ascending
  intro x y _ _ hxy hyx
  exact absurd hyx (Std.OrientedCmp.not_lt_of_lt hxy)

/-- The names of reports are told by the keys. -/
theorem names_of_keys (h : found.keys = other.keys) (format : Format) (grain : Grain) (project : String) :
    (files format grain project found).map (·.1) = (files format grain project other).map (·.1) := by
  have hnames (f : String → String) (set : UseSet) (text : String × List MemberUse → String) :
      (set.byOwner.map fun piece => (f piece.1, text piece)).map (·.1) = (set.byOwner.map (·.1)).map f := by
    rw [List.map_map, List.map_map]
    rfl
  cases grain with
  | single => cases format <;> simp only [files, List.map_cons, List.map_nil]
  | perOwner =>
    cases format with
    | json =>
      have hlisted (set : UseSet) := hnames (bareName · ++ ".json") set fun piece => ownerListing piece.2
      rw [files, files, hlisted, hlisted, owners_of_keys h]
    | html =>
      have hpaged (set : UseSet) := hnames (bareName · ++ ".html") set fun piece =>
        ownerPage project set.size piece.1 piece.2
      rw [files, files, hpaged, hpaged, owners_of_keys h]

theorem IsReport.of_keys {path : String} (h : IsReport grain project found directory path)
    (hkeys : found.keys = other.keys) : IsReport grain project other directory path := by
  obtain ⟨format, file, hfile, rfl⟩ := h
  have hname : file.1 ∈ (files format grain project other).map (·.1) := by
    rw [← names_of_keys hkeys]
    exact List.mem_map_of_mem hfile
  obtain ⟨file', hfile', heq⟩ := List.mem_map.mp hname
  exact ⟨format, file', hfile', by rw [heq]⟩

end Keys

/-! ## Reports with the same names -/

section Alike

variable {places : Location → Prop} {a b : FileTree} {listed listed' : List (String × String)}
  {other : UseSet} {before before' : Written} {format : Format}

theorem writeFiles_alike (h : AlikeOn places a b) (hnames : listed.map (·.1) = listed'.map (·.1))
    (hplaces : ∀ file ∈ listed, ∀ m, places m → ¬a.Makes (Path.child directory file.1) m) :
    (writeFiles a directory listed).2 = (writeFiles b directory listed').2 ∧
      AlikeOn places (writeFiles a directory listed).1 (writeFiles b directory listed').1 := by
  induction listed generalizing a b listed' with
  | nil =>
    obtain rfl := List.map_eq_nil_iff.mp hnames.symm
    exact ⟨rfl, h⟩
  | cons file rest ih =>
    cases listed' with
    | nil => cases hnames
    | cons file' rest' =>
      obtain ⟨hname, hrest⟩ := List.cons.inj hnames
      obtain ⟨hfirst, hlater⟩ := List.forall_mem_cons.mp hplaces
      simp only at hname
      rw [writeFiles, writeFiles, ← hname]
      rcases h.write? file.2.toUTF8 file'.2.toUTF8
        fun m hm hmakes => absurd hmakes (hfirst m hm) with hnone | hsome
      · rw [hnone.1, hnone.2]
        exact ⟨rfl, h⟩
      · obtain ⟨a', b', hwrite, hwrite', halike⟩ := hsome
        rw [hwrite, hwrite']
        have hagree : FileTree.AgreeOn places a a' := FileTree.agreeOn_of_write? h.left hfirst hwrite
        exact ih halike hrest fun next hnext m hm hmakes =>
          hlater next hnext m hm (hagree.makes.mpr hmakes)

theorem writeFormat_alike (hkeys : found.keys = other.keys) (h : AlikeOn places before.tree before'.tree)
    (hwarnings : before.warnings = before'.warnings)
    (hplaces : ∀ file ∈ files format grain project found, ∀ m, places m →
      ¬before.tree.Makes (Path.child directory file.1) m) :
    let after := writeFormat grain project found directory before format
    let after' := writeFormat grain project other directory before' format
    after.warnings = after'.warnings ∧ AlikeOn places after.tree after'.tree := by
  intro after after'
  obtain ⟨hdone, halike⟩ := writeFiles_alike h (names_of_keys hkeys format grain project) hplaces
  refine ⟨?_, ?_⟩
  · simp only [after, after', writeFormat]
    cases hfirst : writeFiles before.tree directory (files format grain project found)
    cases hsecond : writeFiles before'.tree directory (files format grain project other)
    rw [hfirst, hsecond] at hdone
    simp only at hdone
    subst hdone
    split <;> simp_all
  · rw [writeFormat_tree, writeFormat_tree]
    exact halike

/-- **Reports of sets with the same keys are written in the same way.** -/
theorem write_alike (hkeys : found.keys = other.keys) (h : AlikeOn places a b)
    (hplaces : ∀ path, IsReport grain project found directory path → ∀ m, places m → ¬a.Makes path m) :
    let written := write a grain project found directory
    let written' := write b grain project other directory
    written.warnings = written'.warnings ∧ AlikeOn places written.tree written'.tree := by
  intro written written'
  have hformat (format : Format) : ∀ file ∈ files format grain project found, ∀ m, places m →
      ¬a.Makes (Path.child directory file.1) m :=
    fun file hmem => hplaces _ ⟨format, file, hmem, rfl⟩
  have hstart : AlikeOn places (⟨a, [], []⟩ : Written).tree (⟨b, [], []⟩ : Written).tree := h
  obtain ⟨hwarnings, hlisted⟩ := writeFormat_alike hkeys hstart rfl (hformat .json)
  refine writeFormat_alike hkeys hlisted hwarnings ?_
  intro file hmem m hm hmakes
  -- what was listed does not change where the pages are made
  have hagree : FileTree.AgreeOn (fun _ => False) a
      (writeFiles a directory (files .json grain project found)).1 :=
    (writeFiles_writesSome fun _ _ => trivial : WritesSome (fun _ => True) _ _).agreeOn h.left
      fun _ _ _ => False.elim
  rw [writeFormat_tree] at hmakes
  exact hformat .html file hmem m hm (hagree.makes.mpr hmakes)

end Alike

end MemberAudit.Report
