/-
Reports by owner. A name of a file is made of an owner's by putting dots for slashes
and backslashes (`bareName`), so owners can share it; the files of the later one are
then written over those of the earlier. What stands in the end are the reports of the
last owner of each name (`standing`), and the JSON reports read back hold every use once
exactly if no two owners share a name (`write_perOwner`).

Owners have no slashes, which are packages in class files and shown as dots. But a
backslash may stand in the name of a class (`write_perOwner_backslash`).
-/
import Mathlib.Data.List.Dedup
import MemberAudit.Proofs.Baseline.Acceptance
import MemberAudit.Proofs.Report.Writes

namespace MemberAudit.Report

variable {tree : FileTree} {project directory : String} {found : UseSet}
  {pieces : List (String × List MemberUse)}

/-! ## The reports that stand -/

/-- The owners whose reports stand, with their uses: no later one has the same name of
reports. -/
def standing : List (String × List MemberUse) → List (String × List MemberUse)
  | [] => []
  | piece :: rest =>
    if bareName piece.1 ∈ rest.map (bareName ·.1) then standing rest else piece :: standing rest

theorem map_standing (pieces : List (String × List MemberUse)) :
    (standing pieces).map (bareName ·.1) = (pieces.map (bareName ·.1)).dedup := by
  induction pieces with
  | nil => rfl
  | cons piece rest ih =>
    rw [standing, List.map_cons]
    split
    · rename_i hmem
      rw [List.dedup_cons_of_mem hmem, ih]
    · rename_i hnew
      rw [List.dedup_cons_of_notMem hnew, List.map_cons, ih]

theorem exists_append_of_mem_standing {piece : String × List MemberUse} (h : piece ∈ standing pieces) :
    ∃ before rest, pieces = before ++ piece :: rest ∧ bareName piece.1 ∉ rest.map (bareName ·.1) := by
  induction pieces with
  | nil => cases h
  | cons first rest ih =>
    have hlater : piece ∈ standing rest → ∃ before after, first :: rest = before ++ piece :: after ∧
        bareName piece.1 ∉ after.map (bareName ·.1) := by
      intro hmem
      obtain ⟨before, after, heq, hlast⟩ := ih hmem
      exact ⟨first :: before, after, by rw [heq]; rfl, hlast⟩
    rw [standing] at h
    split at h
    · exact hlater h
    · rename_i hnew
      rcases List.mem_cons.mp h with rfl | hmem
      · exact ⟨[], rest, rfl, hnew⟩
      · exact hlater hmem

/-- Uses are lost exactly if owners share a name. -/
theorem length_flatMap_standing (hne : ∀ piece ∈ pieces, piece.2 ≠ []) :
    ((standing pieces).flatMap (·.2)).length ≤ (pieces.flatMap (·.2)).length ∧
      (((standing pieces).flatMap (·.2)).length = (pieces.flatMap (·.2)).length ↔
        (pieces.map (bareName ·.1)).Nodup) := by
  induction pieces with
  | nil => simp [standing]
  | cons piece rest ih =>
    obtain ⟨hfirst, hrest⟩ := List.forall_mem_cons.mp hne
    obtain ⟨hle, hiff⟩ := ih hrest
    have hpos := List.length_pos_iff.mpr hfirst
    rw [standing, List.map_cons, List.nodup_cons]
    split
    · rename_i hmem
      simp only [List.flatMap_cons, List.length_append, hmem, not_true, false_and, iff_false]
      omega
    · rename_i hnew
      simp only [List.flatMap_cons, List.length_append, hnew, not_false_eq_true, true_and, ← hiff]
      omega

theorem standing_eq_self (h : (pieces.map (bareName ·.1)).Nodup) : standing pieces = pieces := by
  induction pieces with
  | nil => rfl
  | cons piece rest ih =>
    obtain ⟨hnew, hrest⟩ := List.nodup_cons.mp h
    rw [standing, if_neg hnew, ih hrest]

/-! ## Names -/

theorem bareName_eq_self {owner : String} (h : '/' ∉ owner.toList ∧ '\\' ∉ owner.toList) :
    bareName owner = owner := by
  refine String.toList_inj.mp ?_
  rw [bareName, String.toList_map]
  refine (List.map_congr_left ?_).trans (List.map_id _)
  intro c hc
  have hplain : ¬(c = '/' ∨ c = '\\') := by
    rintro (rfl | rfl)
    · exact h.1 hc
    · exact h.2 hc
  exact if_neg hplain

/-- Owners without slashes and backslashes have names of their own. -/
theorem nodup_bareNames (h : ∀ use ∈ found.uses, '/' ∉ use.ownerClass.toList ∧ '\\' ∉ use.ownerClass.toList) :
    (found.byOwner.map (bareName ·.1)).Nodup := by
  have hplain : found.byOwner.map (bareName ·.1) = found.byOwner.map (·.1) := by
    refine List.map_congr_left ?_
    intro piece hpiece
    obtain ⟨use, huse, howner⟩ := exists_mem_of_mem_runs hpiece
    exact howner ▸ bareName_eq_self (h use huse)
  rw [hplain]
  exact found.nodup_owners

theorem isStep_bareName_append (owner : String) {ending : String} (h : 2 < ending.length) :
    FileTree.isStep (bareName owner ++ ending) = false := by
  have hne : ∀ name : String, name.length ≤ 2 → bareName owner ++ ending ≠ name := by
    intro name hname heq
    have hlength := congrArg String.length heq
    rw [String.length_append] at hlength
    omega
  simp [FileTree.isStep, hne "" (by decide), hne "." (by decide), hne ".." (by decide)]

/-- No file of one format has the name of one of the other. -/
theorem json_ne_html (name other : String) : name ++ ".json" ≠ other ++ ".html" := by
  intro heq
  have hlast := congrArg (fun text : String => text.toList.getLast?) heq
  have hjson : ".json".toList = ['.', 'j', 's', 'o', 'n'] := by decide
  have hhtml : ".html".toList = ['.', 'h', 't', 'm', 'l'] := by decide
  simp [hjson, hhtml] at hlast

/-- Files of the owners have a name of none of them. -/
theorem append_not_mem_names {owner : String} (h : bareName owner ∉ pieces.map (bareName ·.1))
    (ending : String) (text : String × List MemberUse → String) :
    bareName owner ++ ending ∉
      (pieces.map fun piece => (bareName piece.1 ++ ending, text piece)).map (·.1) := by
  intro hmem
  rw [List.map_map] at hmem
  obtain ⟨piece, hpiece, hname⟩ := List.mem_map.mp hmem
  exact h (List.mem_map.mpr ⟨piece, hpiece, (String.append_left_inj ending).mp hname⟩)

/-! ## Reading them back -/

/-- The reports of an owner stand in a directory. -/
structure Stands (tree : FileTree) (project directory : String) (found : UseSet) (owner : String)
    (bucket : List MemberUse) : Prop where
  json : tree.read? (Path.child directory (bareName owner ++ ".json")) =
    some (ownerListing bucket).toUTF8
  html : tree.read? (Path.child directory (bareName owner ++ ".html")) =
    some (ownerPage project found.size owner bucket).toUTF8

/-- The reports of the last owner of a name stand when all are written. -/
theorem stands_of_writeFiles {listed paged : FileTree} (hwf : tree.root.WellFormed)
    (hjson : writeFiles tree directory (files .json .perOwner project found) = (listed, true))
    (hhtml : writeFiles listed directory (files .html .perOwner project found) = (paged, true))
    {owner : String} {bucket : List MemberUse} (hpiece : (owner, bucket) ∈ standing found.byOwner) :
    Stands paged project directory found owner bucket := by
  obtain ⟨before, rest, hsplit, hlast⟩ := exists_append_of_mem_standing hpiece
  have hwf' : listed.root.WellFormed := by
    have hwrites : FileTree.WritesSome (fun _ => True) tree
        (writeFiles tree directory (files .json .perOwner project found)).1 :=
      writeFiles_writesSome fun _ _ => trivial
    rw [hjson] at hwrites
    exact (hwrites.writable_iff hwf).1
  have hone : ∀ format, ∀ file ∈ files format .perOwner project found, '/' ∉ file.1.toList :=
    fun _ _ hmem => slash_not_mem_of_mem_files hmem
  have hstep : ∀ ending : String, 2 < ending.length → FileTree.isStep (bareName owner ++ ending) = false :=
    fun _ => isStep_bareName_append owner
  constructor
  · have hread : listed.read? (Path.child directory (bareName owner ++ ".json")) =
        some (ownerListing bucket).toUTF8 := by
      have hone' := hone .json
      simp only [files, hsplit, List.map_append, List.map_cons] at hjson hone'
      exact read?_last_of_writeFiles hwf hone' (hstep _ (by decide))
        (append_not_mem_names hlast ".json" _) hjson
    have hother : bareName owner ++ ".json" ∉ (files .html .perOwner project found).map (·.1) := by
      intro hmem
      rw [files, List.map_map] at hmem
      obtain ⟨piece, -, hname⟩ := List.mem_map.mp hmem
      exact json_ne_html _ _ hname.symm
    have hslash : '/' ∉ (bareName owner ++ ".json").toList := by
      simp [slash_not_mem_bareName owner]
    have hkept := read?_of_writeFiles hwf' (hone .html) hslash (hstep _ (by decide)) hother hread
    rwa [hhtml] at hkept
  · have hone' := hone .html
    simp only [files, hsplit, List.map_append, List.map_cons] at hhtml hone'
    exact read?_last_of_writeFiles hwf' hone' (hstep _ (by decide))
      (append_not_mem_names hlast ".html" _) hhtml

/-- The uses read back from the JSON reports by owner, each file being read once. -/
def readBack (tree : FileTree) (project directory : String) (found : UseSet) : List MemberUse :=
  ((files .json .perOwner project found).map (·.1)).dedup.flatMap fun name =>
    (Baseline.load (Path.child directory name) (tree.read? (Path.child directory name))).2.flatten

/-- What is read back are the uses of the owners whose reports stand. -/
theorem readBack_perm
    (hstands : ∀ owner bucket, (owner, bucket) ∈ standing found.byOwner →
      Stands tree project directory found owner bucket) :
    (readBack tree project directory found).Perm
      (((standing found.byOwner).flatMap (·.2)).map MemberUse.recorded) := by
  have hnames : ((files .json .perOwner project found).map (·.1)).dedup =
      (standing found.byOwner).map fun piece => bareName piece.1 ++ ".json" := by
    have hinj : Function.Injective fun name : String => name ++ ".json" :=
      fun _ _ h => (String.append_left_inj _).mp h
    have hmap := List.dedup_map_of_injective hinj (found.byOwner.map (bareName ·.1))
    rw [← map_standing, List.map_map, List.map_map] at hmap
    rw [files, List.map_map]
    exact hmap
  rw [readBack, hnames, List.flatMap_map, List.map_flatMap]
  refine List.Perm.flatMap_left _ ?_
  intro piece hpiece
  obtain ⟨owner, bucket⟩ := piece
  obtain ⟨before, rest, hsplit, -⟩ := exists_append_of_mem_standing hpiece
  have hmem : (owner, bucket) ∈ found.byOwner := by
    rw [hsplit]
    exact List.mem_append_right _ List.mem_cons_self
  have hne : bucket ≠ [] := (UseSet.mem_byOwner hmem).1
  simp only
  rw [(hstands owner bucket hpiece).json, Baseline.load_ownerListing _ hne, List.flatten_singleton]
  exact (perm_memberGroups bucket).map _

section Written

variable (hwf : tree.root.WellFormed)
  (hwritable : ∀ path, IsReport .perOwner project found directory path → tree.Writable path)
include hwf hwritable

theorem write_stands {owner : String} {bucket : List MemberUse}
    (hpiece : (owner, bucket) ∈ standing found.byOwner) :
    Stands (write tree .perOwner project found directory).tree project directory found owner bucket := by
  obtain ⟨listed, paged, hjson, hhtml, hwrite⟩ := write_of_writable hwf hwritable
  rw [hwrite]
  exact stands_of_writeFiles hwf hjson hhtml hpiece

/-- All uses are read back exactly if no owners share a name. -/
theorem readBack_write_perm_iff :
    (readBack (write tree .perOwner project found directory).tree project directory found).Perm
        (found.uses.map MemberUse.recorded) ↔
      (found.byOwner.map (bareName ·.1)).Nodup := by
  have hperm := readBack_perm fun owner bucket hpiece => write_stands hwf hwritable hpiece
  have hne : ∀ piece ∈ found.byOwner, piece.2 ≠ [] := fun piece hpiece => (UseSet.mem_byOwner hpiece).1
  constructor
  · intro hall
    refine (length_flatMap_standing hne).2.mp ?_
    have hlength := hperm.length_eq.symm.trans hall.length_eq
    rwa [List.length_map, List.length_map, ← found.flatMap_byOwner] at hlength
  · intro hnodup
    rwa [standing_eq_self hnodup, found.flatMap_byOwner] at hperm

end Written

/-- **What reports by owner tell** when each of them can be made: all are written, those of the
last owner of each name stand, and read back they hold the uses of these owners. So every use
is read back once exactly if no owners share a name; and none do without slashes and
backslashes. -/
theorem write_perOwner (hwf : tree.root.WellFormed)
    (hwritable : ∀ path, IsReport .perOwner project found directory path → tree.Writable path) :
    let written := write tree .perOwner project found directory
    written.warnings = [] ∧
    (∀ owner bucket, (owner, bucket) ∈ standing found.byOwner →
      Stands written.tree project directory found owner bucket) ∧
    (readBack written.tree project directory found).Perm
      (((standing found.byOwner).flatMap (·.2)).map MemberUse.recorded) ∧
    ((readBack written.tree project directory found).Perm (found.uses.map MemberUse.recorded) ↔
      (found.byOwner.map (bareName ·.1)).Nodup) ∧
    ((∀ use ∈ found.uses, '/' ∉ use.ownerClass.toList ∧ '\\' ∉ use.ownerClass.toList) →
      (found.byOwner.map (bareName ·.1)).Nodup) := by
  intro written
  obtain ⟨listed, paged, -, -, hwrite⟩ := write_of_writable hwf hwritable
  have hstands : ∀ owner bucket, (owner, bucket) ∈ standing found.byOwner →
      Stands written.tree project directory found owner bucket :=
    fun owner bucket hpiece => write_stands hwf hwritable hpiece
  exact ⟨congrArg Written.warnings hwrite, hstands, readBack_perm hstands,
    readBack_write_perm_iff hwf hwritable, nodup_bareNames⟩

/-! A directory for reports, and the calls of one method of each of two owners. -/

def reportsTree : FileTree :=
  ⟨.directory [("work", .directory [("reports", .directory [])])], ["work"]⟩

def callsOf (owner other : String) : UseSet :=
  .ofList [⟨owner, "void put()", .method, "Main", "run()", 3⟩, ⟨other, "void put()", .method, "Main", "run()", 3⟩]

theorem wellFormed_reportsTree : reportsTree.root.WellFormed := by
  simp [reportsTree, Node.wellFormed_directory]

/-- The reports can be made if files of their names can be. -/
theorem writable_reportsTree (names : List String) {owners : List String}
    (howners : found.byOwner.map (·.1) = owners)
    (hnames : ∀ owner ∈ owners, bareName owner ++ ".json" ∈ names ∧ bareName owner ++ ".html" ∈ names)
    (h : ∀ name ∈ names, (reportsTree.write? (Path.child "reports" name) .empty).isSome) :
    ∀ path, IsReport .perOwner "p" found "reports" path → reportsTree.Writable path := by
  intro path hreport
  obtain ⟨format, file, hmem, rfl⟩ := hreport
  have hname : file.1 ∈ names := by
    cases format
    all_goals
      obtain ⟨piece, hpiece, rfl⟩ := List.mem_map.mp hmem
      have howner := hnames piece.1 (howners ▸ List.mem_map_of_mem hpiece)
      first | exact howner.1 | exact howner.2
  exact (FileTree.writable_iff_exists_write? _ _ .empty).mpr
    (Option.isSome_iff_exists.mp (h file.1 hname))

theorem write_perOwner_packages :
    let found := callsOf "app.Store" "app.Cache"
    let written := write reportsTree .perOwner "p" found "reports"
    found.byOwner.map (·.1) = ["app.Cache", "app.Store"] ∧ written.warnings = [] ∧
      (readBack written.tree "p" "reports" found).Perm (found.uses.map MemberUse.recorded) := by
  intro found written
  have howners : found.byOwner.map (·.1) = ["app.Cache", "app.Store"] := by decide +kernel
  have hwritable := writable_reportsTree
    ["app.Cache.json", "app.Cache.html", "app.Store.json", "app.Store.html"] howners
    (by decide +kernel) (by decide +kernel)
  obtain ⟨hwarnings, -, -, hiff, hnodup⟩ := write_perOwner wellFormed_reportsTree hwritable
  exact ⟨howners, hwarnings, hiff.mpr (hnodup (by decide +kernel))⟩

/-- The classes `a/b` and `a\b` are shown under names of their own, but share the names of
their reports: each file is written twice, and the call of the first owner is lost. -/
theorem write_perOwner_backslash :
    let found := callsOf "a.b" "a\\b"
    let written := write reportsTree .perOwner "p" found "reports"
    Signature.className "a/b" = "a.b" ∧ Signature.className "a\\b" = "a\\b" ∧
      found.byOwner.map (·.1) = ["a.b", "a\\b"] ∧
      (∀ path, IsReport .perOwner "p" found "reports" path → reportsTree.Writable path) ∧
      (files .json .perOwner "p" found).map (·.1) = ["a.b.json", "a.b.json"] ∧
      (files .html .perOwner "p" found).map (·.1) = ["a.b.html", "a.b.html"] ∧
      ¬(readBack written.tree "p" "reports" found).Perm (found.uses.map MemberUse.recorded) := by
  intro found written
  have howners : found.byOwner.map (·.1) = ["a.b", "a\\b"] := by decide +kernel
  have hwritable := writable_reportsTree ["a.b.json", "a.b.html"] howners (by decide +kernel)
    (by decide +kernel)
  have hshared : ¬(found.byOwner.map (bareName ·.1)).Nodup := by
    have hnames := congrArg (List.map bareName) howners
    rw [List.map_map] at hnames
    rw [show found.byOwner.map (bareName ·.1) = _ from hnames]
    decide +kernel
  exact ⟨by decide +kernel, by decide +kernel, howners, hwritable, by decide +kernel, by decide +kernel,
    mt (readBack_write_perm_iff wellFormed_reportsTree hwritable).mp hshared⟩

end MemberAudit.Report
