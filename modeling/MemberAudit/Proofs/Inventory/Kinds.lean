/-
The kind of a file is told from its name alone, wherever the file is (`fileKind_child`): it
is a class file or a jar if the name has that extension, after a stem that is not empty
(`fileKind_eq_classFile_iff`, `fileKind_eq_jar_iff`).
-/
import Mathlib.Data.List.TakeDrop
import Mathlib.Data.List.TakeWhile
import MemberAudit.Proofs.FileTree.Walks
import MemberAudit.Inventory

namespace MemberAudit

open FileTree (PlainName names)

/-! ## Extensions -/

namespace Path

variable {stem extension name : List Char}

theorem forall_mem_reverse_ne_dot (h : '.' ∉ name) : ∀ c ∈ name.reverse, decide (c ≠ '.') = true := by
  intro c hc
  refine decide_eq_true ?_
  rintro rfl
  exact h (List.mem_reverse.mp hc)

theorem splitName_append (h : '.' ∉ extension) :
    splitName (stem ++ '.' :: extension) =
      if stem = [] then ('.' :: extension, none) else (stem, some extension) := by
  have hspan : (stem ++ '.' :: extension).reverse.span (· ≠ '.') =
      (extension.reverse, '.' :: stem.reverse) := by
    have hall := forall_mem_reverse_ne_dot h
    rw [List.reverse_append, List.reverse_cons, List.append_assoc, List.singleton_append,
      List.span_eq_takeWhile_dropWhile, List.takeWhile_append_of_pos hall,
      List.dropWhile_append_of_pos hall]
    simp
  rw [splitName, hspan]
  cases hreverse : stem.reverse with
  | nil => simp [List.reverse_eq_nil_iff.mp hreverse]
  | cons c before =>
    have hstem : stem ≠ [] := fun hnil => by simp [hnil] at hreverse
    simp [hstem, ← hreverse]

theorem splitName_of_not_mem (h : '.' ∉ name) : splitName name = (name, none) := by
  have hall := forall_mem_reverse_ne_dot h
  rw [splitName, List.span_eq_takeWhile_dropWhile, List.dropWhile_eq_nil_iff.mpr hall]

/-- An extension is what follows the last dot of a name that has something before it. -/
theorem snd_splitName_eq_some :
    (splitName name).2 = some extension ↔
      '.' ∉ extension ∧ ∃ stem, stem ≠ [] ∧ name = stem ++ '.' :: extension := by
  constructor
  · intro h
    -- the last dot of a name is the first one of its reverse
    by_cases hmem : '.' ∈ name.reverse
    · obtain ⟨after, before, hreverse, hafter⟩ := List.eq_append_cons_of_mem hmem
      have hname : name = before.reverse ++ '.' :: after.reverse := by
        rw [← name.reverse_reverse, hreverse]
        simp
      have hafter : '.' ∉ after.reverse := by simpa using hafter
      rw [hname, splitName_append hafter] at h
      split at h
      · cases h
      · rename_i hbefore
        cases h
        exact ⟨hafter, before.reverse, hbefore, hname⟩
    · rw [splitName_of_not_mem (by simpa using hmem)] at h
      cases h
  · intro h
    obtain ⟨hdot, stem, hstem, rfl⟩ := h
    rw [splitName_append hdot, if_neg hstem]

end Path

/-! ## Names of files -/

namespace Inventory

/-- Whether a name is a stem, a dot and the extension. -/
def Named (extension name : String) : Prop :=
  ∃ stem, stem ≠ "" ∧ name = stem ++ "." ++ extension

theorem parts_child (directory : String) {name : String} (h : '/' ∉ name.toList) :
    ∃ before, Path.parts (Path.child directory name) = before ++ [name.toList] := by
  refine ⟨(FileTree.above directory).map String.toList, ?_⟩
  have hnames := congrArg (List.map String.toList) (FileTree.names_child directory h)
  simpa [names, List.map_map, Function.comp_def] using hnames

theorem fileName?_of_parts {path : String} {before : List (List Char)} {name : String}
    (h : Path.parts path = before ++ [name.toList]) (hname : PlainName name) :
    Path.fileName? path = some name.toList := by
  have hstep := hname.notStep
  simp only [FileTree.isStep, Bool.or_eq_false_iff, decide_eq_false_iff_not] at hstep
  have hchars : ∀ other : String, name ≠ other → name.toList ≠ other.toList :=
    fun other hne heq => hne (String.toList_inj.mp heq)
  have hnamed : Path.isNamed name.toList = true := by
    simpa [Path.isNamed, hstep.1.1] using hchars "." hstep.1.2
  rw [Path.fileName?, h, List.reverse_append, List.reverse_singleton, List.singleton_append,
    Path.trimUnnamed, if_pos hnamed]
  exact if_neg (hchars ".." hstep.2)

/-- Names are read from their end: what stands before the last dot is the stem. -/
theorem snd_splitName_toList {name extension : String} (hdot : '.' ∉ extension.toList) :
    (Path.splitName name.toList).2.map String.ofList = some extension ↔ Named extension name := by
  have hchars : (Path.splitName name.toList).2.map String.ofList = some extension ↔
      (Path.splitName name.toList).2 = some extension.toList := by
    rw [Option.map_eq_some_iff]
    constructor
    · intro hex
      obtain ⟨chars, hchars, rfl⟩ := hex
      rw [hchars, String.toList_ofList]
    · intro hchars
      exact ⟨_, hchars, String.ofList_toList⟩
  rw [hchars, Path.snd_splitName_eq_some, and_iff_right hdot]
  constructor
  · intro hex
    obtain ⟨stem, hstem, hname⟩ := hex
    refine ⟨String.ofList stem, fun hempty => hstem ?_, ?_⟩
    · simpa using congrArg String.toList hempty
    · exact String.toList_inj.mp (by simp [hname])
  · intro hex
    obtain ⟨stem, hstem, rfl⟩ := hex
    exact ⟨stem.toList, fun hempty => hstem (String.toList_inj.mp hempty), by simp⟩

/-- The kind of a file is told from its name, wherever it is. -/
theorem fileKind_child (directory : String) {name : String} (h : PlainName name) :
    fileKind (Path.child directory name) = fileKind name := by
  obtain ⟨before, hparts⟩ := parts_child directory h.oneName
  have hself : Path.parts name = [] ++ [name.toList] := Text.split_of_not_mem h.oneName
  rw [fileKind, fileKind, Path.extension?, Path.extension?, fileName?_of_parts hparts h,
    fileName?_of_parts hself h]

theorem extension?_eq_some_iff {name extension : String} (h : PlainName name)
    (hdot : '.' ∉ extension.toList) : Path.extension? name = some extension ↔ Named extension name := by
  have hself : Path.parts name = [] ++ [name.toList] := Text.split_of_not_mem h.oneName
  rw [Path.extension?, fileName?_of_parts hself h, Option.bind_some, snd_splitName_toList hdot]

theorem fileKind_eq_classFile_iff {name : String} (h : PlainName name) :
    fileKind name = .classFile ↔ Named "class" name := by
  rw [← extension?_eq_some_iff h (by decide), fileKind]
  split <;> simp_all

theorem fileKind_eq_jar_iff {name : String} (h : PlainName name) :
    fileKind name = .jar ↔ Named "jar" name := by
  rw [← extension?_eq_some_iff h (by decide), fileKind]
  split <;> simp_all

theorem fileKind_eq_unsupported_iff {name : String} (h : PlainName name) :
    fileKind name = .unsupported ↔ ¬Named "class" name ∧ ¬Named "jar" name := by
  rw [← fileKind_eq_classFile_iff h, ← fileKind_eq_jar_iff h]
  cases fileKind name <;> simp

end Inventory

end MemberAudit
