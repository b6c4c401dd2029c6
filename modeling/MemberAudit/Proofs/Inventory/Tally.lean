/-
The inventory of a directory, file by file: a tally passes over the files that yield
nothing and gives each of the others the next number (`Tally`, `take_eq_ok_iff`). A scan
ends at the first file that spoils it (`take_eq_error_iff`).
-/
import MemberAudit.Proofs.Inventory.Outcomes

namespace MemberAudit.Inventory

variable {inventory result : Inventory} {files : List (String × ByteArray)} {fault : ScanFault}

/-- Files added to an inventory one by one. -/
inductive Tally : Inventory → List (String × ByteArray) → Inventory → Prop where
  | done {inventory : Inventory} : Tally inventory [] inventory
  | passed {inventory result : Inventory} {path : String} {content : ByteArray}
      {files : List (String × ByteArray)} : Yields path content none →
      Tally inventory files result → Tally inventory ((path, content) :: files) result
  | added {inventory result : Inventory} {path : String} {content : ByteArray}
      {files : List (String × ByteArray)} {classes : List JvmClass} :
      Yields path content (some classes) →
      Tally
        { artifacts := inventory.artifacts ++ [⟨path, content.size, false⟩]
          classes := inventory.classes ++ classes.map (⟨·, inventory.artifacts.length⟩)
          classCount := inventory.classCount + classes.length } files result →
      Tally inventory ((path, content) :: files) result

/-! ## Collecting -/

theorem collect_of_tally (h : Tally inventory files result) :
    (collect inventory (files.map visitOf)).2 = .ok result := by
  induction h with
  | done => rfl
  | passed hyields _ ih =>
    simp only [List.map_cons, collect, visitOf, examine_of_yields hyields]
    exact ih
  | added hyields _ ih =>
    simp only [List.map_cons, collect, visitOf, examine_of_yields hyields]
    exact ih

/-- A file after others is at fault if it is the first one that spoils the scan. -/
inductive SpoiltBy : List (String × ByteArray) → ScanFault → Prop where
  | here {path : String} {content : ByteArray} {files : List (String × ByteArray)}
      {fault : ScanFault} : Spoils path content fault → SpoiltBy ((path, content) :: files) fault
  | later {path : String} {content : ByteArray} {files : List (String × ByteArray)}
      {fault : ScanFault} : ¬IsSpoilt path content → SpoiltBy files fault →
      SpoiltBy ((path, content) :: files) fault

theorem collect_of_spoiltBy (h : SpoiltBy files fault) (inventory : Inventory) :
    (collect inventory (files.map visitOf)).2 = .error fault := by
  induction h generalizing inventory with
  | here hspoils => simp [collect, visitOf, examine_of_spoils hspoils]
  | later hgood _ ih =>
    obtain ⟨classes?, hyields⟩ := exists_yields hgood
    simp only [List.map_cons, collect, visitOf, examine_of_yields hyields]
    exact ih _

theorem exists_tally (h : ∀ file ∈ files, ¬IsSpoilt file.1 file.2) (inventory : Inventory) :
    ∃ result, Tally inventory files result := by
  induction files generalizing inventory with
  | nil => exact ⟨inventory, .done⟩
  | cons file files ih =>
    obtain ⟨hgood, hfiles⟩ := List.forall_mem_cons.mp h
    obtain ⟨classes?, hyields⟩ := exists_yields hgood
    cases classes? with
    | none =>
      obtain ⟨result, hresult⟩ := ih hfiles inventory
      exact ⟨result, .passed hyields hresult⟩
    | some classes =>
      obtain ⟨result, hresult⟩ := ih hfiles _
      exact ⟨result, .added hyields hresult⟩

theorem exists_spoiltBy (h : ∃ file ∈ files, IsSpoilt file.1 file.2) : ∃ fault, SpoiltBy files fault := by
  induction files with
  | nil => simp at h
  | cons file files ih =>
    by_cases hspoilt : IsSpoilt file.1 file.2
    · obtain ⟨fault, hspoils⟩ := exists_spoils_iff.mpr hspoilt
      exact ⟨fault, .here hspoils⟩
    · obtain ⟨fault, hfault⟩ := ih (by simpa [hspoilt] using h)
      exact ⟨fault, .later hspoilt hfault⟩

/-! ## Scanning -/

variable {tree : FileTree} {input : String} {entries : List (String × Node)}

theorem exists_tally_or_spoiltBy (files : List (String × ByteArray)) :
    (∃ result, Tally ⟨[], [], 0⟩ files result) ∨ ∃ fault, SpoiltBy files fault := by
  by_cases h : ∃ file ∈ files, IsSpoilt file.1 file.2
  · exact .inr (exists_spoiltBy h)
  · exact .inl (exists_tally (by simpa using h) _)

theorem snd_take (hnode : tree.node? input = some (.directory entries)) :
    (take tree input).2 =
      (collect ⟨[], [], 0⟩ ((filesAt input (.directory entries)).map visitOf)).2 := by
  rw [take, visits_directory hnode]

/-- **The inventory of a directory is the tally of its files.** -/
theorem take_eq_ok_iff (hnode : tree.node? input = some (.directory entries)) :
    (take tree input).2 = .ok result ↔
      Tally ⟨[], [], 0⟩ (filesAt input (.directory entries)) result := by
  rw [snd_take hnode]
  refine ⟨fun h => ?_, collect_of_tally⟩
  rcases exists_tally_or_spoiltBy (filesAt input (.directory entries)) with
    ⟨found, hfound⟩ | ⟨fault, hfault⟩
  · rw [collect_of_tally hfound] at h
    exact Except.ok.inj h ▸ hfound
  · rw [collect_of_spoiltBy hfault] at h
    cases h

/-- **The scan of a directory fails by the first file that spoils it.** -/
theorem take_eq_error_iff (hnode : tree.node? input = some (.directory entries)) :
    (take tree input).2 = .error fault ↔ SpoiltBy (filesAt input (.directory entries)) fault := by
  rw [snd_take hnode]
  refine ⟨fun h => ?_, fun h => collect_of_spoiltBy h _⟩
  rcases exists_tally_or_spoiltBy (filesAt input (.directory entries)) with
    ⟨found, hfound⟩ | ⟨other, hother⟩
  · rw [collect_of_tally hfound] at h
    cases h
  · rw [collect_of_spoiltBy hother] at h
    exact Except.error.inj h ▸ hother

end MemberAudit.Inventory
