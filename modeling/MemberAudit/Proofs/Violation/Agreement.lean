/-
The outputs of one scan agree (`outputs_agree`): the log, the JSON report and
the HTML page list the same uses, those that the rules flag and the baseline does
not accept, each once. The log takes them from the list of violations and the
reports from the set of uses. Each output is read back from its text, so that
what is compared is what a reader of the files finds; in the log it is the message
and the file of the first violation of each use.
-/
import MemberAudit.Proofs.Baseline.Acceptance
import MemberAudit.Proofs.Report.Markup
import MemberAudit.Proofs.Sarif.ReadBack
import MemberAudit.Proofs.Violation.FirstOfUse

namespace MemberAudit

open Json

/-! ## Reports read back -/

/-- The number of uses in the document of a JSON report. -/
def Report.recordCount (document : Document) : Nat :=
  ((document.items?.getD []).map fun group => (group.items?.getD []).length).sum

theorem Report.recordCount_listing (found : UseSet) :
    Report.recordCount (Document.read (Report.listing found)).1 = found.size := by
  have hcount : (Report.groups found).map List.length =
      ((Report.groups found).map Document.ofUses).map fun group => (group.items?.getD []).length := by
    rw [List.map_map]
    exact List.map_congr_left fun uses _ => (List.length_map _).symm
  rw [Report.listing, Document.read_document, Document.ofValue_groups, UseSet.size,
    ← (perm_groups found).length_eq, List.length_flatten, hcount]
  rfl

/-! ## Agreement -/

namespace Violation

/-- A signature has a blank at least. -/
theorem memberText_ne_empty (reference : ClassFile.Reference) : memberText reference ≠ "" := by
  unfold memberText Signature.method Signature.field
  intro h
  split at h <;> simp at h

theorem ownerMember_ne_empty {rules : Policy} {classes : List PlacedClass} {violation : Violation}
    (h : violation ∈ all rules classes) : violation.use.ownerMember ≠ "" := by
  simp only [all, ofClass, List.mem_flatMap, List.mem_filterMap] at h
  obtain ⟨cls, -, method, -, reference, -, h⟩ := h
  unfold of? at h
  split at h
  · split at h
    · cases h
    · cases h
      exact memberText_ne_empty reference
  · cases h

/-- **The outputs of one scan agree.** Whatever the baseline, the log has a result
for the first violation of each use that is left, in the order of the scan, and the
result tells of this violation: its message and its artifact above all. There are as many
uses left as results in the log, records in the JSON report and rows in the HTML page,
which is the number in its heading. -/
theorem outputs_agree (set : UseSet) (rules : Policy) (classes : List PlacedClass)
    (baseline : Baseline) (project : String) (call : List String) (artifacts : List Artifact) :
    let scan := record set rules classes
    let left := scan.2.newSince baseline
    let results := reported left scan.1
    results = (firsts scan.1).filter (left.contains ·.use) ∧
    (results.map (·.use)).Perm left.uses ∧
    (∃ documents,
      Sarif.results? (Document.read (Report.document (Sarif.log call artifacts results))).1 =
        some documents ∧ List.Forall₂ Sarif.Tells documents results) ∧
    results.length = left.size ∧
    Report.recordCount (Document.read (Report.listing left)).1 = left.size ∧
    Report.dataRows (Report.page project left) = left.size ∧
    Report.headingTotal? (Report.page project left) = some (Text.decimal left.size) := by
  intro scan left results
  have hperm : (results.map (·.use)).Perm left.uses := perm_reported scan.1 baseline
  have hnamed : ∀ use ∈ left.uses, !use.ownerMember.isEmpty := by
    intro use huse
    obtain ⟨violation, hviolation, rfl⟩ := List.mem_map.mp (hperm.mem_iff.mpr huse)
    simpa using ownerMember_ne_empty (mem_of_mem_reported hviolation)
  refine ⟨reported_eq_filter left scan.1, hperm, ?_, ?_, Report.recordCount_listing left, ?_,
    Report.headingTotal?_page project left⟩
  · rw [Document.read_document]
    exact Sarif.tells_log call artifacts results
  · rw [UseSet.size, ← hperm.length_eq, List.length_map]
  · rw [Report.dataRows_page, List.filter_eq_self.mpr hnamed]
    rfl

/-! A method that calls `put` of `Store`, then `get`, which the baseline accepts, and `put`
again. -/

def storeCall (name : String) : ClassFile.Reference :=
  ⟨"Store", name, "()V", .invokestatic, 0⟩

def repeatingClass : PlacedClass :=
  ⟨⟨"Main", [⟨"run", "()V", [], [storeCall "put", storeCall "get", storeCall "put"]⟩]⟩, 3⟩

def storeMethods : Policy :=
  { methods := [{ owner := "Store", message := "no" }] }

/-- Of the three violations one is left, with the message and the artifact of the first call. -/
theorem outputs_agree_repeated :
    let scan := record .empty storeMethods [repeatingClass]
    let left := scan.2.newSince [[⟨"Store", "void get()", .method, "Main", "run()", -1⟩]]
    let results := reported left scan.1
    scan.1.length = 3 ∧
    (∃ document,
      Sarif.results? (Document.read (Report.document (Sarif.log [] [] results))).1 = some [document] ∧
      Sarif.message? document = some "no (line -1)" ∧ Sarif.index? document = some 3 ∧
      Sarif.members document = [(some "Main.run()", some "function"),
        (some "Store#void put()", some "function")]) ∧
    Report.recordCount (Document.read (Report.listing left)).1 = 1 ∧
    Report.dataRows (Report.page "shop" left) = 1 ∧
    Report.headingTotal? (Report.page "shop" left) = some "1" := by
  intro scan left results
  obtain ⟨-, -, ⟨documents, hdocuments, htells⟩, -, hrecords, hrows, htotal⟩ :=
    outputs_agree .empty storeMethods [repeatingClass]
      [[⟨"Store", "void get()", .method, "Main", "run()", -1⟩]] "shop" [] []
  have hresults : results = [⟨⟨"Store", "void put()", .method, "Main", "run()", -1⟩, "no", 3⟩] := by
    decide +kernel
  have hsize : left.size = 1 := by decide +kernel
  change List.Forall₂ Sarif.Tells documents results at htells
  rw [hresults] at htells
  obtain ⟨document, _, hdocument, hnil, rfl⟩ := List.forall₂_cons_right_iff.mp htells
  obtain rfl := List.forall₂_nil_right_iff.mp hnil
  refine ⟨by decide +kernel, ⟨document, hdocuments, hdocument.message, hdocument.artifact,
    hdocument.members⟩, hrecords.trans hsize, hrows.trans hsize, ?_⟩
  rw [htotal, hsize]
  decide +kernel

end Violation

end MemberAudit
