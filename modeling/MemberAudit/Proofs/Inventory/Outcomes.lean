/-
What a file in a directory comes to, told from its name and its bytes. It is passed over,
or it is an artifact with classes (`Yields`), or it ends the scan (`Spoils`). Examining a
file finds out which (`examine_eq_ok_iff`, `examine_eq_error_iff`). Only a jar that opens
as an archive can end a scan, by an entry that does not open or by a class that is damaged
(`exists_spoils_iff`).
-/
import MemberAudit.Proofs.Archive.Entries
import MemberAudit.Proofs.Inventory.Bookkeeping

namespace MemberAudit

namespace Inventory

/-- The entries of an archive that are classes to look at, ascending by name. -/
structure Ascending (entries listed : List Archive.Entry) : Prop where
  eligible : listed.Perm (entries.filter fun entry => isEligible entry.name)
  ascending : listed.Pairwise fun a b => a.name < b.name

theorem ascending_iff {entries listed : List Archive.Entry} (h : (entries.map (·.name)).Nodup) :
    Ascending entries listed ↔ listed = eligible entries := by
  have hnodup := h.sublist ((List.filter_sublist (p := fun entry => isEligible entry.name)).map _)
  constructor
  · intro hlisted
    exact (eq_mergeSort_iff hnodup).mpr ⟨hlisted.eligible, hlisted.ascending⟩
  · intro hlisted
    obtain ⟨hperm, hsorted⟩ := (eq_mergeSort_iff hnodup).mp hlisted
    exact ⟨hperm, hsorted⟩

/-! ## Outcomes of a file -/

variable {path : String} {content : ByteArray} {fault : ScanFault} {classes? : Option (List JvmClass)}

/-- What a file in a directory gives: nothing if it is passed over, or else classes. -/
inductive Yields (path : String) (content : ByteArray) : Option (List JvmClass) → Prop where
  | otherFile : fileKind path = .unsupported → Yields path content none
  | noClass {fault : ClassFault} : fileKind path = .classFile →
      JvmClass.ofBytes content.data.toList = .error fault → Yields path content none
  | noArchive : fileKind path = .jar → Archive.open? content.data.toList = none →
      Yields path content none
  | classFile {cls : JvmClass} : fileKind path = .classFile →
      JvmClass.ofBytes content.data.toList = .ok cls → Yields path content (some [cls])
  | jar {entries listed : List Archive.Entry} {classes : List JvmClass} : fileKind path = .jar →
      Archive.open? content.data.toList = some entries → (∀ entry ∈ entries, entry.opens = true) →
      Ascending entries listed → EntriesHold listed classes → Yields path content (some classes)

/-- Why a file in a directory ends the scan: it is a jar of which an entry does not open, or
of which the entries of classes do not all give what was packed. The first by name that does
not is at fault. -/
inductive Spoils (path : String) (content : ByteArray) : ScanFault → Prop where
  | closed {entries : List Archive.Entry} {entry : Archive.Entry} : fileKind path = .jar →
      Archive.open? content.data.toList = some entries → entry ∈ entries → entry.opens = false →
      Spoils path content (.unreadable path)
  | damaged {entries before after : List Archive.Entry} {entry : Archive.Entry} :
      fileKind path = .jar → Archive.open? content.data.toList = some entries →
      (∀ entry ∈ entries, entry.opens = true) → Ascending entries (before ++ entry :: after) →
      (∀ other ∈ before, other.Intact) → ¬entry.Intact →
      Spoils path content (.unreadableEntry path entry.name)

/-! ## Examining the entries of an archive -/

theorem examineEntries_of_hold {entries : List Archive.Entry} {classes : List JvmClass}
    (h : EntriesHold entries classes) : (examineEntries path entries).outcome = .ok (some classes) := by
  induction h with
  | nil => rfl
  | cls hcontent hclass _ ih => simp [examineEntries, hcontent, hclass, ih, Except.map]
  | noClass hcontent hclass _ ih => simpa [examineEntries, hcontent, hclass] using ih

theorem examineEntries_of_damaged {before after : List Archive.Entry} {entry : Archive.Entry}
    (hbefore : ∀ other ∈ before, other.Intact) (hentry : ¬entry.Intact) :
    (examineEntries path (before ++ entry :: after)).outcome =
      .error (.unreadableEntry path entry.name) := by
  induction before with
  | nil =>
    cases hcontent : entry.content with
    | intact bytes => exact absurd ⟨bytes, hcontent⟩ hentry
    | closed => simp [examineEntries, hcontent, Examined.failed]
    | damaged => simp [examineEntries, hcontent, Examined.failed]
  | cons other before ih =>
    obtain ⟨⟨bytes, hcontent⟩, hbefore⟩ := List.forall_mem_cons.mp hbefore
    cases hclass : JvmClass.ofBytes bytes <;>
      simp [examineEntries, hcontent, hclass, ih hbefore, Except.map]

theorem exists_entriesHold {entries : List Archive.Entry} (h : ∀ entry ∈ entries, entry.Intact) :
    ∃ classes, EntriesHold entries classes := by
  induction entries with
  | nil => exact ⟨[], .nil⟩
  | cons entry entries ih =>
    obtain ⟨⟨bytes, hcontent⟩, hentries⟩ := List.forall_mem_cons.mp h
    obtain ⟨classes, hclasses⟩ := ih hentries
    cases hclass : JvmClass.ofBytes bytes with
    | ok cls => exact ⟨cls :: classes, .cls hcontent hclass hclasses⟩
    | error fault => exact ⟨classes, .noClass hcontent hclass hclasses⟩

theorem exists_first_damaged {entries : List Archive.Entry} (h : ∃ entry ∈ entries, ¬entry.Intact) :
    ∃ before entry after, entries = before ++ entry :: after ∧ (∀ other ∈ before, other.Intact) ∧
      ¬entry.Intact := by
  induction entries with
  | nil => simp at h
  | cons first entries ih =>
    by_cases hfirst : first.Intact
    · obtain ⟨before, entry, after, rfl, hbefore, hentry⟩ := ih (by simpa [hfirst] using h)
      exact ⟨first :: before, entry, after, rfl, List.forall_mem_cons.mpr ⟨hfirst, hbefore⟩, hentry⟩
    · exact ⟨[], first, entries, rfl, by simp, hfirst⟩

/-! ## Examining a file -/

theorem examineArchive_of_ascending {entries listed : List Archive.Entry}
    (hopen : Archive.open? content.data.toList = some entries)
    (hopens : ∀ entry ∈ entries, entry.opens = true) (hlisted : Ascending entries listed) :
    examineArchive path entries = examineEntries path listed := by
  have hany : (entries.any fun entry => !entry.opens) = false := by simpa using hopens
  rw [examineArchive, hany, (ascending_iff (Archive.nodup_names_of_open? hopen)).mp hlisted]
  rfl

theorem examine_of_yields (h : Yields path content classes?) :
    (examine path content).outcome = .ok classes? := by
  cases h with
  | otherFile hkind => simp [examine, hkind, Examined.passed]
  | noClass hkind hclass => simp [examine, hkind, examineClass, hclass, Examined.skipped]
  | noArchive hkind hopen => simp [examine, hkind, examineJar, hopen, Examined.skipped]
  | classFile hkind hclass => simp [examine, hkind, examineClass, hclass]
  | jar hkind hopen hopens hlisted hhold =>
    simp only [examine, hkind, examineJar, hopen]
    rw [examineArchive_of_ascending hopen hopens hlisted, examineEntries_of_hold hhold]

theorem examine_of_spoils (h : Spoils path content fault) :
    (examine path content).outcome = .error fault := by
  cases h with
  | @closed entries entry hkind hopen hentry hclosed =>
    have hany : (entries.any fun entry => !entry.opens) = true :=
      List.any_eq_true.mpr ⟨entry, hentry, by simp [hclosed]⟩
    simp [examine, hkind, examineJar, hopen, examineArchive, hany, Examined.failed]
  | damaged hkind hopen hopens hlisted hbefore hentry =>
    simp only [examine, hkind, examineJar, hopen]
    rw [examineArchive_of_ascending hopen hopens hlisted, examineEntries_of_damaged hbefore hentry]

/-- Whether a file is a jar of which an entry does not open, or a class in it is damaged. -/
def IsSpoilt (path : String) (content : ByteArray) : Prop :=
  fileKind path = .jar ∧ ∃ entries, Archive.open? content.data.toList = some entries ∧
    ∃ entry ∈ entries, entry.opens = false ∨ isEligible entry.name = true ∧ ¬entry.Intact

instance (path : String) (content : ByteArray) : Decidable (IsSpoilt path content) :=
  decidable_of_iff (fileKind path = .jar ∧ ∃ entries ∈ Archive.open? content.data.toList,
    ∃ entry ∈ entries, entry.opens = false ∨ isEligible entry.name = true ∧ ¬entry.Intact) Iff.rfl

theorem mem_eligible {entries : List Archive.Entry} {entry : Archive.Entry} :
    entry ∈ eligible entries ↔ entry ∈ entries ∧ isEligible entry.name = true := by
  rw [eligible, List.mem_mergeSort, List.mem_filter]

/-- Only a jar with an entry that does not open, or with a damaged class, spoils a scan. -/
theorem exists_spoils_iff : (∃ fault, Spoils path content fault) ↔ IsSpoilt path content := by
  constructor
  · intro hex
    obtain ⟨fault, hspoils⟩ := hex
    cases hspoils with
    | closed hkind hopen hentry hclosed => exact ⟨hkind, _, hopen, _, hentry, .inl hclosed⟩
    | @damaged entries before after entry hkind hopen _ hlisted _ hentry =>
      have hmem : entry ∈ entries.filter fun entry => isEligible entry.name :=
        hlisted.eligible.mem_iff.mp (by simp)
      obtain ⟨hmem, heligible⟩ := List.mem_filter.mp hmem
      exact ⟨hkind, entries, hopen, entry, hmem, .inr ⟨heligible, hentry⟩⟩
  · intro hspoilt
    obtain ⟨hkind, entries, hopen, entry, hmem, hentry⟩ := hspoilt
    by_cases hopens : ∀ entry ∈ entries, entry.opens = true
    · obtain ⟨heligible, hdamaged⟩ := hentry.resolve_left (by simp [hopens entry hmem])
      obtain ⟨before, first, after, hsplit, hbefore, hfirst⟩ :=
        exists_first_damaged ⟨entry, mem_eligible.mpr ⟨hmem, heligible⟩, hdamaged⟩
      have hlisted := (ascending_iff (Archive.nodup_names_of_open? hopen)).mpr hsplit.symm
      exact ⟨_, .damaged hkind hopen hopens hlisted hbefore hfirst⟩
    · obtain ⟨other, hother, hclosed⟩ := not_forall₂.mp hopens
      exact ⟨_, .closed hkind hopen hother (by simpa using hclosed)⟩

/-- A file that does not spoil a scan gives something. -/
theorem exists_yields (h : ¬IsSpoilt path content) : ∃ classes?, Yields path content classes? := by
  cases hkind : fileKind path with
  | unsupported => exact ⟨none, .otherFile hkind⟩
  | classFile =>
    cases hclass : JvmClass.ofBytes content.data.toList with
    | error fault => exact ⟨none, .noClass hkind hclass⟩
    | ok cls => exact ⟨some [cls], .classFile hkind hclass⟩
  | jar =>
    cases hopen : Archive.open? content.data.toList with
    | none => exact ⟨none, .noArchive hkind hopen⟩
    | some entries =>
      have hgood : ∀ entry ∈ entries, entry.opens = true ∧ (isEligible entry.name = true → entry.Intact) := by
        intro entry hentry
        by_contra hbad
        refine h ⟨hkind, entries, hopen, entry, hentry, ?_⟩
        by_cases hopens : entry.opens = true
        · exact .inr (by simpa [hopens] using hbad)
        · exact .inl (by simpa using hopens)
      have hintact : ∀ entry ∈ eligible entries, entry.Intact := fun entry hentry =>
        (hgood entry (mem_eligible.mp hentry).1).2 (mem_eligible.mp hentry).2
      obtain ⟨classes, hclasses⟩ := exists_entriesHold hintact
      have hlisted := (ascending_iff (Archive.nodup_names_of_open? hopen)).mpr rfl
      exact ⟨some classes, .jar hkind hopen (fun entry hentry => (hgood entry hentry).1) hlisted hclasses⟩

theorem Yields.unique {others? : Option (List JvmClass)} (h : Yields path content classes?)
    (hothers : Yields path content others?) : classes? = others? :=
  Except.ok.inj ((examine_of_yields h).symm.trans (examine_of_yields hothers))

/-- **Examining a file gives what it yields.** -/
theorem examine_eq_ok_iff : (examine path content).outcome = .ok classes? ↔ Yields path content classes? := by
  refine ⟨fun h => ?_, examine_of_yields⟩
  by_cases hspoilt : IsSpoilt path content
  · obtain ⟨fault, hspoils⟩ := exists_spoils_iff.mpr hspoilt
    rw [examine_of_spoils hspoils] at h
    cases h
  · obtain ⟨found, hfound⟩ := exists_yields hspoilt
    rw [examine_of_yields hfound] at h
    exact Except.ok.inj h ▸ hfound

/-- **Examining a file fails if it spoils the scan.** -/
theorem examine_eq_error_iff : (examine path content).outcome = .error fault ↔ Spoils path content fault := by
  refine ⟨fun h => ?_, examine_of_spoils⟩
  by_cases hspoilt : IsSpoilt path content
  · obtain ⟨found, hfound⟩ := exists_spoils_iff.mpr hspoilt
    rw [examine_of_spoils hfound] at h
    exact Except.error.inj h ▸ hfound
  · obtain ⟨found, hfound⟩ := exists_yields hspoilt
    rw [examine_of_yields hfound] at h
    cases h

/-! ## Small files -/

/-- A class file of a class of a short name, without members. -/
def bareClass (name : String) : ByteArray :=
  let text := name.toUTF8.data.toList
  ⟨([0xCA, 0xFE, 0xBA, 0xBE, 0, 0, 0, 52, 0, 3, 1, 0, text.length.toUInt8] ++ text
    ++ [7, 0, 1, 0, 33, 0, 2] ++ List.replicate 10 0).toArray⟩

/-- A jar of the entries. -/
def jarOf (entries : List Archive.Entry) : ByteArray :=
  ⟨(Archive.pack entries).toArray⟩

end Inventory
end MemberAudit
