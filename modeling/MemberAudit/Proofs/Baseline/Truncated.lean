/-
A JSON report whose file breaks off. Taken as a baseline it accepts nothing, wherever it
breaks off, within a character, a string or a number, between two records or before the
last bracket (`load_truncated`). Only the new line after the bracket may be missing: then
it is read as the whole report is.
-/
import MemberAudit.Proofs.Baseline.Acceptance
import MemberAudit.Proofs.Json.CutShort

namespace MemberAudit

open Json

namespace Text

theorem toUTF8_of_fromUTF8? {bytes : ByteArray} {text : String} (h : String.fromUTF8? bytes = some text) :
    text.toUTF8 = bytes := by
  unfold String.fromUTF8? at h
  split at h
  · obtain rfl := Option.some.inj h
    rfl
  · cases h

/-- Text whose bytes are the first ones of another text is the beginning of that text. -/
theorem prefix_of_toUTF8_eq_extract {s t : String} {n : Nat} (h : s.toUTF8 = t.toUTF8.extract 0 n) :
    s.toList <+: t.toList := by
  refine List.isPrefix_of_utf8Encode_append_eq_utf8Encode (t.toUTF8.extract n t.toUTF8.size) ?_
  rw [← String.toByteArray_ofList, ← String.toByteArray_ofList, String.ofList_toList, String.ofList_toList]
  change s.toUTF8 ++ _ = t.toUTF8
  rw [h, ByteArray.extract_append_extract, Nat.zero_min, ByteArray.extract_zero_max_size]

end Text

namespace Report

/-- The JSON report over owners with any uses; over those of a set it is the set's. -/
def listingOf (owners : List (String × List MemberUse)) : String :=
  document (.array ((owners.flatMap fun (_, bucket) => memberGroups bucket).map fun group =>
    .array (group.map MemberUse.toValue)))

theorem listing_eq_listingOf (found : UseSet) : listing found = listingOf found.byOwner := rfl

/-- The JSON reports on owners: the one over all of them, and that of each. -/
def listings (owners : List (String × List MemberUse)) : List String :=
  listingOf owners :: owners.map fun (_, bucket) => ownerListing bucket

theorem listing_mem_listings (found : UseSet) : listing found ∈ listings found.byOwner := by
  rw [listing_eq_listingOf]
  exact List.mem_cons_self

/-- They list groups or uses, so brackets enclose them. -/
theorem exists_value_of_mem_listings {owners : List (String × List MemberUse)} {report : String}
    (h : report ∈ listings owners) : ∃ items, report = document (.array items) := by
  rcases List.mem_cons.mp h with rfl | h
  · exact ⟨_, rfl⟩
  · obtain ⟨⟨owner, bucket⟩, -, rfl⟩ := List.mem_map.mp h
    exact ⟨_, rfl⟩

theorem toList_document (value : Value) : (document value).toList = value.chars 0 ++ ['\n'] := by
  simp [document, Value.print]

theorem toUTF8_document (value : Value) :
    (document value).toUTF8 = value.print.toUTF8 ++ "\n".toUTF8 :=
  String.toByteArray_append

theorem size_document (value : Value) : (document value).toUTF8.size = value.print.toUTF8.size + 1 := by
  rw [toUTF8_document, ByteArray.size_append]
  rfl

end Report

namespace Baseline

theorem parse?_of_prefix {items : List Value} {text : String}
    (h : text.toList <+: (Value.array items).chars 0) (hcut : text.toList ≠ (Value.array items).chars 0) :
    parse? text = none := by
  unfold parse?
  split
  rename_i document rest hread
  split
  · rename_i hrest
    rw [List.isEmpty_iff.mp hrest, ← String.ofList_toList (s := text)] at hread
    have hintact := Document.not_read_of_prefix (Document.written_chars 0 (.array items)) rfl h hcut hread
    rw [ofDocument?, if_neg]
    intro hsound
    rw [Document.intact_of_sound hsound] at hintact
    cases hintact
  · rfl

/-- Without its last bracket a report is no baseline. -/
theorem load_of_lt (path : String) {items : List Value} {n : Nat}
    (h : n + 1 < (Report.document (.array items)).toUTF8.size) :
    load path (some ((Report.document (.array items)).toUTF8.extract 0 n)) = ([.baselineIgnored path], []) := by
  have hnone : (String.fromUTF8? ((Report.document (.array items)).toUTF8.extract 0 n)).bind parse? = none := by
    rw [Option.bind_eq_none_iff]
    intro text htext
    have hbytes := Text.toUTF8_of_fromUTF8? htext
    have hsize := congrArg ByteArray.size hbytes
    rw [ByteArray.size_extract] at hsize
    have hne : ∀ s : String, n < s.toUTF8.size → text.toList ≠ s.toList := by
      intro s hs heq
      rw [String.toList_injective heq] at hsize
      omega
    have hprint := Report.size_document (.array items)
    have hprefix := Text.prefix_of_toUTF8_eq_extract hbytes
    rw [Report.toList_document, List.prefix_concat_iff, ← Report.toList_document] at hprefix
    rcases hprefix with hwhole | hprefix
    · exact absurd hwhole (hne _ (by omega))
    · refine parse?_of_prefix hprefix ?_
      have hcut := hne (Value.array items).print (by omega)
      rwa [Value.print, String.toList_ofList] at hcut
  simp only [load, hnone]

/-- The new line after it says nothing. -/
theorem load_print (path : String) (value : Value) :
    load path (some value.print.toUTF8) = load path (some (Report.document value).toUTF8) := by
  have hparse : parse? value.print = parse? (Report.document value) := by
    simp only [parse?, Document.read_document,
      (Document.read_of_isTextOf (Document.isTextOf_print value)).1]
  simp only [load, Text.fromUTF8?_toUTF8, Option.bind_some, hparse]

theorem load_of_le (path : String) {value : Value} {n : Nat} (h : (Report.document value).toUTF8.size ≤ n + 1) :
    load path (some ((Report.document value).toUTF8.extract 0 n)) =
      load path (some (Report.document value).toUTF8) := by
  rcases Nat.lt_or_ge n (Report.document value).toUTF8.size with hlt | hge
  · have hprint : (Report.document value).toUTF8.extract 0 n = value.print.toUTF8 := by
      have hsize := Report.size_document value
      obtain rfl : n = value.print.toUTF8.size := by omega
      rw [Report.toUTF8_document]
      exact ByteArray.extract_append_eq_left rfl
    rw [hprint, load_print]
  · have hall : (Report.document value).toUTF8.extract 0 (max n (Report.document value).toUTF8.size) = _ :=
      ByteArray.extract_zero_max_size
    rw [Nat.max_eq_left hge] at hall
    rw [hall]

/-- **A report that breaks off accepts nothing**, wherever it breaks off before its last
bracket, on whichever owners and uses it is. It is then no baseline, and every use is left in
any set; from its last bracket on it is the baseline that the whole report is. -/
theorem load_truncated (path : String) {owners : List (String × List MemberUse)} {report : String}
    (h : report ∈ Report.listings owners) (n : Nat) :
    (n + 1 < report.toUTF8.size →
      load path (some (report.toUTF8.extract 0 n)) = ([.baselineIgnored path], []) ∧
        ∀ current : UseSet, current.newSince (load path (some (report.toUTF8.extract 0 n))).2 = current) ∧
    (report.toUTF8.size ≤ n + 1 →
      load path (some (report.toUTF8.extract 0 n)) = load path (some report.toUTF8)) := by
  obtain ⟨items, rfl⟩ := Report.exists_value_of_mem_listings h
  refine ⟨?_, load_of_le path⟩
  intro hlt
  have hload := load_of_lt path hlt
  refine ⟨hload, ?_⟩
  intro current
  rw [hload]
  exact current.newSince_nil

/-- A use whose caller has a name of two bytes a character. -/
def namedInGreek : UseSet :=
  .ofList [⟨"app.Store", "open()", .method, "app.Λ", "main()", 1⟩]

theorem load_truncated_withinCharacter :
    Report.listing namedInGreek ∈ Report.listings namedInGreek.byOwner ∧
      120 + 1 < (Report.listing namedInGreek).toUTF8.size ∧
      load "old.json" (some ((Report.listing namedInGreek).toUTF8.extract 0 120)) =
        ([.baselineIgnored "old.json"], []) := by
  have hmem := Report.listing_mem_listings namedInGreek
  have hlt : 120 + 1 < (Report.listing namedInGreek).toUTF8.size := by decide +kernel
  exact ⟨hmem, hlt, ((load_truncated "old.json" hmem 120).1 hlt).1⟩

end Baseline

end MemberAudit
