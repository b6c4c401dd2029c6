/-
The line tables of a code, of which there may be any number. Their entries, as they
stand in the file (`InTables`), are sorted by first instruction, and those of a tie are
left in their order (`SortsStably`).

Lists with the same ties (`SameTies`) have the same earliest entry, so the line of a
method is that of its entries before they were sorted; and if they are sorted, they are
one list, so there is one such order only. `line?_of_tables` has both.
-/
import MemberAudit.Proofs.ClassFile.FirstLine
import MemberAudit.Proofs.Results

namespace MemberAudit.ClassFile

/-! ## Entries as they stand in the file -/

/-- The entries of the line tables among attributes, table after table. -/
inductive InTables : List Attribute → List LineEntry → Prop where
  | nil : InTables [] []
  | table {table entries : List LineEntry} {rest : List Attribute} :
      InTables rest entries → InTables (.lineNumbers table :: rest) (table ++ entries)
  | passed {first : Attribute} {rest : List Attribute} {entries : List LineEntry} :
      (∀ table, first ≠ .lineNumbers table) → InTables rest entries → InTables (first :: rest) entries

theorem inTables_lineEntries (attributes : List Attribute) :
    InTables attributes (lineEntries attributes) := by
  induction attributes with
  | nil => exact .nil
  | cons first rest ih =>
    cases first with
    | lineNumbers table => exact .table ih
    | code bytes inner => exact .passed nofun ih
    | other => exact .passed nofun ih

theorem inTables_iff {attributes : List Attribute} {entries : List LineEntry} :
    InTables attributes entries ↔ entries = lineEntries attributes := by
  constructor
  · intro h
    induction h with
    | nil => rfl
    | table _ ih =>
      rw [ih]
      rfl
    | @passed first _ _ hother _ ih =>
      rw [ih]
      cases first with
      | lineNumbers table => exact absurd rfl (hother table)
      | code bytes inner => rfl
      | other => rfl
  · intro h
    rw [h]
    exact inTables_lineEntries attributes

/-! ## Ties -/

theorem earliest_iff_find? {entries : List LineEntry} {entry : LineEntry} :
    Earliest entries entry ↔ (∀ e ∈ entries, entry.startPc ≤ e.startPc) ∧
      entries.find? (·.startPc = entry.startPc) = some entry := by
  constructor
  · intro h
    refine ⟨h.le, ?_⟩
    obtain ⟨before, after, hsplit, hbefore, -⟩ := h.first
    refine List.find?_eq_some_iff_append.mpr ⟨by simp, before, after, hsplit, ?_⟩
    intro e he
    simpa using (Nat.ne_of_lt (hbefore e he)).symm
  · intro h
    obtain ⟨hle, hfind⟩ := h
    obtain ⟨-, before, after, rfl, hbefore⟩ := List.find?_eq_some_iff_append.mp hfind
    refine ⟨before, after, rfl, ?_, ?_⟩
    · intro e he
      have hne : e.startPc ≠ entry.startPc := by simpa using hbefore e he
      exact Nat.lt_of_le_of_ne (hle e (List.mem_append_left _ he)) hne.symm
    · intro e he
      exact hle e (List.mem_append_right _ (List.mem_cons_of_mem _ he))

section Ties

variable {entries others : List LineEntry}

/-- Lists have the same entries for each first instruction, in the same order. -/
def SameTies (entries others : List LineEntry) : Prop :=
  ∀ pc, entries.filter (·.startPc = pc) = others.filter (·.startPc = pc)

theorem SameTies.mem_iff (h : SameTies entries others) {entry : LineEntry} :
    entry ∈ entries ↔ entry ∈ others := by
  have hmem : ∀ l : List LineEntry, entry ∈ l ↔ entry ∈ l.filter (·.startPc = entry.startPc) := by
    intro l
    simp
  rw [hmem entries, hmem others, h entry.startPc]

/-- Which entry begins earliest is settled by the ties. -/
theorem SameTies.earliest_iff (h : SameTies entries others) {entry : LineEntry} :
    Earliest entries entry ↔ Earliest others entry := by
  simp only [earliest_iff_find?, ← List.head?_filter, h entry.startPc, h.mem_iff]

theorem SameTies.tail {entry : LineEntry} (h : SameTies (entry :: entries) (entry :: others)) :
    SameTies entries others := by
  intro pc
  have hcons := h pc
  rw [List.filter_cons, List.filter_cons] at hcons
  split at hcons
  · exact (List.cons.inj hcons).2
  · exact hcons

/-- Sorted lists with the same ties are equal: each begins with its earliest entry. -/
theorem SameTies.eq_of_ascending (h : SameTies entries others)
    (hentries : entries.Pairwise fun a b => a.startPc ≤ b.startPc)
    (hothers : others.Pairwise fun a b => a.startPc ≤ b.startPc) : entries = others := by
  induction entries generalizing others with
  | nil =>
    cases others with
    | nil => rfl
    | cons other others => cases h.mem_iff.mpr List.mem_cons_self
  | cons entry entries ih =>
    cases others with
    | nil => cases h.mem_iff.mp List.mem_cons_self
    | cons other others =>
      obtain ⟨hle, hrest⟩ := List.pairwise_cons.mp hentries
      obtain ⟨hle', hrest'⟩ := List.pairwise_cons.mp hothers
      have hentry : Earliest (entry :: entries) entry := ⟨[], entries, rfl, by simp, hle⟩
      have hother : Earliest (other :: others) other := ⟨[], others, rfl, by simp, hle'⟩
      obtain rfl : entry = other := (h.earliest_iff.mp hentry).unique hother
      rw [ih h.tail hrest hrest']

theorem SameTies.line?_eq (h : SameTies entries others) : line? entries = line? others := by
  refine Option.ext fun n => ?_
  simp only [line?_eq_some, h.earliest_iff]

end Ties

/-! ## Stable sorting -/

/-- Entries sorted by first instruction, those of a tie in the order they had. -/
structure SortsStably (entries sorted : List LineEntry) : Prop where
  perm : sorted.Perm entries
  ascending : sorted.Pairwise fun a b => a.startPc ≤ b.startPc
  ties : SameTies sorted entries

theorem sortsStably_sortedLines (attributes : List Attribute) :
    SortsStably (lineEntries attributes) (sortedLines attributes) := by
  have htrans : ∀ a b c : LineEntry, decide (a.startPc ≤ b.startPc) → decide (b.startPc ≤ c.startPc) →
      decide (a.startPc ≤ c.startPc) := by
    intro a b c hab hbc
    simp only [decide_eq_true_eq] at hab hbc ⊢
    exact Nat.le_trans hab hbc
  have htotal : ∀ a b : LineEntry, decide (a.startPc ≤ b.startPc) || decide (b.startPc ≤ a.startPc) := by
    intro a b
    simpa using Nat.le_total a.startPc b.startPc
  have hperm : (sortedLines attributes).Perm (lineEntries attributes) := List.mergeSort_perm _ _
  refine ⟨hperm, ?_, ?_⟩
  · refine (List.pairwise_mergeSort htrans htotal (lineEntries attributes)).imp ?_
    intro a b hab
    exact of_decide_eq_true hab
  · intro pc
    -- a tie is in order already, so it is found again in the sorted list
    have htie : ((lineEntries attributes).filter (·.startPc = pc)).Pairwise
        fun a b => decide (a.startPc ≤ b.startPc) = true := by
      refine List.pairwise_filter.mpr (List.pairwise_of_forall ?_)
      intro a b ha hb
      simp only [decide_eq_true_eq] at ha hb ⊢
      exact Nat.le_of_eq (ha.trans hb.symm)
    have hfound := (List.sublist_mergeSort htrans htotal htie List.filter_sublist).filter (·.startPc = pc)
    simp only [List.filter_filter, Bool.and_self] at hfound
    exact (hfound.eq_of_length (hperm.filter _).length_eq.symm).symm

theorem SortsStably.unique {entries sorted others : List LineEntry} (h : SortsStably entries sorted)
    (h' : SortsStably entries others) : sorted = others :=
  SameTies.eq_of_ascending (fun pc => (h.ties pc).trans (h'.ties pc).symm) h.ascending h'.ascending

/-! ## Lines of methods -/

theorem lines_of_method? {pool : Pool} {member : Member} {bytes : Bytes} {attributes : List Attribute}
    {method : Method} (hcode : code? member.attributes = some (bytes, attributes))
    (h : method? pool member = .ok (some method)) : method.lines = sortedLines attributes := by
  simp only [method?, hcode] at h
  obtain ⟨name, -, h⟩ := bind_eq_ok.mp h
  obtain ⟨descriptor, -, h⟩ := bind_eq_ok.mp h
  obtain ⟨refs, -, h⟩ := bind_eq_ok.mp h
  cases h
  rfl

/-- A class file with one method, whose code has no line tables. -/
theorem ofBytes_oneMethod {bytes code : Bytes} {pool : Pool} {thisClass nameIndex descriptorIndex : Nat}
    {className name descriptor : String} {refs : List Reference}
    (hread : Layout.read? bytes = some ⟨pool, thisClass, [⟨nameIndex, descriptorIndex, [.code code []]⟩]⟩)
    (hclass : pool.className thisClass = .ok className) (hname : pool.utf8 nameIndex = .ok name)
    (hdescriptor : pool.utf8 descriptorIndex = .ok descriptor) (hrefs : references pool code = .ok refs) :
    JvmClass.ofBytes bytes = .ok ⟨className, [⟨name, descriptor, [], refs⟩]⟩ := by
  have hmethod : method? pool ⟨nameIndex, descriptorIndex, [.code code []]⟩ =
      .ok (some ⟨name, descriptor, [], refs⟩) := by
    have hcode : code? [.code code []] = some (code, []) := rfl
    have hlines : sortedLines [] = [] := List.mergeSort_nil
    simp only [method?, hname, hdescriptor, hcode, hrefs, hlines, Except.mapError, bind, Except.bind,
      pure, Except.pure]
  simp only [JvmClass.ofBytes, hread, JvmClass.ofLayout, hclass, methods, hmethod]
  rfl

/-- **The line of a method is that of the entry that begins earliest in any of its line
tables**, of several the one that comes first in the file; it has none exactly if the
tables have no entries. The lines kept with the method are these entries, sorted stably,
which leaves one order only; before they are sorted the line is the same. -/
theorem line?_of_tables (attributes : List Attribute) :
    (∀ entries, InTables attributes entries ↔ entries = lineEntries attributes) ∧
    (∀ lines, SortsStably (lineEntries attributes) lines ↔ lines = sortedLines attributes) ∧
    (∀ n, line? (sortedLines attributes) = some n ↔
      ∃ entry, Earliest (lineEntries attributes) entry ∧ entry.line = n) ∧
    (line? (sortedLines attributes) = none ↔ lineEntries attributes = []) ∧
    line? (sortedLines attributes) = line? (lineEntries attributes) ∧
    ∀ pool member bytes method, code? member.attributes = some (bytes, attributes) →
      method? pool member = .ok (some method) →
        method.lines = sortedLines attributes ∧ method.line? = line? (sortedLines attributes) := by
  have hsorted := sortsStably_sortedLines attributes
  have hline : line? (sortedLines attributes) = line? (lineEntries attributes) := hsorted.ties.line?_eq
  refine ⟨fun entries => inTables_iff, fun lines => ?_, ?_, ?_, hline, ?_⟩
  · constructor
    · exact fun h => h.unique hsorted
    · intro h
      rwa [h]
  · intro n
    rw [hline]
    exact line?_eq_some
  · rw [hline]
    exact line?_eq_none
  · intro pool member bytes method hcode hmethod
    have hlines := lines_of_method? hcode hmethod
    exact ⟨hlines, congrArg line? hlines⟩

/-- Two tables, both with entries for the instructions 0 and 4. -/
def twoTables : List Attribute :=
  [.lineNumbers [⟨4, 11⟩, ⟨0, 10⟩], .other, .lineNumbers [⟨0, 12⟩, ⟨4, 9⟩]]

/-- A method that returns at once. -/
def runMember : Member :=
  ⟨1, 2, [.other, .code [0xB1] twoTables]⟩

theorem line?_of_tables_tie :
    let run : Method := ⟨"run", "()V", [⟨0, 10⟩, ⟨0, 12⟩, ⟨4, 11⟩, ⟨4, 9⟩], []⟩
    method? #[.empty, .utf8 "run", .utf8 "()V"] runMember = .ok (some run) ∧
      run.lines = sortedLines twoTables ∧ run.line? = line? (lineEntries twoTables) ∧
      run.line? = some 10 := by
  intro run
  have hsorted : sortedLines twoTables = run.lines := by
    simp [run, sortedLines, lineEntries, twoTables, List.mergeSort]
  have hnone : references #[.empty, .utf8 "run", .utf8 "()V"] [0xB1] = .ok [] := by decide +kernel
  have hrun : method? #[.empty, .utf8 "run", .utf8 "()V"] runMember = .ok (some run) := by
    simp [method?, runMember, code?, Pool.utf8, Pool.find, hnone, hsorted, run, Except.mapError, bind,
      Except.bind, pure, Except.pure]
  obtain ⟨-, -, -, -, hline, hmethod⟩ := line?_of_tables twoTables
  obtain ⟨hlines, hrunLine⟩ := hmethod _ runMember [0xB1] run rfl hrun
  exact ⟨hrun, hlines, hrunLine.trans hline, rfl⟩

end MemberAudit.ClassFile
