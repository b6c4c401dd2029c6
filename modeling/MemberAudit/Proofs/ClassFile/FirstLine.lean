/-
The line of a method. It is that of the entry of its line table that begins
earliest, and of several such entries of the first one (`line?_eq_some`); a table
with entries has exactly one such entry (`exists_earliest`, `Earliest.unique`). The
table need not be sorted.

The induction is on the table's end, where the search adds an entry to those it has
compared.
-/
import Mathlib.Data.List.Induction
import MemberAudit.ClassFile.Class

namespace MemberAudit.ClassFile

/-- The entry of a line table that begins earliest, the first of several such. -/
structure Earliest (entries : List LineEntry) (entry : LineEntry) : Prop where
  first : ∃ before after, entries = before ++ entry :: after ∧
    (∀ e ∈ before, entry.startPc < e.startPc) ∧ ∀ e ∈ after, entry.startPc ≤ e.startPc

namespace Earliest

variable {entries : List LineEntry} {entry other : LineEntry}

theorem le (h : Earliest entries entry) : ∀ e ∈ entries, entry.startPc ≤ e.startPc := by
  obtain ⟨before, after, rfl, hbefore, hafter⟩ := h.first
  intro e he
  rcases List.mem_append.mp he with he | he
  · exact Nat.le_of_lt (hbefore e he)
  · rcases List.mem_cons.mp he with rfl | he
    · exact Nat.le_refl _
    · exact hafter e he

theorem mem (h : Earliest entries entry) : entry ∈ entries := by
  obtain ⟨before, after, rfl, -, -⟩ := h.first
  simp

theorem singleton (entry : LineEntry) : Earliest [entry] entry :=
  ⟨[], [], rfl, by simp, by simp⟩

/-- An entry after the others counts if it begins before them. -/
theorem append_singleton (h : Earliest entries entry) (last : LineEntry) :
    Earliest (entries ++ [last]) (entry.earlier last) := by
  unfold LineEntry.earlier
  split
  · rename_i hlast
    refine ⟨entries, [], rfl, ?_, by simp⟩
    intro e he
    exact Nat.lt_of_lt_of_le hlast (h.le e he)
  · rename_i hlast
    obtain ⟨before, after, rfl, hbefore, hafter⟩ := h.first
    refine ⟨before, after ++ [last], by simp, hbefore, ?_⟩
    intro e he
    rcases List.mem_append.mp he with he | he
    · exact hafter e he
    · rw [List.mem_singleton.mp he]
      exact Nat.le_of_not_lt hlast

theorem find? (h : Earliest entries entry) :
    entries.find? (fun e => decide (e.startPc ≤ entry.startPc)) = some entry := by
  obtain ⟨before, after, hsplit, hbefore, -⟩ := h.first
  refine List.find?_eq_some_iff_append.mpr ⟨by simp, before, after, hsplit, ?_⟩
  intro e he
  simpa using hbefore e he

theorem unique (h : Earliest entries entry) (h' : Earliest entries other) : entry = other := by
  have hstart : entry.startPc = other.startPc :=
    Nat.le_antisymm (h.le other h'.mem) (h'.le entry h.mem)
  have hfind := h'.find?
  rw [← hstart, h.find?] at hfind
  exact Option.some.inj hfind

end Earliest

theorem earliest_foldl (entry : LineEntry) (rest : List LineEntry) :
    Earliest (entry :: rest) (rest.foldl LineEntry.earlier entry) := by
  induction rest using List.reverseRecOn with
  | nil => exact .singleton entry
  | append_singleton rest last ih =>
    rw [List.foldl_append]
    exact ih.append_singleton last

theorem exists_earliest {entries : List LineEntry} (h : entries ≠ []) :
    ∃ entry, Earliest entries entry := by
  obtain ⟨entry, rest, rfl⟩ := List.exists_cons_of_ne_nil h
  exact ⟨_, earliest_foldl entry rest⟩

theorem line?_eq_some {entries : List LineEntry} {n : Nat} :
    line? entries = some n ↔ ∃ entry, Earliest entries entry ∧ entry.line = n := by
  cases entries with
  | nil =>
    refine ⟨nofun, ?_⟩
    intro hex
    obtain ⟨entry, hentry, -⟩ := hex
    cases hentry.mem
  | cons first rest =>
    have hfirst := earliest_foldl first rest
    rw [line?, Option.some.injEq]
    constructor
    · exact fun h => ⟨_, hfirst, h⟩
    · intro hex
      obtain ⟨entry, hentry, hline⟩ := hex
      rw [hfirst.unique hentry, hline]

theorem line?_eq_none {entries : List LineEntry} : line? entries = none ↔ entries = [] := by
  cases entries <;> simp [line?]

end MemberAudit.ClassFile
