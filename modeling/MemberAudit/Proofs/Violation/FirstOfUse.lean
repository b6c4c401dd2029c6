/-
Which violations a run reports. The set of uses and the list of violations are
two readings of one scan: the set keeps one of several same uses, the list all
of them. `firsts` is what links them, the violations whose use no earlier one
has: the set holds their uses (`perm_addAll`), and of them those are reported
whose use the baseline left in the set (`reported_eq_filter`).

Lists grow at their end here, as a scan goes on, so the induction is on what
came last.
-/
import MemberAudit.Proofs.Baseline.Difference
import MemberAudit.Violation

namespace MemberAudit

namespace Violation

/-- The violations whose use no earlier one has, in their order. -/
def firsts (violations : List Violation) : List Violation :=
  (violations.zipIdx.filter fun (violation, i) =>
    !(violations.take i).any (violation.use.same ·.use)).map (·.1)

theorem firsts_append_singleton (violations : List Violation) (last : Violation) :
    firsts (violations ++ [last]) =
      firsts violations ++ if violations.any (last.use.same ·.use) then [] else [last] := by
  have hbefore : violations.zipIdx.filter (fun (violation, i) =>
      !((violations ++ [last]).take i).any (violation.use.same ·.use)) =
        violations.zipIdx.filter fun (violation, i) =>
          !(violations.take i).any (violation.use.same ·.use) := by
    refine List.filter_congr fun ⟨violation, i⟩ hmem => ?_
    have hi := (List.mem_zipIdx hmem).2.1
    simp only [List.take_append_of_le_length (by omega : i ≤ violations.length)]
  rw [firsts, List.zipIdx_append, List.filter_append, List.map_append, hbefore]
  congr 1
  simp only [Nat.zero_add, List.zipIdx_singleton, List.filter_singleton, List.take_left]
  cases violations.any (last.use.same ·.use) <;> rfl

theorem mem_of_mem_firsts {violations : List Violation} {violation : Violation}
    (h : violation ∈ firsts violations) : violation ∈ violations := by
  obtain ⟨⟨_, i⟩, hmem, rfl⟩ := List.mem_map.mp h
  exact List.fst_mem_of_mem_zipIdx (List.mem_filter.mp hmem).1

theorem any_firsts (violations : List Violation) (use : MemberUse) :
    (firsts violations).any (use.same ·.use) = violations.any (use.same ·.use) := by
  induction violations using List.reverseRecOn with
  | nil => rfl
  | append_singleton violations last ih =>
    rw [firsts_append_singleton, List.any_append, List.any_append, ih]
    split
    · rename_i hlast
      cases hsame : use.same last.use with
      | false => simp [hsame]
      | true =>
        have : (fun v : Violation => use.same v.use) = (last.use.same ·.use) :=
          funext fun v => MemberUse.same_congr hsame v.use
        simp [this, hlast]
    · rfl

/-- A set to which the uses of violations are added holds those of the first ones. -/
theorem perm_addAll (violations : List Violation) :
    (UseSet.empty.addAll (violations.map (·.use))).uses.Perm ((firsts violations).map (·.use)) := by
  induction violations using List.reverseRecOn with
  | nil => exact .refl _
  | append_singleton violations last ih =>
    have hcontains : (UseSet.empty.addAll (violations.map (·.use))).contains last.use =
        violations.any (last.use.same ·.use) := by
      rw [UseSet.contains_addAll, UseSet.contains_empty, Bool.false_or, List.any_map]
      rfl
    rw [firsts_append_singleton, List.map_append, List.map_append, List.map_singleton,
      UseSet.addAll_append_singleton]
    split
    · rename_i hlast
      rw [UseSet.insert_of_contains (hcontains.trans hlast)]
      simpa using ih
    · rename_i hlast
      have hnew := hcontains.trans (Bool.eq_false_iff.mpr hlast)
      exact (UseSet.perm_insert hnew).trans
        ((ih.cons last.use).trans (List.perm_append_singleton last.use _).symm)

theorem reportedFrom_append (found : UseSet) (seen : List MemberUse) (first second : List Violation) :
    reportedFrom found seen (first ++ second) =
      reportedFrom found seen first ++
        reportedFrom found (((reportedFrom found seen first).map (·.use)).reverse ++ seen) second := by
  induction first generalizing seen with
  | nil => rfl
  | cons violation first ih =>
    simp only [List.cons_append, reportedFrom]
    split
    · rw [ih, List.map_cons, List.reverse_cons, List.append_assoc]
      rfl
    · exact ih seen

theorem reported_append_singleton (found : UseSet) (violations : List Violation) (last : Violation) :
    reported found (violations ++ [last]) =
      reported found violations ++
        if found.contains last.use && !(reported found violations).any (last.use.same ·.use)
          then [last] else [] := by
  rw [reported, reportedFrom_append, ← reported]
  simp only [reportedFrom, List.append_nil, List.any_reverse, List.any_map]
  rfl

theorem any_filter_contains (found : UseSet) (violations : List Violation) (use : MemberUse) :
    (violations.filter (found.contains ·.use)).any (use.same ·.use) =
      (found.contains use && violations.any (use.same ·.use)) := by
  rw [Bool.eq_iff_iff]
  simp only [List.any_eq_true, List.mem_filter, Bool.and_eq_true]
  constructor
  · intro hex
    obtain ⟨v, ⟨hmem, hv⟩, hsame⟩ := hex
    exact ⟨(UseSet.contains_congr hsame found).trans hv, v, hmem, hsame⟩
  · intro hparts
    obtain ⟨huse, v, hmem, hsame⟩ := hparts
    exact ⟨v, ⟨hmem, (UseSet.contains_congr hsame found).symm.trans huse⟩, hsame⟩

/-- Reported is each first violation whose use is in the set. -/
theorem reported_eq_filter (found : UseSet) (violations : List Violation) :
    reported found violations = (firsts violations).filter (found.contains ·.use) := by
  induction violations using List.reverseRecOn with
  | nil => rfl
  | append_singleton violations last ih =>
    rw [reported_append_singleton, ih, any_filter_contains, any_firsts, firsts_append_singleton,
      List.filter_append]
    congr 1
    split <;> split <;> simp_all

theorem mem_of_mem_reported {found : UseSet} {violations : List Violation} {violation : Violation}
    (h : violation ∈ reported found violations) : violation ∈ violations := by
  rw [reported_eq_filter] at h
  exact mem_of_mem_firsts (List.mem_filter.mp h).1

/-- The reported violations stand for the uses that the baseline left, one for
each. -/
theorem perm_reported (violations : List Violation) (baseline : Baseline) :
    ((reported ((UseSet.empty.addAll (violations.map (·.use))).newSince baseline) violations).map
      (·.use)).Perm ((UseSet.empty.addAll (violations.map (·.use))).newSince baseline).uses := by
  have hperm := perm_addAll violations
  have hkept : (firsts violations).filter
      (((UseSet.empty.addAll (violations.map (·.use))).newSince baseline).contains ·.use) =
        (firsts violations).filter fun v => !baseline.flatten.any v.use.same := by
    refine List.filter_congr ?_
    intro v hv
    have hmem : v.use ∈ (UseSet.empty.addAll (violations.map (·.use))).uses :=
      hperm.mem_iff.mpr (List.mem_map_of_mem hv)
    rw [UseSet.newSince_eq_without, UseSet.contains_without, UseSet.contains_of_mem hmem,
      Bool.true_and]
  rw [reported_eq_filter, hkept, UseSet.uses_newSince]
  have := hperm.filter fun use => !baseline.flatten.any use.same
  rw [List.filter_map] at this
  exact this.symm

end Violation

end MemberAudit
