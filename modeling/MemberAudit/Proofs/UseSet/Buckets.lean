/-
The uses of a set by owner, and those of an owner by member.

Runs are told apart from other ways to cut a list by `AreRuns`: none is empty,
each has one key, and the keys go up. A cut that is so is the one `runs` makes
(`AreRuns.runs_flatMap`), so that taking uses out of a set takes them out of the
buckets and drops the buckets left empty (`byOwner_without`).

Groups by member are not runs of a bucket, since the kind of a member does not
count in the order of a set; they still hold each use once (`perm_groups`).
-/
import Mathlib.Data.List.Perm.Basic
import MemberAudit.Report.Listing

namespace MemberAudit

/-! ## Runs of ascending keys -/

section Runs

variable {α κ : Type} [DecidableEq κ] [Ord κ] {key : α → κ}

/-- Pieces of a list that are the runs of it: with a key each, ascending from one
to the next. -/
structure AreRuns (key : α → κ) (pieces : List (κ × List α)) : Prop where
  keyed : ∀ k run, (k, run) ∈ pieces → run ≠ [] ∧ ∀ a ∈ run, key a = k
  ascending : (pieces.map (·.1)).Pairwise (compare · · = .lt)

omit [Ord κ] in
theorem keyed_of_mem_runs {k : κ} {run l : List α} (h : (k, run) ∈ runs key l) :
    run ≠ [] ∧ ∀ a ∈ run, key a = k := by
  induction l generalizing k run with
  | nil => simp [runs] at h
  | cons a l ih =>
    simp only [runs] at h
    split at h
    · cases List.mem_singleton.mp h
      simp
    · rename_i k' run' others heq
      rw [heq] at ih
      split at h
      · rename_i hk
        rcases List.mem_cons.mp h with h | h
        · cases h
          refine ⟨by simp, ?_⟩
          intro b hb
          rcases List.mem_cons.mp hb with rfl | hb
          · exact hk
          · exact (ih List.mem_cons_self).2 b hb
        · exact ih (List.mem_cons_of_mem _ h)
      · rcases List.mem_cons.mp h with h | h
        · cases h; simp
        · exact ih h

omit [Ord κ] in
theorem exists_mem_of_mem_runs {k : κ} {run l : List α} (h : (k, run) ∈ runs key l) :
    ∃ a ∈ l, key a = k := by
  obtain ⟨hne, hkey⟩ := keyed_of_mem_runs h
  obtain ⟨a, ha⟩ := List.exists_mem_of_ne_nil _ hne
  refine ⟨a, ?_, hkey a ha⟩
  rw [← flatMap_runs key l]
  exact List.mem_flatMap.mpr ⟨_, h, ha⟩

theorem areRuns_runs [Std.TransOrd κ] [Std.LawfulEqOrd κ] {l : List α}
    (h : l.Pairwise fun a b => (compare (key a) (key b)).isLE) : AreRuns key (runs key l) := by
  refine ⟨fun _ _ => keyed_of_mem_runs, ?_⟩
  induction l with
  | nil => exact .nil
  | cons a l ih =>
    have hle := (List.pairwise_cons.mp h).1
    have ih := ih (List.pairwise_cons.mp h).2
    -- a later run has a key of its own, which is not below that of `a`
    have hlt : ∀ k run, (k, run) ∈ runs key l → key a ≠ k → compare (key a) k = .lt := by
      intro k run hmem hne
      obtain ⟨b, hb, rfl⟩ := exists_mem_of_mem_runs hmem
      rcases hc : compare (key a) (key b) with _ | _ | _
      · rfl
      · exact absurd (Std.LawfulEqOrd.eq_of_compare hc) hne
      · have := hle b hb
        rw [hc] at this
        cases this
    simp only [runs]
    split
    · simp
    · rename_i k run others heq
      rw [heq] at ih hlt
      split
      · exact ih
      · rename_i hne
        have hak := hlt k run List.mem_cons_self hne
        refine List.pairwise_cons.mpr ⟨fun k' hk' => ?_, ih⟩
        rcases List.mem_cons.mp hk' with rfl | hk'
        · exact hak
        · exact Std.TransCmp.lt_trans hak ((List.pairwise_cons.mp ih).1 _ hk')

omit [Ord κ] in
/-- One run before a list that begins with another key. -/
theorem runs_append {k : κ} {run l : List α} (hne : run ≠ []) (hkey : ∀ a ∈ run, key a = k)
    (hl : ∀ r ∈ (runs key l).head?, r.1 ≠ k) : runs key (run ++ l) = (k, run) :: runs key l := by
  induction run with
  | nil => exact absurd rfl hne
  | cons a run ih =>
    have ha := hkey a List.mem_cons_self
    rw [List.cons_append, runs]
    rcases run with _ | ⟨b, run⟩
    · rw [List.nil_append]
      cases hr : runs key l with
      | nil => simp [ha]
      | cons r others =>
        have := hl r (by simp [hr])
        simp [ha, this.symm]
    · rw [ih (by simp) fun c hc => hkey c (List.mem_cons_of_mem _ hc)]
      simp [ha]

/-- Pieces with the elements of a kind only, without those that have none. -/
def siftPieces (p : α → Bool) (pieces : List (κ × List α)) : List (κ × List α) :=
  (pieces.map fun piece => (piece.1, piece.2.filter p)).filter (!·.2.isEmpty)

omit [DecidableEq κ] [Ord κ] in
theorem flatMap_siftPieces (p : α → Bool) (pieces : List (κ × List α)) :
    (siftPieces p pieces).flatMap (·.2) = (pieces.flatMap (·.2)).filter p := by
  induction pieces with
  | nil => rfl
  | cons piece pieces ih =>
    rw [List.flatMap_cons, List.filter_append, ← ih, siftPieces, List.map_cons, List.filter_cons]
    split
    · rfl
    · rename_i h
      have : piece.2.filter p = [] := by simpa using h
      rw [this]
      rfl

namespace AreRuns

variable {pieces : List (κ × List α)}

omit [DecidableEq κ] in
theorem tail {piece : κ × List α} (h : AreRuns key (piece :: pieces)) : AreRuns key pieces :=
  ⟨fun k run hmem => h.keyed k run (List.mem_cons_of_mem _ hmem), (List.pairwise_cons.mp h.ascending).2⟩

variable [Std.TransOrd κ]

theorem runs_flatMap (h : AreRuns key pieces) : runs key (pieces.flatMap (·.2)) = pieces := by
  induction pieces with
  | nil => rfl
  | cons piece pieces ih =>
    obtain ⟨k, run⟩ := piece
    obtain ⟨hne, hkey⟩ := h.keyed k run List.mem_cons_self
    rw [List.flatMap_cons, runs_append hne hkey, ih h.tail]
    rw [ih h.tail]
    intro r hr hk
    have := (List.pairwise_cons.mp h.ascending).1 r.1 (List.mem_map_of_mem (List.mem_of_mem_head? hr))
    rw [hk, Std.ReflOrd.compare_self] at this
    cases this

/-- A run holds all elements with its key. -/
theorem eq_filter (h : AreRuns key pieces) {k : κ} {run : List α} (hmem : (k, run) ∈ pieces) :
    run = (pieces.flatMap (·.2)).filter (key · = k) := by
  induction pieces with
  | nil => cases hmem
  | cons piece pieces ih =>
    obtain ⟨k', run'⟩ := piece
    have hkey := (h.keyed k' run' List.mem_cons_self).2
    have hlt := (List.pairwise_cons.mp h.ascending).1
    rw [List.flatMap_cons, List.filter_append]
    rcases List.mem_cons.mp hmem with heq | hmem
    · cases heq
      have hfirst : run.filter (key · = k) = run := List.filter_eq_self.mpr fun a ha => by
        simpa using hkey a ha
      have hothers : (pieces.flatMap (·.2)).filter (key · = k) = [] := by
        refine List.filter_eq_nil_iff.mpr ?_
        intro a ha hka
        obtain ⟨⟨k'', run''⟩, hr, har⟩ := List.mem_flatMap.mp ha
        have hk'' := (h.tail.keyed k'' run'' hr).2 a har
        have := hlt k'' (List.mem_map_of_mem hr)
        rw [← hk'', of_decide_eq_true hka, Std.ReflOrd.compare_self] at this
        cases this
      rw [hfirst, hothers, List.append_nil]
    · have hfirst : run'.filter (key · = k) = [] := by
        refine List.filter_eq_nil_iff.mpr ?_
        intro a ha hka
        have := hlt k (List.mem_map_of_mem hmem)
        rw [← hkey a ha, of_decide_eq_true hka, Std.ReflOrd.compare_self] at this
        cases this
      rw [hfirst, List.nil_append]
      exact ih h.tail hmem

omit [DecidableEq κ] [Std.TransOrd κ] in
theorem sift (h : AreRuns key pieces) (p : α → Bool) : AreRuns key (siftPieces p pieces) := by
  refine ⟨fun k run hmem => ?_, h.ascending.sublist ?_⟩
  · obtain ⟨hmem, hne⟩ := List.mem_filter.mp hmem
    obtain ⟨piece, hpiece, heq⟩ := List.mem_map.mp hmem
    cases heq
    refine ⟨by simpa using hne, ?_⟩
    intro a ha
    exact (h.keyed _ _ hpiece).2 a (List.mem_filter.mp ha).1
  · have := (List.filter_sublist (p := (!·.2.isEmpty))
      (l := pieces.map fun piece => (piece.1, piece.2.filter p))).map (·.1)
    rwa [List.map_map] at this

end AreRuns

end Runs

/-! ## Owners and members of a set -/

namespace UseSet

theorem areRuns_byOwner (found : UseSet) : AreRuns MemberUse.ownerClass found.byOwner := by
  refine areRuns_runs (found.ascending.imp fun {a b} h => ?_)
  simp only [MemberUse.order, compareLex, compareOn] at h
  rcases hc : compare a.ownerClass b.ownerClass with _ | _ | _
  · rfl
  · rfl
  · rw [hc] at h
    cases h

theorem nodup_owners (found : UseSet) : (found.byOwner.map (·.1)).Nodup := by
  refine found.areRuns_byOwner.ascending.imp ?_
  intro owner other hlt heq
  rw [heq, Std.compare_self] at hlt
  cases hlt

theorem flatMap_byOwner (found : UseSet) : found.byOwner.flatMap (·.2) = found.uses :=
  flatMap_runs _ _

/-- A bucket holds all uses of its owner, and at least one. -/
theorem mem_byOwner {found : UseSet} {owner : String} {bucket : List MemberUse}
    (h : (owner, bucket) ∈ found.byOwner) :
    bucket ≠ [] ∧ bucket = found.uses.filter (·.ownerClass = owner) := by
  refine ⟨(found.areRuns_byOwner.keyed owner bucket h).1, ?_⟩
  have := found.areRuns_byOwner.eq_filter h
  rwa [found.flatMap_byOwner] at this

/-- The buckets of a set without some uses: theirs without these uses, as far as
any are left. -/
theorem byOwner_without (found : UseSet) (known : List MemberUse) :
    (found.without known).byOwner = siftPieces (fun use => !known.any use.same) found.byOwner := by
  have h := (found.areRuns_byOwner.sift fun use => !known.any use.same).runs_flatMap
  rwa [flatMap_siftPieces, flatMap_byOwner] at h

end UseSet

theorem perm_memberGroups (bucket : List MemberUse) :
    (memberGroups bucket).flatten.Perm bucket := by
  have hrest : bucket.filter (·.kind = .field) = bucket.filter fun use => !(use.kind = .method : Bool) := by
    refine List.filter_congr ?_
    intro use _
    cases use.kind <;> rfl
  simp only [memberGroups, List.flatMap_cons, List.flatMap_nil, List.append_nil, List.flatten_append,
    ← List.flatMap_def, flatMap_runs, hrest]
  exact List.filter_append_perm _ _

/-- **Each use of a set stands once in its groups.** -/
theorem perm_groups (found : UseSet) : (Report.groups found).flatten.Perm found.uses := by
  have h : (Report.groups found).flatten =
      found.byOwner.flatMap fun piece => (memberGroups piece.2).flatten := by
    simp only [Report.groups, List.flatMap_def, List.flatten_flatten, List.map_map]
    rfl
  rw [h, ← found.flatMap_byOwner]
  exact List.Perm.flatMap_left _ fun piece _ => perm_memberGroups piece.2

end MemberAudit
