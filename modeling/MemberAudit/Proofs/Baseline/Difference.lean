/-
What a baseline leaves of a set. Its uses are struck one after the other from the
buckets of their owners, and buckets left empty fall away; what is left is the
difference of the two (`newSince_eq_without`): the uses that are the same as none of
the baseline, each as it was, in its place.

A bucket holds only uses of its owner, and none that are the same, so striking a use
from it takes out all that are the same (`strikeUse_eq`) and nothing is overlooked in
other buckets. That the baseline may be regrouped, cut in two or read twice
(`newSince_difference`) is then a matter of which uses it has.
-/
import MemberAudit.Baseline
import MemberAudit.Proofs.UseSet.Additions
import MemberAudit.Proofs.UseSet.Buckets

namespace MemberAudit

namespace MemberUse

theorem same_comm (a b : MemberUse) : a.same b = b.same a := by
  rw [Bool.eq_iff_iff, same_iff_key, same_iff_key, eq_comm]

theorem any_same_iff {known : List MemberUse} {use : MemberUse} :
    known.any use.same = true ↔ ∃ other ∈ known, other.key = use.key := by
  simp only [List.any_eq_true, same_iff_key, @eq_comm _ use.key]

end MemberUse

/-! ## Striking uses from buckets -/

/-- Taking out one element of a kind takes out all if there is one at most. -/
theorem eraseP_eq_filter {α : Type} {p : α → Bool} {l : List α}
    (h : l.Pairwise fun a b => p a = true → p b = false) : l.eraseP p = l.filter (!p ·) := by
  induction l with
  | nil => rfl
  | cons a l ih =>
    obtain ⟨ha, hl⟩ := List.pairwise_cons.mp h
    cases hp : p a with
    | true =>
      rw [List.eraseP_cons_of_pos hp, List.filter_cons_of_neg (by simp [hp]), eq_comm,
        List.filter_eq_self]
      intro b hb
      simp [ha b hb hp]
    | false => rw [List.eraseP_cons_of_neg (by simp [hp]), List.filter_cons_of_pos (by simp [hp]), ih hl]

namespace UseSet

/-- Buckets as a set gives them: the uses in one belong to its owner and ascend. -/
def Filed (buckets : List (String × List MemberUse)) : Prop :=
  ∀ owner bucket, (owner, bucket) ∈ buckets →
    (∀ use ∈ bucket, use.ownerClass = owner) ∧ bucket.Pairwise (MemberUse.order · · = .lt)

variable {buckets : List (String × List MemberUse)} {set : UseSet}

theorem filed_byOwner (set : UseSet) : Filed set.byOwner := by
  intro owner bucket hmem
  refine ⟨(set.areRuns_byOwner.keyed owner bucket hmem).2, ?_⟩
  rw [(mem_byOwner hmem).2]
  exact set.ascending.filter _

theorem Filed.filter (h : Filed buckets) (p : MemberUse → Bool) :
    Filed (buckets.map fun piece => (piece.1, piece.2.filter p)) := by
  intro owner bucket hmem
  obtain ⟨⟨owner', bucket'⟩, hmem', heq⟩ := List.mem_map.mp hmem
  cases heq
  obtain ⟨howner, hascending⟩ := h _ _ hmem'
  exact ⟨fun use huse => howner use (List.mem_filter.mp huse).1, hascending.filter p⟩

/-- A use is struck from all buckets, since only that of its owner can have it. -/
theorem strikeUse_eq (h : Filed buckets) (use : MemberUse) :
    strikeUse buckets use = buckets.map fun piece => (piece.1, piece.2.filter (!use.same ·)) := by
  refine List.map_congr_left ?_
  intro piece hpiece
  obtain ⟨owner, bucket⟩ := piece
  obtain ⟨howner, hascending⟩ := h owner bucket hpiece
  dsimp only
  congr 1
  by_cases heq : owner = use.ownerClass
  · rw [if_pos heq]
    refine eraseP_eq_filter (hascending.imp ?_)
    intro a b hlt ha
    rw [MemberUse.same_congr ha, MemberUse.same, hlt]
    rfl
  · rw [if_neg heq, eq_comm, List.filter_eq_self]
    intro other hother
    have hne : use.same other = false := by
      rw [Bool.eq_false_iff]
      intro hsame
      exact heq ((howner other hother).symm.trans (MemberUse.same_iff.mp hsame).1.symm)
    rw [hne]
    rfl

/-- Striking uses one after the other leaves what is the same as none of them. -/
theorem foldl_strikeUse_eq (h : Filed buckets) (uses : List MemberUse) :
    uses.foldl strikeUse buckets =
      buckets.map fun piece => (piece.1, piece.2.filter fun use => !uses.any use.same) := by
  induction uses generalizing buckets with
  | nil => simp
  | cons first uses ih =>
    rw [List.foldl_cons, strikeUse_eq h, ih (h.filter _), List.map_map]
    refine List.map_congr_left ?_
    intro piece _
    refine Prod.ext rfl ?_
    rw [Function.comp_apply, List.filter_filter]
    refine List.filter_congr ?_
    intro use _
    rw [List.any_cons, Bool.not_or, MemberUse.same_comm use first, Bool.and_comm]

theorem strikeAll_eq (set : UseSet) (uses : List MemberUse) :
    strikeAll set.byOwner uses = siftPieces (fun use => !uses.any use.same) set.byOwner := by
  rw [strikeAll, foldl_strikeUse_eq set.filed_byOwner]
  rfl

theorem strike_eq_without (set : UseSet) (uses : List MemberUse) :
    set.strike uses = set.without uses := by
  have huses : (set.strike uses).uses = (strikeAll set.byOwner uses).flatMap (·.2) := rfl
  refine eq_of_uses ?_
  rw [huses, strikeAll_eq, flatMap_siftPieces, flatMap_byOwner]
  rfl

/-- **A baseline leaves a difference of sets.** -/
theorem newSince_eq_without (set : UseSet) (baseline : Baseline) :
    set.newSince baseline = set.without baseline.flatten :=
  set.strike_eq_without baseline.flatten

theorem uses_newSince (set : UseSet) (baseline : Baseline) :
    (set.newSince baseline).uses = set.uses.filter fun use => !baseline.flatten.any use.same := by
  rw [newSince_eq_without]
  rfl

end UseSet

/-! ## What is left -/

namespace Baseline

/-- A use is accepted if the baseline has one that is the same, in whichever group. -/
def Accepts (baseline : Baseline) (use : MemberUse) : Prop :=
  ∃ group ∈ baseline, ∃ known ∈ group, known.key = use.key

variable {a b : Baseline} {use : MemberUse}

theorem accepts_iff : a.Accepts use ↔ a.flatten.any use.same = true := by
  simp only [Accepts, MemberUse.any_same_iff, List.mem_flatten]
  constructor
  · intro h
    obtain ⟨group, hgroup, known, hknown, hkey⟩ := h
    exact ⟨known, ⟨group, hgroup, hknown⟩, hkey⟩
  · intro h
    obtain ⟨known, ⟨group, hgroup, hknown⟩, hkey⟩ := h
    exact ⟨group, hgroup, known, hknown, hkey⟩

instance : DecidablePred a.Accepts := fun _ => decidable_of_iff _ accepts_iff.symm

theorem accepts_append : (a ++ b).Accepts use ↔ a.Accepts use ∨ b.Accepts use := by
  rw [accepts_iff, accepts_iff, accepts_iff, List.flatten_append, List.any_append, Bool.or_eq_true]

theorem Accepts.mono (h : a.Accepts use) (hsub : a.flatten ⊆ b.flatten) : b.Accepts use := by
  rw [accepts_iff, MemberUse.any_same_iff] at h ⊢
  obtain ⟨known, hknown, hkey⟩ := h
  exact ⟨known, hsub hknown, hkey⟩

end Baseline

namespace UseSet

variable {set : UseSet} {a b : Baseline}

theorem filter_accepted (uses : List MemberUse) (baseline : Baseline) :
    (uses.filter fun use => ¬baseline.Accepts use) =
      uses.filter fun use => !baseline.flatten.any use.same := by
  refine List.filter_congr ?_
  intro use _
  rw [Bool.eq_iff_iff, decide_eq_true_iff, Baseline.accepts_iff, Bool.not_eq_true', Bool.not_eq_true]

theorem mem_newSince {baseline : Baseline} {use : MemberUse} :
    use ∈ (set.newSince baseline).uses ↔ use ∈ set.uses ∧ ¬baseline.Accepts use := by
  rw [uses_newSince, ← filter_accepted, List.mem_filter, decide_eq_true_iff]

/-- Only what a baseline accepts counts. -/
theorem newSince_congr (h : ∀ use, a.Accepts use ↔ b.Accepts use) : set.newSince a = set.newSince b := by
  refine eq_of_uses ?_
  rw [uses_newSince, uses_newSince, ← filter_accepted, ← filter_accepted]
  simp only [h]

theorem newSince_newSince (set : UseSet) (a b : Baseline) :
    (set.newSince a).newSince b = set.newSince (a ++ b) := by
  refine eq_of_uses ?_
  rw [uses_newSince, uses_newSince, uses_newSince, List.filter_filter, List.flatten_append]
  refine List.filter_congr ?_
  intro use _
  rw [List.any_append, Bool.not_or, Bool.and_comm]

/-- A baseline that accepts more leaves less. -/
theorem newSince_sublist (h : ∀ use, a.Accepts use → b.Accepts use) :
    (set.newSince b).uses.Sublist (set.newSince a).uses := by
  have hboth : set.newSince b = (set.newSince a).newSince b := by
    rw [newSince_newSince]
    refine newSince_congr ?_
    intro use
    rw [Baseline.accepts_append, or_iff_right_of_imp (h use)]
  rw [hboth, uses_newSince]
  exact List.filter_sublist

/-- What is left of a set: the uses that a baseline does not accept. -/
structure Remainder (set : UseSet) (baseline : Baseline) (left : UseSet) : Prop where
  /-- Each is as it was, with the kind of its member, and they are in their order. -/
  uses : left.uses = set.uses.filter fun use => ¬baseline.Accepts use
  /-- Owners have what is left of their buckets. -/
  buckets : left.byOwner = siftPieces (fun use => ¬baseline.Accepts use) set.byOwner
  /-- Striking makes the buckets like that by itself, before they are cut anew. -/
  struck : strikeAll set.byOwner baseline.flatten = left.byOwner
  pruned : ∀ owner bucket, (owner, bucket) ∈ left.byOwner →
    bucket ≠ [] ∧ ∀ use ∈ bucket, use.ownerClass = owner

theorem remainder_newSince (set : UseSet) (baseline : Baseline) :
    Remainder set baseline (set.newSince baseline) where
  uses := by rw [uses_newSince, filter_accepted]
  buckets := by
    rw [newSince_eq_without, byOwner_without, siftPieces, siftPieces]
    simp only [filter_accepted]
  struck := by rw [strikeAll_eq, newSince_eq_without, byOwner_without]
  pruned := (set.newSince baseline).areRuns_byOwner.keyed

/-- **A baseline takes out what it accepts and nothing else.** How its uses are grouped
and ordered and how often it has them does not count; baselines may be applied one
after the other, in either order and more than once, and a larger one leaves no more. -/
theorem newSince_difference (set : UseSet) (baseline : Baseline) :
    Remainder set baseline (set.newSince baseline) ∧
    (∀ other : Baseline, (∀ known, known ∈ other.flatten ↔ known ∈ baseline.flatten) →
      set.newSince other = set.newSince baseline) ∧
    (∀ second : Baseline, (set.newSince baseline).newSince second = set.newSince (baseline ++ second) ∧
      (set.newSince baseline).newSince second = (set.newSince second).newSince baseline) ∧
    (set.newSince baseline).newSince baseline = set.newSince baseline ∧
    ∀ larger : Baseline, baseline.flatten ⊆ larger.flatten →
      (set.newSince larger).uses.Sublist (set.newSince baseline).uses := by
  refine ⟨set.remainder_newSince baseline, ?_, ?_, ?_, ?_⟩
  · intro other hsame
    refine newSince_congr ?_
    intro use
    exact ⟨fun h => h.mono fun known => (hsame known).mp, fun h => h.mono fun known => (hsame known).mpr⟩
  · intro second
    refine ⟨set.newSince_newSince baseline second, ?_⟩
    rw [newSince_newSince, newSince_newSince]
    refine newSince_congr ?_
    intro use
    rw [Baseline.accepts_append, Baseline.accepts_append, or_comm]
  · rw [newSince_newSince]
    refine newSince_congr ?_
    intro use
    rw [Baseline.accepts_append, or_self]
  · intro larger hsub
    exact newSince_sublist fun use h => h.mono hsub

/-- A call and a field of two owners; the baseline has the call twice, once as a field,
in groups of its own. -/
theorem newSince_difference_regrouped :
    let call : MemberUse := ⟨"app.Store", "void put()", .method, "app.Main", "run()", 7⟩
    let asField : MemberUse := { call with kind := .field }
    let other : MemberUse := ⟨"app.Cache", "int size", .field, "app.Main", "run()", 7⟩
    let set := ofList [call, other]
    (set.newSince [[asField]]).byOwner = [("app.Cache", [other])] ∧
      set.newSince [[], [asField], [asField]] = set.newSince [[asField]] ∧
      (set.newSince [[other], [asField]]).uses.Sublist (set.newSince [[asField]]).uses := by
  intro call asField other set
  obtain ⟨hleft, hgroups, -, -, hlarger⟩ := newSince_difference set [[asField]]
  refine ⟨?_, hgroups _ (by simp), hlarger _ (by simp)⟩
  rw [hleft.buckets]
  decide +kernel

end UseSet
end MemberAudit
