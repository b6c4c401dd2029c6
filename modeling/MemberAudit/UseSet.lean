/-
Sets of uses, without two that are the same. They are kept ascending, so that a
set is listed in one order only, however it came about. Of several same uses the
first that was added stays (`insertUse`), with its kind.
-/
import MemberAudit.MemberUse

namespace MemberAudit

open MemberUse (order)

/-- A use put at its place in an ascending list, unless the list has it. -/
def insertUse (use : MemberUse) : List MemberUse → List MemberUse
  | [] => [use]
  | other :: rest =>
    match order use other with
    | .lt => use :: other :: rest
    | .eq => other :: rest
    | .gt => other :: insertUse use rest

theorem mem_of_mem_insertUse {use a : MemberUse} {uses : List MemberUse}
    (h : a ∈ insertUse use uses) : a = use ∨ a ∈ uses := by
  induction uses with
  | nil => simpa [insertUse] using h
  | cons other rest ih =>
    simp only [insertUse] at h
    split at h
    · simpa using h
    · exact .inr h
    · simp only [List.mem_cons] at h ⊢
      rcases h with h | h
      · exact .inr (.inl h)
      · exact (ih h).imp id .inr

theorem pairwise_insertUse (use : MemberUse) {uses : List MemberUse}
    (h : uses.Pairwise (order · · = .lt)) :
    (insertUse use uses).Pairwise (order · · = .lt) := by
  induction uses with
  | nil => simp [insertUse]
  | cons other rest ih =>
    have hrest := List.pairwise_cons.mp h
    simp only [insertUse]
    split
    · next hlt =>
      refine List.pairwise_cons.mpr ⟨fun a ha => ?_, h⟩
      rcases List.mem_cons.mp ha with rfl | ha
      · exact hlt
      · exact Std.TransCmp.lt_trans hlt (hrest.1 a ha)
    · exact h
    · next hgt =>
      refine List.pairwise_cons.mpr ⟨fun a ha => ?_, ih hrest.2⟩
      rcases mem_of_mem_insertUse ha with rfl | ha
      · exact Std.OrientedCmp.lt_of_gt hgt
      · exact hrest.1 a ha

theorem any_same_insertUse (use v : MemberUse) (uses : List MemberUse) :
    (insertUse use uses).any v.same = (v.same use || uses.any v.same) := by
  induction uses with
  | nil => simp [insertUse]
  | cons other rest ih =>
    simp only [insertUse]
    split
    · simp
    · next heq =>
      have : v.same use = v.same other := by
        simp only [MemberUse.same, Std.TransCmp.congr_right heq]
      simp [this]
    · simp [ih, Bool.or_left_comm]

/-- A use that is there already changes nothing, so the first one stays. -/
theorem insertUse_of_any_same {use : MemberUse} {uses : List MemberUse}
    (sorted : uses.Pairwise (order · · = .lt)) (h : uses.any use.same = true) :
    insertUse use uses = uses := by
  induction uses with
  | nil => simp at h
  | cons other rest ih =>
    have hrest := List.pairwise_cons.mp sorted
    simp only [insertUse]
    split
    · next hlt =>
      exfalso
      obtain ⟨a, ha, hsame⟩ := List.any_eq_true.mp h
      have heq : order use a = .eq := by simpa [MemberUse.same] using hsame
      rcases List.mem_cons.mp ha with rfl | ha
      · simp [hlt] at heq
      · have := Std.TransCmp.lt_trans hlt (hrest.1 a ha)
        simp [this] at heq
    · rfl
    · next hgt =>
      rw [ih hrest.2]
      simpa [MemberUse.same, hgt] using h

/-- Consecutive elements of equal keys, each run with its key. -/
def runs {α κ : Type} [DecidableEq κ] (key : α → κ) : List α → List (κ × List α)
  | [] => []
  | a :: rest =>
    match runs key rest with
    | [] => [(key a, [a])]
    | (k, run) :: others =>
      if key a = k then (k, a :: run) :: others else (key a, [a]) :: (k, run) :: others

/-- The runs in their order hold the elements in their order. -/
theorem flatMap_runs {α κ : Type} [DecidableEq κ] (key : α → κ) (l : List α) :
    (runs key l).flatMap (·.2) = l := by
  induction l with
  | nil => rfl
  | cons a rest ih =>
    simp only [runs]
    split
    · next h => simp [h] at ih; simp [ih]
    · next k run others h =>
      rw [h] at ih
      split <;> simp_all

theorem sublist_flatMap_filter {α β : Type} (p : α → Bool) (f : α → List β) (l : List α) :
    ((l.filter p).flatMap f).Sublist (l.flatMap f) := by
  induction l with
  | nil => exact .slnil
  | cons a l ih =>
    rw [List.filter_cons, List.flatMap_cons]
    split
    · rw [List.flatMap_cons]
      exact ih.append_left (f a)
    · exact ih.trans (List.sublist_append_right _ _)

structure UseSet where
  uses : List MemberUse
  ascending : uses.Pairwise (order · · = .lt)

namespace UseSet

def empty : UseSet := ⟨[], .nil⟩

instance : Inhabited UseSet := ⟨empty⟩

theorem eq_of_uses {a b : UseSet} (h : a.uses = b.uses) : a = b := by
  cases a
  cases b
  cases h
  rfl

def contains (set : UseSet) (use : MemberUse) : Bool :=
  set.uses.any use.same

def insert (set : UseSet) (use : MemberUse) : UseSet :=
  ⟨insertUse use set.uses, pairwise_insertUse use set.ascending⟩

/-- The set with a use added, and whether it is new there. -/
def add (set : UseSet) (use : MemberUse) : Bool × UseSet :=
  (!set.contains use, set.insert use)

/-- The set with all its uses taken out. -/
def clear (_ : UseSet) : UseSet := empty

def addAll (set : UseSet) (uses : List MemberUse) : UseSet :=
  uses.foldl insert set

def ofList (uses : List MemberUse) : UseSet :=
  empty.addAll uses

def size (set : UseSet) : Nat :=
  set.uses.length

@[simp] theorem contains_empty (use : MemberUse) : empty.contains use = false := rfl

@[simp] theorem contains_insert (set : UseSet) (use v : MemberUse) :
    (set.insert use).contains v = (v.same use || set.contains v) :=
  any_same_insertUse use v set.uses

theorem insert_of_contains {set : UseSet} {use : MemberUse} (h : set.contains use = true) :
    set.insert use = set := by
  cases set with
  | mk uses ascending => simp only [insert, insertUse_of_any_same ascending h]

/-- The set without the uses that are the same as one of those given. -/
def without (set : UseSet) (known : List MemberUse) : UseSet :=
  ⟨set.uses.filter fun use => !known.any use.same, set.ascending.filter _⟩

/-- The uses by owner, the owners ascending. -/
def byOwner (set : UseSet) : List (String × List MemberUse) :=
  runs MemberUse.ownerClass set.uses

/-- Buckets with a use taken out of the bucket of its owner, if there is one that has it. -/
def strikeUse (buckets : List (String × List MemberUse)) (use : MemberUse) :
    List (String × List MemberUse) :=
  buckets.map fun (owner, bucket) =>
    (owner, if owner = use.ownerClass then bucket.eraseP use.same else bucket)

/-- Buckets with uses taken out one after the other, less the buckets left empty. -/
def strikeAll (buckets : List (String × List MemberUse)) (uses : List MemberUse) :
    List (String × List MemberUse) :=
  (uses.foldl strikeUse buckets).filter (!·.2.isEmpty)

theorem sublist_strikeUse (buckets : List (String × List MemberUse)) (use : MemberUse) :
    ((strikeUse buckets use).flatMap (·.2)).Sublist (buckets.flatMap (·.2)) := by
  induction buckets with
  | nil => exact .slnil
  | cons piece buckets ih =>
    simp only [strikeUse, List.map_cons, List.flatMap_cons]
    refine List.Sublist.append ?_ ih
    split
    · exact List.eraseP_sublist
    · exact .refl _

theorem sublist_strikeAll (buckets : List (String × List MemberUse)) (uses : List MemberUse) :
    ((strikeAll buckets uses).flatMap (·.2)).Sublist (buckets.flatMap (·.2)) := by
  refine (sublist_flatMap_filter _ _ _).trans ?_
  induction uses generalizing buckets with
  | nil => exact .refl _
  | cons use uses ih => exact (ih _).trans (sublist_strikeUse buckets use)

/-- The set with uses taken out, each from the bucket of its owner. -/
def strike (set : UseSet) (uses : List MemberUse) : UseSet where
  uses := (strikeAll set.byOwner uses).flatMap (·.2)
  ascending := set.ascending.sublist <| by
    simpa only [byOwner, flatMap_runs] using sublist_strikeAll set.byOwner uses

end UseSet

/-- The uses of one owner by the member used, methods before fields and each
ascending. -/
def memberGroups (bucket : List MemberUse) : List (List MemberUse) :=
  [MemberSort.method, .field].flatMap fun kind =>
    (runs MemberUse.ownerMember (bucket.filter (·.kind = kind))).map (·.2)

end MemberAudit
