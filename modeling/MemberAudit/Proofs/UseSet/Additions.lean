/-
What a set holds, told from the uses that were added to it. Uses are the same if
their keys are (`MemberUse.same_iff_key`). Of the uses added under one key the set
holds the first and no other (`UseSet.mem_addAll`), and its size is the number of
keys (`UseSet.size_addAll`); two sets with the same members are one set
(`UseSet.ext_mem`).

Lists of additions grow at their end here, as a set does, so the induction is on
what came last.
-/
import Mathlib.Data.Finset.Card
import Mathlib.Data.List.Induction
import Mathlib.Data.List.Perm.Basic
import MemberAudit.UseSet

namespace MemberAudit

/-! ## Uses and their keys -/

namespace MemberUse

theorem same_congr {a b : MemberUse} (h : a.same b = true) (c : MemberUse) : a.same c = b.same c := by
  have hab : order a b = .eq := by simpa [same] using h
  simp only [same, Std.TransCmp.congr_left hab]

theorem any_same_congr {a b : MemberUse} (h : a.same b = true) (uses : List MemberUse) :
    uses.any a.same = uses.any b.same := by
  rw [funext (same_congr h)]

/-- What tells uses apart: all of a use but the kind of the member. -/
def key (use : MemberUse) : String × String × String × String × Int32 :=
  (use.ownerClass, use.ownerMember, use.callerClass, use.callerMember, use.callerLine)

theorem order_eq_iff_key {a b : MemberUse} : order a b = .eq ↔ a.key = b.key := by
  simp only [order_eq_iff, key, Prod.mk.injEq]

theorem same_iff_key {a b : MemberUse} : a.same b = true ↔ a.key = b.key := by
  rw [← order_eq_iff_key, same, beq_iff_eq]

theorem eq_of_key {a b : MemberUse} (hkey : a.key = b.key) (hkind : a.kind = b.kind) : a = b := by
  cases a
  cases b
  simp_all [key]

end MemberUse

/-! ## First additions -/

/-- A use that was added before all others under its key. -/
def AddedFirst (added : List MemberUse) (use : MemberUse) : Prop :=
  ∃ before after, added = before ++ use :: after ∧ ∀ other ∈ before, other.key ≠ use.key

variable {added : List MemberUse} {use other : MemberUse}

theorem addedFirst_iff_find? :
    AddedFirst added use ↔ added.find? (·.key = use.key) = some use := by
  simp [AddedFirst, List.find?_eq_some_iff_append]

theorem AddedFirst.mem (h : AddedFirst added use) : use ∈ added := by
  obtain ⟨before, after, rfl, _⟩ := h
  simp

theorem AddedFirst.unique (h : AddedFirst added use) (h' : AddedFirst added other)
    (hkey : use.key = other.key) : use = other := by
  rw [addedFirst_iff_find?, hkey] at h
  rw [addedFirst_iff_find?] at h'
  exact Option.some.inj (h.symm.trans h')

theorem exists_addedFirst (h : use ∈ added) : ∃ first, AddedFirst added first ∧ first.key = use.key := by
  obtain ⟨first, hfirst⟩ := Option.isSome_iff_exists.mp
    (List.find?_isSome (p := (·.key = use.key)).mpr ⟨use, h, by simp⟩)
  have hkey : first.key = use.key := by simpa using List.find?_some hfirst
  refine ⟨first, ?_, hkey⟩
  rwa [addedFirst_iff_find?, hkey]

theorem addedFirst_append_singleton {last : MemberUse} :
    AddedFirst (added ++ [last]) use ↔
      AddedFirst added use ∨ ((∀ other ∈ added, other.key ≠ last.key) ∧ use = last) := by
  rw [addedFirst_iff_find?, addedFirst_iff_find?, List.find?_append, Option.or_eq_some_iff]
  refine or_congr_right ?_
  rw [List.find?_eq_none, List.find?_singleton]
  constructor
  · intro h
    obtain ⟨hnew, hlast⟩ := h
    split at hlast
    · cases hlast
      exact ⟨by simpa using hnew, rfl⟩
    · cases hlast
  · intro h
    obtain ⟨hnew, rfl⟩ := h
    simpa using hnew

/-! ## Members of a set -/

namespace UseSet

theorem contains_congr {a b : MemberUse} (h : a.same b = true) (set : UseSet) :
    set.contains a = set.contains b :=
  MemberUse.any_same_congr h set.uses

theorem contains_of_mem {set : UseSet} {use : MemberUse} (h : use ∈ set.uses) :
    set.contains use = true :=
  List.any_eq_true.mpr ⟨use, h, use.same_self⟩

theorem exists_mem_of_contains {set : UseSet} {use : MemberUse} (h : set.contains use = true) :
    ∃ other ∈ set.uses, other.key = use.key := by
  obtain ⟨other, hother, hsame⟩ := List.any_eq_true.mp h
  exact ⟨other, hother, (MemberUse.same_iff_key.mp hsame).symm⟩

theorem addAll_append_singleton (set : UseSet) (uses : List MemberUse) (use : MemberUse) :
    set.addAll (uses ++ [use]) = (set.addAll uses).insert use := by
  simp [addAll]

theorem contains_addAll (set : UseSet) (uses : List MemberUse) (use : MemberUse) :
    (set.addAll uses).contains use = (set.contains use || uses.any use.same) := by
  induction uses generalizing set with
  | nil => simp [addAll]
  | cons first uses ih =>
    rw [addAll, List.foldl_cons, ← addAll, ih, contains_insert, List.any_cons]
    cases use.same first <;> simp

theorem perm_insert {set : UseSet} {use : MemberUse} (h : set.contains use = false) :
    (set.insert use).uses.Perm (use :: set.uses) := by
  obtain ⟨uses, ascending⟩ := set
  simp only [insert, contains] at h ⊢
  clear ascending
  induction uses with
  | nil => exact .refl _
  | cons other uses ih =>
    rw [List.any_cons, Bool.or_eq_false_iff] at h
    simp only [insertUse]
    split
    · exact .refl _
    · rename_i heq
      simp [MemberUse.same, heq] at h
    · exact ((ih h.2).cons other).trans (.swap use other uses)

theorem contains_without (set : UseSet) (known : List MemberUse) (use : MemberUse) :
    (set.without known).contains use = (set.contains use && !known.any use.same) := by
  rw [Bool.eq_iff_iff]
  simp only [contains, without, List.any_eq_true, List.mem_filter, Bool.and_eq_true]
  constructor
  · intro hex
    obtain ⟨a, ⟨hmem, hnew⟩, hsame⟩ := hex
    rw [← MemberUse.any_same_congr hsame] at hnew
    exact ⟨⟨a, hmem, hsame⟩, hnew⟩
  · intro hex
    obtain ⟨⟨a, hmem, hsame⟩, hnew⟩ := hex
    rw [MemberUse.any_same_congr hsame] at hnew
    exact ⟨a, ⟨hmem, hnew⟩, hsame⟩

variable {set : UseSet}

theorem mem_insert {a : MemberUse} :
    a ∈ (set.insert use).uses ↔ a ∈ set.uses ∨ (set.contains use = false ∧ a = use) := by
  cases h : set.contains use with
  | true => simp [insert_of_contains h]
  | false => simp [(perm_insert h).mem_iff, or_comm]

theorem contains_eq_false_iff :
    (empty.addAll added).contains use = false ↔ ∀ other ∈ added, other.key ≠ use.key := by
  simp only [contains_addAll, contains_empty, Bool.false_or, List.any_eq_false, MemberUse.same_iff_key,
    ne_eq, @eq_comm _ use.key]

/-- **A set holds the first additions.** -/
theorem mem_addAll : use ∈ (empty.addAll added).uses ↔ AddedFirst added use := by
  induction added using List.reverseRecOn with
  | nil => simp [addAll, empty, AddedFirst]
  | append_singleton added last ih =>
    rw [addAll_append_singleton, mem_insert, ih, contains_eq_false_iff, addedFirst_append_singleton]

theorem mem_addAll_of_mem (h : use ∈ set.uses) (uses : List MemberUse) :
    use ∈ (set.addAll uses).uses := by
  induction uses generalizing set with
  | nil => exact h
  | cons other uses ih => exact ih (mem_insert.mpr (.inl h))

theorem nodup_keys (set : UseSet) : (set.uses.map (·.key)).Nodup := by
  refine List.pairwise_map.mpr (set.ascending.imp ?_)
  intro a b hlt hkey
  rw [MemberUse.order_eq_iff_key.mpr hkey] at hlt
  cases hlt

theorem nodup_uses (set : UseSet) : set.uses.Nodup :=
  set.nodup_keys.of_map _

theorem eq_of_mem_of_key {a b : MemberUse} (ha : a ∈ set.uses) (hb : b ∈ set.uses)
    (hkey : a.key = b.key) : a = b :=
  List.inj_on_of_nodup_map set.nodup_keys ha hb hkey

/-- Sets with the same members are one set. -/
theorem ext_mem {a b : UseSet} (h : ∀ use, use ∈ a.uses ↔ use ∈ b.uses) : a = b := by
  have huses : a.uses = b.uses := by
    refine List.Perm.eq_of_pairwise ?_ a.ascending b.ascending
      ((List.perm_ext_iff_of_nodup a.nodup_uses b.nodup_uses).mpr h)
    intro x y _ _ hxy hyx
    have := Std.TransCmp.lt_trans hxy hyx
    rw [MemberUse.order_self] at this
    cases this
  cases a
  cases b
  cases huses
  rfl

/-! ## Keys of a set -/

/-- The keys of the uses in a set. -/
def keys (set : UseSet) : Finset (String × String × String × String × Int32) :=
  (set.uses.map (·.key)).toFinset

theorem mem_keys : use.key ∈ set.keys ↔ set.contains use = true := by
  simp only [keys, List.mem_toFinset, List.mem_map, contains, List.any_eq_true, MemberUse.same_iff_key,
    @eq_comm _ use.key]

theorem keys_congr {a b : UseSet} (h : ∀ use, a.contains use = true ↔ b.contains use = true) :
    a.keys = b.keys := by
  ext ⟨ownerClass, ownerMember, callerClass, callerMember, callerLine⟩
  have huse := h ⟨ownerClass, ownerMember, .method, callerClass, callerMember, callerLine⟩
  rwa [← mem_keys, ← mem_keys] at huse

theorem size_eq_card (set : UseSet) : set.size = set.keys.card := by
  rw [keys, List.toFinset_card_of_nodup set.nodup_keys, List.length_map, size]

theorem keys_addAll (added : List MemberUse) :
    (empty.addAll added).keys = (added.map (·.key)).toFinset := by
  ext key
  simp only [keys, List.mem_toFinset, List.mem_map, mem_addAll]
  constructor
  · intro h
    obtain ⟨use, hfirst, hkey⟩ := h
    exact ⟨use, hfirst.mem, hkey⟩
  · intro h
    obtain ⟨use, hmem, rfl⟩ := h
    exact exists_addedFirst hmem

/-- The size of a set is the number of keys under which something was added. -/
theorem size_addAll (added : List MemberUse) :
    (empty.addAll added).size = (added.map (·.key)).toFinset.card := by
  rw [size_eq_card, keys_addAll]

end UseSet

end MemberAudit
