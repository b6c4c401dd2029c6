/-
A scan whose classes are examined at the same time. Each class adds its uses to the
set in the order of its instructions, and one addition comes at a time; of which
class the next one is, is open (`Pass.Step`). Which keys the set has in the end does
not depend on it. The kind of a use may: of two classes of one name the one that is
first to add a use decides, if a method and a field are shown by the same text. So all
orders leave the set that the classes leave one after another exactly if the classes
agree on kinds (`leaves_spec`), as they do if no field used has a name that ends in a
parenthesis (`kindsAgree_of_fieldNames`). Uses that a baseline accepts do not count for
what it leaves (`KindsAgreeSince`).

One step keeps what `Pass.Sound` says of the set; that one order is as possible as
another is shown by taking the steps of one class, or of all in turn
(`steps_turn`, `steps_rest`).
-/
import Mathlib.Logic.Relation
import MemberAudit.Proofs.Violation.Agreement
import MemberAudit.Proofs.Violation.Sites
import MemberAudit.Report.Directory

namespace MemberAudit

namespace Violation

/-! ## Additions in any order -/

/-- The uses of a class that the rules flag, in their order. -/
def usesOf (rules : Policy) (cls : PlacedClass) : List MemberUse :=
  (ofClass rules cls).map use

/-- How far a class has come: the uses that it has added and those still to add. -/
structure Progress where
  added : List MemberUse
  pending : List MemberUse

def Progress.whole (progress : Progress) : List MemberUse :=
  progress.added ++ progress.pending

/-- A scan on its way. -/
structure Pass where
  classes : List Progress
  found : UseSet

namespace Pass

def start (set : UseSet) (rules : Policy) (classes : List PlacedClass) : Pass :=
  ⟨classes.map fun cls => ⟨[], usesOf rules cls⟩, set.clear⟩

/-- Some class adds its next use. -/
inductive Step : Pass → Pass → Prop where
  | add {before after : List Progress} {added pending : List MemberUse} {use : MemberUse}
      {found : UseSet} :
      Step ⟨before ++ ⟨added, use :: pending⟩ :: after, found⟩
        ⟨before ++ ⟨added ++ [use], pending⟩ :: after, (found.add use).2⟩

def Steps : Pass → Pass → Prop :=
  Relation.ReflTransGen Step

def Ended (pass : Pass) : Prop :=
  ∀ progress ∈ pass.classes, progress.pending = []

end Pass

/-- A set that a scan leaves, its classes examined at the same time. -/
def Leaves (set : UseSet) (rules : Policy) (classes : List PlacedClass) (found : UseSet) : Prop :=
  ∃ pass, (Pass.start set rules classes).Steps pass ∧ pass.Ended ∧ pass.found = found

/-! ## What steps keep -/

namespace Pass

variable {pass next : Pass}

/-- The uses added so far. -/
def added (pass : Pass) : List MemberUse :=
  pass.classes.flatMap (·.added)

/-- The set has the keys of what was added, and holds of each class at most the first
use under a key. -/
structure Sound (pass : Pass) : Prop where
  keys : ∀ use, pass.found.contains use = true ↔ ∃ other ∈ pass.added, other.key = use.key
  first : ∀ use ∈ pass.found.uses, ∃ progress ∈ pass.classes, AddedFirst progress.added use

theorem Sound.step (h : pass.Sound) (hstep : pass.Step next) : next.Sound := by
  obtain ⟨hkeys, hfirst⟩ := h
  cases hstep with
  | @add before after added pending use found =>
    simp only [Pass.added, List.flatMap_append, List.flatMap_cons] at hkeys
    refine ⟨?_, ?_⟩
    · intro v
      rw [UseSet.add, UseSet.contains_insert, Bool.or_eq_true, hkeys, MemberUse.same_iff_key]
      simp only [Pass.added, List.flatMap_append, List.flatMap_cons, List.mem_append,
        List.mem_singleton, or_and_right, exists_or, exists_eq_left, @eq_comm _ v.key,
        or_assoc, or_left_comm]
    · intro v hv
      rcases UseSet.mem_insert.mp hv with hv | ⟨hnew, rfl⟩
      · obtain ⟨progress, hprogress, hv⟩ := hfirst v hv
        rcases List.mem_append.mp hprogress with hbefore | hrest
        · exact ⟨progress, List.mem_append_left _ hbefore, hv⟩
        rcases List.mem_cons.mp hrest with rfl | hafter
        · exact ⟨⟨added ++ [use], pending⟩, by simp, addedFirst_append_singleton.mpr (.inl hv)⟩
        · exact ⟨progress, by simp [hafter], hv⟩
      · -- no class has added the key before, so this one has not
        refine ⟨⟨added ++ [v], pending⟩, by simp, addedFirst_append_singleton.mpr (.inr ⟨?_, rfl⟩)⟩
        intro other hother hkey
        rw [(hkeys v).mpr ⟨other, by simp [hother], hkey⟩] at hnew
        cases hnew

theorem Step.whole (hstep : pass.Step next) :
    next.classes.map Progress.whole = pass.classes.map Progress.whole := by
  cases hstep with
  | add => simp [Progress.whole]

theorem Steps.sound (hsteps : pass.Steps next) (h : pass.Sound) : next.Sound := by
  induction hsteps with
  | refl => exact h
  | tail _ hstep ih => exact ih.step hstep

theorem Steps.whole (hsteps : pass.Steps next) :
    next.classes.map Progress.whole = pass.classes.map Progress.whole := by
  induction hsteps with
  | refl => rfl
  | tail _ hstep ih => exact hstep.whole.trans ih

theorem Ended.added_eq_whole (h : pass.Ended) {progress : Progress}
    (hprogress : progress ∈ pass.classes) : progress.added = progress.whole := by
  rw [Progress.whole, h progress hprogress, List.append_nil]

theorem sound_start (set : UseSet) (rules : Policy) (classes : List PlacedClass) :
    (start set rules classes).Sound := by
  constructor <;> simp [start, added, UseSet.clear, UseSet.empty, UseSet.contains]

theorem whole_start (set : UseSet) (rules : Policy) (classes : List PlacedClass) :
    (start set rules classes).classes.map Progress.whole = classes.map (usesOf rules) := by
  rw [start, List.map_map]
  rfl

/-! ## Orders of steps -/

/-- A class may be taken to its end while the others wait. -/
theorem steps_turn (before after : List Progress) (added pending : List MemberUse) (found : UseSet) :
    Steps ⟨before ++ ⟨added, pending⟩ :: after, found⟩
      ⟨before ++ ⟨added ++ pending, []⟩ :: after, found.addAll pending⟩ := by
  induction pending generalizing added found with
  | nil =>
    rw [List.append_nil]
    exact .refl
  | cons use pending ih =>
    have hrest := ih (added ++ [use]) (found.add use).2
    rw [List.append_assoc, List.singleton_append] at hrest
    exact .head .add hrest

/-- The classes may be taken to their ends one after another. -/
theorem steps_rest (before rest : List Progress) (found : UseSet) :
    Steps ⟨before ++ rest, found⟩
      ⟨before ++ rest.map fun progress => ⟨progress.whole, []⟩,
        found.addAll (rest.flatMap (·.pending))⟩ := by
  induction rest generalizing before found with
  | nil => exact .refl
  | cons progress rest ih =>
    have hrest := ih (before ++ [⟨progress.whole, []⟩]) (found.addAll progress.pending)
    simp only [List.append_assoc, List.singleton_append, UseSet.addAll, ← List.foldl_append] at hrest
    exact (steps_turn before rest progress.added progress.pending found).trans hrest

end Pass

section Leaves

variable {set found other : UseSet} {rules : Policy} {classes : List PlacedClass} {use : MemberUse}

theorem leaves_of_steps {progress : List Progress}
    (hsteps : (Pass.start set rules classes).Steps ⟨progress, found⟩) :
    Leaves set rules classes (found.addAll (progress.flatMap (·.pending))) := by
  refine ⟨_, hsteps.trans (Pass.steps_rest [] progress found), ?_, rfl⟩
  intro ended hended
  obtain ⟨_, -, rfl⟩ := List.mem_map.mp hended
  rfl

/-- The classes one after another are one of the orders. -/
theorem leaves_record (set : UseSet) (rules : Policy) (classes : List PlacedClass) :
    Leaves set rules classes (record set rules classes).2 := by
  have h := leaves_of_steps (.refl : (Pass.start set rules classes).Steps _)
  have hpending : (classes.map fun cls => (⟨[], usesOf rules cls⟩ : Progress)).flatMap (·.pending) =
      (all rules classes).map Violation.use := by
    simp only [List.flatMap_map, all, List.map_flatMap, usesOf]
  rwa [hpending] at h

/-- What a class alone would leave is left in some order. -/
theorem exists_leaves_of_addedFirst (set : UseSet) {cls : PlacedClass} (hcls : cls ∈ classes)
    (huse : AddedFirst (usesOf rules cls) use) :
    ∃ found, Leaves set rules classes found ∧ use ∈ found.uses := by
  obtain ⟨before, after, rfl⟩ := List.append_of_mem hcls
  have hsteps := Pass.steps_turn (before.map fun cls => ⟨[], usesOf rules cls⟩)
    (after.map fun cls => ⟨[], usesOf rules cls⟩) [] (usesOf rules cls) set.clear
  have hstart : Pass.start set rules (before ++ cls :: after) =
      ⟨before.map (fun cls => ⟨[], usesOf rules cls⟩) ++ ⟨[], usesOf rules cls⟩ ::
        after.map (fun cls => ⟨[], usesOf rules cls⟩), set.clear⟩ := by
    rw [Pass.start, List.map_append, List.map_cons]
  rw [← hstart] at hsteps
  exact ⟨_, leaves_of_steps hsteps, UseSet.mem_addAll_of_mem (UseSet.mem_addAll.mpr huse) _⟩

/-- At the end each class has added all its uses. -/
theorem mem_classes_of_ended {pass : Pass} (hsteps : (Pass.start set rules classes).Steps pass)
    (hended : pass.Ended) {p : List MemberUse → Prop} :
    (∃ progress ∈ pass.classes, p progress.added) ↔ ∃ cls ∈ classes, p (usesOf rules cls) := by
  have hwhole : (∃ uses ∈ pass.classes.map Progress.whole, p uses) ↔
      ∃ uses ∈ classes.map (usesOf rules), p uses := by
    rw [hsteps.whole, Pass.whole_start]
  simp only [List.mem_map, exists_exists_and_eq_and] at hwhole
  rw [← hwhole]
  refine exists_congr fun progress => and_congr_right fun hprogress => ?_
  rw [hended.added_eq_whole hprogress]

theorem Leaves.contains (h : Leaves set rules classes found) (use : MemberUse) :
    found.contains use = true ↔
      ∃ cls ∈ classes, ∃ other ∈ usesOf rules cls, other.key = use.key := by
  obtain ⟨pass, hsteps, hended, rfl⟩ := h
  rw [(hsteps.sound (Pass.sound_start set rules classes)).keys use, ← mem_classes_of_ended hsteps hended
    (p := fun uses => ∃ other ∈ uses, other.key = use.key)]
  simp only [Pass.added, List.mem_flatMap]
  tauto

theorem Leaves.first (h : Leaves set rules classes found) (huse : use ∈ found.uses) :
    ∃ cls ∈ classes, AddedFirst (usesOf rules cls) use := by
  obtain ⟨pass, hsteps, hended, rfl⟩ := h
  exact (mem_classes_of_ended hsteps hended (p := (AddedFirst · use))).mp
    ((hsteps.sound (Pass.sound_start set rules classes)).first use huse)

end Leaves

/-! ## Agreement on kinds -/

/-- Classes agree on kinds: the uses that two of them would leave under one key have
one kind. -/
def KindsAgree (rules : Policy) (classes : List PlacedClass) : Prop :=
  ∀ cls ∈ classes, ∀ other ∈ classes, ∀ a b, AddedFirst (usesOf rules cls) a →
    AddedFirst (usesOf rules other) b → a.key = b.key → a.kind = b.kind

/-- Classes agree on the kinds of what a baseline leaves. -/
def KindsAgreeSince (baseline : Baseline) (rules : Policy) (classes : List PlacedClass) : Prop :=
  ∀ cls ∈ classes, ∀ other ∈ classes, ∀ a b, AddedFirst (usesOf rules cls) a →
    AddedFirst (usesOf rules other) b → a.key = b.key → ¬baseline.Accepts a → a.kind = b.kind

section KindsAgree

variable {set found other : UseSet} {rules : Policy} {classes : List PlacedClass} {use : MemberUse}
  {baseline : Baseline}

theorem Leaves.keys_eq (h : Leaves set rules classes found) (h' : Leaves set rules classes other) :
    found.keys = other.keys :=
  UseSet.keys_congr fun use => (h.contains use).trans (h'.contains use).symm

theorem kindsAgree_iff : KindsAgree rules classes ↔ KindsAgreeSince [] rules classes := by
  simp [KindsAgree, KindsAgreeSince, Baseline.Accepts]

theorem KindsAgree.since (hagree : KindsAgree rules classes) : KindsAgreeSince baseline rules classes :=
  fun cls hcls other hother a b ha hb hkey _ => hagree cls hcls other hother a b ha hb hkey

theorem KindsAgreeSince.mem (hagree : KindsAgreeSince baseline rules classes)
    (h : Leaves set rules classes found) (h' : Leaves set rules classes other)
    (huse : use ∈ (found.newSince baseline).uses) : use ∈ (other.newSince baseline).uses := by
  obtain ⟨huse, hleft⟩ := UseSet.mem_newSince.mp huse
  obtain ⟨kept, hkept, hkey⟩ := UseSet.exists_mem_of_contains
    ((h'.contains use).mpr ((h.contains use).mp (UseSet.contains_of_mem huse)))
  obtain ⟨cls, hcls, hfirst⟩ := h.first huse
  obtain ⟨cls', hcls', hfirst'⟩ := h'.first hkept
  have hkind := hagree cls hcls cls' hcls' use kept hfirst hfirst' hkey.symm hleft
  rw [MemberUse.eq_of_key hkey.symm hkind] at hleft ⊢
  exact UseSet.mem_newSince.mpr ⟨hkept, hleft⟩

/-- What a baseline leaves is then the same for every order. -/
theorem KindsAgreeSince.eq (hagree : KindsAgreeSince baseline rules classes)
    (h : Leaves set rules classes found) (h' : Leaves set rules classes other) :
    found.newSince baseline = other.newSince baseline :=
  UseSet.ext_mem fun _ => ⟨hagree.mem h h', hagree.mem h' h⟩

theorem KindsAgree.eq (hagree : KindsAgree rules classes) (h : Leaves set rules classes found)
    (h' : Leaves set rules classes other) : found = other := by
  have hleft := (kindsAgree_iff.mp hagree).eq h h'
  rwa [UseSet.newSince_nil, UseSet.newSince_nil] at hleft

/-- If all orders leave uses that are in one set, the classes agree. -/
theorem kindsAgreeSince_of_mem (set other : UseSet) (h : ∀ found, Leaves set rules classes found →
    ∀ use ∈ (found.newSince baseline).uses, use ∈ other.uses) :
    KindsAgreeSince baseline rules classes := by
  intro cls hcls cls' hcls' a b ha hb hkey hleft
  obtain ⟨found, hfound, hmem⟩ := exists_leaves_of_addedFirst set hcls ha
  obtain ⟨found', hfound', hmem'⟩ := exists_leaves_of_addedFirst set hcls' hb
  have hleft' : ¬baseline.Accepts b := by rwa [Baseline.Accepts, ← hkey]
  rw [UseSet.eq_of_mem_of_key (h found hfound a (UseSet.mem_newSince.mpr ⟨hmem, hleft⟩))
    (h found' hfound' b (UseSet.mem_newSince.mpr ⟨hmem', hleft'⟩)) hkey]

theorem kindsAgree_of_mem (set other : UseSet) (h : ∀ found, Leaves set rules classes found →
    ∀ use ∈ found.uses, use ∈ other.uses) : KindsAgree rules classes := by
  refine kindsAgree_iff.mpr (kindsAgreeSince_of_mem set other ?_)
  simpa only [UseSet.newSince_nil] using h

theorem Leaves.recorded (h : Leaves set rules classes found) (huse : use ∈ found.uses) :
    use.recorded = use := by
  obtain ⟨cls, hcls, hfirst⟩ := h.first huse
  obtain ⟨violation, hviolation, rfl⟩ := List.mem_map.mp hfirst.mem
  have hnamed := ownerMember_ne_empty (List.mem_flatMap.mpr ⟨cls, hcls, hviolation⟩)
  exact MemberUse.recorded_eq_self_iff.mpr fun hunnamed => hnamed hunnamed.1

/-- The report over all owners tells uses apart that name a member, their kinds included. -/
theorem mem_of_listing_eq (hfound : ∀ use ∈ found.uses, use.recorded = use)
    (hother : ∀ use ∈ other.uses, use.recorded = use)
    (hlisting : Report.listing found = Report.listing other) (huse : use ∈ found.uses) :
    use ∈ other.uses := by
  have hread := (Baseline.acceptsExactly_listing "" found).uses
  rw [hlisting] at hread
  have hperm := hread.symm.trans (Baseline.acceptsExactly_listing "" other).uses
  obtain ⟨kept, hkept, heq⟩ := List.mem_map.mp (hperm.mem_iff.mp (List.mem_map_of_mem huse))
  rw [hfound use huse, hother kept hkept] at heq
  rwa [← heq]

theorem Leaves.mem_of_listing_eq (h : Leaves set rules classes found)
    (h' : Leaves set rules classes other)
    (hlisting : Report.listing (found.newSince baseline) = Report.listing (other.newSince baseline))
    (huse : use ∈ (found.newSince baseline).uses) : use ∈ (other.newSince baseline).uses :=
  Violation.mem_of_listing_eq (fun _ hmem => h.recorded (UseSet.mem_newSince.mp hmem).1)
    (fun _ hmem => h'.recorded (UseSet.mem_newSince.mp hmem).1) hlisting huse

/-- **What the order of additions changes.** However the additions of the classes come
between each other, the set has the keys of a scan of one class after another. It is
the same set for every order exactly if the classes agree on kinds, and the same holds
of the reports that are written of it. -/
theorem leaves_spec (set : UseSet) (rules : Policy) (classes : List PlacedClass) :
    let inOrder := (record set rules classes).2
    Leaves set rules classes inOrder ∧
    (∀ found, Leaves set rules classes found →
      found.keys = inOrder.keys ∧ found.size = inOrder.size) ∧
    (KindsAgree rules classes ↔ ∀ found, Leaves set rules classes found → found = inOrder) ∧
    (KindsAgree rules classes ↔ ∀ found, Leaves set rules classes found →
      ∀ baseline format grain project,
        Report.files format grain project (found.newSince baseline) =
          Report.files format grain project (inOrder.newSince baseline)) := by
  intro inOrder
  have hinOrder : Leaves set rules classes inOrder := leaves_record set rules classes
  refine ⟨hinOrder, ?_, ⟨?_, ?_⟩, ⟨?_, ?_⟩⟩
  · intro found h
    have hkeys := h.keys_eq hinOrder
    exact ⟨hkeys, by rw [UseSet.size_eq_card, UseSet.size_eq_card, hkeys]⟩
  · intro hagree found h
    exact hagree.eq h hinOrder
  · intro hsets
    refine kindsAgree_of_mem set inOrder ?_
    intro found h use huse
    rwa [hsets found h] at huse
  · intro hagree found h baseline format grain project
    rw [hagree.eq h hinOrder]
  · intro hreports
    refine kindsAgree_of_mem set inOrder ?_
    intro found h use huse
    have hfiles := hreports found h [] .json .single ""
    have hmem : use ∈ (found.newSince []).uses → use ∈ (inOrder.newSince []).uses :=
      h.mem_of_listing_eq hinOrder (by simpa [Report.files] using hfiles)
    rw [UseSet.newSince_nil, UseSet.newSince_nil] at hmem
    exact hmem huse

/-! ### Names by which classes agree -/

theorem exists_site {cls : PlacedClass} (huse : use ∈ usesOf rules cls) :
    ∃ site ∈ sites [cls], site.Shows use := by
  obtain ⟨violation, hviolation, rfl⟩ := List.mem_map.mp huse
  have hall : violation ∈ all rules [cls] := by simpa [all] using hviolation
  obtain ⟨site, hsite, hflags⟩ := mem_all.mp hall
  exact ⟨site, hsite, hflags.shows⟩

theorem sites_subset {cls : PlacedClass} (h : cls ∈ classes) : sites [cls] ⊆ sites classes := by
  intro site hsite
  simp only [sites, List.flatMap_singleton] at hsite
  exact List.mem_flatMap.mpr ⟨cls, h, hsite⟩

theorem cls_of_mem_sites {cls : PlacedClass} {site : Site} (h : site ∈ sites [cls]) :
    site.cls = cls := by
  simp only [sites, List.flatMap_singleton, List.mem_flatMap, List.mem_map] at h
  obtain ⟨_, -, _, -, rfl⟩ := h
  rfl

/-- The signature of a method ends in a parenthesis. -/
theorem getLast?_memberShown_method {site : Site} (h : site.reference.op.kind = .method) :
    site.memberShown.toList.getLast? = some ')' := by
  simp only [Site.memberShown, h, Signature.method, Signature.caller, String.toList_append,
    List.getLast?_append]
  rfl

theorem getLast?_memberShown_field {site : Site} (h : site.reference.op.kind = .field)
    (hname : site.reference.name.toList.getLast? ≠ some ')') :
    site.memberShown.toList.getLast? ≠ some ')' := by
  simp only [Site.memberShown, h, Signature.field, String.toList_append, List.getLast?_append]
  cases hlast : site.reference.name.toList.getLast? with
  | none => simp
  | some c => simpa [hlast] using hname

/-- **Classes agree on kinds if no field used has a name that ends in a parenthesis.** -/
theorem kindsAgree_of_fieldNames (h : ∀ site ∈ sites classes, site.reference.op.kind = .field →
    site.reference.name.toList.getLast? ≠ some ')') : KindsAgree rules classes := by
  have hapart : ∀ s ∈ sites classes, ∀ t ∈ sites classes, s.reference.op.kind = .method →
      t.reference.op.kind = .field → s.memberShown ≠ t.memberShown := by
    intro s _ t ht hs hfield heq
    refine getLast?_memberShown_field hfield (h t ht hfield) ?_
    rw [← heq, getLast?_memberShown_method hs]
  intro cls hcls other hother a b ha hb hkey
  obtain ⟨s, hs, hshows⟩ := exists_site ha.mem
  obtain ⟨t, ht, hshows'⟩ := exists_site hb.mem
  have hs := sites_subset hcls hs
  have ht := sites_subset hother ht
  have hmember : s.memberShown = t.memberShown := by
    rw [← hshows.ownerMember, ← hshows'.ownerMember]
    exact congrArg (·.2.1) hkey
  rw [hshows.kind, hshows'.kind]
  cases hk : s.reference.op.kind <;> cases hk' : t.reference.op.kind
  · rfl
  · exact absurd hmember (hapart s hs t ht hk hk')
  · exact absurd hmember.symm (hapart t ht s hs hk' hk)
  · rfl

/-- **Classes agree on kinds if no two of them are shown under one name.** -/
theorem kindsAgree_of_names
    (h : (classes.map fun cls => Signature.className cls.toJvmClass.name).Nodup) :
    KindsAgree rules classes := by
  intro cls hcls other hother a b ha hb hkey
  have hcaller {cls : PlacedClass} {use : MemberUse} (huse : use ∈ usesOf rules cls) :
      use.callerClass = Signature.className cls.toJvmClass.name := by
    obtain ⟨site, hsite, hshows⟩ := exists_site huse
    rw [hshows.callerClass, cls_of_mem_sites hsite]
  have hname : Signature.className cls.toJvmClass.name = Signature.className other.toJvmClass.name := by
    rw [← hcaller ha.mem, ← hcaller hb.mem]
    exact congrArg (·.2.2.1) hkey
  have hsame : cls = other := List.inj_on_of_nodup_map h hcls hother hname
  subst hsame
  rw [ha.unique hb hkey]

end KindsAgree

/-! ## Two classes of one name -/

def storeRules : Policy :=
  { methods := [{ owner := "Store", message := "no" }]
    fields := [{ owner := "Store", message := "no" }] }

/-- A class that uses a member of `Store`. -/
def mainClass (op : ClassFile.MemberOp) (name descriptor : String) (artifact : Int) : PlacedClass :=
  ⟨⟨"Main", [⟨"run", "()V", [], [⟨"Store", name, descriptor, op, 0⟩]⟩]⟩, artifact⟩

/-- One of them calls the method `put`, the other reads a field that is named `put()`. -/
def twoMains : List PlacedClass :=
  [mainClass .invokestatic "put" "()I" 0, mainClass .getstatic "put()" "I" 1]

/-- If the second class adds its use first, the reports show a field, and not a method
as they do after a scan of one class after the other. -/
theorem leaves_field_first :
    ∃ found, Leaves .empty storeRules twoMains found ∧
      found ≠ (record .empty storeRules twoMains).2 ∧
      Report.listing found ≠ Report.listing (record .empty storeRules twoMains).2 := by
  have hfirst : AddedFirst (usesOf storeRules (mainClass .getstatic "put()" "I" 1))
      ⟨"Store", "int put()", .field, "Main", "run()", -1⟩ :=
    addedFirst_iff_find?.mpr (by decide +kernel)
  obtain ⟨found, hleaves, hmem⟩ := exists_leaves_of_addedFirst .empty
    (by simp [twoMains] : mainClass .getstatic "put()" "I" 1 ∈ twoMains) hfirst
  have hnot : ⟨"Store", "int put()", .field, "Main", "run()", -1⟩ ∉
      (record .empty storeRules twoMains).2.uses := by decide +kernel
  refine ⟨found, hleaves, ?_, ?_⟩
  · intro heq
    exact hnot (heq ▸ hmem)
  · intro heq
    rw [← found.newSince_nil] at heq hmem
    rw [← (record .empty storeRules twoMains).2.newSince_nil] at heq hnot
    exact hnot (hleaves.mem_of_listing_eq (leaves_record _ _ _) heq hmem)

end Violation

end MemberAudit
