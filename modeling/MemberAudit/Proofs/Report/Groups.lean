/-
Groups of uses by member. A group has the uses of one member, told apart by kind and
name; methods come before fields, and names go up (`ByMember`). The kind does not count
in the order of a set, so the uses of a method and of a field of one name alternate in
it, and a group is no run of the uses of its owner. It has all uses of its member
(`ByMember.eq_filter`), so there is one way only to cut them into groups
(`ByMember.unique`), and this is the one of reports (`memberGroups_partition`).
-/
import Mathlib.Data.List.Nodup
import MemberAudit.Proofs.Baseline.Acceptance
import MemberAudit.Proofs.UseSet.Additions

namespace MemberAudit

open Json
open MemberUse (order)

/-! ## Members of uses -/

namespace MemberUse

/-- Uses of one member: of one kind and one name, whoever owns it. -/
def sharesMember (a b : MemberUse) : Bool :=
  a.kind = b.kind ∧ a.ownerMember = b.ownerMember

/-- The member of one use comes before that of another: methods before fields, those of a
kind by name. -/
def MemberBefore (a b : MemberUse) : Prop :=
  a.kind = .method ∧ b.kind = .field ∨
    a.kind = b.kind ∧ compare a.ownerMember b.ownerMember = .lt

variable {a b : MemberUse}

theorem sharesMember_iff : a.sharesMember b = true ↔ a.kind = b.kind ∧ a.ownerMember = b.ownerMember := by
  simp [sharesMember]

theorem sharesMember_comm (a b : MemberUse) : a.sharesMember b = b.sharesMember a := by
  rw [Bool.eq_iff_iff, sharesMember_iff, sharesMember_iff, eq_comm, @eq_comm _ a.ownerMember]

theorem MemberBefore.not_shared (h : a.MemberBefore b) : a.sharesMember b = false := by
  rw [Bool.eq_false_iff, ne_eq, sharesMember_iff]
  intro hshares
  rcases h with h | h
  · rw [h.1, h.2] at hshares
    cases hshares.1
  · rw [hshares.2, Std.ReflOrd.compare_self] at h
    cases h.2

theorem MemberBefore.asymm (h : a.MemberBefore b) : ¬b.MemberBefore a := by
  intro h'
  rcases h with h | h
  · rcases h' with h' | h'
    · rw [h.1] at h'
      cases h'.2
    · rw [h.1, h.2] at h'
      cases h'.1
  · rcases h' with h' | h'
    · rw [h'.1, h'.2] at h
      cases h.1
    · rw [Std.OrientedCmp.gt_of_lt h'.2] at h
      cases h.2

end MemberUse

/-! ## Cuts by member -/

/-- The uses of an owner cut into groups by member. -/
structure ByMember (bucket : List MemberUse) (groups : List (List MemberUse)) : Prop where
  nonempty : ∀ group ∈ groups, group ≠ []
  oneMember : ∀ group ∈ groups, ∀ a ∈ group, ∀ b ∈ group, a.sharesMember b = true
  distinct : groups.Pairwise fun g h => ∀ a ∈ g, ∀ b ∈ h, a.sharesMember b = false
  ascending : groups.Pairwise fun g h => ∀ a ∈ g, ∀ b ∈ h, a.MemberBefore b
  /-- The uses of a group stand in the order of the bucket. -/
  inOrder : ∀ group ∈ groups, group.Sublist bucket
  perm : groups.flatten.Perm bucket

namespace ByMember

variable {bucket group : List MemberUse} {groups others : List (List MemberUse)} {use : MemberUse}

theorem filter_flatten_eq_nil (h : ∀ other ∈ others, ∀ a ∈ other, use.sharesMember a = false) :
    others.flatten.filter use.sharesMember = [] := by
  refine List.filter_eq_nil_iff.mpr ?_
  intro a ha
  obtain ⟨other, hother, ha⟩ := List.mem_flatten.mp ha
  rw [h other hother a ha]
  exact Bool.false_ne_true

theorem filter_group (h : ByMember bucket groups) (hgroup : group ∈ groups) (huse : use ∈ group) :
    group.filter use.sharesMember = group :=
  List.filter_eq_self.mpr fun a ha => h.oneMember group hgroup use huse a ha

/-- Among all groups, the uses of one member are those of its group. -/
theorem filter_flatten (h : ByMember bucket groups) (hgroup : group ∈ groups) (huse : use ∈ group) :
    groups.flatten.filter use.sharesMember = group := by
  have hself := h.filter_group hgroup huse
  have hdistinct := h.distinct
  obtain ⟨before, after, rfl⟩ := List.append_of_mem hgroup
  obtain ⟨-, hafter, hbefore⟩ := List.pairwise_append.mp hdistinct
  have hearlier : before.flatten.filter use.sharesMember = [] := by
    refine filter_flatten_eq_nil ?_
    intro other hother a ha
    rw [MemberUse.sharesMember_comm]
    exact hbefore other hother group List.mem_cons_self a ha use huse
  have hlater : after.flatten.filter use.sharesMember = [] := by
    refine filter_flatten_eq_nil ?_
    intro other hother a ha
    exact (List.pairwise_cons.mp hafter).1 other hother use huse a ha
  rw [List.flatten_append, List.flatten_cons, List.filter_append, List.filter_append, hearlier, hself,
    hlater, List.nil_append, List.append_nil]

/-- A group holds all uses of its member. -/
theorem eq_filter (h : ByMember bucket groups) (hgroup : group ∈ groups) (huse : use ∈ group) :
    group = bucket.filter use.sharesMember := by
  have hflat := h.filter_flatten hgroup huse
  have hsub : group.Sublist (bucket.filter use.sharesMember) := by
    have := (h.inOrder group hgroup).filter use.sharesMember
    rwa [h.filter_group hgroup huse] at this
  refine hsub.eq_of_length ?_
  rw [← (h.perm.filter use.sharesMember).length_eq, hflat]

theorem mem_iff (h : ByMember bucket groups) :
    group ∈ groups ↔ ∃ use ∈ bucket, group = bucket.filter use.sharesMember := by
  constructor
  · intro hgroup
    obtain ⟨use, huse⟩ := List.exists_mem_of_ne_nil _ (h.nonempty group hgroup)
    exact ⟨use, (h.inOrder group hgroup).subset huse, h.eq_filter hgroup huse⟩
  · intro hex
    obtain ⟨use, huse, rfl⟩ := hex
    obtain ⟨group, hgroup, hmem⟩ := List.mem_flatten.mp (h.perm.mem_iff.mpr huse)
    rwa [← h.eq_filter hgroup hmem]

theorem nodup (h : ByMember bucket groups) : groups.Nodup := by
  refine h.ascending.imp_of_mem ?_
  intro g h' hg _ hbefore heq
  obtain ⟨use, huse⟩ := List.exists_mem_of_ne_nil _ (h.nonempty g hg)
  have := hbefore use huse use (heq ▸ huse)
  exact this.asymm this

/-- There is one cut only: any two have the same groups, and each has them ascending. -/
theorem unique (h : ByMember bucket groups) (h' : ByMember bucket others) : groups = others := by
  refine List.Perm.eq_of_pairwise ?_ h.ascending h'.ascending
    ((List.perm_ext_iff_of_nodup h.nodup h'.nodup).mpr fun group => by rw [h.mem_iff, h'.mem_iff])
  intro g g' hg hg' hbefore hbefore'
  obtain ⟨a, ha⟩ := List.exists_mem_of_ne_nil _ (h.nonempty g hg)
  obtain ⟨b, hb⟩ := List.exists_mem_of_ne_nil _ (h'.nonempty g' hg')
  exact absurd (hbefore' b hb a ha) (hbefore a ha b hb).asymm

end ByMember

/-! ## The groups of reports -/

section Groups

variable {owner : String} {bucket : List MemberUse}

/-- The uses of one owner go up by member. -/
theorem pairwise_ownerMember (hbucket : bucket.Pairwise (order · · = .lt))
    (howner : ∀ use ∈ bucket, use.ownerClass = owner) :
    bucket.Pairwise fun a b => (compare a.ownerMember b.ownerMember).isLE := by
  refine hbucket.imp_of_mem ?_
  intro a b ha hb hlt
  simp only [order, compareLex, compareOn, howner a ha, howner b hb, Std.ReflOrd.compare_self,
    Ordering.eq_then] at hlt
  rcases hc : compare a.ownerMember b.ownerMember with _ | _ | _
  · rfl
  · rfl
  · rw [hc] at hlt
    cases hlt

theorem mem_memberGroups {group : List MemberUse} : group ∈ memberGroups bucket ↔
    ∃ kind name, (name, group) ∈ runs MemberUse.ownerMember (bucket.filter (·.kind = kind)) := by
  simp only [memberGroups, List.mem_flatMap, List.mem_map]
  constructor
  · intro h
    obtain ⟨kind, -, piece, hpiece, rfl⟩ := h
    exact ⟨kind, piece.1, hpiece⟩
  · intro h
    obtain ⟨kind, name, hpiece⟩ := h
    refine ⟨kind, ?_, (name, group), hpiece, rfl⟩
    cases kind <;> simp

variable (h : bucket.Pairwise fun a b => (compare a.ownerMember b.ownerMember).isLE)
include h

theorem areRuns_ofKind (kind : MemberSort) :
    AreRuns MemberUse.ownerMember (runs MemberUse.ownerMember (bucket.filter (·.kind = kind))) :=
  areRuns_runs (h.filter _)

/-- A run of the uses of one kind has uses of one member, as they stand in the bucket. -/
theorem of_mem_runs_ofKind {kind : MemberSort} {name : String} {group : List MemberUse}
    (hgroup : (name, group) ∈ runs MemberUse.ownerMember (bucket.filter (·.kind = kind))) :
    group ≠ [] ∧ group.Sublist bucket ∧ ∀ a ∈ group, a.kind = kind ∧ a.ownerMember = name := by
  obtain ⟨hne, hname⟩ := (areRuns_ofKind h kind).keyed name group hgroup
  have hfilter := (areRuns_ofKind h kind).eq_filter hgroup
  have hsub : group.Sublist (bucket.filter (·.kind = kind)) := by
    rw [hfilter, flatMap_runs]
    exact List.filter_sublist
  refine ⟨hne, hsub.trans List.filter_sublist, ?_⟩
  intro a ha
  exact ⟨of_decide_eq_true (List.mem_filter.mp (hsub.subset ha)).2, hname a ha⟩

theorem ascending_ofKind (kind : MemberSort) :
    ((runs MemberUse.ownerMember (bucket.filter (·.kind = kind))).map (·.2)).Pairwise
      fun g g' => ∀ a ∈ g, ∀ b ∈ g', a.MemberBefore b := by
  refine List.pairwise_map.mpr ((List.pairwise_map.mp (areRuns_ofKind h kind).ascending).imp_of_mem ?_)
  intro piece piece' hpiece hpiece' hlt a ha b hb
  obtain ⟨-, -, hfirst⟩ := of_mem_runs_ofKind h hpiece
  obtain ⟨-, -, hsecond⟩ := of_mem_runs_ofKind h hpiece'
  refine .inr ⟨(hfirst a ha).1.trans (hsecond b hb).1.symm, ?_⟩
  rwa [(hfirst a ha).2, (hsecond b hb).2]

theorem ascending_memberGroups :
    (memberGroups bucket).Pairwise fun g g' => ∀ a ∈ g, ∀ b ∈ g', a.MemberBefore b := by
  simp only [memberGroups, List.flatMap_cons, List.flatMap_nil, List.append_nil]
  refine List.pairwise_append.mpr ⟨ascending_ofKind h .method, ascending_ofKind h .field, ?_⟩
  intro g hg g' hg' a ha b hb
  obtain ⟨piece, hpiece, rfl⟩ := List.mem_map.mp hg
  obtain ⟨piece', hpiece', rfl⟩ := List.mem_map.mp hg'
  obtain ⟨-, -, hmethods⟩ := of_mem_runs_ofKind h hpiece
  obtain ⟨-, -, hfields⟩ := of_mem_runs_ofKind h hpiece'
  exact .inl ⟨(hmethods a ha).1, (hfields b hb).1⟩

theorem byMember_memberGroups : ByMember bucket (memberGroups bucket) where
  nonempty := by
    intro group hgroup
    obtain ⟨kind, name, hpiece⟩ := mem_memberGroups.mp hgroup
    exact (of_mem_runs_ofKind h hpiece).1
  oneMember := by
    intro group hgroup a ha b hb
    obtain ⟨kind, name, hpiece⟩ := mem_memberGroups.mp hgroup
    obtain ⟨-, -, hmember⟩ := of_mem_runs_ofKind h hpiece
    refine MemberUse.sharesMember_iff.mpr ?_
    rw [(hmember a ha).1, (hmember a ha).2, (hmember b hb).1, (hmember b hb).2]
    exact ⟨rfl, rfl⟩
  distinct := (ascending_memberGroups h).imp fun hbefore a ha b hb => (hbefore a ha b hb).not_shared
  ascending := ascending_memberGroups h
  inOrder := by
    intro group hgroup
    obtain ⟨kind, name, hpiece⟩ := mem_memberGroups.mp hgroup
    exact (of_mem_runs_ofKind h hpiece).2.1
  perm := perm_memberGroups bucket

end Groups

/-! ## What reports list -/

theorem MemberUse.memberKey_injective : Function.Injective MemberUse.memberKey := by
  intro kind other heq
  cases kind with
  | method =>
    cases other with
    | method => rfl
    | field => exact absurd heq (by decide)
  | field =>
    cases other with
    | method => exact absurd heq (by decide)
    | field => rfl

/-- No two uses are written alike, even if they are the same but for their kinds. -/
theorem MemberUse.ofValue_toValue_injective :
    Function.Injective fun use : MemberUse => Document.ofValue use.toValue := by
  intro a b heq
  simp only [toValue, Document.ofValue, Document.ofMembers, Document.object.injEq, List.cons.injEq,
    Prod.mk.injEq, Option.some.injEq, Document.text.injEq, Document.number.injEq, true_and,
    and_true] at heq
  obtain ⟨howner, ⟨hkey, hmember⟩, hcaller, hcallerMember, hnumber⟩ := heq
  have hline : a.callerLine.toInt = b.callerLine.toInt := by
    have := congrArg Number.toInt? hnumber
    rwa [Number.toInt?_ofInt, Number.toInt?_ofInt, Option.some.injEq] at this
  refine eq_of_key ?_ (memberKey_injective hkey)
  simp only [key, howner, hmember, hcaller, hcallerMember, Int32.toInt_inj.mp hline]

theorem UseSet.byMember_of_mem_byOwner {found : UseSet} {owner : String} {bucket : List MemberUse}
    (h : (owner, bucket) ∈ found.byOwner) : ByMember bucket (memberGroups bucket) := by
  obtain ⟨-, rfl⟩ := mem_byOwner h
  have howner : ∀ use ∈ found.uses.filter (·.ownerClass = owner), use.ownerClass = owner := by
    intro use huse
    exact of_decide_eq_true (List.mem_filter.mp huse).2
  exact byMember_memberGroups (pairwise_ownerMember (found.ascending.filter _) howner)

/-- **Reports list the uses of each owner member by member.** The uses of an owner are cut
into groups of one member each, and in no other way. The report over all owners lists these
groups, owner by owner, and in them each use once; the report of one owner lists the uses of
its groups, one group after the other. -/
theorem memberGroups_partition :
    (∀ (bucket : UseSet) (owner : String), (∀ use ∈ bucket.uses, use.ownerClass = owner) →
      ∀ groups, ByMember bucket.uses groups ↔ groups = memberGroups bucket.uses) ∧
    (∀ found : UseSet,
      let groups := found.byOwner.flatMap fun piece => memberGroups piece.2
      Document.read (Report.listing found) = (.array (groups.map Document.ofUses), []) ∧
      groups.flatten.Perm found.uses ∧
      (found.uses.map fun use => Document.ofValue use.toValue).Nodup) ∧
    ∀ (found : UseSet) owner bucket, (owner, bucket) ∈ found.byOwner →
      ∃ groups, ByMember bucket groups ∧
        Document.read (Report.ownerListing bucket) = (Document.ofUses groups.flatten, []) := by
  refine ⟨?_, ?_, ?_⟩
  · intro bucket owner howner groups
    have hcut := byMember_memberGroups (pairwise_ownerMember bucket.ascending howner)
    constructor
    · exact fun h => h.unique hcut
    · intro h
      rwa [h]
  · intro found groups
    refine ⟨?_, perm_groups found, ?_⟩
    · rw [Report.listing, Document.read_document, Document.ofValue_groups]
      rfl
    · exact found.nodup_uses.map MemberUse.ofValue_toValue_injective
  · intro found owner bucket hmem
    refine ⟨memberGroups bucket, UseSet.byMember_of_mem_byOwner hmem, ?_⟩
    rw [Report.ownerListing, Document.read_document, Document.ofValue_uses]

/-- A method and a field of `app.Store` that are shown alike, and another method. -/
def sizeUses : UseSet :=
  .ofList [⟨"app.Store", "int size()", .field, "app.First", "run()", 1⟩,
    ⟨"app.Store", "int size()", .method, "app.Second", "run()", 2⟩,
    ⟨"app.Store", "int size()", .field, "app.Third", "run()", 3⟩,
    ⟨"app.Store", "void put()", .method, "app.First", "run()", 1⟩]

/-- The uses of the field stand before and after that of the method, but in one group. -/
theorem memberGroups_partition_alternating :
    let groups : List (List MemberUse) :=
      [[⟨"app.Store", "int size()", .method, "app.Second", "run()", 2⟩],
        [⟨"app.Store", "void put()", .method, "app.First", "run()", 1⟩],
        [⟨"app.Store", "int size()", .field, "app.First", "run()", 1⟩,
          ⟨"app.Store", "int size()", .field, "app.Third", "run()", 3⟩]]
    (∀ use ∈ sizeUses.uses, use.ownerClass = "app.Store") ∧
      sizeUses.uses.map (·.kind) = [.field, .method, .field, .method] ∧
      sizeUses.byOwner = [("app.Store", sizeUses.uses)] ∧
      ByMember sizeUses.uses groups ∧
      Document.read (Report.ownerListing sizeUses.uses) = (Document.ofUses groups.flatten, []) := by
  intro groups
  have howner : ∀ use ∈ sizeUses.uses, use.ownerClass = "app.Store" := by decide +kernel
  have hbucket : sizeUses.byOwner = [("app.Store", sizeUses.uses)] := by decide +kernel
  obtain ⟨hcut, -, hlisted⟩ := memberGroups_partition
  have hgroups : ByMember sizeUses.uses groups := (hcut sizeUses "app.Store" howner groups).mpr
    (by decide +kernel)
  obtain ⟨others, hothers, hread⟩ := hlisted sizeUses "app.Store" sizeUses.uses
    (by rw [hbucket]; exact List.mem_cons_self)
  rw [hothers.unique hgroups] at hread
  exact ⟨howner, by decide +kernel, hbucket, hgroups, hread⟩

end MemberAudit
