/-
A set of uses that serves requests one after another. What it answers is told here
from the additions since it was last cleared, without a set (`Answers`, and `Served`
for a list of requests), and that leaves one answer to each request, the one given
(`serveAll_spec`).

One request keeps the set to what was added since the last clearing
(`serve_addAll`); a list of requests follows by induction.
-/
import Mathlib.Data.String.Basic
import MemberAudit.Proofs.UseSet.Additions
import MemberAudit.Proofs.UseSet.Buckets

namespace MemberAudit

/-! ## The order of uses -/

namespace MemberUse

/-- Before another use: in the first part in which the two differ, of owner, member,
caller's class, caller and line. Texts are compared by code points. -/
def Before (a b : MemberUse) : Prop :=
  a.ownerClass < b.ownerClass ∨ a.ownerClass = b.ownerClass ∧
    (a.ownerMember < b.ownerMember ∨ a.ownerMember = b.ownerMember ∧
      (a.callerClass < b.callerClass ∨ a.callerClass = b.callerClass ∧
        (a.callerMember < b.callerMember ∨ a.callerMember = b.callerMember ∧
          a.callerLine < b.callerLine)))

theorem compare_text_eq_lt {a b : String} : compare a b = .lt ↔ a < b :=
  compare_lt_iff_lt

theorem order_eq_lt_iff {a b : MemberUse} : order a b = .lt ↔ a.Before b := by
  simp only [order, compareLex, compareOn, Ordering.then_eq_lt, Std.LawfulEqOrd.compare_eq_iff_eq,
    compare_text_eq_lt, Std.compare_eq_lt, Before]

end MemberUse

namespace UseSet

/-! ## Requests -/

inductive Request where
  | add (use : MemberUse)
  | clear
  | size
  | byOwner

inductive Answer where
  | added (isNew : Bool)
  | cleared
  | counted (size : Nat)
  | listed (buckets : List (String × List MemberUse))

/-- The answer to a request, and the set after it. -/
def serve (set : UseSet) : Request → Answer × UseSet
  | .add use => (.added (set.add use).1, (set.add use).2)
  | .clear => (.cleared, set.clear)
  | .size => (.counted set.size, set)
  | .byOwner => (.listed set.byOwner, set)

def serveAll (set : UseSet) : List Request → List Answer × UseSet
  | [] => ([], set)
  | request :: requests =>
    let (answer, next) := set.serve request
    let (answers, last) := next.serveAll requests
    (answer :: answers, last)

theorem serveAll_cons (set : UseSet) (request : Request) (requests : List Request) :
    set.serveAll (request :: requests) =
      ((set.serve request).1 :: ((set.serve request).2.serveAll requests).1,
        ((set.serve request).2.serveAll requests).2) := rfl

/-! ## What is to be answered -/

/-- The additions since the last clearing, after one more request. -/
def Request.after (added : List MemberUse) : Request → List MemberUse
  | .add use => added ++ [use]
  | .clear => []
  | .size => added
  | .byOwner => added

/-- The additions since the last clearing that a list of requests leaves. -/
def additions (requests : List Request) : List MemberUse :=
  requests.foldl Request.after []

/-- The first additions by owner. -/
structure Lists (added : List MemberUse) (buckets : List (String × List MemberUse)) : Prop where
  owners : (buckets.map (·.1)).Pairwise (· < ·)
  filed : ∀ bucket ∈ buckets, bucket.2 ≠ [] ∧ ∀ use ∈ bucket.2, use.ownerClass = bucket.1
  ascending : ∀ bucket ∈ buckets, bucket.2.Pairwise MemberUse.Before
  holds : ∀ use, (∃ bucket ∈ buckets, use ∈ bucket.2) ↔ AddedFirst added use

/-- The answer to a request after some additions. -/
inductive Answers (added : List MemberUse) : Request → Answer → Prop where
  | add {use : MemberUse} {isNew : Bool} : (isNew = true ↔ ∀ other ∈ added, other.key ≠ use.key) →
      Answers added (.add use) (.added isNew)
  | clear : Answers added .clear .cleared
  | size : Answers added .size (.counted (added.map (·.key)).toFinset.card)
  | byOwner {buckets : List (String × List MemberUse)} : Lists added buckets →
      Answers added .byOwner (.listed buckets)

/-- The answers to requests in their order. -/
inductive Served : List MemberUse → List Request → List Answer → Prop where
  | nil {added : List MemberUse} : Served added [] []
  | cons {added : List MemberUse} {request : Request} {requests : List Request} {answer : Answer}
      {answers : List Answer} : Answers added request answer →
      Served (request.after added) requests answers →
        Served added (request :: requests) (answer :: answers)

/-! ## One request -/

variable {added : List MemberUse}

theorem lists_byOwner (added : List MemberUse) : Lists added (empty.addAll added).byOwner where
  owners := (areRuns_byOwner _).ascending.imp MemberUse.compare_text_eq_lt.mp
  filed := fun bucket => (areRuns_byOwner _).keyed bucket.1 bucket.2
  ascending := by
    intro bucket hbucket
    rw [(mem_byOwner hbucket).2]
    exact ((empty.addAll added).ascending.filter _).imp MemberUse.order_eq_lt_iff.mp
  holds := by
    intro use
    rw [← mem_addAll, ← flatMap_byOwner, List.mem_flatMap]

/-- There is one way only to list additions. -/
theorem Lists.eq_byOwner {buckets : List (String × List MemberUse)} (h : Lists added buckets) :
    buckets = (empty.addAll added).byOwner := by
  have hascending : (buckets.flatMap (·.2)).Pairwise (MemberUse.order · · = .lt) := by
    refine List.pairwise_flatMap.mpr ⟨?_, ?_⟩
    · intro bucket hbucket
      exact (h.ascending bucket hbucket).imp MemberUse.order_eq_lt_iff.mpr
    · refine (List.pairwise_map.mp h.owners).imp_of_mem ?_
      intro bucket bucket' hbucket hbucket' hlt use huse use' huse'
      refine MemberUse.order_eq_lt_iff.mpr (.inl ?_)
      rwa [(h.filed bucket hbucket).2 use huse, (h.filed bucket' hbucket').2 use' huse']
  have hset : (⟨buckets.flatMap (·.2), hascending⟩ : UseSet) = empty.addAll added := by
    refine ext_mem ?_
    intro use
    rw [mem_addAll, ← h.holds use, List.mem_flatMap]
  have hruns : AreRuns MemberUse.ownerClass buckets :=
    ⟨fun owner bucket => h.filed (owner, bucket), h.owners.imp MemberUse.compare_text_eq_lt.mpr⟩
  rw [← hset, byOwner, hruns.runs_flatMap]

theorem answers_iff {request : Request} {answer : Answer} :
    Answers added request answer ↔ answer = ((empty.addAll added).serve request).1 := by
  constructor
  · intro h
    cases h with
    | add hnew =>
      rw [← contains_eq_false_iff, ← Bool.not_eq_true', ← Bool.eq_iff_iff] at hnew
      rw [hnew]
      rfl
    | clear => rfl
    | size => rw [serve, size_addAll]
    | byOwner hlists => rw [hlists.eq_byOwner, serve]
  · intro h
    subst h
    cases request with
    | add use => exact .add (by rw [← contains_eq_false_iff, add, Bool.not_eq_true'])
    | clear => exact .clear
    | size =>
      rw [serve, size_addAll]
      exact .size
    | byOwner => exact .byOwner (lists_byOwner added)

/-- One request leaves the set of the additions since the last clearing. -/
theorem serve_addAll (added : List MemberUse) (request : Request) :
    ((empty.addAll added).serve request).2 = empty.addAll (request.after added) := by
  cases request with
  | add use => exact (addAll_append_singleton empty added use).symm
  | clear => rfl
  | size => rfl
  | byOwner => rfl

/-! ## All requests -/

theorem served_iff {requests : List Request} {answers : List Answer} :
    Served added requests answers ↔ answers = ((empty.addAll added).serveAll requests).1 := by
  induction requests generalizing added answers with
  | nil =>
    constructor
    · intro h
      cases h
      rfl
    · intro h
      rw [h]
      exact .nil
  | cons request requests ih =>
    have hnext := serve_addAll added request
    constructor
    · intro h
      cases h with
      | cons hanswer hrest => rw [serveAll_cons, answers_iff.mp hanswer, ih.mp hrest, hnext]
    · intro h
      rw [serveAll_cons, hnext] at h
      rw [h]
      exact .cons (answers_iff.mpr rfl) (ih.mpr rfl)

theorem serveAll_addAll (added : List MemberUse) (requests : List Request) :
    ((empty.addAll added).serveAll requests).2 = empty.addAll (requests.foldl Request.after added) := by
  induction requests generalizing added with
  | nil => rfl
  | cons request requests ih => rw [serveAll_cons, serve_addAll, ih, List.foldl_cons]

/-- The keys of the uses in some buckets. -/
def listedKeys (buckets : List (String × List MemberUse)) :
    Finset (String × String × String × String × Int32) :=
  ((buckets.flatMap (·.2)).map (·.key)).toFinset

theorem listedKeys_byOwner (set : UseSet) : listedKeys set.byOwner = set.keys := by
  rw [listedKeys, flatMap_byOwner, keys]

/-- **A set of uses is the set of what was added.** Whatever is asked of it in turn,
each answer is what the additions since the last clearing make it, and nothing else
would be. In what order these were made does not matter for the size and the keys. -/
theorem serveAll_spec :
    (∀ requests answers, Served [] requests answers ↔ answers = (empty.serveAll requests).1) ∧
    ∀ requests others, (additions requests).Perm (additions others) →
      (empty.serveAll requests).2.size = (empty.serveAll others).2.size ∧
      listedKeys (empty.serveAll requests).2.byOwner = listedKeys (empty.serveAll others).2.byOwner := by
  refine ⟨fun requests answers => served_iff, ?_⟩
  intro requests others hperm
  have hkeys : (empty.serveAll requests).2.keys = (empty.serveAll others).2.keys := by
    have hset (requests : List Request) :
        (empty.serveAll requests).2 = empty.addAll (additions requests) := serveAll_addAll [] requests
    rw [hset, hset, keys_addAll, keys_addAll]
    exact List.toFinset_eq_of_perm _ _ (hperm.map _)
  rw [size_eq_card, size_eq_card, listedKeys_byOwner, listedKeys_byOwner, hkeys]
  exact ⟨rfl, rfl⟩

end UseSet

end MemberAudit
