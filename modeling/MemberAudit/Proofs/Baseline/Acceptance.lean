/-
A JSON report taken as a baseline. Its text is read back as the uses it was
written from (`load_listing`, `load_ownerListing`), up to one thing a record
cannot say: that a use without a member is one of a field (`recorded`). Since
that does not count when uses are compared, a report accepts what it lists and
nothing else (`load_report_acceptsExactly`).
-/
import MemberAudit.Proofs.Baseline.Difference
import MemberAudit.Proofs.Json.RoundTrip
import MemberAudit.Text.Utf8

namespace MemberAudit

open Json

/-! ## Records -/

namespace Json

variable {ν ρ α : Type}

theorem Field.result?_put_of {name : String} {aliases : List String} {read : Document → Noted ν α}
    {set : α → ρ → ρ} {value : Document} {a : α} (h : (read value).result? = some a) (record : ρ) :
    ((Field.of name aliases read set).put value record).result? = some (set a record) := by
  simp only [Field.of, Noted.result?_bind, h, Option.bind_some, Noted.result?_pure]

/-- The members of a record, the first of which is for a field that is new. -/
theorem Document.result?_putMembers_cons {fields : List (Field ν ρ)} {field : Field ν ρ}
    {seen : List String} {key : String} {value : Document} {record next : ρ}
    (hfind : fields.find? (·.answersTo key) = some field) (hnew : seen.contains field.name = false)
    (hput : (field.put value record).result? = some next) (members : List (Option String × Document)) :
    (putMembers fields seen ((some key, value) :: members) record).result? =
      (putMembers fields (field.name :: seen) members next).result? := by
  simp only [putMembers, hfind, hnew, Bool.false_eq_true, ite_false, Noted.result?_bind, hput,
    Option.bind_some]

end Json

/-! ## One use -/

namespace MemberUse

/-- A use as its record tells it: without a member, it is one of a method. -/
def recorded (use : MemberUse) : MemberUse :=
  { use with kind := if use.ownerMember = "" then .method else use.kind }

theorem recorded_eq_self_iff {use : MemberUse} :
    use.recorded = use ↔ ¬(use.ownerMember = "" ∧ use.kind = .field) := by
  obtain ⟨owner, member, kind, caller, callerMember, line⟩ := use
  cases kind <;> simp [recorded]

@[simp] theorem same_recorded (use v : MemberUse) : use.same v.recorded = use.same v := rfl

theorem any_same_recorded (use : MemberUse) (known : List MemberUse) :
    (known.map recorded).any use.same = known.any use.same := by
  simp [List.any_map, Function.comp_def]

theorem result?_asInt32_ofInt {ν : Type} (n : Int32) :
    (Document.asInt32 (.number (.ofInt n.toInt)) : Noted ν Int32).result? = some n := by
  have hlow := n.le_toInt
  have hhigh := n.toInt_lt
  simp only [Document.asInt32, Number.toInt32?, Number.toInt?_ofInt, Option.bind_some, Noted.ofOption]
  rw [if_pos (by omega), Int32.ofInt_toInt]

/-- The parts of a use that its record gives. -/
def record (use : MemberUse) : UseRecord where
  ownerClass := use.ownerClass
  ownerMethod := if use.kind = .method then some use.ownerMember else none
  ownerField := if use.kind = .field then some use.ownerMember else none
  callerClass := use.callerClass
  callerMethod := use.callerMember
  callerLine := use.callerLine

theorem toUse_record (use : MemberUse) : use.record.toUse = use.recorded := by
  obtain ⟨owner, member, kind, caller, callerMember, line⟩ := use
  cases kind <;> by_cases h : member = "" <;>
    simp [record, UseRecord.toUse, UseRecord.given?, recorded, h]

theorem result?_asRecord (use : MemberUse) :
    (Document.asRecord UseRecord.fields {} (.ofValue use.toValue)).result? = some use.record := by
  obtain ⟨owner, member, kind, caller, callerMember, line⟩ := use
  have hline : (Document.asInt32 (.number (.ofInt line.toInt)) : Noted Empty Int32).result? =
      some line := result?_asInt32_ofInt line
  cases kind
  all_goals
    simp only [toValue, memberKey, Document.ofValue, Document.ofMembers, Document.asRecord]
    rw [Document.result?_putMembers_cons rfl rfl rfl, Document.result?_putMembers_cons rfl rfl rfl,
      Document.result?_putMembers_cons rfl rfl rfl, Document.result?_putMembers_cons rfl rfl rfl,
      Document.result?_putMembers_cons rfl rfl (Field.result?_put_of hline _)]
    rfl

theorem result?_ofDocument (use : MemberUse) :
    (ofDocument (.ofValue use.toValue)).result? = some use.recorded := by
  rw [ofDocument, Noted.result?_bind, result?_asRecord, Option.bind_some, Noted.result?_pure,
    toUse_record]

end MemberUse

/-! ## Lists of uses -/

namespace Json.Document

theorem result?_eachItem_map {ν α β : Type} {read : Document → Noted ν α} {f : β → Document}
    {g : β → α} {l : List β} (h : ∀ b ∈ l, (read (f b)).result? = some (g b)) :
    (eachItem read (l.map f)).result? = some (l.map g) := by
  induction l with
  | nil => rfl
  | cons b l ih =>
    simp only [List.map_cons, eachItem, Noted.result?_bind, h b List.mem_cons_self,
      ih fun c hc => h c (List.mem_cons_of_mem _ hc), Option.bind_some, Noted.result?_pure]

theorem soundItems_map {β : Type} {f : β → Document} {depth : Nat} {l : List β}
    (h : ∀ b ∈ l, sound depth (f b) = true) : soundItems depth (l.map f) = true := by
  induction l with
  | nil => rfl
  | cons b l ih =>
    simp only [List.map_cons, soundItems, h b List.mem_cons_self,
      ih fun c hc => h c (List.mem_cons_of_mem _ hc), Bool.and_self]

theorem sound_use (depth : Nat) (use : MemberUse) :
    sound (depth + 1) (ofValue use.toValue) = true := by
  have hline : (Number.ofInt use.callerLine.toInt).inRange = true := by
    have hlow := use.callerLine.le_toInt
    have hhigh := use.callerLine.toInt_lt
    exact Number.inRange_ofInt (by omega)
  simp [MemberUse.toValue, ofValue, ofMembers, sound, soundMembers, hline]

/-- The document of a list of uses. -/
def ofUses (uses : List MemberUse) : Document :=
  .array (uses.map fun use => ofValue use.toValue)

theorem ofValue_uses (uses : List MemberUse) :
    ofValue (.array (uses.map MemberUse.toValue)) = ofUses uses := by
  simp only [ofValue, ofItems_eq_map, List.map_map, ofUses, Function.comp_def]

theorem ofValue_groups (groups : List (List MemberUse)) :
    ofValue (.array (groups.map fun group => .array (group.map MemberUse.toValue))) =
      .array (groups.map ofUses) := by
  rw [ofValue, ofItems_eq_map, List.map_map]
  exact congrArg _ (List.map_congr_left fun uses _ => ofValue_uses uses)

theorem sound_ofUses (depth : Nat) (uses : List MemberUse) :
    sound (depth + 2) (ofUses uses) = true := by
  simp only [ofUses, sound, soundItems_map fun use _ => sound_use depth use, Nat.add_one_sub_one]
  rfl

theorem result?_asList_ofUses (uses : List MemberUse) :
    (asList MemberUse.ofDocument (ofUses uses)).result? = some (uses.map MemberUse.recorded) :=
  result?_eachItem_map fun use _ => use.result?_ofDocument

/-- A use is no list, so a list of uses is no list of groups, unless it is empty. -/
theorem result?_asList_asList_ofUses {uses : List MemberUse} (h : uses ≠ []) :
    (asList (asList MemberUse.ofDocument) (ofUses uses)).result? = none := by
  cases uses with
  | nil => exact absurd rfl h
  | cons use uses => rfl

end Json.Document

/-! ## Reports -/

theorem UseSet.newSince_nil (found : UseSet) : found.newSince [] = found := by
  refine eq_of_uses ?_
  simp [uses_newSince]

namespace Baseline

theorem load_document (path : String) {value : Value} {baseline : Baseline}
    (h : ofDocument? (.ofValue value) = some baseline) :
    load path (some (Report.document value).toUTF8) = ([], baseline) := by
  have hparse : parse? (Report.document value) = some baseline := by
    simp only [parse?, Document.read_document]
    exact h
  simp only [load, Text.fromUTF8?_toUTF8, Option.bind_some, hparse]

/-- The report over all owners is read back group by group. -/
theorem load_listing (path : String) (found : UseSet) :
    load path (some (Report.listing found).toUTF8) =
      ([], (Report.groups found).map (·.map MemberUse.recorded)) := by
  refine load_document path ?_
  have hsound : Document.sound Document.maxDepth
      (.array ((Report.groups found).map Document.ofUses)) = true := by
    simp only [Document.maxDepth, Document.sound,
      Document.soundItems_map fun uses _ => Document.sound_ofUses 124 uses]
    rfl
  have hgroups : (Document.asList (Document.asList MemberUse.ofDocument)
      (.array ((Report.groups found).map Document.ofUses))).result? =
        some ((Report.groups found).map (·.map MemberUse.recorded)) :=
    Document.result?_eachItem_map fun uses _ => Document.result?_asList_ofUses uses
  rw [Document.ofValue_groups, ofDocument?, if_pos hsound, hgroups]

/-- The report of one owner is read back as one group. -/
theorem load_ownerListing (path : String) {bucket : List MemberUse} (h : bucket ≠ []) :
    load path (some (Report.ownerListing bucket).toUTF8) =
      ([], [(memberGroups bucket).flatten.map MemberUse.recorded]) := by
  refine load_document path ?_
  have hne : (memberGroups bucket).flatten ≠ [] := fun hnil =>
    h (List.nil_perm.mp (hnil ▸ perm_memberGroups bucket))
  have hsound : Document.sound Document.maxDepth (.ofUses (memberGroups bucket).flatten) = true :=
    Document.sound_ofUses 125 _
  rw [Document.ofValue_uses, ofDocument?, if_pos hsound,
    Document.result?_asList_asList_ofUses hne, Document.result?_asList_ofUses]
  rfl

/-- A baseline, with the warnings of its reading, that accepts the uses of a list
and nothing else. -/
structure AcceptsExactly (loaded : List Warning × Baseline) (known : List MemberUse) : Prop where
  silent : loaded.1 = []
  /-- The list can be told from it, up to the kind of uses without a member. -/
  uses : loaded.2.flatten.Perm (known.map MemberUse.recorded)
  /-- What it leaves of a set. -/
  left : ∀ found : UseSet, (found.newSince loaded.2).uses =
    found.uses.filter fun use => !known.any use.same
  /-- What it leaves of the buckets of a set, of which none is empty. -/
  buckets : ∀ found : UseSet, (found.newSince loaded.2).byOwner =
    siftPieces (fun use => !known.any use.same) found.byOwner

theorem acceptsExactly_of_perm {baseline : Baseline} {known : List MemberUse}
    (h : baseline.flatten.Perm (known.map MemberUse.recorded)) :
    AcceptsExactly ([], baseline) known := by
  have hsame : (fun use : MemberUse => !baseline.flatten.any use.same) =
      fun use => !known.any use.same := by
    funext use
    rw [h.any_eq, MemberUse.any_same_recorded]
  exact
    { silent := rfl
      uses := h
      left := fun found => by rw [UseSet.uses_newSince, hsame]
      buckets := fun found => by rw [UseSet.newSince_eq_without, UseSet.byOwner_without, hsame] }

theorem acceptsExactly_listing (path : String) (found : UseSet) :
    AcceptsExactly (load path (some (Report.listing found).toUTF8)) found.uses := by
  rw [load_listing]
  refine acceptsExactly_of_perm ?_
  rw [← List.map_flatten]
  exact (perm_groups found).map _

/-- **A report taken as a baseline accepts what it lists and nothing else**: the
report over all owners accepts the uses of the set, and the report of one owner
those of the set that belong to the owner. -/
theorem load_report_acceptsExactly (path : String) (found : UseSet) :
    AcceptsExactly (load path (some (Report.listing found).toUTF8)) found.uses ∧
    ∀ owner bucket, (owner, bucket) ∈ found.byOwner →
      AcceptsExactly (load path (some (Report.ownerListing bucket).toUTF8))
        (found.uses.filter (·.ownerClass = owner)) := by
  refine ⟨acceptsExactly_listing path found, ?_⟩
  intro owner bucket hmem
  obtain ⟨hne, hbucket⟩ := UseSet.mem_byOwner hmem
  rw [load_ownerListing path hne, ← hbucket]
  refine acceptsExactly_of_perm ?_
  rw [List.flatten_singleton]
  exact (perm_memberGroups bucket).map _

/-- A call and a field without a name, of two owners. -/
def callAndField : UseSet :=
  .ofList [⟨"app.Store", "open()", .method, "app.Main", "void main()", 7⟩,
    ⟨"app.Cache", "", .field, "app.Main", "void main()", -1⟩]

theorem load_report_callAndField :
    callAndField.byOwner.map (·.1) = ["app.Cache", "app.Store"] ∧
    AcceptsExactly (load "old.json" (some (Report.ownerListing
        [⟨"app.Cache", "", .field, "app.Main", "void main()", -1⟩]).toUTF8))
      (callAndField.uses.filter (·.ownerClass = "app.Cache")) :=
  ⟨by decide +kernel, (load_report_acceptsExactly "old.json" callAndField).2 "app.Cache" _
    (by decide +kernel)⟩

end Baseline

end MemberAudit
