/-
Which rule decides. Of the rules for a kind of member the first one that concerns
a use decides (`Decides`), whatever it says, and there is one at most
(`Decides.unique`); what it says is the answer (`answer?_eq_some`).
-/
import MemberAudit.Policy

namespace MemberAudit

theorem asksFor_iff {wanted member : String} :
    asksFor wanted member = true ↔ wanted = "" ∨ wanted = member := by
  simp [asksFor]

/-- An exemption that is for the caller of a use. -/
structure Exemption.Frees (e : Exemption) (q : Query) : Prop where
  caller : e.caller.toList <+: q.caller.toList
  member : e.member = "" ∨ e.member = q.callerMember

theorem Exemption.appliesTo_iff {e : Exemption} {q : Query} : e.appliesTo q = true ↔ e.Frees q := by
  rw [Exemption.appliesTo, Bool.and_eq_true, Text.beginsWith_iff, asksFor_iff]
  exact ⟨fun h => ⟨h.1, h.2⟩, fun h => ⟨h.caller, h.member⟩⟩

/-- A rule that is about a use: its owner begins the owner's name, it asks for the
member unless it is about a package, and none of its exemptions is for the caller. -/
structure Rule.Concerns (r : Rule) (q : Query) : Prop where
  owner : r.owner.toList <+: q.owner.toList
  member : r.scope = .member → r.member = "" ∨ r.member = q.member
  notExempt : ∀ e ∈ r.exempt, ¬e.Frees q

theorem Rule.covers_iff {r : Rule} {q : Query} :
    r.covers q = true ↔
      r.owner.toList <+: q.owner.toList ∧ (r.scope = .member → r.member = "" ∨ r.member = q.member) := by
  rw [Rule.covers, Bool.and_eq_true, Text.beginsWith_iff]
  cases r.scope <;> simp [asksFor_iff]

theorem Rule.appliesTo_iff {r : Rule} {q : Query} : r.appliesTo q = true ↔ r.Concerns q := by
  have hexempt : (!r.exempt.any (·.appliesTo q)) = true ↔ ∀ e ∈ r.exempt, ¬e.Frees q := by
    simp [Exemption.appliesTo_iff, List.any_eq_false]
  rw [Rule.appliesTo, Bool.and_eq_true, Rule.covers_iff, hexempt]
  exact ⟨fun h => ⟨h.1.1, h.1.2, h.2⟩, fun h => ⟨⟨h.owner, h.member⟩, h.notExempt⟩⟩

namespace Policy

variable {rules : Policy} {q : Query} {rule : Rule}

/-- The first of the rules for the kind of member used that concerns the use. -/
structure Decides (rules : Policy) (q : Query) (rule : Rule) : Prop where
  first : ∃ earlier later, rules.rulesFor q.kind = earlier ++ rule :: later ∧
    ∀ r ∈ earlier, ¬r.Concerns q
  concerns : rule.Concerns q

theorem find?_eq_some_iff :
    (rules.rulesFor q.kind).find? (·.appliesTo q) = some rule ↔ rules.Decides q rule := by
  rw [List.find?_eq_some_iff_append, Rule.appliesTo_iff]
  constructor
  · intro h
    obtain ⟨hconcerns, earlier, later, hsplit, hearlier⟩ := h
    refine ⟨⟨earlier, later, hsplit, ?_⟩, hconcerns⟩
    intro r hr hr'
    have hnot := hearlier r hr
    rw [Rule.appliesTo_iff.mpr hr'] at hnot
    cases hnot
  · intro h
    obtain ⟨earlier, later, hsplit, hearlier⟩ := h.first
    refine ⟨h.concerns, earlier, later, hsplit, ?_⟩
    intro r hr
    rw [Bool.not_eq_true', Bool.eq_false_iff]
    exact fun hr' => hearlier r hr (Rule.appliesTo_iff.mp hr')

theorem Decides.unique {other : Rule} (h : rules.Decides q rule) (h' : rules.Decides q other) :
    rule = other :=
  Option.some.inj ((find?_eq_some_iff.mpr h).symm.trans (find?_eq_some_iff.mpr h'))

theorem answer?_eq_some {message : String} :
    rules.answer? q = some message ↔ ∃ rule, rules.Decides q rule ∧ rule.message = message := by
  simp only [answer?, Option.map_eq_some_iff, find?_eq_some_iff]

theorem answer?_eq_none : rules.answer? q = none ↔ ∀ rule, ¬rules.Decides q rule := by
  rw [answer?, Option.map_eq_none_iff, Option.eq_none_iff_forall_ne_some]
  simp only [ne_eq, find?_eq_some_iff]

end Policy
end MemberAudit
