/-
Rules as they are written. A policy may write the names of classes with slashes or
with dots; a use is asked about with dots. `ConcernsAsWritten` reads a rule so, the
first rule of the list that concerns a use answers (`FirstAt`), and how its names are
spelled does not count.

An exemption acts on the rule it is added to and nowhere else (`answer?_asWritten`):
it changes an answer only if that rule gave it and the exemption is for the caller,
and the rules after it then answer as if they were alone.
-/
import Mathlib.Data.List.Forall2
import MemberAudit.Proofs.Policy.Decides

namespace MemberAudit

/-! ## Rules as written -/

/-- An exemption that is for the caller of a use, its class written either way. -/
structure Exemption.FreesAsWritten (e : Exemption) (q : Query) : Prop where
  caller : (withDots e.caller).toList <+: q.caller.toList
  member : e.member = "" ∨ e.member = q.callerMember

/-- A rule that is about a use, its classes written either way. -/
structure Rule.ConcernsAsWritten (r : Rule) (q : Query) : Prop where
  owner : (withDots r.owner).toList <+: q.owner.toList
  member : r.scope = .member → r.member = "" ∨ r.member = q.member
  notExempt : ∀ e ∈ r.exempt, ¬e.FreesAsWritten q

/-- Exemptions that differ in how the class is written. -/
structure Exemption.Respelled (a b : Exemption) : Prop where
  caller : withDots a.caller = withDots b.caller
  member : a.member = b.member

/-- Rules that differ in how classes are written. -/
structure Rule.Respelled (a b : Rule) : Prop where
  owner : withDots a.owner = withDots b.owner
  member : a.member = b.member
  scope : a.scope = b.scope
  message : a.message = b.message
  exempt : List.Forall₂ Exemption.Respelled a.exempt b.exempt

variable {q : Query}

theorem Exemption.frees_dotForm {e : Exemption} : e.dotForm.Frees q ↔ e.FreesAsWritten q :=
  ⟨fun h => ⟨h.caller, h.member⟩, fun h => ⟨h.caller, h.member⟩⟩

theorem Rule.concerns_dotForm {r : Rule} : r.dotForm.Concerns q ↔ r.ConcernsAsWritten q := by
  have hexempt : (∀ e ∈ r.dotForm.exempt, ¬e.Frees q) ↔ ∀ e ∈ r.exempt, ¬e.FreesAsWritten q := by
    simp only [Rule.dotForm, List.forall_mem_map, Exemption.frees_dotForm]
  constructor
  · intro h
    exact ⟨h.owner, h.member, hexempt.mp h.notExempt⟩
  · intro h
    exact ⟨h.owner, h.member, hexempt.mpr h.notExempt⟩

theorem Rule.appliesTo_dotForm {r : Rule} : r.dotForm.appliesTo q = true ↔ r.ConcernsAsWritten q :=
  Rule.appliesTo_iff.trans Rule.concerns_dotForm

theorem Exemption.Respelled.dotForm_eq {a b : Exemption} (h : a.Respelled b) : a.dotForm = b.dotForm := by
  rw [Exemption.dotForm, Exemption.dotForm, h.caller, h.member]

theorem map_congr_of_forall₂ {α β : Type} {related : α → α → Prop} {f : α → β} {l l' : List α}
    (h : List.Forall₂ related l l') (hf : ∀ a b, related a b → f a = f b) : l.map f = l'.map f := by
  rw [← List.forall₂_eq_eq_eq, List.forall₂_map_left_iff, List.forall₂_map_right_iff]
  exact h.imp hf

theorem Rule.Respelled.dotForm_eq {a b : Rule} (h : a.Respelled b) : a.dotForm = b.dotForm := by
  have hexempt := map_congr_of_forall₂ h.exempt fun _ _ he => he.dotForm_eq
  rw [Rule.dotForm, Rule.dotForm, h.owner, h.member, h.scope, h.message, hexempt]

/-! ## The rule that answers -/

/-- The rule at an index is the first of a list that concerns a use. -/
structure FirstAt (rules : List Rule) (q : Query) (i : Nat) (rule : Rule) : Prop where
  first : ∃ earlier later, rules = earlier ++ rule :: later ∧ earlier.length = i ∧
    ∀ r ∈ earlier, ¬r.ConcernsAsWritten q
  concerns : rule.ConcernsAsWritten q

namespace Policy

variable {rules more : Policy} {kind : MemberSort} {earlier later : List Rule} {rule : Rule}

theorem rulesFor_dotForm (rules : Policy) (kind : MemberSort) :
    rules.dotForm.rulesFor kind = (rules.rulesFor kind).map Rule.dotForm := by
  cases kind <;> rfl

/-- The rules are asked as they are written; the message of the first one answers. -/
theorem answer?_dotForm (rules : Policy) (q : Query) :
    rules.dotForm.answer? q =
      ((rules.rulesFor q.kind).find? (·.dotForm.appliesTo q)).map (·.message) := by
  rw [answer?, rulesFor_dotForm, List.find?_map, Option.map_map]
  rfl

theorem find?_eq_some_iff_firstAt {list : List Rule} :
    list.find? (·.dotForm.appliesTo q) = some rule ↔ ∃ i, FirstAt list q i rule := by
  simp only [List.find?_eq_some_iff_append, Rule.appliesTo_dotForm, Bool.not_eq_true', Bool.eq_false_iff,
    ne_eq]
  constructor
  · intro h
    obtain ⟨hconcerns, earlier, later, hsplit, hearlier⟩ := h
    exact ⟨earlier.length, ⟨earlier, later, hsplit, rfl, hearlier⟩, hconcerns⟩
  · intro h
    obtain ⟨i, ⟨earlier, later, hsplit, -, hearlier⟩, hconcerns⟩ := h
    exact ⟨hconcerns, earlier, later, hsplit, hearlier⟩

theorem find?_eq_none_iff_concerns {list : List Rule} :
    list.find? (·.dotForm.appliesTo q) = none ↔ ∀ r ∈ list, ¬r.ConcernsAsWritten q := by
  simp only [List.find?_eq_none, Rule.appliesTo_dotForm]

/-- Only the list for the kind of member is asked, and not for how names are written. -/
theorem answer?_of_respelled (h : List.Forall₂ Rule.Respelled (more.rulesFor q.kind) (rules.rulesFor q.kind)) :
    more.dotForm.answer? q = rules.dotForm.answer? q := by
  rw [answer?, answer?, rulesFor_dotForm, rulesFor_dotForm,
    map_congr_of_forall₂ h fun _ _ hr => hr.dotForm_eq]

/-! ## One more exemption -/

/-- The policy with the rules after an index of a list alone. -/
def after (rules : Policy) (kind : MemberSort) (i : Nat) : Policy :=
  match kind with
  | .method => { methods := rules.methods.drop (i + 1) }
  | .field => { fields := rules.fields.drop (i + 1) }

/-- A policy and one with an exemption added, in whichever place, to the rule at an
index of a list. -/
structure Exempted (rules : Policy) (kind : MemberSort) (i : Nat) (e : Exemption) (more : Policy) :
    Prop where
  rule : ∃ earlier rule later exempt, rules.rulesFor kind = earlier ++ rule :: later ∧
    earlier.length = i ∧ exempt.Perm (e :: rule.exempt) ∧
    more.rulesFor kind = earlier ++ { rule with exempt } :: later
  others : ∀ other, other ≠ kind → more.rulesFor other = rules.rulesFor other

theorem rulesFor_after (rules : Policy) (kind : MemberSort) (i : Nat) :
    (rules.after kind i).rulesFor kind = (rules.rulesFor kind).drop (i + 1) := by
  cases kind <;> rfl

/-- The rules before one answer, or it does, or those after it. -/
theorem answer?_of_split (h : rules.rulesFor q.kind = earlier ++ rule :: later) :
    rules.dotForm.answer? q =
      ((earlier.find? (·.dotForm.appliesTo q)).or
        (if rule.dotForm.appliesTo q then some rule
          else later.find? (·.dotForm.appliesTo q))).map (·.message) := by
  rw [answer?_dotForm, h, List.find?_append, List.find?_cons]
  cases rule.dotForm.appliesTo q <;> rfl

theorem concerns_exempted {e : Exemption} {exempt : List Exemption}
    (h : exempt.Perm (e :: rule.exempt)) :
    { rule with exempt }.ConcernsAsWritten q ↔ rule.ConcernsAsWritten q ∧ ¬e.FreesAsWritten q := by
  have hexempt : (∀ x ∈ exempt, ¬x.FreesAsWritten q) ↔
      ¬e.FreesAsWritten q ∧ ∀ x ∈ rule.exempt, ¬x.FreesAsWritten q := by
    simp only [h.mem_iff, List.forall_mem_cons]
  constructor
  · intro hconcerns
    obtain ⟨hfree, hothers⟩ := hexempt.mp hconcerns.notExempt
    exact ⟨⟨hconcerns.owner, hconcerns.member, hothers⟩, hfree⟩
  · intro hconcerns
    obtain ⟨hconcerns, hfree⟩ := hconcerns
    exact ⟨hconcerns.owner, hconcerns.member, hexempt.mpr ⟨hfree, hconcerns.notExempt⟩⟩

variable {i : Nat} {e : Exemption}

/-- If the rule answered and the exemption is for the caller, the rules after it answer. -/
theorem Exempted.answer?_eq_after (h : Exempted rules q.kind i e more)
    (hfirst : FirstAt (rules.rulesFor q.kind) q i rule) (hfrees : e.FreesAsWritten q) :
    more.dotForm.answer? q = (rules.after q.kind i).dotForm.answer? q := by
  obtain ⟨earlier, rule, later, exempt, hsplit, hlength, hperm, hmore⟩ := h.rule
  obtain ⟨earlier', later', hsplit', hlength', hearlier⟩ := hfirst.first
  obtain ⟨rfl, -⟩ := List.append_inj (hsplit.symm.trans hsplit') (hlength.trans hlength'.symm)
  have hnone := find?_eq_none_iff_concerns.mpr hearlier
  have hrule : { rule with exempt }.dotForm.appliesTo q = false := by
    rw [Bool.eq_false_iff, ne_eq, Rule.appliesTo_dotForm, concerns_exempted hperm]
    exact fun hconcerns => hconcerns.2 hfrees
  have hlater : (rules.after q.kind i).rulesFor q.kind = later := by
    rw [rulesFor_after, hsplit, ← hlength, List.drop_length_add_append]
    rfl
  rw [answer?_of_split hmore, hnone, hrule, answer?_dotForm, hlater]
  rfl

/-- In all other cases the answer stays. -/
theorem Exempted.answer?_eq (h : Exempted rules kind i e more)
    (hnot : ¬(kind = q.kind ∧ (∃ rule, FirstAt (rules.rulesFor kind) q i rule) ∧ e.FreesAsWritten q)) :
    more.dotForm.answer? q = rules.dotForm.answer? q := by
  by_cases hkind : kind = q.kind
  · subst hkind
    obtain ⟨earlier, rule, later, exempt, hsplit, hlength, hperm, hmore⟩ := h.rule
    rw [answer?_of_split hmore, answer?_of_split hsplit]
    cases hfind : earlier.find? (·.dotForm.appliesTo q) with
    | some r => rfl
    | none =>
      have happlies : { rule with exempt }.dotForm.appliesTo q = rule.dotForm.appliesTo q := by
        rw [Bool.eq_iff_iff, Rule.appliesTo_dotForm, Rule.appliesTo_dotForm, concerns_exempted hperm,
          and_iff_left_iff_imp]
        intro hconcerns hfrees
        exact hnot ⟨rfl, ⟨rule, ⟨earlier, later, hsplit, hlength,
          find?_eq_none_iff_concerns.mp hfind⟩, hconcerns⟩, hfrees⟩
      rw [happlies]
      cases rule.dotForm.appliesTo q <;> rfl
  · rw [answer?_dotForm, answer?_dotForm, h.others q.kind (Ne.symm hkind)]

/-- **The first rule of its list that concerns a use answers,** with names written in
either way, and the other list does not count. An exemption more changes an answer only
if it is for the caller and its rule gave the answer; then the rules after that rule
answer as they do alone. -/
theorem answer?_asWritten (rules : Policy) (q : Query) :
    (∀ message, rules.dotForm.answer? q = some message ↔
      ∃ i rule, FirstAt (rules.rulesFor q.kind) q i rule ∧ rule.message = message) ∧
    (rules.dotForm.answer? q = none ↔ ∀ rule ∈ rules.rulesFor q.kind, ¬rule.ConcernsAsWritten q) ∧
    (∀ other : Policy, other.rulesFor q.kind = rules.rulesFor q.kind →
      other.dotForm.answer? q = rules.dotForm.answer? q) ∧
    (∀ other : Policy, List.Forall₂ Rule.Respelled (other.rulesFor q.kind) (rules.rulesFor q.kind) →
      other.dotForm.answer? q = rules.dotForm.answer? q) ∧
    ∀ kind i e more, Exempted rules kind i e more →
      (more.dotForm.answer? q ≠ rules.dotForm.answer? q →
        kind = q.kind ∧ (∃ rule, FirstAt (rules.rulesFor kind) q i rule) ∧ e.FreesAsWritten q) ∧
      (kind = q.kind → (∃ rule, FirstAt (rules.rulesFor kind) q i rule) → e.FreesAsWritten q →
        more.dotForm.answer? q = (rules.after kind i).dotForm.answer? q) := by
  refine ⟨?_, ?_, ?_, fun other => answer?_of_respelled, ?_⟩
  · intro message
    simp only [answer?_dotForm, Option.map_eq_some_iff, find?_eq_some_iff_firstAt]
    exact ⟨fun ⟨rule, ⟨i, hfirst⟩, hmessage⟩ => ⟨i, rule, hfirst, hmessage⟩,
      fun ⟨i, rule, hfirst, hmessage⟩ => ⟨rule, ⟨i, hfirst⟩, hmessage⟩⟩
  · rw [answer?_dotForm, Option.map_eq_none_iff, find?_eq_none_iff_concerns]
  · intro other hsame
    rw [answer?_dotForm, answer?_dotForm, hsame]
  · intro kind i e more hmore
    refine ⟨?_, ?_⟩
    · intro hchanged
      by_contra hnot
      exact hchanged (hmore.answer?_eq hnot)
    · intro hkind hfirst hfrees
      subst hkind
      obtain ⟨rule, hfirst⟩ := hfirst
      exact hmore.answer?_eq_after hfirst hfrees

/-! A class with a rule of its own, in a package with another. -/

def storeRule : Rule := { owner := "com/app.Store", message := "not the store" }

def storePolicy : Policy :=
  { methods := [storeRule, { owner := "com.app", scope := .package, message := "not the package" }] }

def bootExemption : Exemption := { caller := "com/app/internal" }

def bootCall : Query :=
  ⟨.method, "com.app.Store", "put", "com.app.internal.Boot", "start"⟩

def bootPolicy : Policy :=
  { storePolicy with
    methods := { storeRule with exempt := [bootExemption] } :: storePolicy.methods.tail }

/-- A caller that is freed from the rule for the class is held by the one for the package. -/
theorem answer?_asWritten_store :
    Exempted storePolicy .method 0 bootExemption bootPolicy ∧
      FirstAt storePolicy.methods bootCall 0 storeRule ∧ bootExemption.FreesAsWritten bootCall ∧
      storePolicy.dotForm.answer? bootCall = some "not the store" ∧
      bootPolicy.dotForm.answer? bootCall = (storePolicy.after .method 0).dotForm.answer? bootCall ∧
      (storePolicy.after .method 0).dotForm.answer? bootCall = some "not the package" := by
  have hexempted : Exempted storePolicy .method 0 bootExemption bootPolicy :=
    ⟨⟨[], storeRule, storePolicy.methods.tail, [bootExemption], rfl, rfl, .refl _, rfl⟩,
      fun other hother => by
        cases other with
        | method => exact absurd rfl hother
        | field => rfl⟩
  have hfirst : FirstAt storePolicy.methods bootCall 0 storeRule :=
    ⟨⟨[], _, rfl, rfl, by simp⟩, by decide +kernel, fun _ => .inl rfl, by simp [storeRule]⟩
  have hfrees : bootExemption.FreesAsWritten bootCall := ⟨by decide +kernel, .inl rfl⟩
  obtain ⟨hanswer, -, -, -, hlocal⟩ := answer?_asWritten storePolicy bootCall
  refine ⟨hexempted, hfirst, hfrees, (hanswer _).mpr ⟨0, storeRule, hfirst, rfl⟩,
    (hlocal _ _ _ _ hexempted).2 rfl ⟨_, hfirst⟩ hfrees, by decide +kernel⟩

end Policy
end MemberAudit
