/-
Rules name classes whose members should not be used, and what to say when they
are. A policy has one list of rules for method calls and one for field accesses,
and says how reports are split over files.

A rule's owner is compared as the beginning of a class name, so that `com.app`
names a package and all its classes. Names are compared with dots between their
parts (`Policy.dotForm`), and the first rule that applies decides (`answer?`).
-/
import MemberAudit.Signature
import MemberAudit.Text.Affix

namespace MemberAudit

/-- What of an owner a rule is about. -/
inductive Scope where
  /-- The named member of the owner, or each member if none is named. -/
  | member
  /-- Each member, whether or not one is named. -/
  | package
  deriving DecidableEq, Repr, Inhabited

/-- How reports are split. -/
inductive Grain where
  /-- One report over all owners. -/
  | single
  /-- A report for each owner. -/
  | perOwner
  deriving DecidableEq, Repr, Inhabited

/-- Callers to which a rule does not apply. -/
structure Exemption where
  caller : String := ""
  member : String := ""
  deriving DecidableEq, Repr, Inhabited

/-- What is not to be used, by whom it may be used after all, and what to say. -/
structure Rule where
  owner : String := ""
  member : String := ""
  scope : Scope := .member
  message : String := ""
  exempt : List Exemption := []
  deriving DecidableEq, Repr, Inhabited

structure Policy where
  methods : List Rule := []
  fields : List Rule := []
  grain : Grain := .single
  deriving DecidableEq, Repr, Inhabited

/-- Which list of rules a member is looked up in. -/
inductive MemberSort where
  | method
  | field
  deriving DecidableEq, Repr, Inhabited

/-- The use of a member by a caller, as rules see it. -/
structure Query where
  kind : MemberSort
  owner : String
  member : String
  caller : String
  callerMember : String
  deriving DecidableEq, Repr

/-- Whether a member name is the one asked for. An empty name asks for any. -/
def asksFor (wanted member : String) : Bool :=
  wanted.isEmpty || wanted = member

namespace Exemption

def dotForm (e : Exemption) : Exemption :=
  { e with caller := withDots e.caller }

def appliesTo (e : Exemption) (q : Query) : Bool :=
  Text.beginsWith e.caller q.caller && asksFor e.member q.callerMember

end Exemption

namespace Rule

def dotForm (r : Rule) : Rule :=
  { r with owner := withDots r.owner, exempt := r.exempt.map Exemption.dotForm }

/-- Whether the rule is about the member used. -/
def covers (r : Rule) (q : Query) : Bool :=
  Text.beginsWith r.owner q.owner &&
    match r.scope with
    | .member => asksFor r.member q.member
    | .package => true

def appliesTo (r : Rule) (q : Query) : Bool :=
  r.covers q && !r.exempt.any (·.appliesTo q)

end Rule

namespace Policy

/-- The policy with dots in all class names. -/
def dotForm (rules : Policy) : Policy :=
  { rules with methods := rules.methods.map Rule.dotForm, fields := rules.fields.map Rule.dotForm }

def rulesFor (rules : Policy) : MemberSort → List Rule
  | .method => rules.methods
  | .field => rules.fields

/-- The message of the first rule that applies, which may be empty. -/
def answer? (rules : Policy) (q : Query) : Option String :=
  ((rules.rulesFor q.kind).find? (·.appliesTo q)).map (·.message)

/-- Whether there is no rule at all. -/
def isEmpty (rules : Policy) : Bool :=
  rules.methods.isEmpty && rules.fields.isEmpty

end Policy
end MemberAudit
