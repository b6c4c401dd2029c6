/-
A member of one class used by a member of another. The texts are the readable
ones of reports.

Two uses are the same if they agree in all but the kind of the member;
`order` puts uses in the order of reports and is `.eq` exactly there
(`order_eq_iff`).
-/
import MemberAudit.Policy

namespace MemberAudit

structure MemberUse where
  ownerClass : String
  /-- The signature of the member used. -/
  ownerMember : String
  kind : MemberSort
  callerClass : String
  callerMember : String
  /-- The first line of the caller, or -1 if it is not known. -/
  callerLine : Int32
  deriving DecidableEq, Repr

namespace MemberUse

/-- By owner, member, caller class, caller and line; texts by code points. -/
def order : MemberUse → MemberUse → Ordering :=
  compareLex (compareOn ownerClass) <|
  compareLex (compareOn ownerMember) <|
  compareLex (compareOn callerClass) <|
  compareLex (compareOn callerMember) (compareOn callerLine)

instance : Std.TransCmp order := inferInstanceAs (Std.TransCmp (compareLex _ _))

/-- Agreement in all but the kind. -/
def same (a b : MemberUse) : Bool :=
  order a b == .eq

theorem order_eq_iff {a b : MemberUse} :
    order a b = .eq ↔ a.ownerClass = b.ownerClass ∧ a.ownerMember = b.ownerMember ∧
      a.callerClass = b.callerClass ∧ a.callerMember = b.callerMember ∧
      a.callerLine = b.callerLine := by
  simp [order, compareLex, compareOn, Ordering.then_eq_eq]

theorem same_iff {a b : MemberUse} :
    a.same b = true ↔ a.ownerClass = b.ownerClass ∧ a.ownerMember = b.ownerMember ∧
      a.callerClass = b.callerClass ∧ a.callerMember = b.callerMember ∧
      a.callerLine = b.callerLine := by
  simp [same, order_eq_iff]

theorem order_self (a : MemberUse) : order a a = .eq :=
  order_eq_iff.mpr ⟨rfl, rfl, rfl, rfl, rfl⟩

theorem same_self (a : MemberUse) : a.same a = true := by
  simp [same, order_self]

end MemberUse
end MemberAudit
