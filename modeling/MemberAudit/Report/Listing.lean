/-
Reports as JSON. The report over all owners lists a group of uses for each
member; the report of one owner lists its uses, member by member. Both are
baselines that accept what they list.
-/
import MemberAudit.MemberUse.Record
import MemberAudit.UseSet

namespace MemberAudit.Report

open Json

def groups (found : UseSet) : List (List MemberUse) :=
  found.byOwner.flatMap fun (_, bucket) => memberGroups bucket

/-- A JSON document on its own, ended by a new line. -/
def document (value : Value) : String :=
  value.print ++ "\n"

/-- The report over all owners. -/
def listing (found : UseSet) : String :=
  document (.array ((groups found).map fun group => .array (group.map MemberUse.toValue)))

/-- The report of one owner. -/
def ownerListing (bucket : List MemberUse) : String :=
  document (.array ((memberGroups bucket).flatten.map MemberUse.toValue))

end MemberAudit.Report
