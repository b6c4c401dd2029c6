import MemberAudit.Main
import MemberAudit.Proofs.ClassFile.CodeSplit
import MemberAudit.Proofs.ClassFile.Assembled
import MemberAudit.Proofs.Json.RoundTrip
import MemberAudit.Proofs.Baseline.Acceptance
import MemberAudit.Proofs.Report.Markup
import MemberAudit.Proofs.Violation.Agreement
import MemberAudit.Proofs.FileTree.Nodes
import MemberAudit.Proofs.FileTree.Walks
import MemberAudit.Proofs.FileTree.Parents
import MemberAudit.Proofs.FileTree.Directories
import MemberAudit.Proofs.Inventory.ClassFiles
import MemberAudit.Proofs.FileTree.SameBut
import MemberAudit.Proofs.Report.OwnFiles
import MemberAudit.Proofs.Audit.Rerun
import MemberAudit.Proofs.Violation.Identity
import MemberAudit.Proofs.Audit.Analysed
import MemberAudit.Proofs.UseSet.Requests
import MemberAudit.Proofs.Violation.Interleaving
import MemberAudit.Proofs.Inventory.Bookkeeping
import MemberAudit.Proofs.Audit.Logged
import MemberAudit.Proofs.Audit.Confined
import MemberAudit.Proofs.Report.Writes
import MemberAudit.Proofs.Audit.Failures
import MemberAudit.Proofs.Report.PerOwner
import MemberAudit.Proofs.Report.Repeat
import MemberAudit.Proofs.Report.Cleared
import MemberAudit.Proofs.Report.PageContent
import MemberAudit.Proofs.Arguments.Values
import MemberAudit.Proofs.Audit.Repeat
import MemberAudit.Proofs.Baseline.Difference
import MemberAudit.Proofs.Policy.Exemptions
import MemberAudit.Proofs.Policy.Renderings
import MemberAudit.Proofs.Violation.Named
import MemberAudit.Proofs.Audit.NearestRules
import MemberAudit.Proofs.Inventory.Outcomes
import MemberAudit.Proofs.Inventory.Tally
import MemberAudit.Proofs.Inventory.Damage
import MemberAudit.Proofs.Inventory.Junk
import MemberAudit.Proofs.Inventory.ListingOrder
import MemberAudit.Proofs.Inventory.Packed
import MemberAudit.Proofs.Json.CutShort
import MemberAudit.Proofs.Baseline.Truncated
import MemberAudit.Proofs.ClassFile.MachineWalk
import MemberAudit.Proofs.Signature.LegalNames
import MemberAudit.Proofs.Signature.ParameterWalk
import MemberAudit.Proofs.Report.Groups
import MemberAudit.Proofs.ClassFile.LineTables
