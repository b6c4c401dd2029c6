/-
The warnings a run may give. A warning never stops the run; each says what was
left out or taken instead.
-/
namespace MemberAudit

inductive Warning where
  /-- A rule asks for a match mode that does not exist. -/
  | unknownScope (value : String)
  /-- A policy asks for an output type that does not exist. -/
  | unknownGrain (value : String)
  | ruleSetUnavailable (path : String)
  | noRuleSet (input : String)
  | reportDirectoryNotPrepared (path : String)
  | classFileSkipped (path : String)
  | jarSkipped (path : String)
  | jarEntrySkipped (jar entry : String)
  | baselineIgnored (path : String)
  /-- A report format could not be written, or not all of its files. -/
  | reportNotWritten (format : String)
  deriving DecidableEq, Repr

namespace Warning

def message : Warning → String
  | unknownScope _ => "unknown match mode, using \"class\""
  | unknownGrain _ => "unknown output type, using \"single\""
  | ruleSetUnavailable _ => "rule set unavailable, nothing will match"
  | noRuleSet _ => "no rule set found, reports will not be written"
  | reportDirectoryNotPrepared _ => "failed to prepare report directory"
  | classFileSkipped _ => "skipping unparseable class file"
  | jarSkipped _ => "skipping unreadable jar"
  | jarEntrySkipped _ _ => "skipping unparseable jar entry"
  | baselineIgnored _ => "ignoring unreadable baseline"
  | reportNotWritten _ => "failed to write report"

end Warning
end MemberAudit
