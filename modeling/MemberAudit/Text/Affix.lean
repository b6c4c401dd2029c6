/-
How texts begin and end.
-/
namespace MemberAudit.Text

/-- Whether a text begins with the given beginning. -/
def beginsWith (beginning text : String) : Bool :=
  beginning.toList.isPrefixOf text.toList

theorem beginsWith_iff {beginning text : String} :
    beginsWith beginning text = true ↔ beginning.toList <+: text.toList :=
  List.isPrefixOf_iff_prefix

/-- Whether a text ends with the given ending. -/
def endsWith (ending text : String) : Bool :=
  ending.toList.isSuffixOf text.toList

theorem endsWith_iff {ending text : String} :
    endsWith ending text = true ↔ ending.toList <:+ text.toList :=
  List.isSuffixOf_iff_suffix

end MemberAudit.Text
