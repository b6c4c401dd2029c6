/-
Reports as HTML pages: a heading with the project and the number of uses, then
for each owner a table of the fields used and the methods called. Texts are
escaped, so that none of them makes a tag.
-/
import MemberAudit.UseSet
import MemberAudit.Text.Numeral

namespace MemberAudit.Report

/-- A character as it stands in the text of a page. -/
def escapeChar (c : Char) : List Char :=
  if c = '&' then ['&', 'a', 'm', 'p', ';']
  else if c = '<' then ['&', 'l', 't', ';']
  else if c = '>' then ['&', 'g', 't', ';']
  else [c]

def escape (text : String) : String :=
  String.ofList (text.toList.flatMap escapeChar)

/-- An element of the page on one line, with what it holds as markup. -/
def element (tag content : String) : String :=
  "<" ++ tag ++ ">" ++ content ++ "</" ++ tag ++ ">"

def pageHeading (project : String) (total : Nat) : String :=
  element "h1" ("Project " ++ escape project ++ " method collector results\t" ++ Text.decimal total)
    ++ "\n"

/-- A row of cells. -/
def row (tag : String) (cells : List String) : String :=
  element "tr" (String.join (cells.map (element tag))) ++ "\n"

/-- The title of the column that shows the member. -/
def memberTitle : MemberSort → String
  | .field => "Owner field"
  | .method => "Owner method"

def useRow (use : MemberUse) : String :=
  row "td" ([use.ownerClass, use.ownerMember, use.callerClass, use.callerMember].map escape
    ++ [Text.decimal use.callerLine.toInt])

/-- The uses of one kind that name a member. -/
def shown (kind : MemberSort) (bucket : List MemberUse) : List MemberUse :=
  bucket.filter fun use => use.kind = kind && !use.ownerMember.isEmpty

/-- The rows of one kind under their titles, or nothing if there are none. -/
def rows (kind : MemberSort) (bucket : List MemberUse) : String :=
  match shown kind bucket with
  | [] => ""
  | uses =>
    row "th" ["Owner class", memberTitle kind, "Caller class", "Caller method", "Caller line"]
      ++ String.join (uses.map useRow)

def ownerPart (owner : String) (bucket : List MemberUse) : String :=
  element "h2" (escape owner ++ "\t" ++ Text.decimal bucket.length) ++ "\n"
    ++ "<table>\n" ++ rows .field bucket ++ rows .method bucket ++ "</table>\n"

def pageTitle : String := "Method Collector Results"

def styleSheet : String :=
  "div\x7bmax-width:100%;width:50%;margin:0 auto\x7d\n"
  ++ "table\x7bwidth:100%;color:#333333;border-width:1px;border-color:#666666;"
  ++ "border-collapse:collapse;\x7d\n"
  ++ "table th\x7bborder-width:1px;padding:10px;border-style:solid;border-color:#666666;"
  ++ "background-color:#dedede;\x7d\n"
  ++ "table td\x7bborder-width:1px;padding:10px;border-style:solid;border-color:#666666;"
  ++ "background-color:#ffffff;\x7d\n"

/-- The page around its body. -/
def frame (body : String) : String :=
  "<!DOCTYPE html>\n<html xmlns=\"http://www.w3.org/1999/xhtml\">\n<head>\n"
  ++ "<meta http-equiv=\"content-type\" content=\"text/html; charset=utf-8\"/>\n"
  ++ element "title" pageTitle ++ "\n<style type=\"text/css\">\n" ++ styleSheet ++ "</style>\n</head>\n"
  ++ "<body>\n<div>\n" ++ body ++ "</div>\n</body>\n</html>\n"

/-- The page over all owners. -/
def page (project : String) (found : UseSet) : String :=
  frame (pageHeading project found.size
    ++ String.join (found.byOwner.map fun (owner, bucket) => ownerPart owner bucket))

/-- The page of one owner, under a heading that counts the uses of all. -/
def ownerPage (project : String) (total : Nat) (owner : String) (bucket : List MemberUse) : String :=
  frame (pageHeading project total ++ ownerPart owner bucket)

end MemberAudit.Report
