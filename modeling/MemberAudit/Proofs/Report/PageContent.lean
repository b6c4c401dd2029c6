/-
What pages show. A page is written from pieces that no text adds to, so its tags are told
by how many uses it shows of each owner, whatever the texts (`pageTags`), and the cells of
its tables hold the columns of these uses, with nothing lost to escaping
(`files_html_read`).
-/
import MemberAudit.Proofs.Json.RoundTrip
import MemberAudit.Proofs.Report.Pieces
import MemberAudit.Report.Directory

namespace MemberAudit.Report

/-! ## The pieces of a page -/

/-- An element that holds a text. -/
def textPieces (tag text after : String) : List Piece :=
  [piece tag text, piece ("/" ++ tag) after]

def rowPieces (tag : String) (cells : List String) : List Piece :=
  piece "tr" "" :: (cells.flatMap (textPieces tag · "") ++ [piece "/tr" "\n"])

/-- The columns of a use. -/
def columns (use : MemberUse) : List String :=
  [use.ownerClass, use.ownerMember, use.callerClass, use.callerMember,
    Text.decimal use.callerLine.toInt]

def titles (kind : MemberSort) : List String :=
  ["Owner class", memberTitle kind, "Caller class", "Caller method", "Caller line"]

/-- The rows of one kind under their titles, each with the tag of its cells. -/
def tableRows (kind : MemberSort) (bucket : List MemberUse) : List (String × List String) :=
  match shown kind bucket with
  | [] => []
  | uses => ("th", titles kind) :: uses.map fun use => ("td", (columns use).map escape)

/-- The pieces within the table of an owner. -/
def tablePieces (bucket : List MemberUse) : List Piece :=
  (tableRows .field bucket ++ tableRows .method bucket).flatMap fun r => rowPieces r.1 r.2

def ownerPieces (owner : String) (bucket : List MemberUse) : List Piece :=
  textPieces "h2" (escape owner ++ "\t" ++ Text.decimal bucket.length) "\n"
    ++ piece "table" "\n" :: (tablePieces bucket ++ [piece "/table" "\n"])

def headingPieces (project : String) (total : Nat) : List Piece :=
  textPieces "h1" ("Project " ++ escape project ++ " method collector results\t" ++ Text.decimal total) "\n"

def headPieces : List Piece :=
  [piece "!DOCTYPE html" "\n", piece "html xmlns=\"http://www.w3.org/1999/xhtml\"" "\n",
    piece "head" "\n"]
  ++ [piece "meta http-equiv=\"content-type\" content=\"text/html; charset=utf-8\"/" "\n"]
  ++ textPieces "title" pageTitle "\n"
  ++ [piece "style type=\"text/css\"" ("\n" ++ styleSheet)]
  ++ [piece "/style" "\n", piece "/head" "\n"]
  ++ [piece "body" "\n", piece "div" "\n"]

def endPieces : List Piece :=
  [piece "/div" "\n", piece "/body" "\n", piece "/html" "\n"]

/-- The pieces of a page with a part for each of some owners. -/
def pagePieces (project : String) (total : Nat) (parts : List (String × List MemberUse)) :
    List Piece :=
  headPieces ++ headingPieces project total ++ (parts.flatMap fun part => ownerPieces part.1 part.2)
    ++ endPieces

theorem markup_textPieces (tag text after : String) :
    markup (textPieces tag text after) = (element tag text ++ after).toList := by
  simp [markup, textPieces, piece, element]

theorem markup_rowPieces (tag : String) (cells : List String) :
    markup (rowPieces tag cells) = (row tag cells).toList := by
  have hcells : markup (cells.flatMap (textPieces tag · "")) =
      (String.join (cells.map (element tag))).toList := by
    rw [markup_flatMap, String.toList_join, List.flatMap_map]
    refine List.flatMap_congr fun text _ => ?_
    rw [markup_textPieces, String.append_empty]
  have hparts : markup (rowPieces tag cells) = "<tr>".toList ++
      (markup (cells.flatMap (textPieces tag · "")) ++ "</tr>\n".toList) := by
    rw [rowPieces, ← List.singleton_append, markup_append, markup_append]
    rfl
  rw [hparts, hcells, row, element]
  simp only [String.toList_append, List.append_assoc]
  rfl

theorem markup_tableRows (kind : MemberSort) (bucket : List MemberUse) :
    markup ((tableRows kind bucket).flatMap fun r => rowPieces r.1 r.2) = (rows kind bucket).toList := by
  have huse (use : MemberUse) : row "td" ((columns use).map escape) = useRow use := by
    simp [useRow, columns, escape_decimal]
  rw [markup_flatMap]
  simp only [markup_rowPieces]
  unfold tableRows rows
  cases shown kind bucket with
  | nil => rfl
  | cons use uses =>
    simp only [List.flatMap_cons, List.flatMap_map, huse, String.toList_append, String.toList_join]
    rfl

theorem markup_ownerPieces (owner : String) (bucket : List MemberUse) :
    markup (ownerPieces owner bucket) = (ownerPart owner bucket).toList := by
  have htable : markup (tablePieces bucket) =
      (rows .field bucket).toList ++ (rows .method bucket).toList := by
    rw [tablePieces, List.flatMap_append, markup_append, markup_tableRows, markup_tableRows]
  have hopen : markup [piece "table" "\n"] = "<table>\n".toList := rfl
  have hclose : markup [piece "/table" "\n"] = "</table>\n".toList := rfl
  rw [ownerPieces, ← List.singleton_append, markup_append, markup_append, markup_append,
    markup_textPieces, htable, hopen, hclose, ownerPart]
  simp only [String.toList_append, List.append_assoc]

/-- What a page has before its body. -/
def opening : String :=
  "<!DOCTYPE html>\n<html xmlns=\"http://www.w3.org/1999/xhtml\">\n<head>\n"
  ++ "<meta http-equiv=\"content-type\" content=\"text/html; charset=utf-8\"/>\n"
  ++ element "title" pageTitle ++ "\n<style type=\"text/css\">\n" ++ styleSheet
  ++ "</style>\n</head>\n" ++ "<body>\n<div>\n"

theorem frame_eq (body : String) : frame body = opening ++ body ++ "</div>\n</body>\n</html>\n" :=
  rfl

/-- A text that stands in the program is looked at character by character. -/
theorem toList_literal {text : String} {chars : List Char} (h : text = String.ofList chars) :
    text.toList = chars := by
  rw [h, String.toList_ofList]

theorem markup_headPieces : markup headPieces = opening.toList := by
  have hhtml : "<!DOCTYPE html>\n<html xmlns=\"http://www.w3.org/1999/xhtml\">\n<head>\n".toList =
      markup [piece "!DOCTYPE html" "\n", piece "html xmlns=\"http://www.w3.org/1999/xhtml\"" "\n",
        piece "head" "\n"] := toList_literal rfl
  have hmeta :
      "<meta http-equiv=\"content-type\" content=\"text/html; charset=utf-8\"/>\n".toList =
      markup [piece "meta http-equiv=\"content-type\" content=\"text/html; charset=utf-8\"/" "\n"] :=
    toList_literal rfl
  have hstyle : "\n".toList ++ markup [piece "style type=\"text/css\"" ("\n" ++ styleSheet)] =
      "\n<style type=\"text/css\">\n".toList ++ styleSheet.toList := by
    have hopen : "\n<style type=\"text/css\">\n".toList =
        "\n".toList ++ markup [piece "style type=\"text/css\"" "\n"] := toList_literal rfl
    rw [hopen]
    simp [markup, piece]
  have hclose : "</style>\n</head>\n".toList = markup [piece "/style" "\n", piece "/head" "\n"] :=
    toList_literal rfl
  have hbody : "<body>\n<div>\n".toList = markup [piece "body" "\n", piece "div" "\n"] :=
    toList_literal rfl
  unfold headPieces opening
  simp only [markup_append, markup_textPieces]
  simp only [String.toList_append, List.append_assoc, hhtml, hmeta, hclose, hbody]
  rw [← List.append_assoc "\n".toList, hstyle, List.append_assoc]

theorem markup_endPieces : markup endPieces = "</div>\n</body>\n</html>\n".toList :=
  (toList_literal rfl).symm

theorem markup_pagePieces (project : String) (total : Nat) (parts : List (String × List MemberUse)) :
    markup (pagePieces project total parts) =
      (frame (pageHeading project total ++
        String.join (parts.map fun part => ownerPart part.1 part.2))).toList := by
  have hparts : markup (parts.flatMap fun part => ownerPieces part.1 part.2) =
      (String.join (parts.map fun part => ownerPart part.1 part.2)).toList := by
    rw [markup_flatMap, String.toList_join, List.flatMap_map]
    exact List.flatMap_congr fun part _ => markup_ownerPieces part.1 part.2
  have hheading : markup (headingPieces project total) = (pageHeading project total).toList := by
    rw [headingPieces, markup_textPieces, pageHeading]
  rw [pagePieces, markup_append, markup_append, markup_append, markup_headPieces, hparts, hheading,
    markup_endPieces, frame_eq]
  simp only [String.toList_append, List.append_assoc]

/-! ## Every piece is plain -/

theorem Piece.Plain.literal {tag text : String} {tagChars chars : List Char}
    (htag : tag = String.ofList tagChars) (htext : text = String.ofList chars)
    (hends : (tagChars.contains '>' || chars.contains '<') = false) : (piece tag text).Plain := by
  rw [Bool.or_eq_false_iff] at hends
  exact ⟨not_mem_literal htag hends.1, not_mem_literal htext hends.2⟩

theorem plain_textPieces {tag text after : String} (htag : '>' ∉ tag.toList)
    (htext : '<' ∉ text.toList) (hafter : '<' ∉ after.toList) :
    ∀ p ∈ textPieces tag text after, p.Plain := by
  have hclosing : '>' ∉ ("/" ++ tag).toList := by simp [htag]
  exact List.forall_mem_cons.mpr ⟨⟨htag, htext⟩, List.forall_mem_singleton.mpr ⟨hclosing, hafter⟩⟩

theorem plain_rowPieces {tag : String} {cells : List String} (htag : '>' ∉ tag.toList)
    (hcells : ∀ text ∈ cells, '<' ∉ text.toList) : ∀ p ∈ rowPieces tag cells, p.Plain := by
  refine List.forall_mem_cons.mpr ⟨.literal rfl rfl rfl, List.forall_mem_append.mpr ⟨?_, ?_⟩⟩
  · refine List.forall_mem_flatMap.mpr fun text htext => ?_
    exact plain_textPieces htag (hcells text htext) (by simp)
  · exact List.forall_mem_singleton.mpr (.literal rfl rfl rfl)

theorem mem_tableRows {kind : MemberSort} {bucket : List MemberUse} {r : String × List String}
    (h : r ∈ tableRows kind bucket) :
    r = ("th", titles kind) ∨ ∃ use, r = ("td", (columns use).map escape) := by
  unfold tableRows at h
  split at h
  · cases h
  · rcases List.mem_cons.mp h with rfl | h
    · exact .inl rfl
    · obtain ⟨use, -, rfl⟩ := List.mem_map.mp h
      exact .inr ⟨use, rfl⟩

theorem lt_not_mem_titles (kind : MemberSort) : ∀ text ∈ titles kind, '<' ∉ text.toList := by
  cases kind <;>
    simp only [titles, memberTitle, List.forall_mem_cons, List.not_mem_nil, false_implies, implies_true,
      and_true] <;>
    exact ⟨not_mem_literal rfl rfl, not_mem_literal rfl rfl, not_mem_literal rfl rfl,
      not_mem_literal rfl rfl, not_mem_literal rfl rfl⟩

theorem plain_tablePieces (bucket : List MemberUse) : ∀ p ∈ tablePieces bucket, p.Plain := by
  refine List.forall_mem_flatMap.mpr fun r hr => ?_
  have hrow : (∃ kind, r = ("th", titles kind)) ∨ ∃ use, r = ("td", (columns use).map escape) := by
    rcases List.mem_append.mp hr with hr | hr <;>
      exact (mem_tableRows hr).imp (fun h => ⟨_, h⟩) id
  obtain ⟨kind, rfl⟩ | ⟨use, rfl⟩ := hrow
  · exact plain_rowPieces (not_mem_literal rfl rfl) (lt_not_mem_titles kind)
  · refine plain_rowPieces (not_mem_literal rfl rfl) fun text htext => ?_
    obtain ⟨column, -, rfl⟩ := List.mem_map.mp htext
    exact lt_not_mem_escape column

theorem plain_ownerPieces (owner : String) (bucket : List MemberUse) :
    ∀ p ∈ ownerPieces owner bucket, p.Plain := by
  have htitle : '<' ∉ (escape owner ++ "\t" ++ Text.decimal bucket.length).toList := by
    simp only [String.toList_append, List.mem_append, not_or]
    exact ⟨⟨lt_not_mem_escape owner, not_mem_literal rfl rfl⟩,
      not_mem_decimal (by decide) (by decide) bucket.length⟩
  refine List.forall_mem_append.mpr
    ⟨plain_textPieces (not_mem_literal rfl rfl) htitle (not_mem_literal rfl rfl),
      List.forall_mem_cons.mpr ⟨.literal rfl rfl rfl, List.forall_mem_append.mpr
        ⟨plain_tablePieces bucket, List.forall_mem_singleton.mpr (.literal rfl rfl rfl)⟩⟩⟩

theorem plain_headPieces : ∀ p ∈ headPieces, p.Plain := by
  have hstyle : (piece "style type=\"text/css\"" ("\n" ++ styleSheet)).Plain := by
    refine ⟨not_mem_literal rfl rfl, ?_⟩
    rw [piece, String.toList_append, List.mem_append, not_or]
    exact ⟨not_mem_literal rfl rfl, lt_not_mem_styleSheet⟩
  have htitle : ∀ p ∈ textPieces "title" pageTitle "\n", p.Plain :=
    plain_textPieces (not_mem_literal rfl rfl) (not_mem_literal rfl rfl) (not_mem_literal rfl rfl)
  simp only [headPieces, List.forall_mem_append, List.forall_mem_cons, List.not_mem_nil,
    false_implies, implies_true, and_true]
  exact ⟨⟨⟨⟨⟨⟨.literal rfl rfl rfl, .literal rfl rfl rfl, .literal rfl rfl rfl⟩,
    .literal rfl rfl rfl⟩, htitle⟩, hstyle⟩,
    .literal rfl rfl rfl, .literal rfl rfl rfl⟩, .literal rfl rfl rfl, .literal rfl rfl rfl⟩

theorem plain_pagePieces (project : String) (total : Nat) (parts : List (String × List MemberUse)) :
    ∀ p ∈ pagePieces project total parts, p.Plain := by
  have hheading : '<' ∉ ("Project " ++ escape project ++ " method collector results\t"
      ++ Text.decimal total).toList := by
    simp only [String.toList_append, List.mem_append, not_or]
    exact ⟨⟨⟨not_mem_literal rfl rfl, lt_not_mem_escape project⟩, not_mem_literal rfl rfl⟩,
      not_mem_decimal (by decide) (by decide) total⟩
  have hend : ∀ p ∈ endPieces, p.Plain := by
    simp only [endPieces, List.forall_mem_cons, List.not_mem_nil, false_implies, implies_true, and_true]
    exact ⟨.literal rfl rfl rfl, .literal rfl rfl rfl, .literal rfl rfl rfl⟩
  refine List.forall_mem_append.mpr ⟨List.forall_mem_append.mpr ⟨List.forall_mem_append.mpr
    ⟨plain_headPieces, ?_⟩, ?_⟩, hend⟩
  · exact plain_textPieces (not_mem_literal rfl rfl) hheading (not_mem_literal rfl rfl)
  · exact List.forall_mem_flatMap.mpr fun part _ => plain_ownerPieces part.1 part.2

/-- A page with a part for each of some owners. -/
def pageOf (project : String) (total : Nat) (parts : List (String × List MemberUse)) : String :=
  frame (pageHeading project total ++ String.join (parts.map fun part => ownerPart part.1 part.2))

theorem pieces_pageOf (project : String) (total : Nat) (parts : List (String × List MemberUse)) :
    pieces (pageOf project total parts) = pagePieces project total parts :=
  pieces_of_markup (markup_pagePieces project total parts).symm (plain_pagePieces project total parts)

/-! ## The tags of a page -/

def rowTags (cell : String) (cells : Nat) : List String :=
  "tr" :: ((List.replicate cells [cell, "/" ++ cell]).flatten ++ ["/tr"])

/-- The tags of a number of rows of data under their titles. -/
def rowsTags : Nat → List String
  | 0 => []
  | n + 1 => rowTags "th" 5 ++ (List.replicate (n + 1) (rowTags "td" 5)).flatten

/-- The tags of the part of an owner with some fields and methods. -/
def ownerTags (fields methods : Nat) : List String :=
  ["h2", "/h2", "table"] ++ rowsTags fields ++ rowsTags methods ++ ["/table"]

/-- The tags of a page, by how many fields and methods each of its owners shows. -/
def pageTags (shapes : List (Nat × Nat)) : List String :=
  ["!DOCTYPE html", "html xmlns=\"http://www.w3.org/1999/xhtml\"", "head",
    "meta http-equiv=\"content-type\" content=\"text/html; charset=utf-8\"/", "title", "/title",
    "style type=\"text/css\"", "/style", "/head", "body", "div", "h1", "/h1"]
  ++ (shapes.flatMap fun (fields, methods) => ownerTags fields methods)
  ++ ["/div", "/body", "/html"]

theorem map_name_rowPieces (tag : String) (cells : List String) :
    (rowPieces tag cells).map Piece.name = rowTags tag cells.length := by
  have hcells : (cells.flatMap (textPieces tag · "")).map Piece.name =
      (List.replicate cells.length [tag, "/" ++ tag]).flatten := by
    rw [List.map_flatMap, ← List.map_const', List.flatMap_def]
    simp [textPieces]
  simp [rowPieces, rowTags, hcells]

theorem map_name_tableRows (kind : MemberSort) (bucket : List MemberUse) :
    ((tableRows kind bucket).flatMap fun r => rowPieces r.1 r.2).map Piece.name =
      rowsTags (shown kind bucket).length := by
  rw [List.map_flatMap]
  simp only [map_name_rowPieces]
  unfold tableRows
  cases shown kind bucket with
  | nil => rfl
  | cons use uses =>
    have hdata : ((use :: uses).map fun use => ("td", (columns use).map escape)).flatMap
        (fun r => rowTags r.1 r.2.length) =
          (List.replicate (uses.length + 1) (rowTags "td" 5)).flatten := by
      rw [List.flatMap_map, List.flatMap_def, ← List.length_cons (a := use), ← List.map_const']
      simp [columns]
    rw [List.flatMap_cons, hdata]
    simp [titles, rowsTags]

theorem map_name_ownerPieces (owner : String) (bucket : List MemberUse) :
    (ownerPieces owner bucket).map Piece.name =
      ownerTags (shown .field bucket).length (shown .method bucket).length := by
  simp [ownerPieces, textPieces, tablePieces, ownerTags, map_name_tableRows]

/-- **The tags of a page are told by its shape.** -/
theorem tags_pageOf (project : String) (total : Nat) (parts : List (String × List MemberUse)) :
    tags (pageOf project total parts) = pageTags (parts.map fun part =>
      ((shown .field part.2).length, (shown .method part.2).length)) := by
  rw [tags, pieces_pageOf, pagePieces, pageTags]
  simp [List.map_flatMap, List.flatMap_map, map_name_ownerPieces, headPieces, headingPieces, endPieces,
    textPieces]

/-! ## The cells of a page -/

/-- The tags of cells. -/
def IsCell (tag : String) : Prop :=
  tag = "th" ∨ tag = "td"

theorem name_of_mem_cells {tag : String} {cells : List String} {p : Piece}
    (h : p ∈ cells.flatMap (textPieces tag · "")) : p.name = tag ∨ p.name = "/" ++ tag := by
  obtain ⟨text, -, hp⟩ := List.mem_flatMap.mp h
  simp only [textPieces, List.mem_cons, List.not_mem_nil, or_false] at hp
  rcases hp with rfl | rfl
  · exact .inl (name_piece ..)
  · exact .inr (name_piece ..)

/-- The rows of a table are found, each with its cells. -/
theorem between_rows {rs : List (String × List String)} (h : ∀ r ∈ rs, IsCell r.1) :
    between "tr" "/tr" (rs.flatMap fun r => rowPieces r.1 r.2) =
      rs.map fun r => r.2.flatMap (textPieces r.1 · "") := by
  induction rs with
  | nil => rfl
  | cons r rs ih =>
    obtain ⟨hr, hrs⟩ := List.forall_mem_cons.mp h
    have hname : ∀ p ∈ r.2.flatMap (textPieces r.1 · ""), p.name ≠ "tr" ∧ p.name ≠ "/tr" := by
      intro p hp
      rcases hr with hr | hr <;> rcases name_of_mem_cells hp with hp | hp <;> rw [hp, hr] <;> decide
    rw [List.flatMap_cons, rowPieces, List.cons_append, List.append_assoc, List.singleton_append,
      between_element (by decide) (fun p hp => (hname p hp).1) (fun p hp => (hname p hp).2), ih hrs,
      List.map_cons]

theorem isCell_tableRows {bucket : List MemberUse} :
    ∀ r ∈ tableRows .field bucket ++ tableRows .method bucket, IsCell r.1 := by
  intro r hr
  rcases List.mem_append.mp hr with hr | hr <;>
    rcases mem_tableRows hr with rfl | ⟨use, rfl⟩
  exacts [.inl rfl, .inr rfl, .inl rfl, .inr rfl]

/-- What the cells of a row hold, if it is a row of data. -/
theorem cells_row (r : String × List String) (h : IsCell r.1) :
    (r.2.flatMap (textPieces r.1 · "")).filterMap cell? =
      if r.1 = "td" then r.2.map fun text => String.ofList (unescape text.toList) else [] := by
  have hcell (text : String) : (textPieces r.1 text "").filterMap cell? =
      if r.1 = "td" then [String.ofList (unescape text.toList)] else [] := by
    rcases h with h | h <;> rw [h] <;> simp [textPieces, piece, cell?, Piece.name]
  rw [List.filterMap_flatMap]
  simp only [hcell]
  split
  · exact List.map_eq_flatMap.symm
  · simp

theorem cells_tableRows (kind : MemberSort) (bucket : List MemberUse) :
    ((tableRows kind bucket).map fun r =>
      (r.2.flatMap (textPieces r.1 · "")).filterMap cell?).filter (· ≠ []) =
        (shown kind bucket).map columns := by
  have hunescape (use : MemberUse) :
      ((columns use).map escape).map (fun text => String.ofList (unescape text.toList)) = columns use := by
    simp [columns, unescape_escape]
  unfold tableRows
  cases shown kind bucket with
  | nil => rfl
  | cons use uses =>
    rw [List.map_cons, cells_row _ (.inl rfl), List.map_map]
    have hdata : ((use :: uses).map ((fun r => (r.2.flatMap (textPieces r.1 · "")).filterMap cell?) ∘
        fun use => ("td", (columns use).map escape))) = (use :: uses).map columns :=
      List.map_congr_left fun use _ => (cells_row ("td", _) (.inr rfl)).trans (hunescape use)
    rw [hdata]
    simp [columns]

/-- The rows of data of the table of an owner. -/
theorem rows_tablePieces (bucket : List MemberUse) :
    ((between "tr" "/tr" (tablePieces bucket)).map (·.filterMap cell?)).filter (· ≠ []) =
      (shown .field bucket ++ shown .method bucket).map columns := by
  rw [tablePieces, between_rows isCell_tableRows, List.map_map, List.map_append, List.filter_append,
    List.map_append, ← cells_tableRows, ← cells_tableRows]
  rfl

theorem name_ne_of_mem_tablePieces {bucket : List MemberUse} {p : Piece} (h : p ∈ tablePieces bucket) :
    p.name ≠ "table" ∧ p.name ≠ "/table" := by
  obtain ⟨r, hr, hp⟩ := List.mem_flatMap.mp h
  have hcell := isCell_tableRows r hr
  rw [rowPieces, List.mem_cons, List.mem_append, List.mem_singleton] at hp
  rcases hp with rfl | hp | rfl
  · rw [name_piece]
    decide
  · rcases hcell with hcell | hcell <;> rcases name_of_mem_cells hp with hp | hp <;>
      rw [hp, hcell] <;> decide
  · rw [name_piece]
    decide

/-- The tables of a page are those of its parts. -/
theorem between_pagePieces (project : String) (total : Nat) (parts : List (String × List MemberUse)) :
    between "table" "/table" (pagePieces project total parts) =
      parts.map fun part => tablePieces part.2 := by
  have hparts (rest : List Piece) :
      between "table" "/table" ((parts.flatMap fun part => ownerPieces part.1 part.2) ++ rest) =
        (parts.map fun part => tablePieces part.2) ++ between "table" "/table" rest := by
    induction parts with
    | nil => rfl
    | cons part parts ih =>
      rw [List.flatMap_cons, ownerPieces, List.append_assoc, List.append_assoc, between_append,
        List.cons_append, List.append_assoc, List.singleton_append, between_element (by decide), ih,
        List.map_cons, List.cons_append]
      · exact fun p hp => (name_ne_of_mem_tablePieces hp).1
      · exact fun p hp => (name_ne_of_mem_tablePieces hp).2
      · simp only [textPieces, List.forall_mem_cons, name_piece]
        decide
  have hhead : ∀ p ∈ headPieces ++ headingPieces project total, p.name ≠ "table" := by
    simp only [headPieces, headingPieces, textPieces, List.forall_mem_append, List.forall_mem_cons,
      name_piece]
    decide
  have hend : between "table" "/table" endPieces = [] := by
    simp [endPieces, between]
  rw [pagePieces, List.append_assoc, between_append hhead, hparts, hend, List.append_nil]

/-- **The tables of a page hold the columns of what it shows.** -/
theorem tables_pageOf (project : String) (total : Nat) (parts : List (String × List MemberUse)) :
    tables (pageOf project total parts) =
      parts.map fun part => (shown .field part.2 ++ shown .method part.2).map columns := by
  rw [tables, pieces_pageOf, between_pagePieces, List.map_map]
  exact List.map_congr_left fun part _ => rows_tablePieces part.2

/-! ## The pages of a report -/

/-- The parts that each page of a report has. -/
def pageParts (grain : Grain) (found : UseSet) : List (List (String × List MemberUse)) :=
  match grain with
  | .single => [found.byOwner]
  | .perOwner => found.byOwner.map fun part => [part]

/-- The uses of one kind that name a member. -/
def named (kind : MemberSort) (bucket : List MemberUse) : List MemberUse :=
  bucket.filter fun use => use.kind = kind ∧ use.ownerMember ≠ ""

theorem shown_eq_named (kind : MemberSort) (bucket : List MemberUse) :
    shown kind bucket = named kind bucket := by
  refine List.filter_congr fun use _ => ?_
  rw [Bool.eq_iff_iff]
  simp

theorem map_snd_files_html (grain : Grain) (project : String) (found : UseSet) :
    (files .html grain project found).map (·.2) =
      (pageParts grain found).map (pageOf project found.size) := by
  cases grain with
  | single => rfl
  | perOwner =>
    have hpage (part : String × List MemberUse) :
        ownerPage project found.size part.1 part.2 = pageOf project found.size [part] := by
      simp [ownerPage, pageOf, String.join]
    simp [files, pageParts, hpage]

theorem decimal_injective : Function.Injective Text.decimal := by
  intro m n h
  have hends : Json.Token.EndsNumber [] := nofun
  have hchars : Text.decimalChars m = Text.decimalChars n := by
    have := congrArg String.toList h
    simpa only [Text.decimal, String.toList_ofList] using this
  have hnumber := Json.Token.number?_writesNumber (Json.Token.writesNumber_decimalChars m) hends
  rw [hchars, Json.Token.number?_writesNumber (Json.Token.writesNumber_decimalChars n) hends] at hnumber
  have hint : Json.Number.ofInt n = Json.Number.ofInt m := congrArg Prod.fst (Option.some.inj hnumber)
  have := Json.Number.toInt?_ofInt m
  rw [← hint, Json.Number.toInt?_ofInt] at this
  exact (Option.some.inj this).symm

/-- The columns of a use are the use but for its kind, which its table tells. -/
theorem columns_eq_iff {a b : MemberUse} : columns a = columns b ↔ a.same b = true := by
  simp [columns, MemberUse.same_iff, decimal_injective.eq_iff, Int32.toInt_inj]

/-- **Pages are read as they were written.** The tags of each page of a report are told by
how many fields and methods its owners show, whatever the texts. The rows of data in its
tables, one table for each of its owners, are the fields and then the methods of the owner
that are named, each once and in order, and a row tells which use it is. So it is for pages
on any owners with any uses, be they of a set or not. -/
theorem files_html_read (grain : Grain) (project : String) (found : UseSet) :
    (files .html grain project found).map (tags ·.2) =
        (pageParts grain found).map (fun parts => pageTags (parts.map fun part =>
          ((named .field part.2).length, (named .method part.2).length))) ∧
      (files .html grain project found).map (tables ·.2) =
        (pageParts grain found).map (fun parts => parts.map fun part =>
          (named .field part.2 ++ named .method part.2).map columns) ∧
      (∀ (total : Nat) (parts : List (String × List MemberUse)),
        tags (pageOf project total parts) = pageTags (parts.map fun part =>
            ((named .field part.2).length, (named .method part.2).length)) ∧
          tables (pageOf project total parts) = parts.map fun part =>
            (named .field part.2 ++ named .method part.2).map columns) ∧
      ∀ a b : MemberUse, columns a = columns b ↔ a.same b = true := by
  have hpages {α : Type} (f : String → α) : (files .html grain project found).map (f ·.2) =
      (pageParts grain found).map fun parts => f (pageOf project found.size parts) := by
    have h := congrArg (List.map f) (map_snd_files_html grain project found)
    rwa [List.map_map, List.map_map] at h
  refine ⟨?_, ?_, ?_, fun a b => columns_eq_iff⟩
  · rw [hpages tags]
    simp only [tags_pageOf, shown_eq_named]
  · rw [hpages tables]
    simp only [tables_pageOf, shown_eq_named]
  · intro total parts
    rw [tags_pageOf, tables_pageOf]
    simp only [shown_eq_named, and_self]

end MemberAudit.Report
