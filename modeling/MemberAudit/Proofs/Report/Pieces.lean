/-
Pages taken apart at their tags. A text of plain pieces, each a tag and the text that
follows it, is cut into them again (`pieces_of_markup`), an element is found among pieces
with what is in it (`between_element`), and escaping is undone (`unescape_escape`).
-/
import MemberAudit.Proofs.Report.Markup

namespace MemberAudit.Report

/-! ## Cutting a text at its tags -/

/-- A tag, without its brackets, and the text up to the next one. -/
structure Piece where
  tag : List Char
  text : List Char
  deriving DecidableEq, Repr

def Piece.name (p : Piece) : String :=
  String.ofList p.tag

mutual

/-- The text before the first tag, and the pieces from there on. -/
def cutText : List Char → List Char × List Piece
  | [] => ([], [])
  | c :: rest =>
    if c = '<' then ([], cutTag rest) else (c :: (cutText rest).1, (cutText rest).2)

/-- The pieces of a text that begins within a tag. A tag that does not end is none. -/
def cutTag : List Char → List Piece
  | [] => []
  | c :: rest =>
    if c = '>' then ⟨[], (cutText rest).1⟩ :: (cutText rest).2
    else
      match cutTag rest with
      | [] => []
      | p :: ps => ⟨c :: p.tag, p.text⟩ :: ps

end

/-- The pieces of a page. -/
def pieces (page : String) : List Piece :=
  (cutText page.toList).2

/-- The tags of a page in their order. -/
def tags (page : String) : List String :=
  (pieces page).map Piece.name

/-- What stands between a tag and the next one that closes it, for each such tag. -/
def between (opening closing : String) : List Piece → List (List Piece)
  | [] => []
  | p :: ps =>
    if p.name = opening then ps.takeWhile (·.name ≠ closing) :: between opening closing ps
    else between opening closing ps

/-- A text before it was escaped. -/
def unescape : List Char → List Char
  | '&' :: 'a' :: 'm' :: 'p' :: ';' :: rest => '&' :: unescape rest
  | '&' :: 'l' :: 't' :: ';' :: rest => '<' :: unescape rest
  | '&' :: 'g' :: 't' :: ';' :: rest => '>' :: unescape rest
  | c :: rest => c :: unescape rest
  | [] => []

/-- What a cell of data holds. -/
def cell? (p : Piece) : Option String :=
  if p.name = "td" then some (String.ofList (unescape p.text)) else none

/-- The rows of data in the tables of a page, cell by cell. -/
def tables (page : String) : List (List (List String)) :=
  (between "table" "/table" (pieces page)).map fun table =>
    ((between "tr" "/tr" table).map (·.filterMap cell?)).filter (· ≠ [])

/-! ## Pieces written and cut again -/

/-- The text that is made of pieces. -/
def markup (ps : List Piece) : List Char :=
  ps.flatMap fun p => '<' :: p.tag ++ '>' :: p.text

/-- A piece whose tag and text end where they should. -/
structure Piece.Plain (p : Piece) : Prop where
  tag : '>' ∉ p.tag
  text : '<' ∉ p.text

theorem markup_append (ps qs : List Piece) : markup (ps ++ qs) = markup ps ++ markup qs :=
  List.flatMap_append ..

theorem markup_flatMap {α : Type} (f : α → List Piece) (l : List α) :
    markup (l.flatMap f) = l.flatMap fun a => markup (f a) :=
  List.flatMap_assoc ..

theorem cutTag_append {tag : List Char} (h : '>' ∉ tag) (rest : List Char) :
    cutTag (tag ++ '>' :: rest) = ⟨tag, (cutText rest).1⟩ :: (cutText rest).2 := by
  induction tag with
  | nil => simp [cutTag]
  | cons c tag ih =>
    rw [List.mem_cons, not_or] at h
    rw [List.cons_append, cutTag, if_neg (Ne.symm h.1), ih h.2]

theorem cutText_append {text : List Char} (h : '<' ∉ text) (rest : List Char) :
    cutText (text ++ rest) = (text ++ (cutText rest).1, (cutText rest).2) := by
  induction text with
  | nil => rfl
  | cons c text ih =>
    rw [List.mem_cons, not_or] at h
    rw [List.cons_append, cutText, if_neg (Ne.symm h.1), ih h.2]
    rfl

theorem cutText_markup {ps : List Piece} (h : ∀ p ∈ ps, p.Plain) : cutText (markup ps) = ([], ps) := by
  induction ps with
  | nil => rfl
  | cons p ps ih =>
    obtain ⟨hp, hps⟩ := List.forall_mem_cons.mp h
    have hmarkup : markup (p :: ps) = '<' :: (p.tag ++ '>' :: (p.text ++ markup ps)) := by
      simp [markup]
    rw [hmarkup, cutText, if_pos rfl, cutTag_append hp.tag, cutText_append hp.text, ih hps,
      List.append_nil]

/-- **A page written from plain pieces is cut into them.** -/
theorem pieces_of_markup {page : String} {ps : List Piece} (hpage : page.toList = markup ps)
    (h : ∀ p ∈ ps, p.Plain) : pieces page = ps := by
  rw [pieces, hpage, cutText_markup h]

/-! ## Escaping -/

theorem unescape_cons {c : Char} (h : c ≠ '&') (rest : List Char) :
    unescape (c :: rest) = c :: unescape rest := by
  rw [unescape]
  all_goals
    intro tail heq
    exact absurd heq h

theorem unescape_escapeChar (c : Char) (rest : List Char) :
    unescape (escapeChar c ++ rest) = c :: unescape rest := by
  unfold escapeChar
  split
  · rename_i hc
    rw [hc]
    rfl
  split
  · rename_i hc
    rw [hc]
    rfl
  split
  · rename_i hc
    rw [hc]
    rfl
  · rename_i hamp _ _
    exact unescape_cons hamp rest

/-- **Escaping is undone.** -/
theorem unescape_escape (text : String) : unescape (escape text).toList = text.toList := by
  rw [escape, String.toList_ofList]
  induction text.toList with
  | nil => rfl
  | cons c cs ih => rw [List.flatMap_cons, unescape_escapeChar, ih]

/-- A text without the characters that are escaped stays as it is. -/
theorem escape_eq_self {text : String} (h : '&' ∉ text.toList ∧ '<' ∉ text.toList ∧ '>' ∉ text.toList) :
    escape text = text := by
  have hchar : ∀ c ∈ text.toList, escapeChar c = [c] := by
    intro c hc
    have hne : c ≠ '&' ∧ c ≠ '<' ∧ c ≠ '>' := by
      refine ⟨?_, ?_, ?_⟩ <;> rintro rfl
      exacts [h.1 hc, h.2.1 hc, h.2.2 hc]
    simp [escapeChar, hne]
  rw [escape, List.flatMap_congr hchar, List.flatMap_singleton', String.ofList_toList]

theorem escape_decimal (n : Int) : escape (Text.decimal n) = Text.decimal n :=
  escape_eq_self ⟨not_mem_decimal (by decide) (by decide) n, not_mem_decimal (by decide) (by decide) n,
    not_mem_decimal (by decide) (by decide) n⟩

/-! ## Elements found among pieces -/

/-- A piece with texts of the page for its tag and what follows it. -/
def piece (tag text : String) : Piece :=
  ⟨tag.toList, text.toList⟩

@[simp] theorem name_piece (tag text : String) : (piece tag text).name = tag :=
  String.ofList_toList

theorem between_append {opening closing : String} {ps : List Piece} (h : ∀ p ∈ ps, p.name ≠ opening)
    (rest : List Piece) : between opening closing (ps ++ rest) = between opening closing rest := by
  induction ps with
  | nil => rfl
  | cons p ps ih =>
    obtain ⟨hp, hps⟩ := List.forall_mem_cons.mp h
    rw [List.cons_append, between, if_neg hp, ih hps]

/-- An element is found with what is in it. -/
theorem between_element {opening closing : String} {body : List Piece} (hne : closing ≠ opening)
    (hopen : ∀ p ∈ body, p.name ≠ opening) (hclose : ∀ p ∈ body, p.name ≠ closing)
    (text after : String) (rest : List Piece) :
    between opening closing (piece opening text :: (body ++ piece closing after :: rest)) =
      body :: between opening closing rest := by
  have htake : (body ++ piece closing after :: rest).takeWhile (·.name ≠ closing) = body := by
    rw [List.takeWhile_append_of_pos fun p hp => by simpa using hclose p hp]
    simp
  rw [between, if_pos (name_piece ..), htake, between_append hopen, between,
    if_neg (by rwa [name_piece])]

end MemberAudit.Report
