/-
HTML pages as a reader of their text finds them: how many rows of data a page
has, how many owners, and the number in its heading. These look at the markup
alone, and a text of a report that is written into a page makes none, since it is
escaped (`lt_not_mem_escape`).

A page shows each use that names a member in a row of its own (`dataRows_page`),
and its heading counts all uses (`headingTotal?_page`).
-/
import Mathlib.Algebra.Ring.Nat
import MemberAudit.Proofs.UseSet.Buckets
import MemberAudit.Report.Page

namespace MemberAudit.Report

/-! ## Occurrences of a mark -/

/-- How often a mark occurs in a text. -/
def occurrences (mark : List Char) : List Char → Nat
  | [] => 0
  | c :: rest => (if mark.isPrefixOf (c :: rest) then 1 else 0) + occurrences mark rest

/-- What follows the first occurrence of a mark. -/
def after? (mark : List Char) : List Char → Option (List Char)
  | [] => none
  | c :: rest =>
    if mark.isPrefixOf (c :: rest) then some ((c :: rest).drop mark.length) else after? mark rest

/-- What precedes the first occurrence of a mark. -/
def before? (mark : List Char) : List Char → Option (List Char)
  | [] => none
  | c :: rest =>
    if mark.isPrefixOf (c :: rest) then some [] else (before? mark rest).map (c :: ·)

/-- Whether a text ends without having begun a mark, so that what is written
after it completes none. -/
def closes (mark : List Char) : List Char → Bool
  | [] => true
  | c :: rest =>
    (!(c :: rest).isPrefixOf mark || mark.isPrefixOf (c :: rest)) && closes mark rest

theorem isPrefixOf_append {mark s : List Char}
    (h : (!s.isPrefixOf mark || mark.isPrefixOf s) = true) (t : List Char) :
    mark.isPrefixOf (s ++ t) = mark.isPrefixOf s := by
  rw [Bool.eq_iff_iff, List.isPrefixOf_iff_prefix, List.isPrefixOf_iff_prefix]
  refine ⟨fun hst => ?_, fun hs => hs.trans (List.prefix_append s t)⟩
  rcases List.prefix_or_prefix_of_prefix hst (List.prefix_append s t) with hs | hs
  · exact hs
  · have := List.isPrefixOf_iff_prefix.mpr hs
    simpa [this] using h

theorem closes_append {mark s t : List Char} (hs : closes mark s = true)
    (ht : closes mark t = true) : closes mark (s ++ t) = true := by
  induction s with
  | nil => exact ht
  | cons c s ih =>
    simp only [closes, Bool.and_eq_true] at hs
    simp only [List.cons_append, closes, Bool.and_eq_true, ih hs.2, and_true]
    by_cases h : (c :: (s ++ t)).isPrefixOf mark = true
    · have hbegun : (c :: s).isPrefixOf mark = true :=
        List.isPrefixOf_iff_prefix.mpr
          ((List.prefix_append (c :: s) t).trans (List.isPrefixOf_iff_prefix.mp h))
      have hmark := isPrefixOf_append hs.1 t
      have hs : mark.isPrefixOf (c :: s) = true := by simpa [hbegun] using hs.1
      rw [← List.cons_append, hmark, hs, Bool.or_true]
    · simp [h]

theorem occurrences_append {mark s : List Char} (h : closes mark s = true) (t : List Char) :
    occurrences mark (s ++ t) = occurrences mark s + occurrences mark t := by
  induction s with
  | nil => simp [occurrences]
  | cons c s ih =>
    simp only [closes, Bool.and_eq_true] at h
    have hmark := isPrefixOf_append h.1 t
    rw [List.cons_append] at hmark
    simp only [List.cons_append, occurrences, hmark, ih h.2, Nat.add_assoc]

theorem after?_append {mark s : List Char} (h : closes mark s = true)
    (hnone : occurrences mark s = 0) (t : List Char) : after? mark (s ++ t) = after? mark t := by
  induction s with
  | nil => rfl
  | cons c s ih =>
    simp only [closes, Bool.and_eq_true] at h
    simp only [occurrences, Nat.add_eq_zero_iff, ite_eq_right_iff, Nat.one_ne_zero, imp_false] at hnone
    have hmark := isPrefixOf_append h.1 t
    rw [List.cons_append] at hmark
    simp only [List.cons_append, after?, hmark, hnone.1, ih h.2 hnone.2]
    rfl

theorem before?_append {mark s : List Char} (h : closes mark s = true)
    (hnone : occurrences mark s = 0) (t : List Char) :
    before? mark (s ++ t) = (before? mark t).map (s ++ ·) := by
  induction s with
  | nil => simp
  | cons c s ih =>
    simp only [closes, Bool.and_eq_true] at h
    simp only [occurrences, Nat.add_eq_zero_iff, ite_eq_right_iff, Nat.one_ne_zero, imp_false] at hnone
    have hmark := isPrefixOf_append h.1 t
    rw [List.cons_append] at hmark
    simp only [List.cons_append, before?, hmark, hnone.1, ih h.2 hnone.2, Option.map_map]
    rfl

theorem after?_mark {c : Char} {mark : List Char} (t : List Char) :
    after? (c :: mark) (c :: mark ++ t) = some t := by
  have h : (c :: mark).isPrefixOf (c :: (mark ++ t)) = true :=
    List.isPrefixOf_iff_prefix.mpr (List.prefix_append (c :: mark) t)
  rw [List.cons_append, after?, if_pos h, ← List.cons_append, List.drop_left]

theorem before?_mark {c : Char} {mark : List Char} (t : List Char) :
    before? (c :: mark) (c :: mark ++ t) = some [] := by
  have h : (c :: mark).isPrefixOf (c :: (mark ++ t)) = true :=
    List.isPrefixOf_iff_prefix.mpr (List.prefix_append (c :: mark) t)
  rw [List.cons_append, before?, if_pos h]

/-- A text with `n` marks, to which nothing written after it adds. -/
structure Holds (mark s : List Char) (n : Nat) : Prop where
  closes : closes mark s = true
  count : occurrences mark s = n

namespace Holds

variable {c : Char} {mark s t : List Char} {m n : Nat}

theorem nil : Holds mark [] 0 := ⟨rfl, rfl⟩

theorem append (hs : Holds mark s m) (ht : Holds mark t n) : Holds mark (s ++ t) (m + n) :=
  ⟨closes_append hs.closes ht.closes, by rw [occurrences_append hs.closes, hs.count, ht.count]⟩

/-- A text that stands in the program is looked at character by character. -/
theorem literal {text : String} {chars : List Char} (h : text = String.ofList chars)
    (hcloses : Report.closes mark chars = true) (hcount : occurrences mark chars = n) :
    Holds mark text.toList n := by
  rw [h, String.toList_ofList]
  exact ⟨hcloses, hcount⟩

/-- A text without the character that a mark begins with. -/
theorem plain (h : c ∉ s) : Holds (c :: mark) s 0 := by
  induction s with
  | nil => exact nil
  | cons d s ih =>
    rw [List.mem_cons, not_or] at h
    have hne : (c == d) = false := by simpa using h.1
    have hne' : (d == c) = false := by simpa using Ne.symm h.1
    obtain ⟨hcloses, hcount⟩ := ih h.2
    constructor
    · simp [Report.closes, List.isPrefixOf, hne', hcloses]
    · simp [occurrences, List.isPrefixOf, hne, hcount]

/-- Texts that come one after the other. -/
theorem flatMap {α : Type} {f : α → List Char} {size : α → Nat} {l : List α}
    (h : ∀ a ∈ l, Holds mark (f a) (size a)) : Holds mark (l.flatMap f) (l.map size).sum := by
  induction l with
  | nil => exact nil
  | cons a l ih =>
    rw [List.flatMap_cons, List.map_cons, List.sum_cons]
    exact (h a List.mem_cons_self).append (ih fun b hb => h b (List.mem_cons_of_mem _ hb))

end Holds

/-! ## Texts in a page -/

theorem lt_not_mem_escape (text : String) : '<' ∉ (escape text).toList := by
  simp only [escape, String.toList_ofList, List.mem_flatMap, not_exists, not_and]
  intro c _
  unfold escapeChar
  repeat' split
  all_goals simp_all [eq_comm]

theorem not_mem_decimal {c : Char} (hdigit : c.isDigit = false) (hsign : c ≠ '-') (n : Int) :
    c ∉ (Text.decimal n).toList := by
  have hdigits : c ∉ Nat.toDigits 10 n.natAbs := fun hc => by
    have := Nat.isDigit_of_mem_toDigits (by decide) (by decide) hc
    rw [hdigit] at this
    cases this
  simp only [Text.decimal, String.toList_ofList, Text.decimalChars]
  split
  · simp [hsign, hdigits]
  · exact hdigits

/-! ## Pages -/

/-- The beginning of a row of data. -/
def rowMark : List Char := ['<', 't', 'r', '>', '<', 't', 'd', '>']

/-- The beginning of the part of an owner. -/
def ownerMark : List Char := ['<', 'h', '2', '>']

/-- The beginning of the heading. -/
def headingMark : List Char := ['<', 'h', '1', '>']

/-- The number of rows of data in a page. -/
def dataRows (page : String) : Nat :=
  occurrences rowMark page.toList

/-- The number of owners that a page has a part for. -/
def ownerSections (page : String) : Nat :=
  occurrences ownerMark page.toList

/-- What the heading of a page holds. -/
def heading? (page : String) : Option (List Char) :=
  (after? headingMark page.toList).bind (before? ['<', '/', 'h', '1', '>'])

/-- What follows the last tab of the heading. -/
def headingTotal? (page : String) : Option String :=
  (heading? page).map fun text => String.ofList (text.reverse.takeWhile (· ≠ '\t')).reverse

/-- A part of a page that adds a number of rows of data and of owners. -/
structure Shows (s : List Char) (rows owners : Nat) : Prop where
  rows : Holds rowMark s rows
  owners : Holds ownerMark s owners

namespace Shows

variable {s t : List Char} {m n k l : Nat}

theorem literal {text : String} {chars : List Char} (h : text = String.ofList chars)
    (hcloses : (closes rowMark chars && closes ownerMark chars) = true)
    (hrows : occurrences rowMark chars = m) (howners : occurrences ownerMark chars = k) :
    Shows text.toList m k := by
  rw [Bool.and_eq_true] at hcloses
  exact ⟨.literal h hcloses.1 hrows, .literal h hcloses.2 howners⟩

theorem plain (h : '<' ∉ s) : Shows s 0 0 :=
  ⟨.plain h, .plain h⟩

theorem append (hs : Shows s m k) (ht : Shows t n l) : Shows (s ++ t) (m + n) (k + l) :=
  ⟨hs.rows.append ht.rows, hs.owners.append ht.owners⟩

theorem flatMap {α : Type} {f : α → List Char} {rows owners : α → Nat} {as : List α}
    (h : ∀ a ∈ as, Shows (f a) (rows a) (owners a)) :
    Shows (as.flatMap f) (as.map rows).sum (as.map owners).sum :=
  ⟨.flatMap fun a ha => (h a ha).rows, .flatMap fun a ha => (h a ha).owners⟩

end Shows

theorem shows_escape (text : String) : Shows (escape text).toList 0 0 :=
  .plain (lt_not_mem_escape text)

theorem shows_decimal (n : Int) : Shows (Text.decimal n).toList 0 0 :=
  .plain (not_mem_decimal (by decide) (by decide) n)

theorem toList_useRow (use : MemberUse) :
    (useRow use).toList =
      "<tr><td>".toList ++ ((escape use.ownerClass).toList ++ ("</td><td>".toList ++
        ((escape use.ownerMember).toList ++ ("</td><td>".toList ++ ((escape use.callerClass).toList ++
          ("</td><td>".toList ++ ((escape use.callerMember).toList ++ ("</td><td>".toList ++
            ((Text.decimal use.callerLine.toInt).toList ++ "</td></tr>\n".toList))))))))) := by
  simp only [useRow, row, element, List.map_cons, List.map_nil, List.cons_append, List.nil_append,
    String.toList_append, String.toList_join, List.flatMap_cons, List.flatMap_nil, List.append_nil,
    List.append_assoc]
  rfl

theorem shows_useRow (use : MemberUse) : Shows (useRow use).toList 1 0 := by
  have hopen : Shows "<tr><td>".toList 1 0 := .literal rfl rfl rfl rfl
  have hnext : Shows "</td><td>".toList 0 0 := .literal rfl rfl rfl rfl
  have hclose : Shows "</td></tr>\n".toList 0 0 := .literal rfl rfl rfl rfl
  rw [toList_useRow]
  exact hopen.append <| (shows_escape _).append <| hnext.append <| (shows_escape _).append <|
    hnext.append <| (shows_escape _).append <| hnext.append <| (shows_escape _).append <|
    hnext.append <| (shows_decimal _).append hclose

theorem shows_titles (kind : MemberSort) :
    Shows (row "th" ["Owner class", memberTitle kind, "Caller class", "Caller method",
      "Caller line"]).toList 0 0 := by
  have htext : row "th" ["Owner class", memberTitle kind, "Caller class", "Caller method",
      "Caller line"] = "<tr><th>Owner class</th><th>" ++ memberTitle kind ++
        "</th><th>Caller class</th><th>Caller method</th><th>Caller line</th></tr>\n" := by
    cases kind <;> rfl
  have htitle : Shows (memberTitle kind).toList 0 0 := by
    cases kind <;> exact .literal rfl rfl rfl rfl
  rw [htext, String.toList_append, String.toList_append]
  exact (Shows.append (.literal rfl rfl rfl rfl) htitle).append (.literal rfl rfl rfl rfl)

theorem shows_rows (kind : MemberSort) (bucket : List MemberUse) :
    Shows (rows kind bucket).toList (shown kind bucket).length 0 := by
  unfold rows
  split
  · rename_i h
    rw [h]
    exact .literal rfl rfl rfl rfl
  · have huses := Shows.flatMap fun use (_ : use ∈ shown kind bucket) => shows_useRow use
    rw [String.toList_append, String.toList_join, List.flatMap_map]
    simpa using (shows_titles kind).append huses

theorem shows_ownerPart (owner : String) (bucket : List MemberUse) :
    Shows (ownerPart owner bucket).toList
      ((shown .field bucket).length + (shown .method bucket).length) 1 := by
  have htitle : Shows "<h2>".toList 0 1 := .literal rfl rfl rfl rfl
  have htab : Shows "\t".toList 0 0 := .literal rfl rfl rfl rfl
  have hopen : Shows "</h2>\n<table>\n".toList 0 0 := .literal rfl rfl rfl rfl
  have hclose : Shows "</table>\n".toList 0 0 := .literal rfl rfl rfl rfl
  have hparts : (ownerPart owner bucket).toList =
      "<h2>".toList ++ ((escape owner).toList ++ ("\t".toList ++
        ((Text.decimal bucket.length).toList ++ ("</h2>\n<table>\n".toList ++
          ((rows .field bucket).toList ++ ((rows .method bucket).toList ++ "</table>\n".toList)))))) := by
    simp only [ownerPart, element, String.toList_append, List.append_assoc]
    rfl
  rw [hparts]
  have := htitle.append <| (shows_escape owner).append <| htab.append <|
    (shows_decimal bucket.length).append <| hopen.append <| (shows_rows .field bucket).append <|
    (shows_rows .method bucket).append hclose
  simpa using this

theorem not_mem_literal {text : String} {chars : List Char} {c : Char} (h : text = String.ofList chars)
    (hc : chars.contains c = false) : c ∉ text.toList := by
  rw [h, String.toList_ofList]
  simpa using hc

theorem lt_not_mem_styleSheet : '<' ∉ styleSheet.toList := by
  unfold styleSheet
  simp only [String.toList_append, List.mem_append, not_or]
  refine ⟨⟨⟨⟨⟨⟨?_, ?_⟩, ?_⟩, ?_⟩, ?_⟩, ?_⟩, ?_⟩ <;> exact not_mem_literal rfl rfl

/-- A page is its body between two texts without marks. -/
theorem exists_frame_eq : ∃ opening closing : String,
    (∀ body, frame body = opening ++ body ++ closing) ∧
      ∀ mark ∈ [rowMark, ownerMark, headingMark],
        Holds mark opening.toList 0 ∧ Holds mark closing.toList 0 := by
  have htitle : element "title" pageTitle = "<title>Method Collector Results</title>" := rfl
  refine ⟨_, _, fun body => rfl, ?_⟩
  intro mark hmark
  simp only [String.toList_append, htitle]
  simp only [List.mem_cons, List.not_mem_nil, or_false] at hmark
  rcases hmark with rfl | rfl | rfl <;>
    exact ⟨(((((((Holds.literal rfl rfl rfl).append (.literal rfl rfl rfl)).append
      (.literal rfl rfl rfl)).append (.literal rfl rfl rfl)).append
      (.plain lt_not_mem_styleSheet)).append (.literal rfl rfl rfl)).append
      (.literal rfl rfl rfl)), .literal rfl rfl rfl⟩

theorem shows_pageHeading (project : String) (total : Nat) :
    Shows (pageHeading project total).toList 0 0 := by
  have hopen : Shows "<h1>Project ".toList 0 0 := .literal rfl rfl rfl rfl
  have htext : Shows " method collector results\t".toList 0 0 := .plain (by decide)
  have hclose : Shows "</h1>\n".toList 0 0 := .literal rfl rfl rfl rfl
  have hparts : (pageHeading project total).toList =
      "<h1>Project ".toList ++ ((escape project).toList ++ (" method collector results\t".toList ++
        ((Text.decimal total).toList ++ "</h1>\n".toList))) := by
    simp only [pageHeading, element, String.toList_append, List.append_assoc]
    rfl
  rw [hparts]
  exact hopen.append <| (shows_escape _).append <| htext.append <| (shows_decimal _).append hclose

theorem shows_frame {body : String} {rows owners : Nat} (h : Shows body.toList rows owners) :
    Shows (frame body).toList rows owners := by
  obtain ⟨opening, closing, hframe, hmarks⟩ := exists_frame_eq
  have hrow := hmarks rowMark (by simp)
  have howner := hmarks ownerMark (by simp)
  rw [hframe, String.toList_append, String.toList_append]
  simpa using (Shows.append ⟨hrow.1, howner.1⟩ h).append ⟨hrow.2, howner.2⟩

/-- The uses of a bucket that name a member. -/
theorem length_shown (bucket : List MemberUse) :
    (shown .field bucket).length + (shown .method bucket).length =
      (bucket.filter fun use => !use.ownerMember.isEmpty).length := by
  induction bucket with
  | nil => rfl
  | cons use bucket ih =>
    simp only [shown, List.filter_cons] at ih ⊢
    cases use.kind <;> cases use.ownerMember.isEmpty <;>
      simp only [reduceCtorEq, decide_true, decide_false, Bool.and_true, Bool.and_false,
        Bool.not_true, Bool.not_false, Bool.false_eq_true, ite_true, ite_false,
        List.length_cons] <;> omega

theorem shows_page (project : String) (found : UseSet) :
    Shows (page project found).toList
      (found.uses.filter fun use => !use.ownerMember.isEmpty).length found.byOwner.length := by
  have hparts := Shows.flatMap fun piece (_ : piece ∈ found.byOwner) =>
    shows_ownerPart piece.1 piece.2
  have hrows : (found.byOwner.map fun piece =>
      (shown .field piece.2).length + (shown .method piece.2).length).sum =
        (found.uses.filter fun use => !use.ownerMember.isEmpty).length := by
    rw [← found.flatMap_byOwner, List.filter_flatMap, List.length_flatMap]
    exact congrArg List.sum (List.map_congr_left fun piece _ => length_shown piece.2)
  have howners : (found.byOwner.map fun _ => 1).sum = found.byOwner.length := by simp
  rw [hrows, howners] at hparts
  refine shows_frame ?_
  rw [String.toList_append, String.toList_join, List.flatMap_map]
  simpa using (shows_pageHeading project found.size).append hparts

/-- **A page has a row for each use that names a member**, and no other row of data. -/
theorem dataRows_page (project : String) (found : UseSet) :
    dataRows (page project found) =
      (found.uses.filter fun use => !use.ownerMember.isEmpty).length :=
  (shows_page project found).rows.count

theorem ownerSections_page (project : String) (found : UseSet) :
    ownerSections (page project found) = found.byOwner.length :=
  (shows_page project found).owners.count

/-- The heading is what is between its tags, since the project makes no tag. -/
theorem heading?_frame (project : String) (total : Nat) (rest : String) :
    heading? (frame (pageHeading project total ++ rest)) =
      some ("Project ".toList ++ ((escape project).toList ++
        (" method collector results".toList ++ '\t' :: (Text.decimal total).toList))) := by
  obtain ⟨opening, closing, hframe, hmarks⟩ := exists_frame_eq
  obtain ⟨⟨hcloses, hcount⟩, -⟩ := hmarks headingMark (by simp)
  have hparts : (frame (pageHeading project total ++ rest)).toList =
      opening.toList ++ (headingMark ++ (("Project ".toList ++ ((escape project).toList ++
        (" method collector results".toList ++ '\t' :: (Text.decimal total).toList))) ++
          (['<', '/', 'h', '1', '>'] ++ '\n' :: (rest.toList ++ closing.toList)))) := by
    rw [hframe]
    simp only [pageHeading, element, String.toList_append, List.append_assoc]
    rfl
  have htext : '<' ∉ "Project ".toList ++ ((escape project).toList ++
      (" method collector results".toList ++ '\t' :: (Text.decimal total).toList)) := by
    have hnumber := not_mem_decimal (c := '<') (by decide) (by decide) total
    simp [lt_not_mem_escape, hnumber]
  obtain ⟨htextCloses, htextCount⟩ : Holds ['<', '/', 'h', '1', '>'] _ 0 := .plain htext
  rw [heading?, hparts, after?_append hcloses hcount, headingMark, after?_mark, Option.bind_some,
    before?_append htextCloses htextCount, before?_mark, Option.map_some, List.append_nil]

theorem reverse_takeWhile_reverse {c : Char} {s : List Char} (h : c ∉ s) (t : List Char) :
    ((t ++ c :: s).reverse.takeWhile (· ≠ c)).reverse = s := by
  have hall : ∀ d ∈ s.reverse, decide (d ≠ c) = true := fun d hd =>
    decide_eq_true fun hdc => h (hdc ▸ List.mem_reverse.mp hd)
  rw [List.reverse_append, List.reverse_cons, List.append_assoc, List.takeWhile_append_of_pos hall]
  simp

/-- **The heading of a page counts its uses.** -/
theorem headingTotal?_page (project : String) (found : UseSet) :
    headingTotal? (page project found) = some (Text.decimal found.size) := by
  rw [page, headingTotal?, heading?_frame, Option.map_some, ← List.append_assoc, ← List.append_assoc,
    reverse_takeWhile_reverse (not_mem_decimal (by decide) (by decide) _), String.ofList_toList]

end MemberAudit.Report
