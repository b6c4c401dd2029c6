/-
Reading a text by the grammar. A document has one row of tokens, to which all its texts are
scanned (`scan_written`), and from which it is read (`valueOf_tokens`).

`read_of_isTextOf`: a text of a document is read as this document, with nothing left over.
Such a document is intact, for the grammar knows no cut.
-/
import MemberAudit.Proofs.Json.Written

namespace MemberAudit.Json

namespace Document

mutual

/-- The tokens that the texts of a document are made of. -/
def tokens : Document → List Token
  | .null => [.null]
  | .bool b => [.bool b]
  | .number n => [.number n]
  | .text s => [.text s]
  | .array [] => [.openArray, .closeArray]
  | .array (item :: items) => .openArray :: (tokens item ++ (itemTokens items ++ [.closeArray]))
  | .object [] => [.openObject, .closeObject]
  | .object ((key, value) :: members) =>
    .openObject :: .text key :: .colon :: (tokens value ++ (memberTokens members ++ [.closeObject]))
  | .cut => [.stray]

/-- Those of an array's items after its first. -/
def itemTokens : List Document → List Token
  | [] => []
  | item :: items => .comma :: (tokens item ++ itemTokens items)

/-- Those of an object's members after its first. -/
def memberTokens : List (Option String × Document) → List Token
  | [] => []
  | (key, value) :: members => .comma :: .text key :: .colon :: (tokens value ++ memberTokens members)

end

end Document

namespace Token

open Document (tokens itemTokens memberTokens)

/-! ## Scanning -/

theorem scan_blanks {b : List Char} (hb : Blanks b) (rest : List Char) : scan (b ++ rest) = scan rest := by
  induction b with
  | nil => rfl
  | cons c b ih =>
    obtain ⟨hc, hb⟩ := List.forall_mem_cons.mp hb
    have hblank : isBlank c = true := by simpa [isBlank, or_assoc] using hc
    rw [List.cons_append, scan_blank hblank, ih hb]

theorem endsNumber_blanks {b rest : List Char} (hb : Blanks b) (h : EndsNumber rest) :
    EndsNumber (b ++ rest) := by
  cases b with
  | nil => exact h
  | cons c b =>
    refine endsNumber_cons ?_ _
    have hc := hb c List.mem_cons_self
    simp only [List.mem_cons, List.not_mem_nil, or_false] at hc
    rcases hc with rfl | rfl | rfl | rfl <;> decide

theorem endsNumber_of_blanks {b : List Char} (hb : Blanks b) : EndsNumber b := by
  rw [← List.append_nil b]
  exact endsNumber_blanks hb nofun

theorem scan_comma (rest : List Char) : scan (',' :: rest) = .comma :: scan rest :=
  scan_lexeme (by decide) rfl

theorem scan_mark {c : Char} {t : Token} (hc : isBlank c = false) (h : ∀ rest, lexeme c rest = some (t, rest))
    (rest : List Char) : scan (c :: rest) = t :: scan rest :=
  scan_lexeme hc (h rest)

mutual

/-- **All texts of a document have the same tokens.** -/
theorem scan_written : ∀ {d : Document} {cs : List Char}, Written d cs → ∀ {rest : List Char},
    EndsNumber rest → scan (cs ++ rest) = tokens d ++ scan rest
  | _, _, .null, rest, _ => by
    rw [tokens]
    exact scan_lexeme (by decide) rfl
  | _, _, .true, rest, _ => by
    rw [tokens]
    exact scan_lexeme (by decide) rfl
  | _, _, .false, rest, _ => by
    rw [tokens]
    exact scan_lexeme (by decide) rfl
  | _, _, .number h, rest, hrest => by
    rw [tokens]
    exact scan_number h hrest
  | _, _, .text h, rest, _ => by
    rw [tokens]
    exact scan_string h rest
  | _, _, .noItems hb, rest, _ => by
    rw [List.cons_append, List.append_assoc, scan_mark (by decide) (fun _ => rfl), scan_blanks hb,
      List.singleton_append, scan_mark (by decide) (fun _ => rfl), tokens]
    rfl
  | _, _, .array h, rest, _ => by
    obtain ⟨item, items, rfl, hscan⟩ := scan_items h rest
    rw [List.cons_append, List.append_assoc, scan_mark (by decide) (fun _ => rfl),
      List.singleton_append, hscan, tokens, List.cons_append, List.append_assoc, List.append_assoc]
    rfl
  | _, _, .noMembers hb, rest, _ => by
    rw [List.cons_append, List.append_assoc, scan_mark (by decide) (fun _ => rfl), scan_blanks hb,
      List.singleton_append, scan_mark (by decide) (fun _ => rfl), tokens]
    rfl
  | _, _, .object h, rest, _ => by
    obtain ⟨key, value, members, rfl, hscan⟩ := scan_members h rest
    rw [List.cons_append, List.append_assoc, scan_mark (by decide) (fun _ => rfl),
      List.singleton_append, hscan, tokens]
    simp only [List.cons_append, List.append_assoc]
    rfl

theorem scan_items : ∀ {ds : List Document} {cs : List Char}, WrittenItems ds cs → ∀ rest : List Char,
    ∃ item items, ds = item :: items ∧
      scan (cs ++ ']' :: rest) = tokens item ++ (itemTokens items ++ .closeArray :: scan rest)
  | _, _, .one hb h he, rest => by
    refine ⟨_, [], rfl, ?_⟩
    rw [List.append_assoc, List.append_assoc, scan_blanks hb,
      scan_written h (endsNumber_blanks he (endsNumber_cons (by decide) _)), scan_blanks he,
      scan_mark (by decide) (fun _ => rfl), itemTokens]
    rfl
  | _, _, .more hb h he later, rest => by
    obtain ⟨next, items, rfl, hscan⟩ := scan_items later rest
    refine ⟨_, next :: items, rfl, ?_⟩
    simp only [List.append_assoc, List.cons_append]
    rw [scan_blanks hb, scan_written h (endsNumber_blanks he (endsNumber_cons (by decide) _)),
      scan_blanks he, scan_comma, hscan, itemTokens]
    simp only [List.cons_append, List.append_assoc]

theorem scan_members : ∀ {ms : List (Option String × Document)} {cs : List Char}, WrittenMembers ms cs →
    ∀ rest : List Char, ∃ key value members, ms = (key, value) :: members ∧
      scan (cs ++ '}' :: rest) = .text key :: .colon ::
        (tokens value ++ (memberTokens members ++ .closeObject :: scan rest))
  | _, _, .one hb hkey hk hv h he, rest => by
    refine ⟨_, _, [], rfl, ?_⟩
    simp only [List.append_assoc, List.cons_append]
    rw [scan_blanks hb, scan_string hkey, scan_blanks hk, scan_mark (by decide) (fun _ => rfl),
      scan_blanks hv, scan_written h (endsNumber_blanks he (endsNumber_cons (by decide) _)),
      scan_blanks he, scan_mark (by decide) (fun _ => rfl), memberTokens]
    rfl
  | _, _, .more hb hkey hk hv h he later, rest => by
    obtain ⟨key, value, members, rfl, hscan⟩ := scan_members later rest
    refine ⟨_, _, (key, value) :: members, rfl, ?_⟩
    simp only [List.append_assoc, List.cons_append]
    rw [scan_blanks hb, scan_string hkey, scan_blanks hk, scan_mark (by decide) (fun _ => rfl),
      scan_blanks hv, scan_written h (endsNumber_blanks he (endsNumber_cons (by decide) _)),
      scan_blanks he, scan_comma, hscan, memberTokens]
    simp only [List.cons_append, List.append_assoc]

end

end Token

namespace Document

/-! ## Reading -/

/-- The first token of a document, which closes no array. -/
theorem exists_tokens_eq_cons (d : Document) : ∃ t ts, d.tokens = t :: ts ∧ t ≠ .closeArray := by
  cases d with
  | null | bool | number | text | cut => exact ⟨_, _, by rw [tokens], by simp⟩
  | array items => cases items <;> exact ⟨_, _, by rw [tokens], by simp⟩
  | object members => cases members <;> exact ⟨_, _, by rw [tokens], by simp⟩

theorem valueOf_openArray {steps : Nat} {d : Document} {after : List Token} :
    valueOf (steps + 1) (.openArray :: (d.tokens ++ after)) =
      (.array (itemsOf steps (d.tokens ++ after)).1, (itemsOf steps (d.tokens ++ after)).2) := by
  obtain ⟨t, ts, h, ht⟩ := d.exists_tokens_eq_cons
  rw [h, List.cons_append]
  cases t <;> first | rfl | exact absurd rfl ht

mutual

/-- The tokens of a document are read as this document, if there are steps enough. -/
theorem valueOf_tokens : ∀ (d : Document) {steps : Nat} (rest : List Token), d.intact = true →
    d.tokens.length ≤ steps → valueOf steps (d.tokens ++ rest) = (d, rest)
  | .null, steps + 1, _, _, _ => by rw [tokens]; rfl
  | .bool _, steps + 1, _, _, _ => by rw [tokens]; rfl
  | .number _, steps + 1, _, _, _ => by rw [tokens]; rfl
  | .text _, steps + 1, _, _, _ => by rw [tokens]; rfl
  | .array [], steps + 1, _, _, _ => by rw [tokens]; rfl
  | .array (item :: items), steps + 1, rest, hd, h => by
    simp only [intact, intactItems, Bool.and_eq_true] at hd
    simp only [tokens, List.length_cons, List.length_append, List.length_nil] at h
    simp only [tokens, List.cons_append, List.append_assoc, List.nil_append]
    rw [valueOf_openArray, itemsOf_tokens item items rest hd.1 hd.2 (by omega)]
  | .object [], steps + 1, _, _, _ => by rw [tokens]; rfl
  | .object ((key, value) :: members), steps + 1, rest, hd, h => by
    simp only [intact, intactMembers, Bool.and_eq_true] at hd
    simp only [tokens, List.length_cons, List.length_append, List.length_nil] at h
    simp only [tokens, List.cons_append, List.append_assoc, List.nil_append, valueOf]
    rw [membersOf_tokens key value members rest hd.1 hd.2 (by omega)]
  | .cut, _, _, hd, _ => by cases hd
  | .null, 0, _, _, h | .bool _, 0, _, _, h | .number _, 0, _, _, h | .text _, 0, _, _, h
  | .array [], 0, _, _, h | .array (_ :: _), 0, _, _, h | .object [], 0, _, _, h
  | .object (_ :: _), 0, _, _, h => by
    simp [tokens] at h

theorem itemsOf_tokens : ∀ (item : Document) (items : List Document) {steps : Nat}
    (rest : List Token), item.intact = true → intactItems items = true →
    item.tokens.length + (itemTokens items).length < steps →
      itemsOf steps (item.tokens ++ (itemTokens items ++ .closeArray :: rest)) = (item :: items, rest)
  | item, [], steps + 1, rest, hitem, _, h => by
    rw [itemTokens, List.nil_append, itemsOf, valueOf_tokens item _ hitem (by omega)]
  | item, next :: items, steps + 1, rest, hitem, hitems, h => by
    simp only [intactItems, Bool.and_eq_true] at hitems
    simp only [itemTokens, List.length_cons, List.length_append] at h
    simp only [itemTokens, List.cons_append, List.append_assoc]
    rw [itemsOf, valueOf_tokens item _ hitem (by omega)]
    simp only
    rw [itemsOf_tokens next items rest hitems.1 hitems.2 (by omega)]

theorem membersOf_tokens : ∀ (key : Option String) (value : Document)
    (members : List (Option String × Document)) {steps : Nat} (rest : List Token),
    value.intact = true → intactMembers members = true →
    value.tokens.length + (memberTokens members).length < steps →
      membersOf steps (.text key :: .colon ::
        (value.tokens ++ (memberTokens members ++ .closeObject :: rest))) = ((key, value) :: members, rest)
  | key, value, [], steps + 1, rest, hvalue, _, h => by
    rw [memberTokens, List.nil_append, membersOf, valueOf_tokens value _ hvalue (by omega)]
  | key, value, (nextKey, next) :: members, steps + 1, rest, hvalue, hmembers, h => by
    simp only [intactMembers, Bool.and_eq_true] at hmembers
    simp only [memberTokens, List.length_cons, List.length_append] at h
    simp only [memberTokens, List.cons_append, List.append_assoc]
    rw [membersOf, valueOf_tokens value _ hvalue (by omega)]
    simp only
    rw [membersOf_tokens nextKey next members rest hmembers.1 hmembers.2 (by omega)]

end

mutual

/-- A text by the grammar has no cut. -/
theorem intact_of_written : ∀ {d : Document} {cs : List Char}, Written d cs → d.intact = true
  | _, _, .null | _, _, .true | _, _, .false | _, _, .number _ | _, _, .text _ => rfl
  | _, _, .noItems _ | _, _, .noMembers _ => rfl
  | _, _, .array h => by rw [intact, intact_of_writtenItems h]
  | _, _, .object h => by rw [intact, intact_of_writtenMembers h]

theorem intact_of_writtenItems : ∀ {ds : List Document} {cs : List Char}, WrittenItems ds cs →
    intactItems ds = true
  | _, _, .one _ h _ => by simp [intactItems, intact_of_written h]
  | _, _, .more _ h _ later => by simp [intactItems, intact_of_written h, intact_of_writtenItems later]

theorem intact_of_writtenMembers : ∀ {ms : List (Option String × Document)} {cs : List Char},
    WrittenMembers ms cs → intactMembers ms = true
  | _, _, .one _ _ _ _ h _ => by simp [intactMembers, intact_of_written h]
  | _, _, .more _ _ _ _ h _ later => by
    simp [intactMembers, intact_of_written h, intact_of_writtenMembers later]

end

/-- **A text by the grammar is read as its document**, with nothing left over. -/
theorem read_of_isTextOf {text : String} {d : Document} (h : IsTextOf text d) :
    read text = (d, []) ∧ d.intact = true := by
  obtain ⟨b, cs, e, htext, hb, hd, he⟩ := h
  have hscan : Token.scan text.toList = d.tokens := by
    rw [htext, Token.scan_blanks hb, Token.scan_written hd (Token.endsNumber_of_blanks he), ← List.append_nil e,
      Token.scan_blanks he, Token.scan, List.append_nil]
  have hintact := intact_of_written hd
  have hread : valueOf (2 * d.tokens.length + 1) (d.tokens ++ []) = (d, []) :=
    valueOf_tokens d [] hintact (by omega)
  rw [List.append_nil] at hread
  exact ⟨by simpa only [read, hscan] using hread, hintact⟩

end Document
end MemberAudit.Json
