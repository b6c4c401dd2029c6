/-
JSON texts by the grammar: blanks between tokens, members in any order and under any keys,
every way to write a number, and every way to write a character of a string. `Written`
relates a document to its texts, and shares no code with the reader.

Each token is scanned from all its texts (`scan_string`, `scan_number`).
-/
import MemberAudit.Json.Document

namespace MemberAudit.Json

/-! ## Strings -/

/-- The escapes of one letter, each with its character. -/
def shortEscapes : List (Char × Char) :=
  [('"', '"'), ('\\', '\\'), ('/', '/'), ('b', '\x08'), ('f', '\x0c'), ('n', '\n'), ('r', '\r'),
    ('t', '\t')]

/-- The hexadecimal digits, each with its value. -/
def hexDigits : List (Char × Nat) :=
  [('0', 0), ('1', 1), ('2', 2), ('3', 3), ('4', 4), ('5', 5), ('6', 6), ('7', 7), ('8', 8), ('9', 9),
    ('a', 10), ('b', 11), ('c', 12), ('d', 13), ('e', 14), ('f', 15),
    ('A', 10), ('B', 11), ('C', 12), ('D', 13), ('E', 14), ('F', 15)]

/-- A piece of a string as it may be written: a character itself or its escape, or a unit. -/
inductive WritesPiece : Token.Piece → List Char → Prop
  | plain {c : Char} (blank : ' ' ≤ c) (quote : c ≠ '"') (slash : c ≠ '\\') : WritesPiece (.char c) [c]
  | short {letter c : Char} (h : (letter, c) ∈ shortEscapes) : WritesPiece (.char c) ['\\', letter]
  | unit {a b c d : Char} {w x y z : Nat} (ha : (a, w) ∈ hexDigits) (hb : (b, x) ∈ hexDigits)
      (hc : (c, y) ∈ hexDigits) (hd : (d, z) ∈ hexDigits) :
      WritesPiece (.unit (((w * 16 + x) * 16 + y) * 16 + z)) ['\\', 'u', a, b, c, d]

inductive WritesPieces : List Token.Piece → List Char → Prop
  | nil : WritesPieces [] []
  | cons {p : Token.Piece} {ps : List Token.Piece} {cs ds : List Char} (first : WritesPiece p cs)
      (later : WritesPieces ps ds) : WritesPieces (p :: ps) (cs ++ ds)

/-- The characters that pieces stand for. A character of the basic plane may be one unit;
any other one may be its two surrogates. -/
inductive Spells : List Token.Piece → List Char → Prop
  | nil : Spells [] []
  | char {ps : List Token.Piece} {cs : List Char} (c : Char) (later : Spells ps cs) :
      Spells (.char c :: ps) (c :: cs)
  | unit {ps : List Token.Piece} {cs : List Char} {c : Char} (h : c.toNat < 0x10000)
      (later : Spells ps cs) : Spells (.unit c.toNat :: ps) (c :: cs)
  | pair {ps : List Token.Piece} {cs : List Char} {c : Char} (h : 0x10000 ≤ c.toNat)
      (later : Spells ps cs) :
      Spells (.unit (0xD800 + (c.toNat - 0x10000) / 0x400) ::
        .unit (0xDC00 + (c.toNat - 0x10000) % 0x400) :: ps) (c :: cs)

/-- A string in quotes, with the text it stands for. A string with half of a surrogate pair
stands for none. -/
def WritesString (text? : Option String) (cs : List Char) : Prop :=
  ∃ ps body, cs = '"' :: (body ++ ['"']) ∧ WritesPieces ps body ∧
    ∀ s, text? = some s ↔ Spells ps s.toList

/-! ## Numbers -/

/-- Digits, of which there is one at least. -/
def AreDigits (cs : List Char) : Prop :=
  cs ≠ [] ∧ ∀ c ∈ cs, c.isDigit = true

/-- A whole part: zero, or digits that do not begin with it. -/
def WritesWhole (n : Nat) (cs : List Char) : Prop :=
  n = Token.natOf cs ∧ (cs = ['0'] ∨ (AreDigits cs ∧ cs.head? ≠ some '0'))

inductive WritesFraction : List Nat → List Char → Prop
  | none : WritesFraction [] []
  | digits {cs : List Char} (h : AreDigits cs) : WritesFraction (cs.map Token.digit) ('.' :: cs)

inductive WritesExponent : Option Int → List Char → Prop
  | none : WritesExponent none []
  | unsigned {e : Char} {cs : List Char} (letter : e = 'e' ∨ e = 'E') (h : AreDigits cs) :
      WritesExponent (some (Token.natOf cs)) (e :: cs)
  | plus {e : Char} {cs : List Char} (letter : e = 'e' ∨ e = 'E') (h : AreDigits cs) :
      WritesExponent (some (Token.natOf cs)) (e :: '+' :: cs)
  | minus {e : Char} {cs : List Char} (letter : e = 'e' ∨ e = 'E') (h : AreDigits cs) :
      WritesExponent (some (-(Token.natOf cs : Int))) (e :: '-' :: cs)

inductive WritesNumber : Number → List Char → Prop
  | mk {negative : Bool} {whole : Nat} {fraction : List Nat} {exponent : Option Int}
      {ws fs es : List Char} (hw : WritesWhole whole ws) (hf : WritesFraction fraction fs)
      (he : WritesExponent exponent es) :
      WritesNumber ⟨negative, whole, fraction, exponent⟩
        ((if negative then ['-'] else []) ++ (ws ++ (fs ++ es)))

/-! ## Documents -/

/-- What may stand between tokens. -/
def Blanks (cs : List Char) : Prop :=
  ∀ c ∈ cs, c ∈ [' ', '\t', '\n', '\r']

mutual

/-- A document and its texts. -/
inductive Written : Document → List Char → Prop
  | null : Written .null ['n', 'u', 'l', 'l']
  | true : Written (.bool true) ['t', 'r', 'u', 'e']
  | false : Written (.bool false) ['f', 'a', 'l', 's', 'e']
  | number {n : Number} {cs : List Char} (h : WritesNumber n cs) : Written (.number n) cs
  | text {text? : Option String} {cs : List Char} (h : WritesString text? cs) : Written (.text text?) cs
  | noItems {b : List Char} (hb : Blanks b) : Written (.array []) ('[' :: (b ++ [']']))
  | array {items : List Document} {cs : List Char} (h : WrittenItems items cs) :
      Written (.array items) ('[' :: (cs ++ [']']))
  | noMembers {b : List Char} (hb : Blanks b) : Written (.object []) ('{' :: (b ++ ['}']))
  | object {members : List (Option String × Document)} {cs : List Char}
      (h : WrittenMembers members cs) : Written (.object members) ('{' :: (cs ++ ['}']))

/-- Items with commas between them. -/
inductive WrittenItems : List Document → List Char → Prop
  | one {item : Document} {b cs e : List Char} (hb : Blanks b) (h : Written item cs) (he : Blanks e) :
      WrittenItems [item] (b ++ (cs ++ e))
  | more {item : Document} {items : List Document} {b cs e ds : List Char} (hb : Blanks b)
      (h : Written item cs) (he : Blanks e) (later : WrittenItems items ds) :
      WrittenItems (item :: items) (b ++ (cs ++ (e ++ ',' :: ds)))

/-- Members with commas between them. -/
inductive WrittenMembers : List (Option String × Document) → List Char → Prop
  | one {key : Option String} {value : Document} {b ks k v cs e : List Char} (hb : Blanks b)
      (hkey : WritesString key ks) (hk : Blanks k) (hv : Blanks v) (h : Written value cs)
      (he : Blanks e) : WrittenMembers [(key, value)] (b ++ (ks ++ (k ++ ':' :: (v ++ (cs ++ e)))))
  | more {key : Option String} {value : Document} {members : List (Option String × Document)}
      {b ks k v cs e ds : List Char} (hb : Blanks b)
      (hkey : WritesString key ks) (hk : Blanks k) (hv : Blanks v) (h : Written value cs)
      (he : Blanks e) (later : WrittenMembers members ds) :
      WrittenMembers ((key, value) :: members)
        (b ++ (ks ++ (k ++ ':' :: (v ++ (cs ++ (e ++ ',' :: ds))))))

end

/-- The texts of a document, with blanks around it. -/
def IsTextOf (text : String) (document : Document) : Prop :=
  ∃ b cs e, text.toList = b ++ (cs ++ e) ∧ Blanks b ∧ Written document cs ∧ Blanks e

namespace Token

/-! ## Scanning -/

theorem scan_lexeme {c : Char} {rest after : List Char} {t : Token} (hc : isBlank c = false)
    (h : lexeme c rest = some (t, after)) : scan (c :: rest) = t :: scan after := by
  rw [scan, if_neg (by simp [hc])]
  split
  · rename_i h'
    rw [h] at h'
    cases h'
    rfl
  · rename_i h'
    rw [h] at h'
    cases h'

theorem scan_blank {c : Char} (hc : isBlank c = true) (rest : List Char) :
    scan (c :: rest) = scan rest := by
  rw [scan, if_pos hc]

/-! ## Reading strings -/

theorem pieces_char {c : Char} (hquote : c ≠ '"') (hslash : c ≠ '\\') (hc : ¬ c < ' ')
    (rest : List Char) :
    pieces (c :: rest) = (pieces rest).map fun (ps, after) => (.char c :: ps, after) := by
  rw [pieces, if_neg hc]
  · simpa using hquote
  · intro a b c d tail hcons
    exact absurd hcons hslash
  · intro e tail hcons
    exact absurd hcons hslash

theorem hexDigit?_of_mem : ∀ d ∈ hexDigits, hexDigit? d.1 = some d.2 := by
  decide

theorem pieces_writesPiece {p : Piece} {cs : List Char} (h : WritesPiece p cs) (rest : List Char) :
    pieces (cs ++ rest) = (pieces rest).map fun (ps, after) => (p :: ps, after) := by
  cases h with
  | plain blank quote slash => exact pieces_char quote slash (Char.not_lt.mpr blank) rest
  | short h =>
    simp only [shortEscapes, List.mem_cons, Prod.mk.injEq, List.not_mem_nil, or_false] at h
    rcases h with ⟨rfl, rfl⟩ | ⟨rfl, rfl⟩ | ⟨rfl, rfl⟩ | ⟨rfl, rfl⟩ | ⟨rfl, rfl⟩ | ⟨rfl, rfl⟩ |
      ⟨rfl, rfl⟩ | ⟨rfl, rfl⟩ <;> rfl
  | unit ha hb hc hd =>
    have ha := hexDigit?_of_mem _ ha
    have hb := hexDigit?_of_mem _ hb
    have hc := hexDigit?_of_mem _ hc
    have hd := hexDigit?_of_mem _ hd
    simp only at ha hb hc hd
    simp [pieces, unit?, ha, hb, hc, hd]

theorem pieces_writesPieces {ps : List Piece} {cs : List Char} (h : WritesPieces ps cs)
    (rest : List Char) : pieces (cs ++ '"' :: rest) = some (ps, rest) := by
  induction h with
  | nil => rfl
  | cons first _ ih => rw [List.append_assoc, pieces_writesPiece first, ih]; rfl

/-- The units that are written have four digits. -/
theorem unit_lt_of_mem {ps : List Piece} {cs : List Char} (h : WritesPieces ps cs) {n : Nat}
    (hn : .unit n ∈ ps) : n < 0x10000 := by
  have hdigit : ∀ d ∈ hexDigits, d.2 < 16 := by decide
  induction h with
  | nil => cases hn
  | cons first _ ih =>
    rcases List.mem_cons.mp hn with rfl | hn
    · cases first with
      | unit ha hb hc hd =>
        have ha := hdigit _ ha
        have hb := hdigit _ hb
        have hc := hdigit _ hc
        have hd := hdigit _ hd
        simp only at ha hb hc hd
        omega
    · exact ih hn

/-- A character is no surrogate. -/
theorem toNat_bounds (c : Char) :
    (c.toNat < 0xD800 ∨ 0xE000 ≤ c.toNat) ∧ c.toNat < 0x110000 := by
  rcases c.valid with h | h
  · exact ⟨.inl h, Nat.lt_trans h (by decide)⟩
  · exact ⟨.inr (Nat.succ_le_of_lt h.1), h.2⟩

theorem toNat_ofNat_of_valid {n : Nat} (h : n.isValidChar) : (Char.ofNat n).toNat = n := by
  rw [Char.ofNat, dif_pos h]
  rfl

theorem textOf_of_spells {ps : List Piece} {cs : List Char} (h : Spells ps cs) : textOf ps = some cs := by
  induction h with
  | nil => rfl
  | char c _ ih => rw [textOf, ih]; rfl
  | @unit ps cs c h _ ih =>
    rw [textOf.eq_def]
    simp only [if_pos (toNat_bounds c).1, ih, Option.map_some, Char.ofNat_toNat]
  | @pair ps cs c h _ ih =>
    have hlt := (toNat_bounds c).2
    have hchar : 0x10000 + (0xD800 + (c.toNat - 0x10000) / 0x400 - 0xD800) * 0x400
        + (0xDC00 + (c.toNat - 0x10000) % 0x400 - 0xDC00) = c.toNat := by omega
    rw [textOf.eq_def]
    simp only
    rw [if_neg (by omega), if_pos (by omega), ih, Option.map_some, hchar, Char.ofNat_toNat]

theorem spells_of_textOf {ps : List Piece} {cs : List Char} (h : textOf ps = some cs)
    (hunits : ∀ n, .unit n ∈ ps → n < 0x10000) : Spells ps cs := by
  fun_induction textOf ps generalizing cs with
  | case1 => 
    obtain rfl := Option.some.inj h
    exact .nil
  | case2 c rest ih =>
    obtain ⟨ds, hds, rfl⟩ := Option.map_eq_some_iff.mp h
    exact .char c (ih hds fun n hn => hunits n (List.mem_cons_of_mem _ hn))
  | case3 n rest hn ih =>
    obtain ⟨ds, hds, rfl⟩ := Option.map_eq_some_iff.mp h
    have hlt := hunits n List.mem_cons_self
    have hc : (Char.ofNat n).toNat = n := toNat_ofNat_of_valid (hn.imp id fun h => ⟨h, by omega⟩)
    have hrest := ih hds fun n hn => hunits n (List.mem_cons_of_mem _ hn)
    have hspells : Spells (.unit (Char.ofNat n).toNat :: rest) (Char.ofNat n :: ds) :=
      .unit (by omega) hrest
    rwa [hc] at hspells
  | case4 n hn m rest hm ih =>
    obtain ⟨ds, hds, rfl⟩ := Option.map_eq_some_iff.mp h
    obtain ⟨hhigh, hlow, hlow'⟩ := hm
    have hrest := ih hds fun n hn => hunits n (by simp [hn])
    obtain ⟨k, hk⟩ : ∃ k, k = 0x10000 + (n - 0xD800) * 0x400 + (m - 0xDC00) := ⟨_, rfl⟩
    have hc : (Char.ofNat k).toNat = k := toNat_ofNat_of_valid (.inr ⟨by omega, by omega⟩)
    have hn : 0xD800 + ((Char.ofNat k).toNat - 0x10000) / 0x400 = n := by omega
    have hm : 0xDC00 + ((Char.ofNat k).toNat - 0x10000) % 0x400 = m := by omega
    have hspells := Spells.pair (by omega : 0x10000 ≤ (Char.ofNat k).toNat) hrest
    rwa [hn, hm, hk] at hspells
  | case5 => cases h
  | case6 => cases h

/-- What is read of a string in quotes is the text that it stands for. -/
theorem scan_string {text? : Option String} {cs : List Char} (h : WritesString text? cs)
    (rest : List Char) : scan (cs ++ rest) = .text text? :: scan rest := by
  obtain ⟨ps, body, rfl, hbody, htext⟩ := h
  have hvalue : (textOf ps).map String.ofList = text? := by
    cases text? with
    | some s =>
      rw [textOf_of_spells ((htext s).mp rfl), Option.map_some, String.ofList_toList]
    | none =>
      rw [Option.map_eq_none_iff, Option.eq_none_iff_forall_ne_some]
      intro cs hcs
      have hspells := spells_of_textOf hcs fun n => unit_lt_of_mem hbody
      exact absurd ((htext (String.ofList cs)).mpr (by rwa [String.toList_ofList])) nofun
  rw [List.cons_append, List.append_assoc, List.singleton_append]
  refine scan_lexeme (by decide) ?_
  simp only [lexeme, pieces_writesPieces hbody, Option.map_some, hvalue]

/-! ## Reading numbers -/

/-- A text that does not go on with a number before it. -/
def EndsNumber (s : List Char) : Prop :=
  ∀ c ∈ s.head?, c.isDigit = false ∧ c ≠ '.' ∧ c ≠ 'e' ∧ c ≠ 'E'

theorem endsNumber_cons {c : Char} (h : c.isDigit = false ∧ c ≠ '.' ∧ c ≠ 'e' ∧ c ≠ 'E')
    (rest : List Char) : EndsNumber (c :: rest) := by
  intro d hd
  cases hd
  exact h

/-- A text that does not go on with digits before it. -/
def EndsDigits (s : List Char) : Prop :=
  ∀ c ∈ s.head?, c.isDigit = false

theorem EndsNumber.endsDigits {s : List Char} (h : EndsNumber s) : EndsDigits s :=
  fun c hc => (h c hc).1

theorem takeWhile_digits {cs rest : List Char} (h : ∀ c ∈ cs, c.isDigit = true) (hrest : EndsDigits rest) :
    (cs ++ rest).takeWhile Char.isDigit = cs ∧ (cs ++ rest).dropWhile Char.isDigit = rest := by
  rw [List.takeWhile_append_of_pos h, List.dropWhile_append_of_pos h]
  cases rest with
  | nil => simp
  | cons c rest => simp [hrest c rfl]

theorem whole?_writesWhole {n : Nat} {cs rest : List Char} (h : WritesWhole n cs)
    (hrest : EndsDigits rest) : whole? (cs ++ rest) = some (n, rest) := by
  obtain ⟨rfl, rfl | ⟨⟨hne, hdigits⟩, hzero⟩⟩ := h
  · rfl
  · obtain ⟨htake, hdrop⟩ := takeWhile_digits hdigits hrest
    unfold whole?
    split
    · rename_i after hcons
      obtain ⟨c, ds, rfl⟩ := List.exists_cons_of_ne_nil hne
      obtain ⟨rfl, -⟩ := List.cons.inj hcons
      exact absurd rfl hzero
    · rw [htake, hdrop, if_neg hne]

theorem fraction?_writesFraction {ds : List Nat} {cs rest : List Char} (h : WritesFraction ds cs)
    (hrest : EndsDigits rest) (hpoint : ∀ c ∈ rest.head?, c ≠ '.') :
    fraction? (cs ++ rest) = some (ds, rest) := by
  cases h with
  | none =>
    rw [List.nil_append]
    unfold fraction?
    split
    · exact absurd rfl (hpoint '.' rfl)
    · rfl
  | digits h =>
    obtain ⟨htake, hdrop⟩ := takeWhile_digits h.2 hrest
    rw [List.cons_append, fraction?, htake, hdrop, if_neg h.1]

theorem signedDigits?_digits {cs rest : List Char} (h : AreDigits cs) (hrest : EndsDigits rest) :
    signedDigits? (cs ++ rest) = some ((natOf cs : Int), rest) := by
  obtain ⟨htake, hdrop⟩ := takeWhile_digits h.2 hrest
  obtain ⟨c, ds, rfl⟩ := List.exists_cons_of_ne_nil h.1
  have hc := h.2 c List.mem_cons_self
  unfold signedDigits?
  split
  rename_i negative t heq
  split at heq
  · rename_i hcons
    obtain ⟨rfl, -⟩ := List.cons.inj hcons
    cases hc
  · rename_i hcons
    obtain ⟨rfl, -⟩ := List.cons.inj hcons
    cases hc
  · obtain ⟨rfl, rfl⟩ := Prod.mk.inj heq
    rw [htake, hdrop, if_neg h.1]
    rfl

theorem signedDigits?_sign {cs rest : List Char} (h : AreDigits cs) (hrest : EndsDigits rest) :
    signedDigits? ('+' :: (cs ++ rest)) = some ((natOf cs : Int), rest) ∧
      signedDigits? ('-' :: (cs ++ rest)) = some (-(natOf cs : Int), rest) := by
  obtain ⟨htake, hdrop⟩ := takeWhile_digits h.2 hrest
  simp [signedDigits?, htake, hdrop, h.1]

theorem exponent?_writesExponent {e : Option Int} {cs rest : List Char} (h : WritesExponent e cs)
    (hrest : EndsNumber rest) : exponent? (cs ++ rest) = some (e, rest) := by
  cases h with
  | none =>
    rw [List.nil_append]
    unfold exponent?
    split
    · exact absurd rfl (hrest 'e' rfl).2.2.1
    · exact absurd rfl (hrest 'E' rfl).2.2.2
    · rfl
  | unsigned letter h =>
    have hdigits := signedDigits?_digits h hrest.endsDigits
    rcases letter with rfl | rfl <;> simp [exponent?, hdigits]
  | plus letter h =>
    have hdigits := (signedDigits?_sign h hrest.endsDigits).1
    rcases letter with rfl | rfl <;> simp [exponent?, hdigits]
  | minus letter h =>
    have hdigits := (signedDigits?_sign h hrest.endsDigits).2
    rcases letter with rfl | rfl <;> simp [exponent?, hdigits]

theorem endsDigits_cons {c : Char} (h : c.isDigit = false) (rest : List Char) : EndsDigits (c :: rest) := by
  intro d hd
  cases hd
  exact h

theorem ends_exponent {e : Option Int} {cs rest : List Char} (h : WritesExponent e cs)
    (hrest : EndsNumber rest) : EndsDigits (cs ++ rest) ∧ ∀ c ∈ (cs ++ rest).head?, c ≠ '.' := by
  cases h with
  | none => exact ⟨hrest.endsDigits, fun c hc => (hrest c hc).2.1⟩
  | unsigned letter | plus letter | minus letter =>
    rcases letter with rfl | rfl <;>
      exact ⟨endsDigits_cons (by decide) _, fun c hc => by cases hc; decide⟩

theorem ends_fraction {ds : List Nat} {cs rest : List Char} (h : WritesFraction ds cs)
    (hrest : EndsDigits rest) : EndsDigits (cs ++ rest) := by
  cases h with
  | none => exact hrest
  | digits => exact endsDigits_cons (by decide) _

theorem magnitude?_writes {negative : Bool} {whole : Nat} {fraction : List Nat} {exponent : Option Int}
    {ws fs es rest : List Char} (hw : WritesWhole whole ws) (hf : WritesFraction fraction fs)
    (he : WritesExponent exponent es) (hrest : EndsNumber rest) :
    magnitude? negative (ws ++ (fs ++ (es ++ rest))) = some (⟨negative, whole, fraction, exponent⟩, rest) := by
  obtain ⟨hdigits, hpoint⟩ := ends_exponent he hrest
  simp [magnitude?, whole?_writesWhole hw (ends_fraction hf hdigits),
    fraction?_writesFraction hf hdigits hpoint, exponent?_writesExponent he hrest]

theorem exists_whole_eq_cons {n : Nat} {cs : List Char} (h : WritesWhole n cs) :
    ∃ c ds, cs = c :: ds ∧ c.isDigit = true := by
  obtain ⟨-, rfl | ⟨⟨hne, hdigits⟩, -⟩⟩ := h
  · exact ⟨'0', [], rfl, by decide⟩
  · obtain ⟨c, ds, rfl⟩ := List.exists_cons_of_ne_nil hne
    exact ⟨c, ds, rfl, hdigits c List.mem_cons_self⟩

theorem number?_writesNumber {n : Number} {cs rest : List Char} (h : WritesNumber n cs)
    (hrest : EndsNumber rest) : number? (cs ++ rest) = some (n, rest) := by
  obtain ⟨hw, hf, he⟩ := h
  rename_i negative whole fraction exponent ws fs es
  have hmagnitude : magnitude? negative (ws ++ (fs ++ (es ++ rest))) = _ := magnitude?_writes hw hf he hrest
  simp only [List.append_assoc]
  cases negative with
  | true => exact hmagnitude
  | false =>
    obtain ⟨c, ds, rfl, hc⟩ := exists_whole_eq_cons hw
    unfold number?
    split
    · rename_i after hcons
      obtain ⟨rfl, -⟩ := List.cons.inj hcons
      cases hc
    · exact hmagnitude

/-- The first character of a number begins nothing else. -/
theorem lexeme_of_number {c : Char} (h : c.isDigit = true ∨ c = '-') (rest : List Char) :
    isBlank c = false ∧
      lexeme c rest = (number? (c :: rest)).map fun (n, after) => (.number n, after) := by
  have hne : ∀ d, d.isDigit = false → d ≠ '-' → c ≠ d := by
    rintro d hd hminus rfl
    rcases h with h | h
    · rw [h] at hd; cases hd
    · exact hminus h
  refine ⟨?_, ?_⟩
  · simp [isBlank, hne]
  · unfold lexeme
    split <;> first | rfl | exact absurd rfl (hne _ (by decide) (by decide))

theorem scan_number {n : Number} {cs rest : List Char} (h : WritesNumber n cs) (hrest : EndsNumber rest) :
    scan (cs ++ rest) = .number n :: scan rest := by
  have hnumber := number?_writesNumber h hrest
  obtain ⟨c, ds, rfl, hc⟩ : ∃ c ds, cs = c :: ds ∧ (c.isDigit = true ∨ c = '-') := by
    obtain ⟨hw, -, -⟩ := h
    rename_i negative _ _ _ _ _ _
    cases negative with
    | true => exact ⟨'-', _, rfl, .inr rfl⟩
    | false =>
      obtain ⟨c, ds, rfl, hc⟩ := exists_whole_eq_cons hw
      exact ⟨c, _, rfl, .inl hc⟩
  rw [List.cons_append] at hnumber ⊢
  obtain ⟨hblank, hlexeme⟩ := lexeme_of_number hc (ds ++ rest)
  refine scan_lexeme hblank ?_
  rw [hlexeme, hnumber]
  rfl

end Token

end MemberAudit.Json
