/-
Printing a value and reading the text back. `Document.ofValue` is the document
that stands for a value.

`read_document`: the text of a value, ended by a new line, is read as that
document, with nothing left over. `inRange_ofInt`: integers of up to 53 bits lie
in the range of numbers, so that a document made of them is not refused.
-/
import MemberAudit.Proofs.Json.ReadWritten
import MemberAudit.Report.Listing

namespace MemberAudit.Json

namespace Document

mutual

/-- A value as a document. -/
def ofValue : Value → Document
  | .bool b => .bool b
  | .int n => .number (.ofInt n)
  | .text s => .text (some s)
  | .array items => .array (ofItems items)
  | .object members => .object (ofMembers members)

def ofItems : List Value → List Document
  | [] => []
  | item :: items => ofValue item :: ofItems items

def ofMembers : List (String × Value) → List (Option String × Document)
  | [] => []
  | (key, value) :: members => (some key, ofValue value) :: ofMembers members

end

theorem ofItems_eq_map (items : List Value) : ofItems items = items.map ofValue := by
  induction items with
  | nil => rfl
  | cons item items ih => rw [ofItems, ih]; rfl

end Document

namespace Token

/-- The piece that a character is printed as. -/
def pieceOf (c : Char) : Piece :=
  if c < ' ' ∧ c ∉ ['\x08', '\x0c', '\n', '\r', '\t'] then .unit c.toNat else .char c

/-- The four digits after a `\u` for a character below the blank. -/
theorem writesPiece_hexByte {n : Nat} (h : n < 32) :
    WritesPiece (.unit n) ['\\', 'u', '0', '0', Text.hexDigit (n / 16), Text.hexDigit (n % 16)] := by
  have hdigits : ∀ n < 32, (Text.hexDigit (n / 16), n / 16) ∈ hexDigits ∧
      (Text.hexDigit (n % 16), n % 16) ∈ hexDigits := by decide
  obtain ⟨hhigh, hlow⟩ := hdigits n h
  have hunit := WritesPiece.unit (a := '0') (b := '0') (w := 0) (x := 0) (by decide) (by decide) hhigh hlow
  have hn : ((0 * 16 + 0) * 16 + n / 16) * 16 + n % 16 = n := by omega
  rwa [hn] at hunit

theorem writesPiece_escape (c : Char) : WritesPiece (pieceOf c) (Value.escape c) := by
  by_cases hshort : c ∈ ['"', '\\', '\x08', '\x0c', '\n', '\r', '\t']
  · simp only [List.mem_cons, List.not_mem_nil, or_false] at hshort
    rcases hshort with rfl | rfl | rfl | rfl | rfl | rfl | rfl <;> exact .short (by decide)
  · simp only [List.mem_cons, List.not_mem_nil, or_false, not_or] at hshort
    obtain ⟨h₁, h₂, h₃, h₄, h₅, h₆, h₇⟩ := hshort
    by_cases hc : c < ' '
    · have hn : c.toNat < 32 := hc
      have hbyte : c.toUInt8.toNat = c.toNat := by
        rw [Char.toUInt8, UInt32.toNat_toUInt8]
        exact Nat.mod_eq_of_lt (Nat.lt_trans hn (by decide))
      have hpiece : pieceOf c = .unit c.toNat := by simp [pieceOf, hc, h₃, h₄, h₅, h₆, h₇]
      simp only [Value.escape, h₁, h₂, h₃, h₄, h₅, h₆, h₇, hc, if_true, if_false, Text.hexByte, hbyte,
        List.cons_append, List.nil_append, hpiece]
      exact writesPiece_hexByte hn
    · have hpiece : pieceOf c = .char c := by simp [pieceOf, hc]
      simp only [Value.escape, h₁, h₂, h₃, h₄, h₅, h₆, h₇, hc, if_false, hpiece]
      exact .plain (Char.not_lt.mp hc) h₁ h₂

theorem writesPieces_escape (s : List Char) : WritesPieces (s.map pieceOf) (s.flatMap Value.escape) := by
  induction s with
  | nil => exact .nil
  | cons c s ih => exact .cons (writesPiece_escape c) ih

theorem spells_map_pieceOf (s : List Char) : Spells (s.map pieceOf) s := by
  induction s with
  | nil => exact .nil
  | cons c s ih =>
    rw [List.map_cons, pieceOf]
    split
    · rename_i hc
      exact .unit (Nat.lt_trans (show c.toNat < 32 from hc.1) (by decide)) ih
    · exact .char c ih

/-- A text in quotes is a way to write it. -/
theorem writesString_quote (s : String) : WritesString (some s) (Value.quote s) := by
  refine ⟨s.toList.map pieceOf, s.toList.flatMap Value.escape, rfl, writesPieces_escape s.toList, ?_⟩
  intro t
  constructor
  · rintro ⟨⟩
    exact spells_map_pieceOf s.toList
  · intro ht
    have htext := textOf_of_spells ht
    rw [textOf_of_spells (spells_map_pieceOf s.toList)] at htext
    rw [String.toList_injective (Option.some.inj htext)]

theorem natOf_toDigits (n : Nat) : natOf (Nat.toDigits 10 n) = n := by
  have h := Nat.ofDigitChars_ten_toDigits (n := n)
  rw [Nat.ofDigitChars_eq_foldl] at h
  simpa only [natOf, digit, Nat.mul_comm] using h

/-- The first digit, which is zero for zero only. -/
theorem exists_toDigits_eq_cons (n : Nat) :
    ∃ c cs, Nat.toDigits 10 n = c :: cs ∧ (0 < n → c ≠ '0') := by
  induction n using Nat.strongRecOn with
  | _ n ih =>
    by_cases hlt : n < 10
    · refine ⟨n.digitChar, [], Nat.toDigits_of_lt_base hlt, ?_⟩
      have key : ∀ n < 10, 0 < n → n.digitChar ≠ '0' := by decide
      exact key n hlt
    · obtain ⟨c, cs, hcs, hc⟩ := ih (n / 10) (by omega)
      rw [Nat.toDigits_of_base_le (by decide) (by omega), hcs]
      exact ⟨c, _, rfl, fun _ => hc (by omega)⟩

theorem writesWhole_toDigits (n : Nat) : WritesWhole n (Nat.toDigits 10 n) := by
  refine ⟨(natOf_toDigits n).symm, ?_⟩
  by_cases hn : n = 0
  · exact .inl (by rw [hn]; rfl)
  · obtain ⟨c, cs, hcs, hc⟩ := exists_toDigits_eq_cons n
    refine .inr ⟨⟨Nat.toDigits_ne_nil, ?_⟩, by simpa [hcs] using hc (by omega)⟩
    exact fun c hc => Nat.isDigit_of_mem_toDigits (by decide) (by decide) hc

/-- An integer in decimal digits is a way to write it. -/
theorem writesNumber_decimalChars (n : Int) : WritesNumber (.ofInt n) (Text.decimalChars n) := by
  have hdigits : WritesNumber ⟨n < 0, n.natAbs, [], none⟩ _ := .mk (writesWhole_toDigits n.natAbs) .none .none
  rw [List.append_nil, List.append_nil] at hdigits
  by_cases hn : n < 0
  · simpa [Text.decimalChars, Number.ofInt, hn] using hdigits
  · simpa [Text.decimalChars, Number.ofInt, hn] using hdigits

end Token

namespace Document

/-! ## Printing -/

theorem blanks_newLine (depth : Nat) : Blanks (Value.newLine depth) := by
  intro c hc
  rcases List.mem_cons.mp hc with rfl | hc
  · decide
  · rw [List.eq_of_mem_replicate hc]
    decide

theorem blanks_blank : Blanks [' '] := by
  intro c hc
  rw [List.mem_singleton.mp hc]
  decide

mutual

/-- A printed value is written by the grammar. -/
theorem written_chars (depth : Nat) : ∀ value : Value, Written (ofValue value) (value.chars depth)
  | .bool true => .true
  | .bool false => .false
  | .int n => .number (Token.writesNumber_decimalChars n)
  | .text s => .text (Token.writesString_quote s)
  | .array [] => .noItems (b := []) nofun
  | .array (item :: items) => by
    have hitems := Written.array (writtenItems_chars (depth + 1) item items (blanks_newLine depth))
    simpa only [ofValue, Value.chars, List.cons_append, List.append_assoc] using hitems
  | .object [] => .noMembers (b := []) nofun
  | .object ((key, value) :: members) => by
    have hmembers :=
      Written.object (writtenMembers_chars (depth + 1) key value members (blanks_newLine depth))
    simpa only [ofValue, Value.chars, List.cons_append, List.append_assoc, List.nil_append]
      using hmembers
termination_by value => sizeOf value

theorem writtenItems_chars (depth : Nat) : ∀ (item : Value) (items : List Value) {e : List Char}, Blanks e →
    WrittenItems (ofItems (item :: items))
      (Value.newLine depth ++ (item.chars depth ++ (Value.itemChars depth items ++ e)))
  | item, [], e, he => .one (blanks_newLine depth) (written_chars depth item) he
  | item, next :: items, e, he => by
    have hmore := WrittenItems.more (blanks_newLine depth) (written_chars depth item) (e := []) nofun
      (writtenItems_chars depth next items he)
    simpa only [ofItems, Value.itemChars, List.cons_append, List.append_assoc, List.nil_append]
      using hmore
termination_by item items => sizeOf (item :: items)

theorem writtenMembers_chars (depth : Nat) : ∀ (key : String) (value : Value) (members : List (String × Value))
    {e : List Char}, Blanks e →
    WrittenMembers (ofMembers ((key, value) :: members))
      (Value.newLine depth ++ (Value.quote key ++ (':' :: ' ' ::
        (value.chars depth ++ (Value.memberChars depth members ++ e)))))
  | key, value, [], e, he =>
    .one (blanks_newLine depth) (Token.writesString_quote key) (k := []) nofun blanks_blank
      (written_chars depth value) he
  | key, value, (nextKey, next) :: members, e, he => by
    have hmore := WrittenMembers.more (blanks_newLine depth) (Token.writesString_quote key) (k := [])
      nofun blanks_blank (written_chars depth value) (e := []) nofun
      (writtenMembers_chars depth nextKey next members he)
    simpa only [ofMembers, Value.memberChars, List.cons_append, List.append_assoc, List.nil_append]
      using hmore
termination_by key value members => sizeOf ((key, value) :: members)

end

/-- A printed value is a text of its document. -/
theorem isTextOf_print (value : Value) : IsTextOf value.print (ofValue value) :=
  ⟨[], _, [], by simp [Value.print], nofun, written_chars 0 value, nofun⟩

/-- So is it with a new line after it. -/
theorem isTextOf_document (value : Value) : IsTextOf (Report.document value) (ofValue value) :=
  ⟨[], _, ['\n'], by simp [Report.document, Value.print], nofun, written_chars 0 value, blanks_newLine 0⟩

/-- **A printed value is read back.** -/
theorem read_document (value : Value) : read (Report.document value) = (ofValue value, []) :=
  (read_of_isTextOf (isTextOf_document value)).1

end Document

/-! ## Integers in range -/

namespace Number

theorem le_foldl_digits (value : Nat) (ds : List Nat) :
    value ≤ ds.foldl (fun v d => v * 10 + d) value := by
  induction ds generalizing value with
  | nil => exact Nat.le_refl _
  | cons d ds ih => exact Nat.le_trans (by omega) (ih (value * 10 + d))

theorem takeDigits_eq {value : Nat} {ds : List Nat}
    (h : ds.foldl (fun v d => v * 10 + d) value < 0x10000000000000000) :
    takeDigits value ds = (ds.foldl (fun v d => v * 10 + d) value, ds.length) := by
  induction ds generalizing value with
  | nil => rfl
  | cons d ds ih =>
    rw [List.foldl_cons] at h
    have hd := Nat.lt_of_le_of_lt (le_foldl_digits (value * 10 + d) ds) h
    simp only [takeDigits, if_pos hd, ih h, List.foldl_cons, List.length_cons]

theorem foldl_digits (n : Nat) : (digits n).foldl (fun v d => v * 10 + d) 0 = n := by
  rw [digits, List.foldl_map]
  exact Token.natOf_toDigits n

theorem inRange_ofInt {n : Int} (h : n.natAbs < 0x20000000000000) : (ofInt n).inRange = true := by
  have htake : takeDigits 0 (digits n.natAbs) = (n.natAbs, (digits n.natAbs).length) := by
    rw [takeDigits_eq] <;> rw [foldl_digits]
    omega
  have hround : roundDouble n.natAbs = n.natAbs := if_pos h
  have hone : roundDouble 1 = 1 := if_pos (by decide)
  simp only [inRange, ofInt, htake, takeDigits]
  split
  · rfl
  · have hbound : n.natAbs < 1 <<< 1024 := Nat.lt_trans h (by decide)
    simpa [hround, hone, -Nat.reduceShiftLeft] using hbound

end Number

end MemberAudit.Json
