/-
Texts that break off. A document is read only from tokens that close as many brackets
as they open (`level_read`), and a text by the grammar closes none but those that it has
opened, wherever it breaks off (`nested_written`): part of a string is no string, and
part of a number or a word holds no brackets.

`not_read_of_prefix`: so a text of an array or an object is read no more once it lacks its
end, be it only the last bracket. Of numbers this is false, since what is left of a number
may be a number.
-/
import MemberAudit.Proofs.Json.ReadWritten
import Mathlib.Algebra.Ring.Int.Defs

namespace MemberAudit.Json

/-! ## Brackets left open -/

namespace Token

/-- By how much a token deepens the nesting. -/
def deepens : Token → Int
  | .openArray | .openObject => 1
  | .closeArray | .closeObject => -1
  | _ => 0

/-- How many brackets tokens leave open. -/
def level (ts : List Token) : Int :=
  (ts.map deepens).sum

@[simp] theorem level_nil : level [] = 0 := rfl

@[simp] theorem level_cons (t : Token) (ts : List Token) : level (t :: ts) = t.deepens + level ts := by
  simp [level]

@[simp] theorem level_append (ts us : List Token) : level (ts ++ us) = level ts + level us := by
  simp [level]

end Token

namespace Document

open Token (level deepens)

mutual

/-- What is read of tokens closes as many brackets as it opens. -/
theorem level_valueOf : ∀ (steps : Nat) (ts : List Token), (valueOf steps ts).1.intact = true →
    level ts = level (valueOf steps ts).2
  | 0, _, h => by cases h
  | steps + 1, ts, h => by
    have hitems := level_itemsOf steps
    have hmembers := level_membersOf steps
    unfold valueOf at h ⊢
    split at h
    case h_1 heq => cases heq
    case h_2 | h_4 =>
      simp only [Token.level_cons, deepens]
      omega
    case h_3 rest _ heq =>
      cases heq
      have hrest := hitems rest h
      rw [Token.level_cons]
      change 1 + level rest = level (itemsOf steps rest).2
      omega
    case h_5 rest _ heq =>
      cases heq
      have hrest := hmembers rest h
      rw [Token.level_cons]
      change 1 + level rest = level (membersOf steps rest).2
      omega
    case h_6 | h_7 | h_8 | h_9 => simp [deepens]
    case h_10 => cases h

/-- Items close the array that they stand in. -/
theorem level_itemsOf : ∀ (steps : Nat) (ts : List Token), intactItems (itemsOf steps ts).1 = true →
    level ts = level (itemsOf steps ts).2 - 1
  | 0, _, h => by cases h
  | steps + 1, ts, h => by
    have hvalue := level_valueOf steps ts
    unfold itemsOf at h ⊢
    split at h
    · rename_i item rest heq
      rw [heq] at hvalue
      change (item.intact && intactItems (itemsOf steps rest).1) = true at h
      rw [Bool.and_eq_true] at h
      have hrest := level_itemsOf steps rest h.2
      rw [hvalue h.1, Token.level_cons]
      change 0 + level rest = level (itemsOf steps rest).2 - 1
      omega
    · rename_i item rest heq
      rw [heq] at hvalue
      simp only [intactItems, Bool.and_true] at h
      rw [hvalue h]
      simp only [Token.level_cons, deepens]
      omega
    · simp [intactItems, intact] at h

/-- So do members with their object. -/
theorem level_membersOf : ∀ (steps : Nat) (ts : List Token), intactMembers (membersOf steps ts).1 = true →
    level ts = level (membersOf steps ts).2 - 1
  | 0, _, h => by cases h
  | steps + 1, ts, h => by
    have hvalue := level_valueOf steps
    unfold membersOf at h ⊢
    split at h
    · rename_i key tokens heq
      cases heq
      replace hvalue := hvalue tokens
      simp only [Token.level_cons, deepens]
      split at h
      · rename_i value rest heq
        rw [heq] at hvalue
        change (value.intact && intactMembers (membersOf steps rest).1) = true at h
        rw [Bool.and_eq_true] at h
        have hrest := level_membersOf steps rest h.2
        rw [hvalue h.1, Token.level_cons]
        change 0 + (0 + (0 + level rest)) = level (membersOf steps rest).2 - 1
        omega
      · rename_i value rest heq
        rw [heq] at hvalue
        simp only [intactMembers, Bool.and_true] at h
        rw [hvalue h]
        simp only [Token.level_cons, deepens]
        omega
      · simp [intactMembers, intact] at h
    · cases h

end

theorem level_read {text : String} {d : Document} (h : read text = (d, [])) (hd : d.intact = true) :
    level (Token.scan text.toList) = 0 := by
  have hlevel := level_valueOf (2 * (Token.scan text.toList).length + 1) (Token.scan text.toList)
  change valueOf _ _ = _ at h
  rw [h] at hlevel
  exact hlevel hd

theorem level_tokens {d : Document} (hd : d.intact = true) : level d.tokens = 0 := by
  have hlevel := level_valueOf d.tokens.length (d.tokens ++ [])
  rw [valueOf_tokens d [] hd (Nat.le_refl _), List.append_nil] at hlevel
  exact hlevel hd

end Document

namespace Token

open Document (level_tokens intact_of_written)

/-! ## Text without brackets -/

def brackets : List Char := ['[', ']', '{', '}']

theorem deepens_of_lexeme {c : Char} {rest after : List Char} {t : Token}
    (h : lexeme c rest = some (t, after)) (hc : c ∉ brackets) : t.deepens = 0 := by
  unfold lexeme at h
  split at h
  case h_1 | h_2 | h_3 | h_4 => simp [brackets] at hc
  case h_5 | h_6 => cases h; rfl
  all_goals
    obtain ⟨_, _, heq⟩ := Option.map_eq_some_iff.mp h
    cases heq
    rfl

theorem scan_nil : scan [] = [] := by
  rw [scan]

theorem level_scan_of_not_mem {s : List Char} (h : ∀ c ∈ s, c ∉ brackets) : level (scan s) = 0 := by
  fun_induction scan s with
  | case1 => rfl
  | case2 c rest _ ih => exact ih fun d hd => h d (List.mem_cons_of_mem _ hd)
  | case3 c rest _ t after hlexeme ih =>
    have hafter := (lexeme_suffix hlexeme).subset
    rw [level_cons, deepens_of_lexeme hlexeme (h c List.mem_cons_self),
      ih fun d hd => h d (List.mem_cons_of_mem _ (hafter hd))]
    rfl
  | case4 => rfl

theorem not_mem_brackets_of_isDigit {c : Char} (h : c.isDigit = true) : c ∉ brackets := by
  intro hmem
  simp only [brackets, List.mem_cons, List.not_mem_nil, or_false] at hmem
  rcases hmem with rfl | rfl | rfl | rfl <;> cases h

theorem not_mem_brackets_of_writesNumber {n : Number} {cs : List Char} (h : WritesNumber n cs) :
    ∀ c ∈ cs, c ∉ brackets := by
  have hdigits : ∀ {ds : List Char}, AreDigits ds → ∀ c ∈ ds, c ∉ brackets :=
    fun h c hc => not_mem_brackets_of_isDigit (h.2 c hc)
  obtain ⟨⟨-, hw⟩, hf, he⟩ := h
  rename_i negative _ _ _ ws fs es
  intro c hc
  simp only [List.mem_append] at hc
  rcases hc with hc | hc | hc | hc
  · cases negative with
    | false => cases hc
    | true =>
      rw [List.mem_singleton.mp hc]
      decide
  · rcases hw with rfl | ⟨hw, -⟩
    · rw [List.mem_singleton.mp hc]
      decide
    · exact hdigits hw c hc
  · cases hf with
    | none => cases hc
    | digits h =>
      rcases List.mem_cons.mp hc with rfl | hc
      · decide
      · exact hdigits h c hc
  · cases he with
    | none => cases hc
    | unsigned letter h =>
      rcases List.mem_cons.mp hc with rfl | hc
      · rcases letter with rfl | rfl <;> decide
      · exact hdigits h c hc
    | plus letter h | minus letter h =>
      rcases List.mem_cons.mp hc with rfl | hc
      · rcases letter with rfl | rfl <;> decide
      · rcases List.mem_cons.mp hc with rfl | hc
        · decide
        · exact hdigits h c hc

/-! ## Text that nests -/

/-- A text that closes no brackets but those that it has opened, wherever it breaks off. -/
def Nested (s : List Char) : Prop :=
  ∀ p, p <+: s → 0 ≤ level (scan p)

theorem prefix_append_iff {p a b : List Char} : p <+: a ++ b ↔ p <+: a ∨ ∃ q, p = a ++ q ∧ q <+: b := by
  constructor
  · intro h
    rcases List.prefix_or_prefix_of_prefix h (List.prefix_append a b) with hp | ⟨q, rfl⟩
    · exact .inl hp
    · exact .inr ⟨q, rfl, (List.prefix_append_right_inj a).mp h⟩
  · rintro (h | ⟨q, rfl, hq⟩)
    · exact h.trans (List.prefix_append a b)
    · exact (List.prefix_append_right_inj a).mpr hq

/-- Two texts, of which the first is scanned by itself whatever is left of the second. -/
theorem Nested.append {a b : List Char} (ha : Nested a) (hb : Nested b)
    (h : ∀ q, q <+: b → level (scan (a ++ q)) = level (scan q)) : Nested (a ++ b) := by
  intro p hp
  rcases prefix_append_iff.mp hp with hp | ⟨q, rfl, hq⟩
  · exact ha p hp
  · rw [h q hq]
    exact hb q hq

theorem nested_of_not_mem {s : List Char} (h : ∀ c ∈ s, c ∉ brackets) : Nested s := by
  intro p hp
  exact Int.le_of_eq (level_scan_of_not_mem fun c hc => h c (hp.subset hc)).symm

theorem nested_blanks {b : List Char} (hb : Blanks b) : Nested b := by
  refine nested_of_not_mem ?_
  intro c hc
  have hblank := hb c hc
  simp only [List.mem_cons, List.not_mem_nil, or_false] at hblank
  rcases hblank with rfl | rfl | rfl | rfl <;> decide

theorem Nested.blanks_append {b s : List Char} (hs : Nested s) (hb : Blanks b) : Nested (b ++ s) :=
  (nested_blanks hb).append hs fun q _ => by rw [scan_blanks hb]

/-- A comma or a colon before a text. -/
theorem Nested.cons {c : Char} {s : List Char} (hs : Nested s) (hc : c = ',' ∨ c = ':') : Nested (c :: s) := by
  have hmark : Nested [c] := nested_of_not_mem (by rcases hc with rfl | rfl <;> simp [brackets])
  refine hmark.append hs ?_
  intro q _
  rcases hc with rfl | rfl <;>
    rw [List.singleton_append, scan_mark (by decide) (fun _ => rfl), level_cons] <;>
    exact Int.zero_add _

/-! ## Strings -/

theorem pieces_of_prefix_piece {p : Piece} {cs s : List Char} (h : WritesPiece p cs) (hs : s <+: cs)
    (hne : s ≠ cs) : pieces s = none := by
  cases h with
  | plain =>
    simp only [List.prefix_cons_iff, List.prefix_nil] at hs
    rcases hs with rfl | ⟨_, rfl, rfl⟩
    · rfl
    · exact absurd rfl hne
  | short =>
    simp only [List.prefix_cons_iff, List.prefix_nil] at hs
    rcases hs with rfl | ⟨_, rfl, rfl | ⟨_, rfl, rfl⟩⟩
    · rfl
    · rfl
    · exact absurd rfl hne
  | unit =>
    -- after the `u` too few digits are no unit, and `u` is no escape of one letter
    simp only [List.prefix_cons_iff, List.prefix_nil] at hs
    rcases hs with rfl | ⟨_, rfl, rfl | ⟨_, rfl, rfl | ⟨_, rfl, rfl |
      ⟨_, rfl, rfl | ⟨_, rfl, rfl | ⟨_, rfl, rfl⟩⟩⟩⟩⟩⟩
    all_goals first | rfl | exact absurd rfl hne

/-- What breaks off in a string has no end of it. -/
theorem pieces_of_prefix {ps : List Piece} {body s : List Char} (h : WritesPieces ps body)
    (hs : s <+: body) : pieces s = none := by
  induction h generalizing s with
  | nil =>
    rw [List.prefix_nil.mp hs]
    rfl
  | @cons p ps cs ds first _ ih =>
    rcases prefix_append_iff.mp hs with hs | ⟨q, rfl, hq⟩
    · by_cases heq : s = cs
      · rw [heq, ← List.append_nil cs, pieces_writesPiece first]
        rfl
      · exact pieces_of_prefix_piece first hs heq
    · rw [pieces_writesPiece first, ih hq]
      rfl

theorem scan_of_lexeme_eq_none {c : Char} {rest : List Char} (hc : isBlank c = false)
    (h : lexeme c rest = none) : scan (c :: rest) = [.stray] := by
  rw [scan, if_neg (by simp [hc])]
  split
  · rename_i h'
    rw [h] at h'
    cases h'
  · rfl

theorem nested_string {text? : Option String} {cs : List Char} (h : WritesString text? cs) : Nested cs := by
  have hwhole := scan_string h []
  rw [List.append_nil, scan_nil] at hwhole
  obtain ⟨ps, body, rfl, hbody, -⟩ := h
  intro p hp
  rcases List.prefix_cons_iff.mp hp with rfl | ⟨s, rfl, hs⟩
  · rw [scan_nil]
    exact Int.le_refl 0
  · rcases List.prefix_concat_iff.mp hs with rfl | hs
    · rw [hwhole]
      exact Int.le_refl 0
    · have hnone : lexeme '"' s = none := by
        simp only [lexeme, pieces_of_prefix hbody hs, Option.map_none]
      rw [scan_of_lexeme_eq_none (by decide) hnone]
      exact Int.le_refl 0

theorem Nested.string_append {text? : Option String} {cs s : List Char} (hs : Nested s)
    (h : WritesString text? cs) : Nested (cs ++ s) := by
  refine (nested_string h).append hs ?_
  intro q _
  rw [scan_string h, level_cons]
  exact Int.zero_add _

/-! ## Documents -/

theorem EndsNumber.start {s q : List Char} (h : EndsNumber s) (hq : q <+: s) : EndsNumber q := by
  intro c hc
  obtain ⟨r, rfl⟩ := hq
  cases q with
  | nil => cases hc
  | cons d q => exact h c hc

theorem level_scan_written {d : Document} {cs rest : List Char} (h : Written d cs) (hrest : EndsNumber rest) :
    level (scan (cs ++ rest)) = level (scan rest) := by
  rw [scan_written h hrest, level_append, level_tokens (intact_of_written h)]
  exact Int.zero_add _

theorem Nested.written_append {d : Document} {cs s : List Char} (hs : Nested s) (h : Written d cs)
    (hcs : Nested cs) (hend : EndsNumber s) : Nested (cs ++ s) :=
  hcs.append hs fun _ hq => level_scan_written h (hend.start hq)

/-- A bracket that opens leaves something open until the last character. -/
theorem level_pos_of_start {l r : Char} {s p : List Char} (hl : l = '[' ∨ l = '{') (hs : Nested s)
    (hp : p <+: l :: (s ++ [r])) (hne : p ≠ []) (hcut : p ≠ l :: (s ++ [r])) : 0 < level (scan p) := by
  rcases List.prefix_cons_iff.mp hp with rfl | ⟨q, rfl, hq⟩
  · exact absurd rfl hne
  · rcases List.prefix_concat_iff.mp hq with rfl | hq
    · exact absurd rfl hcut
    · have hinner := hs q hq
      have hopen : level (scan (l :: q)) = 1 + level (scan q) := by
        rcases hl with rfl | rfl <;> rw [scan_mark (by decide) (fun _ => rfl), level_cons] <;> rfl
      omega

theorem nested_enclosed {d : Document} {l r : Char} {s : List Char} (hl : l = '[' ∨ l = '{') (hs : Nested s)
    (h : Written d (l :: (s ++ [r]))) : Nested (l :: (s ++ [r])) := by
  intro p hp
  by_cases hne : p = []
  · rw [hne, scan_nil]
    exact Int.le_refl 0
  · by_cases hcut : p = l :: (s ++ [r])
    · have hend : EndsNumber [] := nofun
      have hwhole := level_scan_written h hend
      rw [List.append_nil, scan_nil] at hwhole
      rw [hcut, hwhole]
      exact Int.le_refl 0
    · exact Int.le_of_lt (level_pos_of_start hl hs hp hne hcut)

mutual

/-- **No text by the grammar closes a bracket before it opens it**, wherever it breaks off. -/
theorem nested_written : ∀ {d : Document} {cs : List Char}, Written d cs → Nested cs
  | _, _, .null | _, _, .true | _, _, .false => nested_of_not_mem (by simp [brackets])
  | _, _, .number h => nested_of_not_mem (not_mem_brackets_of_writesNumber h)
  | _, _, .text h => nested_string h
  | _, _, .noItems hb => nested_enclosed (.inl rfl) (nested_blanks hb) (.noItems hb)
  | _, _, .array h => nested_enclosed (.inl rfl) (nested_items h) (.array h)
  | _, _, .noMembers hb => nested_enclosed (.inr rfl) (nested_blanks hb) (.noMembers hb)
  | _, _, .object h => nested_enclosed (.inr rfl) (nested_members h) (.object h)

theorem nested_items : ∀ {ds : List Document} {cs : List Char}, WrittenItems ds cs → Nested cs
  | _, _, .one hb h he =>
    ((nested_blanks he).written_append h (nested_written h) (endsNumber_of_blanks he)).blanks_append hb
  | _, _, .more hb h he later =>
    ((((nested_items later).cons (.inl rfl)).blanks_append he).written_append h (nested_written h)
      (endsNumber_blanks he (endsNumber_cons (by decide) _))).blanks_append hb

theorem nested_members : ∀ {ms : List (Option String × Document)} {cs : List Char}, WrittenMembers ms cs →
    Nested cs
  | _, _, .one hb hkey hk hv h he => by
    have hvalue := (nested_blanks he).written_append h (nested_written h) (endsNumber_of_blanks he)
    exact ((((hvalue.blanks_append hv).cons (.inr rfl)).blanks_append hk).string_append hkey).blanks_append hb
  | _, _, .more hb hkey hk hv h he later => by
    have hlater := ((nested_members later).cons (.inl rfl)).blanks_append he
    have hvalue := hlater.written_append h (nested_written h)
      (endsNumber_blanks he (endsNumber_cons (by decide) _))
    exact ((((hvalue.blanks_append hv).cons (.inr rfl)).blanks_append hk).string_append hkey).blanks_append hb

end

end Token

namespace Document

/-- A document between brackets of its own. -/
def isBracketed : Document → Bool
  | .array _ | .object _ => true
  | _ => false

theorem level_pos_of_written {d : Document} {cs p : List Char} (h : Written d cs) (hd : d.isBracketed = true)
    (hp : p <+: cs) (hne : p ≠ []) (hcut : p ≠ cs) : 0 < Token.level (Token.scan p) := by
  cases h with
  | noItems hb => exact Token.level_pos_of_start (.inl rfl) (Token.nested_blanks hb) hp hne hcut
  | array h => exact Token.level_pos_of_start (.inl rfl) (Token.nested_items h) hp hne hcut
  | noMembers hb => exact Token.level_pos_of_start (.inr rfl) (Token.nested_blanks hb) hp hne hcut
  | object h => exact Token.level_pos_of_start (.inr rfl) (Token.nested_members h) hp hne hcut
  | null | true | false | number | text => cases hd

/-- **A text of an array or an object that lacks its end is no text of any document.** -/
theorem not_read_of_prefix {d e : Document} {cs p : List Char} (h : Written d cs) (hd : d.isBracketed = true)
    (hp : p <+: cs) (hcut : p ≠ cs) (hread : read (String.ofList p) = (e, [])) : e.intact = false := by
  rw [← Bool.not_eq_true]
  intro hintact
  have hlevel := level_read hread hintact
  rw [String.toList_ofList] at hlevel
  by_cases hne : p = []
  · have hnothing : read (String.ofList []) = (.cut, []) := by
      simp only [read, String.toList_ofList, Token.scan_nil]
      rfl
    rw [hne, hnothing] at hread
    cases hread
    cases hintact
  · have hpos := level_pos_of_written h hd hp hne hcut
    omega

mutual

/-- What stands for a value has no cut. -/
theorem intact_of_sound : ∀ {depth : Nat} {d : Document}, d.sound depth = true → d.intact = true
  | _, .null, _ | _, .bool _, _ | _, .number _, _ | _, .text _, _ => rfl
  | _, .array items, h => by
    simp only [sound, Bool.and_eq_true] at h
    exact intactItems_of_sound h.2
  | _, .object members, h => by
    simp only [sound, Bool.and_eq_true] at h
    exact intactMembers_of_sound h.2
  | _, .cut, h => by cases h

theorem intactItems_of_sound : ∀ {depth : Nat} {items : List Document},
    soundItems depth items = true → intactItems items = true
  | _, [], _ => rfl
  | _, item :: items, h => by
    simp only [soundItems, Bool.and_eq_true] at h
    rw [intactItems, intact_of_sound h.1, intactItems_of_sound h.2, Bool.and_self]

theorem intactMembers_of_sound : ∀ {depth : Nat} {members : List (Option String × Document)},
    soundMembers depth members = true → intactMembers members = true
  | _, [], _ => rfl
  | _, (key, value) :: members, h => by
    simp only [soundMembers, Bool.and_eq_true] at h
    rw [intactMembers, intact_of_sound h.1.2, intactMembers_of_sound h.2, Bool.and_self]

end

end Document

end MemberAudit.Json
