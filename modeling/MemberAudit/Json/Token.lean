/-
The tokens of a JSON text. Reading stops at the first character that begins no
token, which the token `stray` marks, so that every text has tokens (`scan`).

A string token holds its text, or nothing when one of its escapes names half of a
surrogate pair: such a string is well written, but stands for no text.
-/
import MemberAudit.Json.Number

namespace MemberAudit.Json

inductive Token where
  | openArray
  | closeArray
  | openObject
  | closeObject
  | comma
  | colon
  | null
  | bool (value : Bool)
  | number (value : Number)
  | text (value : Option String)
  | stray
  deriving DecidableEq, Repr

namespace Token

/-- The characters allowed between tokens. -/
def isBlank (c : Char) : Bool :=
  c = ' ' || c = '\t' || c = '\n' || c = '\r'

/-! ## Strings -/

/-- A piece of a string: a character, or the 16-bit unit of a `\u` escape. -/
inductive Piece where
  | char (c : Char)
  | unit (n : Nat)
  deriving DecidableEq, Repr

/-- The value of a hexadecimal digit of either case. -/
def hexDigit? (c : Char) : Option Nat :=
  if '0' ≤ c ∧ c ≤ '9' then some (c.toNat - '0'.toNat)
  else if 'a' ≤ c ∧ c ≤ 'f' then some (c.toNat - 'a'.toNat + 10)
  else if 'A' ≤ c ∧ c ≤ 'F' then some (c.toNat - 'A'.toNat + 10)
  else none

/-- The unit of four hexadecimal digits. -/
def unit? (a b c d : Char) : Option Nat := do
  let a ← hexDigit? a
  let b ← hexDigit? b
  let c ← hexDigit? c
  let d ← hexDigit? d
  return ((a * 16 + b) * 16 + c) * 16 + d

/-- The character of a one-letter escape. -/
def escaped? : Char → Option Char
  | '"' => some '"'
  | '\\' => some '\\'
  | '/' => some '/'
  | 'b' => some '\x08'
  | 'f' => some '\x0c'
  | 'n' => some '\n'
  | 'r' => some '\r'
  | 't' => some '\t'
  | _ => none

/-- The pieces of a string up to its closing quote, and what follows it. -/
def pieces : List Char → Option (List Piece × List Char)
  | [] => none
  | '"' :: rest => some ([], rest)
  | '\\' :: 'u' :: a :: b :: c :: d :: rest =>
    (unit? a b c d).bind fun n => (pieces rest).map fun (ps, after) => (.unit n :: ps, after)
  | '\\' :: e :: rest =>
    (escaped? e).bind fun c => (pieces rest).map fun (ps, after) => (.char c :: ps, after)
  | c :: rest =>
    if c < ' ' then none else (pieces rest).map fun (ps, after) => (.char c :: ps, after)

/-- The text of pieces: two units that make a surrogate pair are one character,
and half of a pair is none. -/
def textOf : List Piece → Option (List Char)
  | [] => some []
  | .char c :: rest => (textOf rest).map (c :: ·)
  | .unit n :: rest =>
    if n < 0xD800 ∨ 0xE000 ≤ n then (textOf rest).map (Char.ofNat n :: ·)
    else
      match rest with
      | .unit m :: rest =>
        if n < 0xDC00 ∧ 0xDC00 ≤ m ∧ m < 0xE000 then
          (textOf rest).map (Char.ofNat (0x10000 + (n - 0xD800) * 0x400 + (m - 0xDC00)) :: ·)
        else none
      | _ => none

/-! ## Numbers -/

/-- The value of a digit character. -/
def digit (c : Char) : Nat := c.toNat - '0'.toNat

/-- The value of a row of digits. -/
def natOf (ds : List Char) : Nat :=
  ds.foldl (fun n c => n * 10 + digit c) 0

/-- The whole part: a zero alone, or digits of which the first is not zero. -/
def whole? : List Char → Option (Nat × List Char)
  | '0' :: rest => some (0, rest)
  | s =>
    if s.takeWhile Char.isDigit = [] then none
    else some (natOf (s.takeWhile Char.isDigit), s.dropWhile Char.isDigit)

/-- The digits after the point. -/
def fraction? : List Char → Option (List Nat × List Char)
  | '.' :: rest =>
    if rest.takeWhile Char.isDigit = [] then none
    else some ((rest.takeWhile Char.isDigit).map digit, rest.dropWhile Char.isDigit)
  | s => some ([], s)

/-- The sign and digits of an exponent, after its letter. -/
def signedDigits? (s : List Char) : Option (Int × List Char) :=
  let (negative, s) : Bool × List Char :=
    match s with
    | '+' :: rest => (false, rest)
    | '-' :: rest => (true, rest)
    | s => (false, s)
  if s.takeWhile Char.isDigit = [] then none
  else
    let n := natOf (s.takeWhile Char.isDigit)
    some (if negative then -(n : Int) else n, s.dropWhile Char.isDigit)

/-- The exponent. -/
def exponent? : List Char → Option (Option Int × List Char)
  | 'e' :: rest => (signedDigits? rest).map fun (n, after) => (some n, after)
  | 'E' :: rest => (signedDigits? rest).map fun (n, after) => (some n, after)
  | s => some (none, s)

/-- A number without its sign. -/
def magnitude? (negative : Bool) (s : List Char) : Option (Number × List Char) := do
  let (whole, s) ← whole? s
  let (fraction, s) ← fraction? s
  let (exponent, s) ← exponent? s
  return (⟨negative, whole, fraction, exponent⟩, s)

/-- A number. -/
def number? : List Char → Option (Number × List Char)
  | '-' :: rest => magnitude? true rest
  | s => magnitude? false s

/-! ## Tokens -/

/-- What follows a word, if the text begins with it. -/
def after? : List Char → List Char → Option (List Char)
  | [], s => some s
  | c :: word, d :: s => if c = d then after? word s else none
  | _ :: _, [] => none

/-- The token that begins with the character `c`, and what follows it. -/
def lexeme (c : Char) (rest : List Char) : Option (Token × List Char) :=
  match c with
  | '[' => some (.openArray, rest)
  | ']' => some (.closeArray, rest)
  | '{' => some (.openObject, rest)
  | '}' => some (.closeObject, rest)
  | ',' => some (.comma, rest)
  | ':' => some (.colon, rest)
  | '"' => (pieces rest).map fun (ps, after) => (.text ((textOf ps).map String.ofList), after)
  | 'n' => (after? ['u', 'l', 'l'] rest).map fun after => (.null, after)
  | 't' => (after? ['r', 'u', 'e'] rest).map fun after => (.bool true, after)
  | 'f' => (after? ['a', 'l', 's', 'e'] rest).map fun after => (.bool false, after)
  | c => (number? (c :: rest)).map fun (n, after) => (.number n, after)

/-! What is left after a token is an end of the text before it. -/

theorem pieces_suffix {s after : List Char} {ps : List Piece} (h : pieces s = some (ps, after)) :
    after <:+ s := by
  fun_induction pieces s generalizing ps with
  | case1 => simp at h
  | case2 rest =>
    simp only [Option.some.injEq, Prod.mk.injEq] at h
    exact h.2 ▸ List.suffix_cons _ _
  | case3 a b c d rest ih =>
    simp only [Option.bind_eq_some_iff, Option.map_eq_some_iff, Prod.exists, Prod.mk.injEq] at h
    obtain ⟨_, _, qs, _, h, _, rfl⟩ := h
    exact (ih h).trans (List.suffix_append ['\\', 'u', a, b, c, d] rest)
  | case4 e rest _ ih =>
    simp only [Option.bind_eq_some_iff, Option.map_eq_some_iff, Prod.exists, Prod.mk.injEq] at h
    obtain ⟨_, _, qs, _, h, _, rfl⟩ := h
    exact (ih h).trans (List.suffix_append ['\\', e] rest)
  | case5 => simp at h
  | case6 c rest _ _ _ _ ih =>
    simp only [Option.map_eq_some_iff, Prod.exists, Prod.mk.injEq] at h
    obtain ⟨qs, _, h, _, rfl⟩ := h
    exact (ih h).trans (List.suffix_cons c rest)

theorem after?_suffix {word s after : List Char} (h : after? word s = some after) : after <:+ s := by
  fun_induction after? word s with
  | case1 => exact Option.some.inj h ▸ List.suffix_rfl
  | case2 word d s ih => exact (ih h).trans (List.suffix_cons d s)
  | case3 => simp at h
  | case4 => simp at h

theorem dropWhile_suffix_tail {p : Char → Bool} {s : List Char} (h : s.takeWhile p ≠ []) :
    s.dropWhile p <:+ s.tail := by
  cases s with
  | nil => simp at h
  | cons c s =>
    by_cases hc : p c
    · rw [List.dropWhile_cons_of_pos hc]
      exact List.dropWhile_suffix p
    · simp [hc] at h

theorem whole?_suffix {s after : List Char} {n : Nat} (h : whole? s = some (n, after)) :
    after <:+ s.tail := by
  unfold whole? at h
  split at h
  · simp only [Option.some.injEq, Prod.mk.injEq] at h
    exact h.2 ▸ List.suffix_rfl
  · split at h
    · simp at h
    · next hs =>
      simp only [Option.some.injEq, Prod.mk.injEq] at h
      exact h.2 ▸ dropWhile_suffix_tail hs

theorem fraction?_suffix {s after : List Char} {ds : List Nat} (h : fraction? s = some (ds, after)) :
    after <:+ s := by
  unfold fraction? at h
  split at h
  · split at h
    · simp at h
    · next rest _ =>
      simp only [Option.some.injEq, Prod.mk.injEq] at h
      exact h.2 ▸ (List.dropWhile_suffix _).trans (List.suffix_cons _ _)
  · simp only [Option.some.injEq, Prod.mk.injEq] at h
    exact h.2 ▸ List.suffix_rfl

theorem signedDigits?_suffix {s after : List Char} {n : Int}
    (h : signedDigits? s = some (n, after)) : after <:+ s := by
  unfold signedDigits? at h
  split at h
  split at h
  · simp at h
  · next negative t heq _ =>
    simp only [Option.some.injEq, Prod.mk.injEq] at h
    refine h.2 ▸ (List.dropWhile_suffix _).trans ?_
    split at heq <;> simp only [Prod.mk.injEq] at heq <;> simp [← heq.2]

theorem exponent?_suffix {s after : List Char} {n : Option Int}
    (h : exponent? s = some (n, after)) : after <:+ s := by
  unfold exponent? at h
  split at h
  · simp only [Option.map_eq_some_iff, Prod.exists, Prod.mk.injEq] at h
    obtain ⟨_, _, h, _, rfl⟩ := h
    exact (signedDigits?_suffix h).trans (List.suffix_cons _ _)
  · simp only [Option.map_eq_some_iff, Prod.exists, Prod.mk.injEq] at h
    obtain ⟨_, _, h, _, rfl⟩ := h
    exact (signedDigits?_suffix h).trans (List.suffix_cons _ _)
  · simp only [Option.some.injEq, Prod.mk.injEq] at h
    exact h.2 ▸ List.suffix_rfl

theorem magnitude?_suffix {negative : Bool} {s after : List Char} {n : Number}
    (h : magnitude? negative s = some (n, after)) : after <:+ s.tail := by
  simp only [magnitude?, Option.bind_eq_bind, Option.bind_eq_some_iff, Prod.exists,
    Option.pure_def, Option.some.injEq, Prod.mk.injEq] at h
  obtain ⟨_, _, h₁, _, _, h₂, _, _, h₃, _, rfl⟩ := h
  exact ((exponent?_suffix h₃).trans (fraction?_suffix h₂)).trans (whole?_suffix h₁)

theorem number?_suffix {s after : List Char} {n : Number} (h : number? s = some (n, after)) :
    after <:+ s.tail := by
  unfold number? at h
  split at h
  · exact (magnitude?_suffix h).trans (List.tail_suffix _)
  · exact magnitude?_suffix h

/-- A token takes its first character at least. -/
theorem lexeme_suffix {c : Char} {rest after : List Char} {t : Token}
    (h : lexeme c rest = some (t, after)) : after <:+ rest := by
  unfold lexeme at h
  split at h
  all_goals try (simp only [Option.some.injEq, Prod.mk.injEq] at h; simp [h.2])
  · simp only [Option.map_eq_some_iff, Prod.exists, Prod.mk.injEq] at h
    obtain ⟨_, _, h, _, rfl⟩ := h
    exact pieces_suffix h
  · simp only [Option.map_eq_some_iff, Prod.mk.injEq] at h
    obtain ⟨_, h, _, rfl⟩ := h
    exact after?_suffix h
  · simp only [Option.map_eq_some_iff, Prod.mk.injEq] at h
    obtain ⟨_, h, _, rfl⟩ := h
    exact after?_suffix h
  · simp only [Option.map_eq_some_iff, Prod.mk.injEq] at h
    obtain ⟨_, h, _, rfl⟩ := h
    exact after?_suffix h
  · simp only [Option.map_eq_some_iff, Prod.exists, Prod.mk.injEq] at h
    obtain ⟨_, _, h, _, rfl⟩ := h
    exact number?_suffix h

theorem lexeme_length {c : Char} {rest after : List Char} {t : Token}
    (h : lexeme c rest = some (t, after)) : after.length ≤ rest.length :=
  (lexeme_suffix h).length_le

/-- The tokens of a text. -/
def scan : List Char → List Token
  | [] => []
  | c :: rest =>
    if isBlank c then scan rest
    else
      match _h : lexeme c rest with
      | some (t, after) => t :: scan after
      | none => [.stray]
termination_by s => s.length
decreasing_by
  · simp
  · have := lexeme_length _h
    simp only [List.length_cons]
    omega

end Token
end MemberAudit.Json
