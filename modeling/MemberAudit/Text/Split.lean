/-
Cutting text at a separator character, and putting the pieces back together.
The pieces joined again are the text (`join_split`), and no piece holds the
separator (`not_mem_of_mem_split`).
-/
namespace MemberAudit.Text

/-- The pieces between the separators: one more piece than there are separators. -/
def split (sep : Char) : List Char → List (List Char)
  | [] => [[]]
  | c :: rest =>
    match split sep rest with
    | [] => [[c]]
    | piece :: pieces => if c = sep then [] :: piece :: pieces else (c :: piece) :: pieces

/-- The pieces with one separator between neighbours. -/
def join (sep : Char) : List (List Char) → List Char
  | [] => []
  | [piece] => piece
  | piece :: pieces => piece ++ sep :: join sep pieces

theorem split_ne_nil (sep : Char) (s : List Char) : split sep s ≠ [] := by
  cases s with
  | nil => simp [split]
  | cons c rest =>
    simp only [split]
    split
    · simp
    · split <;> simp

theorem split_cons_sep (sep : Char) (s : List Char) : split sep (sep :: s) = [] :: split sep s := by
  simp only [split]
  split
  · next h => exact absurd h (split_ne_nil sep s)
  · simp [*]

/-- Cutting at a separator first and then each half. -/
theorem split_append_sep (sep : Char) (a b : List Char) :
    split sep (a ++ sep :: b) = split sep a ++ split sep b := by
  induction a with
  | nil => simp [split_cons_sep, split]
  | cons c a ih =>
    simp only [List.cons_append, split, ih]
    have ha := split_ne_nil sep a
    cases h : split sep a with
    | nil => exact absurd h ha
    | cons p ps =>
      simp only [List.cons_append]
      split <;> simp

/-- Text without the separator is part of the first piece. -/
theorem split_append_of_not_mem {sep : Char} {s rest first : List Char} {others : List (List Char)}
    (h : sep ∉ s) (hrest : split sep rest = first :: others) :
    split sep (s ++ rest) = (s ++ first) :: others := by
  induction s with
  | nil => exact hrest
  | cons c s ih =>
    rw [List.mem_cons, not_or] at h
    rw [List.cons_append, split, ih h.2]
    simp [Ne.symm h.1]

theorem split_of_not_mem {sep : Char} {s : List Char} (h : sep ∉ s) : split sep s = [s] := by
  have hempty : split sep [] = [[]] := rfl
  have hsplit := split_append_of_not_mem h hempty
  rwa [List.append_nil] at hsplit

theorem join_split (sep : Char) (s : List Char) : join sep (split sep s) = s := by
  induction s with
  | nil => rfl
  | cons c rest ih =>
    simp only [split]
    split
    · next h => exact absurd h (split_ne_nil sep rest)
    · next piece pieces h =>
      rw [h] at ih
      split
      · next hc => simp [join, ih, hc]
      · cases pieces <;> simp_all [join]

theorem not_mem_of_mem_split {sep : Char} {s piece : List Char} (h : piece ∈ split sep s) :
    sep ∉ piece := by
  induction s generalizing piece with
  | nil => simp [split] at h; simp [h]
  | cons c rest ih =>
    simp only [split] at h
    split at h
    · next h' => exact absurd h' (split_ne_nil sep rest)
    · next p ps h' =>
      split at h
      · simp only [List.mem_cons] at h
        rcases h with rfl | h
        · simp
        · exact ih (by simp [h', h])
      · next hc =>
        simp only [List.mem_cons] at h
        rcases h with rfl | h
        · have : sep ∉ p := ih (by simp [h'])
          simp [this, Ne.symm hc]
        · exact ih (by simp [h', h])

end MemberAudit.Text
