/-
How a parameter block is taken apart, whatever text it is. Its fragments, between the `;`,
are each cut into tokens that together are the fragment (`CutInto`), in one way only
(`cutInto_iff`), so that nothing is skipped, repeated or cut within a token.

The cuts can be told by positions in the bytes of a fragment. `byteTokens` walks over a
fragment by such positions and gives up if one lies within a character, or if it takes more
turns than there are bytes; it never does (`byteTokens_eq`).
-/
import MemberAudit.Proofs.Signature.Descriptors
import Mathlib.Algebra.Ring.Nat
import Mathlib.Data.List.Forall2

namespace MemberAudit.Signature

/-! ## Tokens of a fragment -/

/-- What a token looks like that has others after it: brackets and one character. The last
one may also be brackets and an object name to the end, or brackets alone. -/
inductive TokenForm : List Char → List (List Char) → Prop
  | character (depth : Nat) {c : Char} (later : List (List Char)) (bracket : c ≠ '[') (object : c ≠ 'L') :
      TokenForm (List.replicate depth '[' ++ [c]) later
  | object (depth : Nat) (name : List Char) : TokenForm (List.replicate depth '[' ++ 'L' :: name) []
  | brackets (depth : Nat) : TokenForm (List.replicate depth '[') []

/-- A fragment and the tokens that it is cut into. -/
structure CutInto (fragment : List Char) (tokens : List (List Char)) : Prop where
  whole : tokens.flatten = fragment
  nonempty : ∀ token ∈ tokens, token ≠ []
  form : ∀ before token later, tokens = before ++ token :: later → TokenForm token later

theorem cutInto_nil : CutInto [] [] where
  whole := rfl
  nonempty := nofun
  form before token later h := by simp at h

theorem CutInto.cons {fragment token : List Char} {tokens : List (List Char)} (h : CutInto fragment tokens)
    (hne : token ≠ []) (hform : TokenForm token tokens) : CutInto (token ++ fragment) (token :: tokens) where
  whole := by rw [List.flatten_cons, h.whole]
  nonempty := List.forall_mem_cons.mpr ⟨hne, h.nonempty⟩
  form before other later heq := by
    cases before with
    | nil =>
      cases heq
      exact hform
    | cons first before =>
      obtain ⟨-, heq⟩ := List.cons.inj heq
      exact h.form before other later heq

theorem CutInto.tail {fragment token : List Char} {tokens : List (List Char)}
    (h : CutInto fragment (token :: tokens)) : CutInto tokens.flatten tokens where
  whole := rfl
  nonempty := (List.forall_mem_cons.mp h.nonempty).2
  form before other later heq := h.form (token :: before) other later (by rw [heq]; rfl)

theorem tokensAfter_replicate (depth n : Nat) (s : List Char) :
    tokensAfter depth (List.replicate n '[' ++ s) = tokensAfter (depth + n) s := by
  induction n generalizing depth with
  | zero => rfl
  | succ n ih =>
    rw [List.replicate_succ, List.cons_append, tokensAfter, ih]
    congr 1
    omega

theorem tokensAfter_character {c : Char} (hb : c ≠ '[') (ho : c ≠ 'L') (depth : Nat) (s : List Char) :
    tokensAfter depth (c :: s) = (List.replicate depth '[' ++ [c]) :: tokensAfter 0 s := by
  rw [tokensAfter]
  · exact fun h => hb h
  · exact fun h => ho h

theorem cutInto_tokensAfter (depth : Nat) (s : List Char) :
    CutInto (List.replicate depth '[' ++ s) (tokensAfter depth s) := by
  fun_induction tokensAfter depth s with
  | case1 => exact cutInto_nil
  | case2 depth hdepth => exact cutInto_nil.cons (by simpa using hdepth) (.brackets depth)
  | case3 depth rest ih => rwa [replicate_append_cons] at ih
  | case4 depth rest =>
    have hne : List.replicate depth '[' ++ 'L' :: rest ≠ [] := by simp
    have hlast := cutInto_nil.cons hne (.object depth rest)
    rwa [List.append_nil] at hlast
  | case5 depth c rest hb ho ih =>
    have hne : List.replicate depth '[' ++ [c] ≠ [] := by simp
    have hfirst := ih.cons hne (.character depth _ hb ho)
    simpa using hfirst

/-- **A fragment is cut into tokens in one way**, that of the decoder. -/
theorem cutInto_iff {fragment : List Char} {tokens : List (List Char)} :
    CutInto fragment tokens ↔ tokens = tokensAfter 0 fragment := by
  constructor
  · intro h
    induction tokens generalizing fragment with
    | nil =>
      rw [← h.whole]
      rfl
    | cons token tokens ih =>
      have htail := ih h.tail
      have hne := h.nonempty token List.mem_cons_self
      have hform := h.form [] token tokens rfl
      rw [← h.whole, List.flatten_cons]
      cases hform with
      | character depth _ hb ho =>
        rw [List.append_assoc, tokensAfter_replicate, List.singleton_append, tokensAfter_character hb ho,
          Nat.zero_add, ← htail]
      | object depth name =>
        rw [List.append_assoc, tokensAfter_replicate, List.flatten_nil, List.append_nil, tokensAfter,
          Nat.zero_add]
      | brackets depth =>
        have hdepth : depth ≠ 0 := by simpa using hne
        rw [tokensAfter_replicate, List.flatten_nil, tokensAfter, Nat.zero_add, if_neg hdepth]
  · rintro rfl
    exact cutInto_tokensAfter 0 fragment

/-! ## Positions in bytes -/

/-- How many bytes a text takes in UTF-8. -/
def byteLength (s : List Char) : Nat :=
  (s.map Char.utf8Size).sum

/-- A text before and after a position in its bytes, which has to lie between two characters. -/
def cutAt? : Nat → List Char → Option (List Char × List Char)
  | 0, s => some ([], s)
  | _ + 1, [] => none
  | n + 1, c :: s =>
    if n + 1 < c.utf8Size then none
    else (cutAt? (n + 1 - c.utf8Size) s).map fun (before, after) => (c :: before, after)

/-- The tokens of a fragment from a position on, found in so many turns at most. -/
def byteTokensFrom (fragment : List Char) : Nat → Nat → Option (List (List Char))
  | 0, _ => none
  | turns + 1, position =>
    if position < byteLength fragment then do
      let (_, rest) ← cutAt? position fragment
      let depth := byteLength rest - byteLength (rest.dropWhile (· = '['))
      let (_, afterBrackets) ← cutAt? depth rest
      match afterBrackets with
      | [] => return [rest]
      | code :: _ =>
        if code = 'L' then return [rest]
        else do
          let (token, _) ← cutAt? (depth + code.utf8Size) rest
          let later ← byteTokensFrom fragment turns (position + (depth + code.utf8Size))
          return token :: later
    else return []

/-- The tokens of a fragment, which is one token if it begins with an `L`. -/
def byteTokens : List Char → Option (List (List Char))
  | 'L' :: name => some ['L' :: name]
  | fragment => byteTokensFrom fragment (byteLength fragment + 1) 0

@[simp] theorem byteLength_nil : byteLength [] = 0 := rfl

@[simp] theorem byteLength_cons (c : Char) (s : List Char) :
    byteLength (c :: s) = c.utf8Size + byteLength s := by
  simp [byteLength]

@[simp] theorem byteLength_append (a b : List Char) :
    byteLength (a ++ b) = byteLength a + byteLength b := by
  simp [byteLength]

@[simp] theorem byteLength_brackets (depth : Nat) : byteLength (List.replicate depth '[') = depth := by
  have hbracket : '['.utf8Size = 1 := rfl
  simp [byteLength, hbracket]

theorem byteLength_eq_zero_iff {s : List Char} : byteLength s = 0 ↔ s = [] := by
  cases s with
  | nil => simp
  | cons c s =>
    have hpos := c.utf8Size_pos
    rw [byteLength_cons]
    constructor
    · omega
    · nofun

/-- A text is cut where characters end, and nowhere else. -/
theorem cutAt?_eq_some_iff {n : Nat} {s before after : List Char} :
    cutAt? n s = some (before, after) ↔ s = before ++ after ∧ byteLength before = n := by
  induction s generalizing n before with
  | nil =>
    cases n with
    | zero =>
      rw [cutAt?, byteLength_eq_zero_iff]
      simp +contextual [eq_comm]
    | succ n =>
      rw [cutAt?, List.nil_eq_append_iff]
      constructor
      · nofun
      · rintro ⟨⟨rfl, -⟩, h⟩
        cases h
  | cons c s ih =>
    cases n with
    | zero =>
      rw [cutAt?, byteLength_eq_zero_iff]
      constructor
      · rintro ⟨⟩
        exact ⟨rfl, rfl⟩
      · rintro ⟨h, rfl⟩
        rw [h, List.nil_append]
    | succ n =>
      have hpos := c.utf8Size_pos
      rw [cutAt?]
      cases before with
      | nil =>
        constructor
        · intro h
          split at h
          · cases h
          · obtain ⟨⟨before, rest⟩, -, hcons⟩ := Option.map_eq_some_iff.mp h
            cases hcons
        · rintro ⟨-, h⟩
          cases h
      | cons d before =>
        rw [List.cons_append, List.cons.injEq, byteLength_cons]
        split
        · constructor
          · nofun
          · rintro ⟨⟨rfl, -⟩, h⟩
            omega
        · simp only [Option.map_eq_some_iff, Prod.exists, Prod.mk.injEq, List.cons.injEq]
          constructor
          · rintro ⟨before, after, hcut, ⟨rfl, rfl⟩, rfl⟩
            obtain ⟨rfl, hlength⟩ := ih.mp hcut
            exact ⟨⟨rfl, rfl⟩, by omega⟩
          · rintro ⟨⟨rfl, rfl⟩, hlength⟩
            exact ⟨before, after, ih.mpr ⟨rfl, by omega⟩, ⟨rfl, rfl⟩, rfl⟩

theorem cutAt?_append (before after : List Char) :
    cutAt? (byteLength before) (before ++ after) = some (before, after) :=
  cutAt?_eq_some_iff.mpr ⟨rfl, rfl⟩

/-- A text as brackets and what follows them. -/
theorem exists_brackets_append (s : List Char) :
    ∃ depth rest, s = List.replicate depth '[' ++ rest ∧ s.dropWhile (· = '[') = rest ∧
      ∀ c ∈ rest.head?, c ≠ '[' := by
  induction s with
  | nil => exact ⟨0, [], rfl, rfl, nofun⟩
  | cons c s ih =>
    by_cases hc : c = '['
    · obtain ⟨depth, rest, hs, hrest, hhead⟩ := ih
      refine ⟨depth + 1, rest, ?_, ?_, hhead⟩
      · rw [hs, hc, List.replicate_succ, List.cons_append]
      · rw [List.dropWhile_cons_of_pos (by simpa using hc), hrest]
    · exact ⟨0, c :: s, rfl, List.dropWhile_cons_of_neg (by simpa using hc), by simpa using hc⟩

/-- Where the walk stands between two tokens, it finds those that follow. -/
theorem byteTokensFrom_append (before rest : List Char) {turns : Nat} (h : byteLength rest < turns) :
    byteTokensFrom (before ++ rest) turns (byteLength before) = some (tokensAfter 0 rest) := by
  induction turns generalizing before rest with
  | zero => omega
  | succ turns ih =>
    obtain ⟨depth, tail, htail, hdrop, hhead⟩ := exists_brackets_append rest
    have hlength : byteLength rest = depth + byteLength tail := by simp [htail]
    have hdepth : byteLength rest - byteLength (rest.dropWhile (· = '[')) = depth := by
      rw [hdrop]
      omega
    have hcut : cutAt? depth rest = some (List.replicate depth '[', tail) :=
      cutAt?_eq_some_iff.mpr ⟨htail, byteLength_brackets depth⟩
    rw [byteTokensFrom, byteLength_append]
    cases tail with
    | nil =>
      rw [List.append_nil] at htail
      by_cases hdepth0 : depth = 0
      · obtain rfl : rest = [] := by rw [htail, hdepth0]; rfl
        rw [if_neg (by simp)]
        rfl
      · rw [byteLength_nil] at hlength
        rw [if_pos (by omega)]
        simp only [cutAt?_append, hdepth, hcut, Option.bind_eq_bind, Option.bind_some, Option.pure_def]
        rw [htail, ← List.append_nil (List.replicate depth '['), tokensAfter_replicate, tokensAfter,
          Nat.zero_add, if_neg hdepth0, List.append_nil]
    | cons code tail =>
      have hpos := code.utf8Size_pos
      rw [byteLength_cons] at hlength
      rw [if_pos (by omega)]
      simp only [cutAt?_append, hdepth, hcut, Option.bind_eq_bind, Option.bind_some, Option.pure_def]
      by_cases hobject : code = 'L'
      · rw [if_pos hobject, htail, hobject, tokensAfter_replicate, tokensAfter, Nat.zero_add]
      · have hrest : rest = (List.replicate depth '[' ++ [code]) ++ tail := by simp [htail]
        have htoken : byteLength (List.replicate depth '[' ++ [code]) = depth + code.utf8Size := by simp
        have hlater := ih (before ++ (List.replicate depth '[' ++ [code])) tail (by omega)
        rw [List.append_assoc, ← hrest, byteLength_append, htoken] at hlater
        have htokenCut := cutAt?_eq_some_iff.mpr ⟨hrest, htoken⟩
        simp only [if_neg hobject, htokenCut, hlater, Option.bind_some]
        rw [htail, tokensAfter_replicate, tokensAfter_character (hhead code rfl) hobject, Nat.zero_add]

/-- The walk over bytes cuts between characters only, and ends. -/
theorem byteTokens_eq (fragment : List Char) : byteTokens fragment = some (tokensAfter 0 fragment) := by
  unfold byteTokens
  split
  · rfl
  · exact byteTokensFrom_append [] _ (Nat.lt_succ_self _)

/-- A character of several bytes as an element type, and brackets that belong to no type. -/
example : byteTokens ['I', '[', '[', 'é', '['] = some [['I'], ['[', '[', 'é'], ['[']] := by decide

/-- **A parameter block is taken apart without loss**, whatever text it is: each of its fragments
is cut, in the only way there is, into tokens that are the fragment again, by a walk that cuts
between characters and ends, and the parameters are the types of these tokens. So those of
two blocks with a `;` between them are those of the one and then those of the other. -/
theorem parameters_consume (block : List Char) :
    (∃ fragments tokens, fragments ≠ [] ∧ Text.join ';' fragments = block ∧
      (∀ fragment ∈ fragments, ';' ∉ fragment) ∧
      List.Forall₂ (fun fragment row => (∀ other, CutInto fragment other ↔ other = row) ∧
        byteTokens fragment = some row) fragments tokens ∧
      parameters block = tokens.flatten.map typeOfChars) ∧
    ∀ later, parameters (block ++ ';' :: later) = parameters block ++ parameters later := by
  refine ⟨⟨Text.split ';' block, (Text.split ';' block).map (tokensAfter 0), Text.split_ne_nil ';' block,
    Text.join_split ';' block, fun _ => Text.not_mem_of_mem_split, ?_, ?_⟩, parameters_append block⟩
  · rw [List.forall₂_map_right_iff, List.forall₂_same]
    intro fragment _
    exact ⟨fun _ => cutInto_iff, byteTokens_eq fragment⟩
  · rw [parameters, parameterTokens, List.flatMap_def]

end MemberAudit.Signature
