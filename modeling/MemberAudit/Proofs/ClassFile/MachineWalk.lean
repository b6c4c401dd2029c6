/-
The walk over a method's code as a machine takes it: by positions in the code, in numbers of
64 bits, turn by turn. It stops at once where a number does not fit, where a byte outside the
code is asked for, and where it is out of turns (`Stop`).

None of this ever happens in a code that is shorter than 2^32 bytes (`walk_bounded`): every turn
moves on and stays in the code, so that as many turns are enough as the code has bytes, and the
walk gives what `references` gives. The largest numbers are the lengths of switches, which
come from operands of 32 bits and stay below 2^35 (`instructionLength_lt`).
-/
import MemberAudit.Proofs.ClassFile.CodeSplit
import Mathlib.Algebra.Ring.Int.Defs

namespace MemberAudit.ClassFile

namespace Machine

/-- Why a walk stops early. -/
inductive Stop where
  /-- A number does not fit into 64 bits, or would be below zero. -/
  | overflow
  /-- A byte outside the code is taken. -/
  | outside
  /-- No turn is left. -/
  | unfinished
  /-- The code is refused. -/
  | refused (fault : CodeFault)
  deriving DecidableEq, Repr

/-! ## Numbers -/

def add (a b : Nat) : Except Stop Nat :=
  if a + b < 2 ^ 64 then .ok (a + b) else .error .overflow

def mul (a b : Nat) : Except Stop Nat :=
  if a * b < 2 ^ 64 then .ok (a * b) else .error .overflow

def sub (a b : Nat) : Except Stop Nat :=
  if b ≤ a then .ok (a - b) else .error .overflow

/-- A signed number, if it fits into 32 bits. -/
def signed? (n : Int) : Option Int :=
  if -2 ^ 31 ≤ n ∧ n < 2 ^ 31 then some n else none

/-! ## Bytes of the code -/

def byte (code : Bytes) (position : Nat) : Except Stop UInt8 :=
  match code[position]? with
  | some b => .ok b
  | none => .error .outside

/-- So many bytes from a position on, if the code has them. -/
def slice? (code : Bytes) (position size : Nat) : Except Stop (Option Bytes) := do
  let last ← add position size
  return if last ≤ code.length then some ((code.drop position).take size) else none

def signedWord (code : Bytes) (position : Nat) : Except Stop Int := do
  match ← slice? code position 4 with
  | some [a, b, c, d] => .ok (signed32 a b c d)
  | some _ => .error .outside
  | none => .error (.refused .operandOutOfBounds)

def half (code : Bytes) (position : Nat) : Except Stop Nat := do
  match ← slice? code position 2 with
  | some [high, low] => .ok (high.toNat * 256 + low.toNat)
  | some _ => .error .outside
  | none => .error (.refused .indexOutOfBounds)

/-! ## Lengths -/

def padding (offset : Nat) : Except Stop Nat := do
  let next ← add offset 1
  let left ← sub 4 (next % 4)
  return left % 4

/-- How many jumps a table has. Where this number does not fit, the table is refused. -/
def tableCount (low high : Int) : Except Stop Nat :=
  match (signed? (high - low)).bind fun span => signed? (span + 1) with
  | some count => if count < 0 then .error (.refused .tableRange) else .ok count.toNat
  | none => .error (.refused .tableRange)

def tableswitch (code : Bytes) (offset : Nat) : Except Stop Nat := do
  let padding ← padding offset
  let next ← add offset 1
  let base ← add next padding
  let low ← signedWord code (← add base 4)
  let high ← signedWord code (← add base 8)
  let count ← tableCount low high
  let opened ← add 1 padding
  let fixed ← add opened 12
  add fixed (← mul count 4)

def lookupswitch (code : Bytes) (offset : Nat) : Except Stop Nat := do
  let padding ← padding offset
  let next ← add offset 1
  let base ← add next padding
  let pairs ← signedWord code (← add base 4)
  if pairs < 0 then .error (.refused .lookupPairs)
  else do
    let opened ← add 1 padding
    let fixed ← add opened 8
    add fixed (← mul pairs.toNat 8)

def wide (code : Bytes) (offset : Nat) : Except Stop Nat := do
  let next ← add offset 1
  match code[next]? with
  | some opcode => .ok (if opcode = 0x84 then 6 else 4)
  | none => .error (.refused .missingWideOpcode)

/-- The length of the instruction at an offset. -/
def length (code : Bytes) (offset : Nat) : Except Stop Nat := do
  let opcode ← byte code offset
  match extent opcode with
  | .fixed length => .ok length
  | .tableswitch => tableswitch code offset
  | .lookupswitch => lookupswitch code offset
  | .wide => wide code offset
  | .none => .error (.refused (.unsupportedOpcode opcode))

/-! ## Turns -/

/-- The reference of the instruction at an offset, if it uses a member. The offset is
kept in 32 bits. -/
def memberAt (pool : Pool) (code : Bytes) (offset : Nat) (opcode : UInt8) :
    Except Stop (List Reference) :=
  match MemberOp.ofOpcode? opcode with
  | none => .ok []
  | some op => do
    let index ← half code (← add offset 1)
    match pool.reference op (offset % 2 ^ 32) index with
    | .ok reference => .ok [reference]
    | .error fault => .error (.refused (.reference offset fault))

/-- One turn: the offset after the instruction, and its reference. -/
def turn (pool : Pool) (code : Bytes) (offset : Nat) : Except Stop (Nat × List Reference) := do
  let opcode ← byte code offset
  let length ← length code offset
  if length = 0 then .error (.refused (.invalidLength offset))
  else do
    let last ← add offset length
    if code.length < last then .error (.refused (.invalidLength offset))
    else do
      let here ← memberAt pool code offset opcode
      let next ← add offset length
      return (next, here)

/-- The references from an offset on, in so many turns at most. -/
def walk (pool : Pool) (code : Bytes) : Nat → Nat → Except Stop (List Reference)
  | 0, offset => if offset < code.length then .error .unfinished else .ok []
  | turns + 1, offset =>
    if offset < code.length then do
      let (next, here) ← turn pool code offset
      let later ← walk pool code turns next
      return here ++ later
    else .ok []

/-- The offsets that a walk comes to, at the end of the code too. -/
inductive Reaches (pool : Pool) (code : Bytes) : Nat → Prop
  | start : Reaches pool code 0
  | turn {offset next : Nat} {here : List Reference} (reached : Reaches pool code offset)
      (inside : offset < code.length) (turn : turn pool code offset = .ok (next, here)) :
      Reaches pool code next

/-! ## What fits -/

theorem add_of_lt {a b : Nat} (h : a + b < 2 ^ 64) : add a b = .ok (a + b) := if_pos h

theorem mul_of_lt {a b : Nat} (h : a * b < 2 ^ 64) : mul a b = .ok (a * b) := if_pos h

theorem signed32_bounds (a b c d : UInt8) : -2 ^ 31 ≤ signed32 a b c d ∧ signed32 a b c d < 2 ^ 31 := by
  have ha := a.toNat_lt
  have hb := b.toNat_lt
  have hc := c.toNat_lt
  have hd := d.toNat_lt
  simp only [signed32]
  split <;> omega

theorem operand_bounds {code : Bytes} {position : Nat} {n : Int} (h : operand code position = .ok n) :
    -2 ^ 31 ≤ n ∧ n < 2 ^ 31 := by
  unfold operand at h
  split at h
  · cases h
    exact signed32_bounds _ _ _ _
  · cases h

theorem padding_eq {offset : Nat} (h : offset < 2 ^ 32) : padding offset = .ok (switchPadding offset) := by
  have hle : (offset + 1) % 4 ≤ 4 := by omega
  have hsub : sub 4 ((offset + 1) % 4) = .ok (4 - (offset + 1) % 4) := if_pos hle
  have hadd : add offset 1 = .ok (offset + 1) := add_of_lt (by omega)
  simp only [padding, hadd, hsub, bind, Except.bind, pure, Except.pure, switchPadding]

/-- The number of jumps is refused where it does not fit, and not cut to 32 bits. -/
theorem tableCount_eq (low high : Int) :
    tableCount low high =
      if -1 ≤ high - low ∧ high - low + 1 < 0x80000000 then .ok (high - low + 1).toNat
      else .error (.refused .tableRange) := by
  unfold tableCount signed?
  by_cases hspan : -2 ^ 31 ≤ high - low ∧ high - low < 2 ^ 31
  · rw [if_pos hspan, Option.bind_some]
    by_cases hcount : -2 ^ 31 ≤ high - low + 1 ∧ high - low + 1 < 2 ^ 31
    · rw [if_pos hcount]
      by_cases hneg : high - low + 1 < 0
      · rw [if_neg (by omega)]
        exact if_pos hneg
      · rw [if_pos (by omega)]
        exact if_neg hneg
    · rw [if_neg hcount, if_neg (by omega)]
  · rw [if_neg hspan, if_neg (by omega), Option.bind_none]

/-- No length is near the end of the numbers. -/
theorem instructionLength_lt {offset length : Nat} {opcode : UInt8} {code : Bytes}
    (h : instructionLength offset opcode code = .ok length) : length < 2 ^ 35 := by
  have hpadding := switchPadding_lt offset
  unfold instructionLength at h
  rcases extent_cases opcode with ⟨count, hcount, hext, -⟩ | ⟨hext, -⟩ | ⟨hext, -⟩ | ⟨hext, -⟩ | hext
  · simp only [hext, Except.ok.injEq] at h
    omega
  -- a switch has less than 2^31 entries, of four bytes each in a table and of eight in a list
  · simp only [hext, bind_eq_ok] at h
    obtain ⟨low, -, high, -, h⟩ := h
    split at h
    · cases h
      omega
    · cases h
  · simp only [hext, bind_eq_ok] at h
    obtain ⟨pairs, hpairs, h⟩ := h
    have hbounds := operand_bounds hpairs
    split at h
    · cases h
    · cases h
      omega
  · simp only [hext] at h
    split at h <;> cases h <;> omega
  · simp only [hext] at h
    cases h

/-! ## What is read -/

theorem slice?_of_drop {code bytes rest : Bytes} {position : Nat}
    (hdrop : code.drop position = bytes ++ rest) (hne : bytes ≠ [])
    (h : position + bytes.length < 2 ^ 64) : slice? code position bytes.length = .ok (some bytes) := by
  have hlength := congrArg List.length hdrop
  have hpos := List.length_pos_iff.mpr hne
  rw [List.length_drop, List.length_append] at hlength
  simp only [slice?, add_of_lt h, bind, Except.bind, pure, Except.pure]
  rw [if_pos (by omega), hdrop, List.take_left]

theorem slice?_of_short {code : Bytes} {position size : Nat} (hshort : code.length < position + size)
    (h : position + size < 2 ^ 64) : slice? code position size = .ok none := by
  simp only [slice?, add_of_lt h, bind, Except.bind, pure, Except.pure]
  rw [if_neg (by omega)]

theorem signedWord_eq (code : Bytes) {position : Nat} (h : position + 4 < 2 ^ 64) :
    signedWord code position = (operand code position).mapError .refused := by
  unfold operand
  split
  · next a b c d rest hdrop =>
    have hslice : slice? code position [a, b, c, d].length = .ok (some [a, b, c, d]) :=
      slice?_of_drop hdrop (by simp) h
    rw [signedWord]
    exact congrArg (· >>= _) hslice
  · next hshort =>
    have hlt : code.length < position + 4 := by
      by_contra hge
      obtain ⟨n, rest, hdrop⟩ := exists_word_append (code.drop position) (by rw [List.length_drop]; omega)
      exact hshort _ _ _ _ _ hdrop
    rw [signedWord, slice?_of_short hlt h]
    rfl

theorem operand_drop (code : Bytes) (offset position : Nat) :
    operand (code.drop offset) position = operand code (offset + position) := by
  rw [operand, operand, List.drop_drop]

section

variable {code operands : Bytes} {offset : Nat} {opcode : UInt8}

theorem byte_eq (hdrop : code.drop offset = opcode :: operands) : byte code offset = .ok opcode := by
  have hget : code[offset]? = some opcode := by
    rw [← Nat.add_zero offset, ← List.getElem?_drop, hdrop]
    rfl
  rw [byte, hget]

theorem length_of_drop (hdrop : code.drop offset = opcode :: operands) :
    code.length = offset + operands.length + 1 := by
  have hlength := congrArg List.length hdrop
  rw [List.length_drop, List.length_cons] at hlength
  omega

/-- An operand of a switch, counted from the beginning of the code and from the switch. -/
theorem signedWord_operand (hdrop : code.drop offset = opcode :: operands) (ahead : Nat)
    (h : offset + ahead + 4 < 2 ^ 64) :
    signedWord code (offset + ahead) = (operand (opcode :: operands) ahead).mapError .refused := by
  rw [signedWord_eq code h, ← operand_drop, hdrop]

theorem tableswitch_eq (hdrop : code.drop offset = opcode :: operands) (hlt : code.length < 2 ^ 32)
    (hext : extent opcode = .tableswitch) :
    tableswitch code offset = (instructionLength offset opcode (opcode :: operands)).mapError .refused := by
  have hlength := length_of_drop hdrop
  have hpadding := switchPadding_lt offset
  have hlow := signedWord_operand hdrop (1 + switchPadding offset + 4) (by omega)
  have hhigh := signedWord_operand hdrop (1 + switchPadding offset + 8) (by omega)
  -- the machine counts from the beginning of the code, and adds from left to right
  simp only [← Nat.add_assoc] at hlow hhigh
  unfold tableswitch instructionLength
  simp (disch := omega) only [hext, padding_eq, add_of_lt, hlow, hhigh, tableCount_eq, bind, Except.bind]
  cases operand (opcode :: operands) (1 + switchPadding offset + 4) with
  | error fault => rfl
  | ok low =>
    cases operand (opcode :: operands) (1 + switchPadding offset + 8) with
    | error fault => rfl
    | ok high =>
      simp only [Except.mapError]
      by_cases hcount : -1 ≤ high - low ∧ high - low + 1 < 0x80000000
      · simp only [if_pos hcount, mul_of_lt (show (high - low + 1).toNat * 4 < 2 ^ 64 by omega)]
        exact add_of_lt (by omega)
      · simp only [if_neg hcount]

theorem lookupswitch_eq (hdrop : code.drop offset = opcode :: operands) (hlt : code.length < 2 ^ 32)
    (hext : extent opcode = .lookupswitch) :
    lookupswitch code offset = (instructionLength offset opcode (opcode :: operands)).mapError .refused := by
  have hlength := length_of_drop hdrop
  have hpadding := switchPadding_lt offset
  have hpairs := signedWord_operand hdrop (1 + switchPadding offset + 4) (by omega)
  simp only [← Nat.add_assoc] at hpairs
  unfold lookupswitch instructionLength
  simp (disch := omega) only [hext, padding_eq, add_of_lt, hpairs, bind, Except.bind]
  cases hoperand : operand (opcode :: operands) (1 + switchPadding offset + 4) with
  | error fault => rfl
  | ok pairs =>
    have hbounds := operand_bounds hoperand
    simp only [Except.mapError]
    by_cases hneg : pairs < 0
    · simp only [if_pos hneg]
    · simp only [if_neg hneg, mul_of_lt (show pairs.toNat * 8 < 2 ^ 64 by omega)]
      exact add_of_lt (by omega)

theorem wide_eq (hdrop : code.drop offset = opcode :: operands) (hlt : code.length < 2 ^ 32)
    (hext : extent opcode = .wide) :
    wide code offset = (instructionLength offset opcode (opcode :: operands)).mapError .refused := by
  have hlength := length_of_drop hdrop
  have hget : code[offset + 1]? = operands.head? := by
    rw [← List.getElem?_drop, hdrop, List.getElem?_cons_succ, List.head?_eq_getElem?]
  unfold wide instructionLength
  simp only [hext, add_of_lt (show offset + 1 < 2 ^ 64 by omega), hget, bind, Except.bind]
  cases operands with
  | nil => rfl
  | cons next operands =>
    by_cases hnext : next = 0x84
    · rw [hnext]
      rfl
    · simp only [List.head?_cons, if_neg hnext]
      rfl

/-- The machine finds the lengths of instructions. -/
theorem length_eq (hdrop : code.drop offset = opcode :: operands) (hlt : code.length < 2 ^ 32) :
    length code offset = (instructionLength offset opcode (opcode :: operands)).mapError .refused := by
  simp only [length, byte_eq hdrop, bind, Except.bind]
  split
  · next n hext => simp only [instructionLength, hext, Except.mapError]
  · next hext => exact tableswitch_eq hdrop hlt hext
  · next hext => exact lookupswitch_eq hdrop hlt hext
  · next hext => exact wide_eq hdrop hlt hext
  · next hext => simp only [instructionLength, hext, Except.mapError]

/-! ## Turns are steps of the walk -/

theorem half_eq (hdrop : code.drop offset = opcode :: operands) (hlt : code.length < 2 ^ 32) :
    half code (offset + 1) =
      match operands with
      | high :: low :: _ => .ok (high.toNat * 256 + low.toNat)
      | _ => .error (.refused .indexOutOfBounds) := by
  have hlength := length_of_drop hdrop
  have htail : code.drop (offset + 1) = operands := by
    rw [← List.drop_drop, hdrop]
    rfl
  split
  · next high low rest =>
    have hslice : slice? code (offset + 1) [high, low].length = .ok (some [high, low]) :=
      slice?_of_drop htail (by simp) (by simp; omega)
    rw [half]
    exact congrArg (· >>= _) hslice
  · next hshort =>
    have hlt : code.length < offset + 1 + 2 := by
      match operands, hshort with
      | [], _ | [_], _ => simp at hlength; omega
      | high :: low :: rest, hshort => exact absurd rfl (hshort _ _ _)
    rw [half, slice?_of_short hlt (by omega)]
    rfl

theorem memberAt_eq (pool : Pool) (hdrop : code.drop offset = opcode :: operands)
    (hlt : code.length < 2 ^ 32) :
    memberAt pool code offset opcode = (referenceAt pool offset opcode operands).mapError .refused := by
  have hlength := length_of_drop hdrop
  have hmod : offset % 2 ^ 32 = offset := Nat.mod_eq_of_lt (by omega)
  unfold memberAt referenceAt
  cases MemberOp.ofOpcode? opcode with
  | none => rfl
  | some op =>
    simp (disch := omega) only [add_of_lt, half_eq hdrop hlt, hmod, bind, Except.bind]
    rcases operands with _ | ⟨high, _ | ⟨low, operands⟩⟩
    · rfl
    · rfl
    · dsimp only
      cases pool.reference op offset (high.toNat * 256 + low.toNat) <;> rfl

/-- A turn is a step of the walk. -/
theorem turn_eq (pool : Pool) (hdrop : code.drop offset = opcode :: operands) (hlt : code.length < 2 ^ 32) :
    turn pool code offset =
      match instructionLength offset opcode (opcode :: operands) with
      | .error fault => .error (.refused fault)
      | .ok length =>
        if operands.length + 1 < length then .error (.refused (.invalidLength offset))
        else ((referenceAt pool offset opcode operands).mapError .refused).map fun here =>
          (offset + length, here) := by
  have hcode := length_of_drop hdrop
  simp only [turn, byte_eq hdrop, length_eq hdrop hlt, memberAt_eq pool hdrop hlt, bind, Except.bind]
  cases hn : instructionLength offset opcode (opcode :: operands) with
  | error fault => rfl
  | ok n =>
    have hpos := instructionLength_pos hn
    have hbound := instructionLength_lt hn
    simp (disch := omega) only [Except.mapError, add_of_lt, if_neg (Nat.ne_of_gt hpos)]
    by_cases hend : operands.length + 1 < n
    · rw [if_pos hend, if_pos (by omega)]
    · rw [if_neg hend, if_neg (by omega)]
      cases referenceAt pool offset opcode operands <;> rfl

end

/-! ## What a turn does -/

theorem operand_ne_indexOutOfBounds (code : Bytes) (position : Nat) :
    operand code position ≠ .error .indexOutOfBounds := by
  unfold operand
  split <;> nofun

theorem instructionLength_ne_indexOutOfBounds (offset : Nat) (opcode : UInt8) (code : Bytes) :
    instructionLength offset opcode code ≠ .error .indexOutOfBounds := by
  unfold instructionLength
  split
  · nofun
  · intro h
    rcases bind_eq_error.mp h with h | ⟨low, -, h⟩
    · exact operand_ne_indexOutOfBounds _ _ h
    rcases bind_eq_error.mp h with h | ⟨high, -, h⟩
    · exact operand_ne_indexOutOfBounds _ _ h
    split at h <;> cases h
  · intro h
    rcases bind_eq_error.mp h with h | ⟨pairs, -, h⟩
    · exact operand_ne_indexOutOfBounds _ _ h
    split at h <;> cases h
  · split <;> nofun
  · nofun

/-- A member instruction whose length is within the code has the index of its member. -/
theorem referenceAt_ne_indexOutOfBounds (pool : Pool) {offset length : Nat} {opcode : UInt8}
    {operands : Bytes} (h : instructionLength offset opcode (opcode :: operands) = .ok length)
    (hle : length ≤ operands.length + 1) :
    referenceAt pool offset opcode operands ≠ .error .indexOutOfBounds := by
  unfold referenceAt
  cases hop : MemberOp.ofOpcode? opcode with
  | none => nofun
  | some op =>
    obtain rfl := MemberOp.ofOpcode?_eq_some.mp hop
    have hext : extent op.opcode = .fixed 3 ∨ extent op.opcode = .fixed 5 := by cases op <;> decide
    have hlength : 3 ≤ length := by
      unfold instructionLength at h
      rcases hext with hext | hext <;> simp only [hext, Except.ok.injEq] at h <;> omega
    rcases operands with _ | ⟨high, _ | ⟨low, operands⟩⟩
    · simp at hle
      omega
    · simp at hle
      omega
    · dsimp only
      split <;> nofun

/-- The bytes from an offset within the code on. -/
theorem exists_drop_eq {code : Bytes} {offset : Nat} (h : offset < code.length) :
    ∃ opcode operands, code.drop offset = opcode :: operands :=
  ⟨_, _, List.drop_eq_getElem_cons h⟩

/-- What a turn may do: move on within the code, or refuse the code, but not for an index
that is not there. -/
theorem turn_cases (pool : Pool) {code : Bytes} {offset : Nat} (hlt : code.length < 2 ^ 32)
    (hinside : offset < code.length) :
    (∃ next here, turn pool code offset = .ok (next, here) ∧ offset < next ∧ next ≤ code.length) ∨
      ∃ fault ≠ CodeFault.indexOutOfBounds, turn pool code offset = .error (.refused fault) := by
  obtain ⟨opcode, operands, hdrop⟩ := exists_drop_eq hinside
  have hlength := length_of_drop hdrop
  rw [turn_eq pool hdrop hlt]
  cases hlen : instructionLength offset opcode (opcode :: operands) with
  | error fault =>
    refine .inr ⟨fault, ?_, rfl⟩
    rintro rfl
    exact instructionLength_ne_indexOutOfBounds _ _ _ hlen
  | ok length =>
    have hpos := instructionLength_pos hlen
    dsimp only
    split
    · exact .inr ⟨.invalidLength offset, nofun, rfl⟩
    · next hle =>
      cases href : referenceAt pool offset opcode operands with
      | error fault =>
        refine .inr ⟨fault, ?_, rfl⟩
        rintro rfl
        exact referenceAt_ne_indexOutOfBounds pool hlen (by omega) href
      | ok here => exact .inl ⟨offset + length, here, rfl, by omega, by omega⟩

/-! ## The whole walk -/

variable {pool : Pool} {code : Bytes}

theorem Reaches.le_length {offset : Nat} (h : Reaches pool code offset) (hlt : code.length < 2 ^ 32) :
    offset ≤ code.length := by
  cases h with
  | start => exact Nat.zero_le _
  | turn reached inside turn =>
    rcases turn_cases pool hlt inside with ⟨next, here, hturn, -, hle⟩ | ⟨fault, -, hturn⟩
    · rw [hturn] at turn
      cases turn
      exact hle
    · rw [hturn] at turn
      cases turn

/-- As many turns are enough as bytes are left, and they give what the walk gives. -/
theorem walk_eq (hlt : code.length < 2 ^ 32) {turns offset : Nat} (hturns : code.length ≤ offset + turns) :
    walk pool code turns offset = (referencesFrom pool offset (code.drop offset)).mapError .refused := by
  -- on the turns: each of them takes one byte at least from those that are left
  induction turns generalizing offset with
  | zero =>
    rw [walk, if_neg (by omega), List.drop_eq_nil_of_le (by omega), referencesFrom_nil]
    rfl
  | succ turns ih =>
    rw [walk]
    by_cases hinside : offset < code.length
    · obtain ⟨opcode, operands, hdrop⟩ := exists_drop_eq hinside
      rw [if_pos hinside, hdrop, referencesFrom, turn_eq pool hdrop hlt]
      split
      · next fault hfault =>
        rw [hfault]
        rfl
      · next length hlen =>
        have hpos := instructionLength_pos hlen
        rw [hlen]
        dsimp only
        split
        · rfl
        · have hlater := @ih (offset + length) (by omega)
          rw [← List.drop_drop, hdrop] at hlater
          cases referenceAt pool offset opcode operands with
          | error fault => rfl
          | ok here =>
            simp only [Except.mapError, Except.map, bind, Except.bind, hlater]
            cases referencesFrom pool (offset + length) ((opcode :: operands).drop length) <;> rfl
    · rw [if_neg hinside, List.drop_eq_nil_of_le (by omega), referencesFrom_nil]
      rfl

/-- Whatever stops a walk stops one of its turns, or there are too few. -/
theorem exists_turn_of_walk {turns offset : Nat} {stop : Stop}
    (h : walk pool code turns offset = .error stop) :
    stop = .unfinished ∨ ∃ last < code.length, turn pool code last = .error stop := by
  induction turns generalizing offset with
  | zero =>
    rw [walk] at h
    split at h
    · cases h
      exact .inl rfl
    · cases h
  | succ turns ih =>
    rw [walk] at h
    split at h
    · next hinside =>
      rcases bind_eq_error.mp h with hturn | ⟨⟨next, here⟩, hturn, h⟩
      · exact .inr ⟨offset, hinside, hturn⟩
      · rcases bind_eq_error.mp h with hlater | ⟨later, -, h⟩
        · exact ih hlater
        · cases h
    · cases h

theorem walk_start (pool : Pool) (hlt : code.length < 2 ^ 32) :
    walk pool code code.length 0 = (references pool code).mapError .refused := by
  rw [walk_eq hlt (by omega), List.drop_zero, references]

theorem references_ne_indexOutOfBounds (pool : Pool) (hlt : code.length < 2 ^ 32) :
    references pool code ≠ .error .indexOutOfBounds := by
  intro href
  have hwalk := walk_start pool hlt
  rw [href] at hwalk
  rcases exists_turn_of_walk hwalk with hstop | ⟨last, hinside, hturn⟩
  · cases hstop
  · rcases turn_cases pool hlt hinside with ⟨next, here, hok, -⟩ | ⟨fault, hfault, herror⟩
    · rw [hok] at hturn
      cases hturn
    · rw [herror] at hturn
      cases hturn
      exact hfault rfl

end Machine

/-! ## The message of an index that is not there -/

theorem append_ne_of_head?_ne {a b : String} (hne : a ≠ "") (h : a.toList.head? ≠ b.toList.head?)
    (more : String) : a ++ more ≠ b := by
  rintro rfl
  rw [String.toList_append, List.head?_append_of_ne_nil _ (by simpa using hne)] at h
  exact h rfl

/-- No other fault has this message. -/
theorem CodeFault.eq_of_message {fault : CodeFault} (h : fault.message = "bytecode u16 out of bounds") :
    fault = .indexOutOfBounds := by
  unfold message at h
  cases fault with
  | indexOutOfBounds => rfl
  | operandOutOfBounds | tableRange | lookupPairs | missingWideOpcode => exact absurd h (by decide)
  | invalidLength | unsupportedOpcode =>
    exact absurd h (append_ne_of_head?_ne (by decide) (by decide +kernel) _)
  | reference offset fault =>
    dsimp only at h
    rw [String.append_assoc, String.append_assoc] at h
    exact absurd h (append_ne_of_head?_ne (by decide) (by decide +kernel) _)

namespace Machine

/-- **The walk always moves on, and its numbers fit.** At every offset that it comes to in a code
shorter than 2^32 bytes, it finds the length of the instruction there, which is one byte at
least, and its turn either ends further on and within the code or refuses the code. So as many
turns are enough as the code has bytes, the walk gives what `references` gives, and
the index of a member is never missing. -/
theorem walk_bounded (pool : Pool) (code : Bytes) (hlt : code.length < 2 ^ 32) :
    (∀ offset, Reaches pool code offset → offset ≤ code.length ∧ ∀ inside : offset < code.length,
      length code offset =
        (instructionLength offset code[offset] (code.drop offset)).mapError .refused ∧
      (∀ n, length code offset = .ok n → 1 ≤ n) ∧
      ((∃ next here, turn pool code offset = .ok (next, here) ∧ offset < next ∧ next ≤ code.length) ∨
        ∃ fault, turn pool code offset = .error (.refused fault) ∧
          fault.message ≠ "bytecode u16 out of bounds")) ∧
    walk pool code code.length 0 = (references pool code).mapError .refused ∧
    ∀ fault, references pool code = .error fault → fault.message ≠ "bytecode u16 out of bounds" := by
  refine ⟨?_, walk_start pool hlt, ?_⟩
  · intro offset hreached
    refine ⟨hreached.le_length hlt, ?_⟩
    intro inside
    have hdrop := List.drop_eq_getElem_cons inside
    have hlength := length_eq hdrop hlt
    rw [hdrop]
    refine ⟨hlength, ?_, ?_⟩
    · intro n hn
      rw [hlength, mapError_eq_ok] at hn
      exact instructionLength_pos hn
    · refine (turn_cases pool hlt inside).imp id ?_
      rintro ⟨fault, hfault, hturn⟩
      exact ⟨fault, hturn, fun hmessage => hfault (CodeFault.eq_of_message hmessage)⟩
  · intro fault hfault hmessage
    rw [CodeFault.eq_of_message hmessage] at hfault
    exact references_ne_indexOutOfBounds pool hlt hfault

/-- A `lookupswitch` at offset 1 with as many pairs as its operand can state. -/
def hugeSwitch : Bytes :=
  [0x00, 0xAB, 0, 0, 0, 0, 0, 0, 0x7F, 0xFF, 0xFF, 0xFF]

/-- It would take more than 2^34 bytes, which is no number out of bounds. -/
theorem walk_bounded_hugeSwitch :
    hugeSwitch.length < 2 ^ 32 ∧ Reaches methodPool hugeSwitch 1 ∧
      length hugeSwitch 1 = .ok 17179869187 ∧
      walk methodPool hugeSwitch hugeSwitch.length 0 = .error (.refused (.invalidLength 1)) := by
  have hlt : hugeSwitch.length < 2 ^ 32 := by decide
  have hturn : turn methodPool hugeSwitch 0 = .ok (1, []) := by decide +kernel
  have hreached : Reaches methodPool hugeSwitch 1 := .turn .start (by decide) hturn
  obtain ⟨hsteps, hwalk, -⟩ := walk_bounded methodPool hugeSwitch hlt
  obtain ⟨-, hinside⟩ := hsteps 1 hreached
  obtain ⟨hlength, -, -⟩ := hinside (by decide)
  exact ⟨hlt, hreached, hlength.trans (by decide +kernel), hwalk.trans (by decide +kernel)⟩

end Machine

end MemberAudit.ClassFile
