/-
The instructions of the virtual machine as an assembler knows them: an opcode
with its operands, the two switches with their tables, and the prefix that
widens the instruction after it. `Instruction.bytes` assembles an instruction,
and `Instruction.WellFormed` says which ones may stand at an offset; of a switch
this fixes how many bytes of padding it has, but not which.

`bytes_inj`: at one offset the bytes of a code begin with one instruction at
most, so a code has one reading only.
-/
import Mathlib.Algebra.Ring.Nat
import Mathlib.Data.List.Forall2
import MemberAudit.ClassFile.Code

namespace MemberAudit.ClassFile

/-- The four bytes of a signed number, the highest one first. -/
def wordBytes (n : Int32) : Bytes :=
  [.ofNat (n.toUInt32.toNat / 2 ^ 24), .ofNat (n.toUInt32.toNat / 2 ^ 16),
   .ofNat (n.toUInt32.toNat / 2 ^ 8), .ofNat n.toUInt32.toNat]

inductive Instruction where
  /-- An opcode and a fixed number of operand bytes. -/
  | plain (opcode : UInt8) (operands : Bytes)
  /-- A jump for each value from `low` to `high`. -/
  | tableswitch (padding : Bytes) (default low high : Int32) (targets : List Int32)
  /-- A jump for each of the values listed. -/
  | lookupswitch (padding : Bytes) (default count : Int32) (pairs : List (Int32 × Int32))
  /-- A widened instruction, with its wider operands. -/
  | wide (opcode : UInt8) (operands : Bytes)
  deriving DecidableEq, Repr

/-- Opcodes by how many bytes of operands follow them, as ranges with both ends. -/
def opcodeRanges : Nat → List (Nat × Nat)
  -- constants, numbered locals, arrays and stack, arithmetic, returns, arraylength and
  -- athrow, monitors, and the three reserved ones
  | 0 => [(0x00, 0x0F), (0x1A, 0x35), (0x3B, 0x83), (0x85, 0x98), (0xAC, 0xB1), (0xBE, 0xBF),
          (0xC2, 0xC3), (0xCA, 0xCA), (0xFE, 0xFF)]
  -- bipush, ldc, loads, stores, ret, newarray
  | 1 => [(0x10, 0x10), (0x12, 0x12), (0x15, 0x19), (0x36, 0x3A), (0xA9, 0xA9), (0xBC, 0xBC)]
  -- sipush, ldc_w and ldc2_w, iinc, jumps, members, new, anewarray, types, ifnull and ifnonnull
  | 2 => [(0x11, 0x11), (0x13, 0x14), (0x84, 0x84), (0x99, 0xA8), (0xB2, 0xB8), (0xBB, 0xBB),
          (0xBD, 0xBD), (0xC0, 0xC1), (0xC6, 0xC7)]
  -- multianewarray
  | 3 => [(0xC5, 0xC5)]
  -- invokeinterface, invokedynamic, goto_w, jsr_w
  | 4 => [(0xB9, 0xBA), (0xC8, 0xC9)]
  | _ => []

/-- Whether so many bytes of operands follow an opcode. -/
def takesOperands (opcode : UInt8) (count : Nat) : Bool :=
  (opcodeRanges count).any fun (first, last) => first ≤ opcode.toNat && opcode.toNat ≤ last

namespace Instruction

def opcode : Instruction → UInt8
  | plain opcode _ => opcode
  | tableswitch .. => 0xAA
  | lookupswitch .. => 0xAB
  | wide .. => 0xC4

/-- What follows the opcode. -/
def operandBytes : Instruction → Bytes
  | plain _ operands => operands
  | tableswitch padding default low high targets =>
    padding ++ (wordBytes default ++ (wordBytes low ++ (wordBytes high ++ targets.flatMap wordBytes)))
  | lookupswitch padding default count pairs =>
    padding ++ (wordBytes default ++ (wordBytes count ++
      pairs.flatMap fun (value, target) => wordBytes value ++ wordBytes target))
  | wide opcode operands => opcode :: operands

def bytes (i : Instruction) : Bytes :=
  i.opcode :: i.operandBytes

/-- Whether an instruction may stand at an offset. A switch is padded so that its
words are aligned, and has as many entries as it states; a widened `iinc` takes
two numbers, any other widened instruction takes one. -/
def WellFormed (offset : Nat) : Instruction → Prop
  | plain opcode operands => takesOperands opcode operands.length = true
  | tableswitch padding _ low high targets =>
    padding.length < 4 ∧ (offset + 1 + padding.length) % 4 = 0 ∧
      (targets.length : Int) = high.toInt - low.toInt + 1
  | lookupswitch padding _ count pairs =>
    padding.length < 4 ∧ (offset + 1 + padding.length) % 4 = 0 ∧ (pairs.length : Int) = count.toInt
  | wide opcode operands => operands.length = if opcode = 0x84 then 4 else 2

theorem length_bytes_pos (i : Instruction) : 0 < i.bytes.length := by
  simp [bytes]

end Instruction

/-! ## Words -/

@[simp] theorem length_wordBytes (n : Int32) : (wordBytes n).length = 4 := rfl

@[simp] theorem length_flatMap_wordBytes (ns : List Int32) :
    (ns.flatMap wordBytes).length = 4 * ns.length := by
  induction ns with
  | nil => rfl
  | cons n ns ih => simp only [List.flatMap_cons, List.length_append, length_wordBytes, ih,
      List.length_cons]; omega

@[simp] theorem length_flatMap_wordPairs (ps : List (Int32 × Int32)) :
    (ps.flatMap fun (value, target) => wordBytes value ++ wordBytes target).length =
      8 * ps.length := by
  induction ps with
  | nil => rfl
  | cons p ps ih => simp only [List.flatMap_cons, List.length_append, length_wordBytes, ih,
      List.length_cons]; omega

theorem toInt_eq_toUInt32 (n : Int32) :
    n.toInt = if n.toUInt32.toNat < 0x80000000 then (n.toUInt32.toNat : Int)
      else (n.toUInt32.toNat : Int) - 0x100000000 := by
  rw [← Int32.toInt_toBitVec, BitVec.toInt_eq_toNat_cond, Int32.toNat_toBitVec]
  split <;> split <;> omega

/-- The model's reading of four bytes undoes writing them. -/
theorem wordBytes_eq (n : Int32) :
    ∃ a b c d, wordBytes n = [a, b, c, d] ∧ signed32 a b c d = n.toInt := by
  refine ⟨_, _, _, _, rfl, ?_⟩
  have hn := n.toUInt32.toNat_lt
  rw [toInt_eq_toUInt32]
  simp only [signed32, UInt8.toNat_ofNat']
  generalize n.toUInt32.toNat = u at hn
  have : ((u / 2 ^ 24 % 2 ^ 8 * 256 + u / 2 ^ 16 % 2 ^ 8) * 256 + u / 2 ^ 8 % 2 ^ 8) * 256
      + u % 2 ^ 8 = u := by omega
  rw [this]

/-- Any four bytes are the bytes of a number. -/
theorem exists_wordBytes (a b c d : UInt8) :
    ∃ n : Int32, wordBytes n = [a, b, c, d] ∧ n.toInt = signed32 a b c d := by
  have ha := a.toNat_lt; have hb := b.toNat_lt; have hc := c.toNat_lt; have hd := d.toNat_lt
  let u := ((a.toNat * 256 + b.toNat) * 256 + c.toNat) * 256 + d.toNat
  have hu : u < 2 ^ 32 := by simp only [u]; omega
  have hn : (UInt32.ofNat u).toInt32.toUInt32.toNat = u := by
    rw [UInt32.toUInt32_toInt32, UInt32.toNat_ofNat', Nat.mod_eq_of_lt hu]
  refine ⟨(UInt32.ofNat u).toInt32, ?_, ?_⟩
  · simp only [wordBytes, hn, List.cons.injEq, and_true, ← UInt8.toNat_inj, UInt8.toNat_ofNat']
    simp only [u]
    omega
  · rw [toInt_eq_toUInt32, hn]
    rfl

theorem wordBytes_inj {m n : Int32} (h : wordBytes m = wordBytes n) : m = n := by
  obtain ⟨a, b, c, d, hm, hm'⟩ := wordBytes_eq m
  obtain ⟨a', b', c', d', hn, hn'⟩ := wordBytes_eq n
  rw [hm, hn] at h
  simp only [List.cons.injEq, and_true] at h
  obtain ⟨rfl, rfl, rfl, rfl⟩ := h
  exact Int32.toInt_inj.mp (hm'.symm.trans hn')

theorem wordBytes_append_inj {m n : Int32} {r s : Bytes}
    (h : wordBytes m ++ r = wordBytes n ++ s) : m = n ∧ r = s := by
  have := List.append_inj h rfl
  exact ⟨wordBytes_inj this.1, this.2⟩

theorem words_append_inj {ms ns : List Int32} {r s : Bytes}
    (h : ms.flatMap wordBytes ++ r = ns.flatMap wordBytes ++ s) (hl : ms.length = ns.length) :
    ms = ns ∧ r = s := by
  induction ms generalizing ns with
  | nil =>
    cases ns with
    | nil => exact ⟨rfl, h⟩
    | cons n ns => cases hl
  | cons m ms ih =>
    cases ns with
    | nil => cases hl
    | cons n ns =>
      simp only [List.flatMap_cons, List.append_assoc] at h
      obtain ⟨rfl, hrest⟩ := wordBytes_append_inj h
      obtain ⟨rfl, hr⟩ := ih hrest (by simpa using hl)
      exact ⟨rfl, hr⟩

/-- The words of a table of pairs, one after the other. -/
def pairWords (pairs : List (Int32 × Int32)) : List Int32 :=
  pairs.flatMap fun (value, target) => [value, target]

theorem flatMap_pairWords (pairs : List (Int32 × Int32)) :
    (pairWords pairs).flatMap wordBytes =
      pairs.flatMap fun (value, target) => wordBytes value ++ wordBytes target := by
  simp [pairWords, List.flatMap_assoc]

theorem length_pairWords (pairs : List (Int32 × Int32)) :
    (pairWords pairs).length = 2 * pairs.length := by
  induction pairs with
  | nil => rfl
  | cons p ps ih => simp only [pairWords] at ih ⊢; simp [ih]; omega

theorem pairWords_inj : ∀ {ps qs : List (Int32 × Int32)}, pairWords ps = pairWords qs → ps = qs
  | [], [], _ => rfl
  | [], (_, _) :: _, h => by simp [pairWords] at h
  | (_, _) :: _, [], h => by simp [pairWords] at h
  | (a, b) :: ps, (c, d) :: qs, h => by
    simp only [pairWords, List.flatMap_cons, List.cons_append, List.nil_append,
      List.cons.injEq] at h
    obtain ⟨rfl, rfl, h⟩ := h
    rw [pairWords_inj h]

theorem exists_word_append (bytes : Bytes) (h : 4 ≤ bytes.length) :
    ∃ n rest, bytes = wordBytes n ++ rest := by
  match bytes, h with
  | a :: b :: c :: d :: rest, _ =>
    obtain ⟨n, hn, -⟩ := exists_wordBytes a b c d
    exact ⟨n, rest, by rw [hn]; rfl⟩

theorem exists_words_append (k : Nat) (bytes : Bytes) (h : 4 * k ≤ bytes.length) :
    ∃ (ns : List Int32) (rest : Bytes), ns.length = k ∧ bytes = ns.flatMap wordBytes ++ rest := by
  induction k generalizing bytes with
  | zero => exact ⟨[], bytes, rfl, rfl⟩
  | succ k ih =>
    obtain ⟨n, rest, rfl⟩ := exists_word_append bytes (by omega)
    obtain ⟨ns, rest, hk, rfl⟩ := ih rest
      (by simp only [List.length_append, length_wordBytes] at h; omega)
    exact ⟨n :: ns, rest, by simp [hk], by simp⟩

theorem exists_pairs_append (k : Nat) (bytes : Bytes) (h : 8 * k ≤ bytes.length) :
    ∃ (ps : List (Int32 × Int32)) (rest : Bytes), ps.length = k ∧
      bytes = (pairWords ps).flatMap wordBytes ++ rest := by
  induction k generalizing bytes with
  | zero => exact ⟨[], bytes, rfl, rfl⟩
  | succ k ih =>
    obtain ⟨value, rest, rfl⟩ := exists_word_append bytes (by omega)
    simp only [List.length_append, length_wordBytes] at h
    obtain ⟨target, rest, rfl⟩ := exists_word_append rest (by omega)
    simp only [List.length_append, length_wordBytes] at h
    obtain ⟨ps, rest, hk, rfl⟩ := ih rest (by omega)
    exact ⟨(value, target) :: ps, rest, by simp [hk], by simp [pairWords]⟩

/-! ## Opcodes -/

/-- A property of opcodes that holds of the first 256 numbers. -/
theorem forall_opcode {P : UInt8 → Prop} (h : ∀ n < 256, P (.ofNat n)) (opcode : UInt8) :
    P opcode := by
  have := h opcode.toNat opcode.toNat_lt
  rwa [UInt8.ofNat_toNat] at this

theorem extent_of_takesOperands {opcode : UInt8} {count : Nat}
    (h : takesOperands opcode count = true) : extent opcode = .fixed (count + 1) := by
  have hcount : count < 5 := by
    by_contra hge
    obtain ⟨k, rfl⟩ : ∃ k, count = k + 5 := ⟨count - 5, by omega⟩
    simp [takesOperands, opcodeRanges] at h
  have key : ∀ opcode, ∀ count < 5, takesOperands opcode count = true →
      extent opcode = .fixed (count + 1) := forall_opcode (by decide +kernel)
  exact key opcode count hcount h

/-- What an opcode may be. -/
theorem extent_cases (opcode : UInt8) :
    (∃ count < 5, extent opcode = .fixed (count + 1) ∧ takesOperands opcode count = true) ∨
      (extent opcode = .tableswitch ∧ opcode = 0xAA) ∨
      (extent opcode = .lookupswitch ∧ opcode = 0xAB) ∨ (extent opcode = .wide ∧ opcode = 0xC4) ∨
      extent opcode = .none :=
  forall_opcode (P := fun opcode =>
    (∃ count < 5, extent opcode = .fixed (count + 1) ∧ takesOperands opcode count = true) ∨
      (extent opcode = .tableswitch ∧ opcode = 0xAA) ∨
      (extent opcode = .lookupswitch ∧ opcode = 0xAB) ∨ (extent opcode = .wide ∧ opcode = 0xC4) ∨
      extent opcode = .none) (by decide +kernel) opcode

/-! ## One reading -/

namespace Instruction

theorem extent_opcode {i : Instruction} {offset : Nat} (h : i.WellFormed offset) :
    extent i.opcode = match i with
      | plain _ operands => .fixed (operands.length + 1)
      | tableswitch .. => .tableswitch
      | lookupswitch .. => .lookupswitch
      | wide .. => .wide := by
  cases i with
  | plain opcode operands => exact extent_of_takesOperands h
  | tableswitch | lookupswitch | wide => rfl

/-- The padding of a switch. -/
theorem length_padding {offset length : Nat} (hlt : length < 4)
    (h : (offset + 1 + length) % 4 = 0) : length = switchPadding offset := by
  unfold switchPadding
  omega

/-- The bytes at an offset begin with one instruction at most. -/
theorem bytes_inj {i j : Instruction} {offset : Nat} {r s : Bytes} (hi : i.WellFormed offset)
    (hj : j.WellFormed offset) (h : i.bytes ++ r = j.bytes ++ s) : i = j ∧ r = s := by
  simp only [bytes, List.cons_append, List.cons.injEq] at h
  obtain ⟨hop, h⟩ := h
  have hext := (extent_opcode hi).symm.trans ((congrArg extent hop).trans (extent_opcode hj))
  cases i <;> cases j <;> simp only [reduceCtorEq, Extent.fixed.injEq] at hext
  case plain.plain a xs b ys =>
    simp only [opcode, operandBytes] at hop h
    obtain ⟨rfl, rfl⟩ := List.append_inj h (Nat.succ.inj hext)
    exact ⟨by rw [hop], rfl⟩
  case tableswitch.tableswitch p d l u ts p' d' l' u' ts' =>
    obtain ⟨hp, hp', hn⟩ := hi
    obtain ⟨hq, hq', hn'⟩ := hj
    simp only [operandBytes, List.append_assoc] at h
    obtain ⟨rfl, hwords⟩ := List.append_inj h
      ((length_padding hp hp').trans (length_padding hq hq').symm)
    obtain ⟨rfl, hlow⟩ := wordBytes_append_inj hwords
    obtain ⟨rfl, hhigh⟩ := wordBytes_append_inj hlow
    obtain ⟨rfl, htargets⟩ := wordBytes_append_inj hhigh
    obtain ⟨rfl, hrs⟩ := words_append_inj htargets (by omega)
    exact ⟨rfl, hrs⟩
  case lookupswitch.lookupswitch p d n ps p' d' n' ps' =>
    obtain ⟨hp, hp', hn⟩ := hi
    obtain ⟨hq, hq', hn'⟩ := hj
    simp only [operandBytes, List.append_assoc, ← flatMap_pairWords] at h
    obtain ⟨rfl, hwords⟩ := List.append_inj h
      ((length_padding hp hp').trans (length_padding hq hq').symm)
    obtain ⟨rfl, hcount⟩ := wordBytes_append_inj hwords
    obtain ⟨rfl, hpairs⟩ := wordBytes_append_inj hcount
    have hlen : (pairWords ps).length = (pairWords ps').length := by
      rw [length_pairWords, length_pairWords]
      omega
    obtain ⟨hps, hrs⟩ := words_append_inj hpairs hlen
    exact ⟨by rw [pairWords_inj hps], hrs⟩
  case wide.wide a xs b ys =>
    simp only [operandBytes, List.cons_append, List.cons.injEq] at h
    obtain ⟨rfl, hoperands⟩ := h
    obtain ⟨rfl, hrs⟩ := List.append_inj hoperands (Eq.trans hi (Eq.symm hj))
    exact ⟨rfl, hrs⟩

end Instruction

end MemberAudit.ClassFile
