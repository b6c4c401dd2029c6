/-
The instructions of a method's code. What matters of an instruction is how many
bytes it takes, and whether it uses a member. The operands of a switch begin at
the next multiple of four, counted from the beginning of the code, so the length
of a switch depends on its offset.
-/
import MemberAudit.ClassFile.Pool
import MemberAudit.Policy
import MemberAudit.Text.Numeral

namespace MemberAudit.ClassFile

/-- The instructions that use a member of a class. -/
inductive MemberOp where
  | getstatic
  | putstatic
  | getfield
  | putfield
  | invokevirtual
  | invokespecial
  | invokestatic
  | invokeinterface
  deriving DecidableEq, Repr, Inhabited

namespace MemberOp

def kind : MemberOp → MemberSort
  | getstatic | putstatic | getfield | putfield => .field
  | invokevirtual | invokespecial | invokestatic | invokeinterface => .method

def mnemonic : MemberOp → String
  | getstatic => "getstatic"
  | putstatic => "putstatic"
  | getfield => "getfield"
  | putfield => "putfield"
  | invokevirtual => "invokevirtual"
  | invokespecial => "invokespecial"
  | invokestatic => "invokestatic"
  | invokeinterface => "invokeinterface"

def all : List MemberOp :=
  [getstatic, putstatic, getfield, putfield, invokevirtual, invokespecial, invokestatic,
   invokeinterface]

def ofMnemonic? (s : String) : Option MemberOp :=
  all.find? (·.mnemonic = s)

def ofOpcode? (opcode : UInt8) : Option MemberOp :=
  match opcode.toNat with
  | 0xB2 => some getstatic
  | 0xB3 => some putstatic
  | 0xB4 => some getfield
  | 0xB5 => some putfield
  | 0xB6 => some invokevirtual
  | 0xB7 => some invokespecial
  | 0xB8 => some invokestatic
  | 0xB9 => some invokeinterface
  | _ => none

end MemberOp

/-- Why a member instruction names no member. -/
inductive ReferenceFault where
  | entry (fault : PoolFault)
  | owner (fault : PoolFault)
  | memberName (fault : PoolFault)
  | memberDescriptor (fault : PoolFault)
  deriving DecidableEq, Repr

def ReferenceFault.message : ReferenceFault → String
  | entry fault => fault.message
  | owner fault => "resolve owner: " ++ fault.message
  | memberName fault => "resolve member name: " ++ fault.message
  | memberDescriptor fault => "resolve member descriptor: " ++ fault.message

/-- Why bytes are no code. -/
inductive CodeFault where
  /-- An instruction goes past the end. -/
  | invalidLength (offset : Nat)
  | unsupportedOpcode (opcode : UInt8)
  /-- The operands of a switch end too early to tell its length. -/
  | operandOutOfBounds
  | tableRange
  | lookupPairs
  | missingWideOpcode
  | indexOutOfBounds
  | reference (offset : Nat) (fault : ReferenceFault)
  deriving DecidableEq, Repr

def CodeFault.message : CodeFault → String
  | invalidLength offset => "invalid bytecode length at offset " ++ Text.decimal offset
  | unsupportedOpcode opcode => "unsupported opcode 0x" ++ String.ofList (Text.hexByte opcode)
  | operandOutOfBounds => "bytecode i32 out of bounds"
  | tableRange => "invalid tableswitch range"
  | lookupPairs => "invalid lookupswitch pairs"
  | missingWideOpcode => "missing wide opcode"
  | indexOutOfBounds => "bytecode u16 out of bounds"
  | reference offset fault =>
    "resolve member ref at offset " ++ Text.decimal offset ++ ": " ++ fault.message

/-! ## Lengths -/

/-- How the length of an instruction is found. -/
inductive Extent where
  | fixed (length : Nat)
  | tableswitch
  | lookupswitch
  | wide
  | none
  deriving DecidableEq, Repr

/-- The extents of opcodes, each row for the opcodes after those of the row
before it and up to its own. -/
def extents : List (Nat × Extent) :=
  [(0x0F, .fixed 1), (0x10, .fixed 2), (0x11, .fixed 3), (0x12, .fixed 2), (0x14, .fixed 3),
   (0x19, .fixed 2), (0x35, .fixed 1), (0x3A, .fixed 2), (0x83, .fixed 1), (0x84, .fixed 3),
   (0x98, .fixed 1), (0xA8, .fixed 3), (0xA9, .fixed 2), (0xAA, .tableswitch),
   (0xAB, .lookupswitch), (0xB1, .fixed 1), (0xB8, .fixed 3), (0xBA, .fixed 5), (0xBB, .fixed 3),
   (0xBC, .fixed 2), (0xBD, .fixed 3), (0xBF, .fixed 1), (0xC1, .fixed 3), (0xC3, .fixed 1),
   (0xC4, .wide), (0xC5, .fixed 4), (0xC7, .fixed 3), (0xC9, .fixed 5), (0xCA, .fixed 1),
   (0xFD, .none), (0xFF, .fixed 1)]

/-- The extent of an opcode. -/
def extent (opcode : UInt8) : Extent :=
  match extents.find? fun (last, _) => opcode.toNat ≤ last with
  | some (_, e) => e
  | none => .none

/-- The bytes between a switch opcode at an offset and its operands. -/
def switchPadding (offset : Nat) : Nat :=
  (4 - (offset + 1) % 4) % 4

/-- Four bytes as a signed number. -/
def signed32 (a b c d : UInt8) : Int :=
  let n := ((a.toNat * 256 + b.toNat) * 256 + c.toNat) * 256 + d.toNat
  if n < 0x80000000 then n else (n : Int) - 0x100000000

/-- The signed operand at a position. -/
def operand (code : Bytes) (position : Nat) : Except CodeFault Int :=
  match code.drop position with
  | a :: b :: c :: d :: _ => .ok (signed32 a b c d)
  | _ => .error .operandOutOfBounds

/-- The length of the instruction at the front of the code, which stands at
`offset` in the method. It may go past the end of the code. -/
def instructionLength (offset : Nat) (opcode : UInt8) (code : Bytes) : Except CodeFault Nat :=
  match extent opcode with
  | .fixed length => .ok length
  | .tableswitch => do
    let base := 1 + switchPadding offset
    let low ← operand code (base + 4)
    let high ← operand code (base + 8)
    if -1 ≤ high - low ∧ high - low + 1 < 0x80000000 then
      .ok (base + 12 + (high - low + 1).toNat * 4)
    else .error .tableRange
  | .lookupswitch => do
    let base := 1 + switchPadding offset
    let pairs ← operand code (base + 4)
    if pairs < 0 then .error .lookupPairs else .ok (base + 8 + pairs.toNat * 8)
  | .wide =>
    match code with
    | _ :: 0x84 :: _ => .ok 6
    | _ :: _ :: _ => .ok 4
    | _ => .error .missingWideOpcode
  | .none => .error (.unsupportedOpcode opcode)

theorem extent_fixed_pos {opcode : UInt8} {length : Nat} (h : extent opcode = .fixed length) :
    0 < length := by
  unfold extent at h
  split at h
  · next last e hfind =>
    have hrows : ∀ row ∈ extents, row.2 ≠ .fixed 0 := by decide
    have := hrows _ (List.mem_of_find?_eq_some hfind)
    cases length with
    | zero => exact absurd h this
    | succ n => omega
  · cases h

/-- An instruction takes one byte at least. -/
theorem instructionLength_pos {offset length : Nat} {opcode : UInt8} {code : Bytes}
    (h : instructionLength offset opcode code = .ok length) : 0 < length := by
  unfold instructionLength at h
  split at h
  · next heq =>
    simp only [Except.ok.injEq] at h
    exact h ▸ extent_fixed_pos heq
  · simp only [bind, Except.bind] at h
    repeat' split at h
    all_goals cases h <;> omega
  · simp only [bind, Except.bind] at h
    repeat' split at h
    all_goals cases h <;> omega
  · split at h <;> cases h <;> omega
  · cases h

end MemberAudit.ClassFile
