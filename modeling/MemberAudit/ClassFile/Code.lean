/-
The members that a method's code uses, in the order of its instructions.
-/
import MemberAudit.ClassFile.Instruction

namespace MemberAudit.ClassFile

/-- The use of a member by an instruction, with the names of the class file. -/
structure Reference where
  owner : String
  name : String
  descriptor : String
  op : MemberOp
  /-- Where in the code the instruction begins. -/
  offset : Nat
  deriving DecidableEq, Repr

namespace Pool

/-- The owner and the name and type of a member entry. A call may be of a class
or an interface method. -/
def memberEntry (pool : Pool) (kind : MemberSort) : Nat → Except PoolFault (Nat × Nat) :=
  pool.find .memberRef fun e =>
    match kind, e with
    | .method, .methodref owner nameAndType => some (owner, nameAndType)
    | .method, .interfaceMethodref owner nameAndType => some (owner, nameAndType)
    | .field, .fieldref owner nameAndType => some (owner, nameAndType)
    | _, _ => none

/-- The member that an instruction at `offset` uses. -/
def reference (pool : Pool) (op : MemberOp) (offset index : Nat) :
    Except ReferenceFault Reference := do
  let (ownerIndex, nameAndType) ← (pool.memberEntry op.kind index).mapError .entry
  let owner ← (pool.className ownerIndex).mapError .owner
  let (nameIndex, descriptorIndex) ← (pool.nameAndType nameAndType).mapError .entry
  let name ← (pool.utf8 nameIndex).mapError .memberName
  let descriptor ← (pool.utf8 descriptorIndex).mapError .memberDescriptor
  return ⟨owner, name, descriptor, op, offset⟩

end Pool

/-- The reference of the instruction at the front of the code, if it is one that
uses a member. -/
def referenceAt (pool : Pool) (offset : Nat) (opcode : UInt8) (operands : Bytes) :
    Except CodeFault (List Reference) :=
  match MemberOp.ofOpcode? opcode with
  | none => .ok []
  | some op =>
    match operands with
    | high :: low :: _ =>
      match pool.reference op offset (high.toNat * 256 + low.toNat) with
      | .ok reference => .ok [reference]
      | .error fault => .error (.reference offset fault)
    | _ => .error .indexOutOfBounds

/-- The references of the code from `offset` on. -/
def referencesFrom (pool : Pool) (offset : Nat) : Bytes → Except CodeFault (List Reference)
  | [] => .ok []
  | opcode :: operands =>
    match _h : instructionLength offset opcode (opcode :: operands) with
    | .error fault => .error fault
    | .ok length =>
      if operands.length + 1 < length then .error (.invalidLength offset)
      else do
        let here ← referenceAt pool offset opcode operands
        let later ← referencesFrom pool (offset + length) ((opcode :: operands).drop length)
        return here ++ later
termination_by code => code.length
decreasing_by
  have := instructionLength_pos _h
  simp only [List.length_drop, List.length_cons]
  omega

/-- The references of a method's code. -/
def references (pool : Pool) (code : Bytes) : Except CodeFault (List Reference) :=
  referencesFrom pool 0 code

end MemberAudit.ClassFile
