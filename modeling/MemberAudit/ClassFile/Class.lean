/-
Classes as the audit sees them: their methods with the members that each uses,
and the lines of the source. A method without code, such as an abstract one, is
no part of this; a class one of whose methods cannot be read is not read at all.
-/
import MemberAudit.ClassFile.Layout
import MemberAudit.ClassFile.Code

namespace MemberAudit

open ClassFile

structure Method where
  name : String
  descriptor : String
  /-- By first instruction, ascending. -/
  lines : List LineEntry
  references : List Reference
  deriving DecidableEq, Repr

structure JvmClass where
  name : String
  methods : List Method
  deriving DecidableEq, Repr

namespace ClassFile

/-- Of two entries the one that begins earlier, the first one of a tie. -/
def LineEntry.earlier (a b : LineEntry) : LineEntry :=
  if b.startPc < a.startPc then b else a

/-- The line of the entry that begins earliest, the first one of a tie. -/
def line? : List LineEntry → Option Nat
  | [] => none
  | e :: rest => some (rest.foldl LineEntry.earlier e).line

/-- The line tables of a code's attributes, one after the other. -/
def lineEntries (attributes : List Attribute) : List LineEntry :=
  attributes.flatMap fun
    | .lineNumbers entries => entries
    | _ => []

/-- The lines of a code by first instruction, entries of a tie as they stand in
the file. -/
def sortedLines (attributes : List Attribute) : List LineEntry :=
  (lineEntries attributes).mergeSort fun a b => a.startPc ≤ b.startPc

/-- The first code among the attributes of a method. -/
def code? (attributes : List Attribute) : Option (Bytes × List Attribute) :=
  attributes.findSome? fun
    | .code bytes inner => some (bytes, inner)
    | _ => none

end ClassFile

/-- The line of a method itself. -/
def Method.line? (method : Method) : Option Nat :=
  ClassFile.line? method.lines

/-- Why bytes are not a class. -/
inductive ClassFault where
  | malformed
  | className (fault : PoolFault)
  | methodName (fault : PoolFault)
  | methodDescriptor (fault : PoolFault)
  | code (name descriptor : String) (fault : CodeFault)
  deriving DecidableEq, Repr

/-- The fault, from the whole to the part. -/
def ClassFault.chain : ClassFault → List String
  | malformed => ["failed to parse class file bytes"]
  | className fault => ["resolve class name", fault.message]
  | methodName fault => ["parse method bytecode", "resolve method name", fault.message]
  | methodDescriptor fault => ["parse method bytecode", "resolve method descriptor", fault.message]
  | code name descriptor fault =>
    ["parse method bytecode", "parse bytecode of " ++ name ++ descriptor, fault.message]

namespace ClassFile

/-- A method, or none if it has no code. -/
def method? (pool : Pool) (member : Member) : Except ClassFault (Option Method) := do
  let name ← (pool.utf8 member.name).mapError .methodName
  let descriptor ← (pool.utf8 member.descriptor).mapError .methodDescriptor
  match code? member.attributes with
  | none => return none
  | some (bytes, inner) => do
    let references ← (references pool bytes).mapError (.code name descriptor)
    return some ⟨name, descriptor, sortedLines inner, references⟩

/-- The methods that have code. -/
def methods (pool : Pool) : List Member → Except ClassFault (List Method)
  | [] => return []
  | member :: rest => do
    let first ← method? pool member
    let others ← methods pool rest
    return first.toList ++ others

end ClassFile

namespace JvmClass

/-- The class of a layout. -/
def ofLayout (layout : Layout) : Except ClassFault JvmClass := do
  let name ← (layout.pool.className layout.thisClass).mapError .className
  let methods ← ClassFile.methods layout.pool layout.methods
  return ⟨name, methods⟩

/-- The class of a class file. -/
def ofBytes (bytes : Bytes) : Except ClassFault JvmClass :=
  match Layout.read? bytes with
  | none => .error .malformed
  | some layout => ofLayout layout

end JvmClass
end MemberAudit
