/-
The layout of a class file: constant pool, the class itself, its fields and
methods, and attributes at each level. Nothing may follow.

The whole layout is read, and only as strictly as is needed to find what comes next: the
versions, the flags, the class above and the interfaces are passed over, numbers of
entries are looked up when they are asked for, and no code is verified. Of the fields
and of the class's own attributes nothing is kept.
-/
import MemberAudit.ClassFile.Attribute

namespace MemberAudit.ClassFile

open Reader

/-- A field or method, its name and descriptor by number. -/
structure Member where
  name : Nat
  descriptor : Nat
  attributes : List Attribute
  deriving Repr

structure Layout where
  pool : Pool
  thisClass : Nat
  methods : List Member
  deriving Repr

namespace Layout

def member (pool : Pool) (depth : Nat) : Reader Member := do
  skip 2
  return ⟨← u2, ← u2, ← Attribute.list pool depth⟩

/-- A class file, with attributes nested no deeper than `depth`. -/
def reader (depth : Nat) : Reader Layout := do
  let magic ← u4
  if magic ≠ 0xCAFEBABE then failure
  skip 4
  let pool ← Pool.read
  skip 2
  let thisClass ← u2
  skip 2
  Attribute.skipTable 2
  let _fields ← times (member pool depth) (← u2)
  let methods ← times (member pool depth) (← u2)
  let _attributes ← Attribute.list pool depth
  done
  return ⟨pool, thisClass, methods⟩

/-- The layout of a whole class file. -/
def read? (bytes : Bytes) : Option Layout :=
  (reader (bytes.length + 1) bytes).map (·.1)

end Layout
end MemberAudit.ClassFile
