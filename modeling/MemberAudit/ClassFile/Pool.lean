/-
The constant pool of a class file: numbered entries that name classes, members
and texts. Entries refer to each other by number, which nothing checks before an
entry is asked for; asking for what is not there is a `PoolFault`.
-/
import MemberAudit.ClassFile.Text

namespace MemberAudit.ClassFile

inductive Entry where
  /-- No entry: the first slot, and the one after an entry of eight bytes. -/
  | empty
  | utf8 (text : String)
  | classInfo (name : Nat)
  | fieldref (owner nameAndType : Nat)
  | methodref (owner nameAndType : Nat)
  | interfaceMethodref (owner nameAndType : Nat)
  | nameAndType (name descriptor : Nat)
  /-- Any other entry. -/
  | other
  deriving DecidableEq, Repr, Inhabited

abbrev Pool := Array Entry

namespace Pool

open Reader

/-- An entry, and whether it fills two slots. -/
def entry : Reader (Entry × Bool) := do
  match ← u1 with
  | 1 => do
    let bytes ← take (← u2)
    match textOf bytes with
    | some text => return (.utf8 text, false)
    | none => failure
  | 3 | 4 => do skip 4; return (.other, false)
  | 5 | 6 => do skip 8; return (.other, true)
  | 7 => return (.classInfo (← u2), false)
  | 9 => return (.fieldref (← u2) (← u2), false)
  | 10 => return (.methodref (← u2) (← u2), false)
  | 11 => return (.interfaceMethodref (← u2) (← u2), false)
  | 12 => return (.nameAndType (← u2) (← u2), false)
  | 15 => do skip 3; return (.other, false)
  | 17 | 18 => do skip 4; return (.other, false)
  | 8 | 16 | 19 | 20 => do skip 2; return (.other, false)
  | _ => failure

/-- The entries of the next `slots` slots. -/
def entries : Nat → Reader (List Entry)
  | 0 => pure []
  | 1 => do return [(← entry).1]
  | slots + 2 => do
    match ← entry with
    | (e, false) => return e :: (← entries (slots + 1))
    | (e, true) => return e :: .empty :: (← entries slots)

/-- A pool with its number of slots in front, the first of which is empty. -/
def read : Reader Pool := do
  match ← u2 with
  | 0 => return #[]
  | count + 1 => return (.empty :: (← entries count)).toArray

end Pool

/-- What an entry should have been. -/
inductive Expected where
  | classInfo
  | utf8
  | nameAndType
  | memberRef
  deriving DecidableEq, Repr

/-- An entry that is not in the pool, or is of another kind. -/
inductive PoolFault where
  | missing (expected : Expected)
  | unexpected (expected : Expected)
  deriving DecidableEq, Repr

def Expected.word : Expected → String
  | classInfo => "class"
  | utf8 => "utf8"
  | nameAndType => "name and type"
  | memberRef => "member ref"

def PoolFault.message : PoolFault → String
  | missing expected => "missing " ++ expected.word ++ " entry"
  | unexpected expected => "unexpected " ++ expected.word ++ " entry"

namespace Pool

/-- The entry of a number, read as `select` says. -/
def find {α : Type} (pool : Pool) (expected : Expected) (select : Entry → Option α) (index : Nat) :
    Except PoolFault α :=
  match pool[index]? with
  | none => .error (.missing expected)
  | some e =>
    match select e with
    | none => .error (.unexpected expected)
    | some a => .ok a

def utf8 (pool : Pool) : Nat → Except PoolFault String :=
  pool.find .utf8 fun
    | .utf8 text => some text
    | _ => none

/-- The internal name of a class entry. -/
def className (pool : Pool) (index : Nat) : Except PoolFault String := do
  let name ← pool.find .classInfo (fun | .classInfo name => some name | _ => none) index
  pool.utf8 name

/-- The numbers of a name and a descriptor. -/
def nameAndType (pool : Pool) : Nat → Except PoolFault (Nat × Nat) :=
  pool.find .nameAndType fun
    | .nameAndType name descriptor => some (name, descriptor)
    | _ => none

end Pool
end MemberAudit.ClassFile
