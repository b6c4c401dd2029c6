/-
The attributes of a class file. Of an attribute only the code of a method and its
line numbers are kept, but every attribute has to be passed over by its own
structure: the length it states is not relied on, and the next attribute starts
where the structure ends. An attribute of a name not listed here makes the class
file unreadable; among these are some that the format knows, as those of modules.
-/
import MemberAudit.ClassFile.Pool

namespace MemberAudit.ClassFile

open Reader

/-- A line of the source and the first instruction made of it. -/
structure LineEntry where
  startPc : Nat
  line : Nat
  deriving DecidableEq, Repr, Inhabited

inductive Attribute where
  | code (bytes : Bytes) (attributes : List Attribute)
  | lineNumbers (entries : List LineEntry)
  | other
  deriving Repr, Inhabited

namespace Attribute

/-- A counted table whose rows have `width` bytes. -/
def skipTable (width : Nat) : Reader Unit := do
  skip ((← u2) * width)

/-! ## Annotations

A value may hold annotations and values, so each reader takes a bound on the
depth; the number of bytes is one that is never reached. -/

mutual

/-- Passes an annotation over: its type and its named values. -/
def skipAnnotated : Nat → Reader Unit
  | 0 => failure
  | depth + 1 => do
    skip 2
    skipTimes (do skip 2; skipElement depth) (← u2)

/-- Passes the value of an annotation over. -/
def skipElement : Nat → Reader Unit
  | 0 => failure
  | depth + 1 => do
    match Char.ofNat (← u1) with
    | 'B' | 'C' | 'D' | 'F' | 'I' | 'J' | 'S' | 'Z' | 's' | 'c' => skip 2
    | 'e' => skip 4
    | '@' => skipAnnotated depth
    | '[' => do skipTimes (skipElement depth) (← u2)
    | _ => failure

end

/-- Passes over where in a declaration or in code a type annotation stands. -/
def skipTarget : Reader Unit := do
  match ← u1 with
  | 0x00 | 0x01 | 0x16 => skip 1
  | 0x10 | 0x11 | 0x12 | 0x17 | 0x42 | 0x43 | 0x44 | 0x45 | 0x46 => skip 2
  | 0x13 | 0x14 | 0x15 => return
  | 0x40 | 0x41 => skipTable 6
  | 0x47 | 0x48 | 0x49 | 0x4A | 0x4B => skip 3
  | _ => failure

def skipTypeAnnotated (depth : Nat) : Reader Unit := do
  skipTarget
  skip ((← u1) * 2)
  skipAnnotated depth

/-! ## Stack maps -/

def skipVerificationType : Reader Unit := do
  let tag ← u1
  if tag ≤ 6 then return
  else if tag ≤ 8 then skip 2
  else failure

def skipFrame : Reader Unit := do
  let kind ← u1
  if kind < 64 then return
  else if kind < 128 then skipVerificationType
  else if kind < 247 then failure
  else if kind = 247 then do skip 2; skipVerificationType
  else if kind < 252 then skip 2
  else if kind < 255 then do skip 2; skipTimes skipVerificationType (kind - 251)
  else do
    skip 2
    skipTimes skipVerificationType (← u2)
    skipTimes skipVerificationType (← u2)

/-! ## All attributes -/

def lineEntry : Reader LineEntry := do
  return ⟨← u2, ← u2⟩

/-- Passes over the structure of an attribute that holds no attributes. -/
def skipPlain (depth length : Nat) : String → Reader Unit
  | "Synthetic" | "Deprecated" => return
  | "ConstantValue" | "SourceFile" | "Signature" | "NestHost" => skip 2
  | "EnclosingMethod" => skip 4
  | "Exceptions" | "NestMembers" | "PermittedSubclasses" => skipTable 2
  | "InnerClasses" => skipTable 8
  | "LocalVariableTable" | "LocalVariableTypeTable" => skipTable 10
  | "MethodParameters" => do skip ((← u1) * 4)
  | "BootstrapMethods" => do skipTimes (do skip 2; skipTable 2) (← u2)
  | "RuntimeVisibleAnnotations" => do
    need length
    skipTimes (skipAnnotated depth) (← u2)
  | "RuntimeInvisibleAnnotations" => do skipTimes (skipAnnotated depth) (← u2)
  | "RuntimeVisibleParameterAnnotations" => do
    skipTimes (do skipTimes (skipAnnotated depth) (← u2)) (← u1)
  | "AnnotationDefault" => do
    need length
    skipElement depth
  | "RuntimeVisibleTypeAnnotations" => do skipTimes (skipTypeAnnotated depth) (← u2)
  | "StackMapTable" => do skipTimes skipFrame (← u2)
  | _ => failure

/-- One attribute. Attributes of its own are read by `inner`, and annotations within
`depth`. -/
def one (pool : Pool) (depth : Nat) (inner : Reader (List Attribute)) : Reader Attribute := do
  match pool.utf8 (← u2) with
  | .error _ => failure
  | .ok name => do
    let length ← u4
    match name with
    | "Code" => do
      skip 4
      let bytes ← take (← u4)
      skipTable 8
      return .code bytes (← inner)
    | "LineNumberTable" => return .lineNumbers (← times lineEntry (← u2))
    | "Record" => do
      skipTimes (do skip 4; let _ ← inner) (← u2)
      return .other
    | name => do
      skipPlain depth length name
      return .other

/-- The attributes of a class, a member, a code or a record component. The depth
bounds how far attributes are nested. -/
def list (pool : Pool) : Nat → Reader (List Attribute)
  | 0 => failure
  | depth + 1 => do times (one pool depth (list pool depth)) (← u2)

end Attribute
end MemberAudit.ClassFile
