/-
Reading big-endian binary data front to back. A reader takes bytes from the front
and fails where they end too early.
-/
namespace MemberAudit.ClassFile

abbrev Bytes := List UInt8

/-- Takes bytes from the front of the data. -/
abbrev Reader := StateT Bytes Option

namespace Reader

variable {α : Type}

/-- One unsigned byte. -/
def u1 : Reader Nat
  | [] => none
  | a :: rest => some (a.toNat, rest)

/-- Two bytes as an unsigned number. -/
def u2 : Reader Nat
  | a :: b :: rest => some (a.toNat * 256 + b.toNat, rest)
  | _ => none

/-- Four bytes as an unsigned number. -/
def u4 : Reader Nat
  | a :: b :: c :: d :: rest =>
    some (((a.toNat * 256 + b.toNat) * 256 + c.toNat) * 256 + d.toNat, rest)
  | _ => none

/-- The next `n` bytes. -/
def take (n : Nat) : Reader Bytes := fun bytes =>
  if bytes.length < n then none else some (bytes.take n, bytes.drop n)

/-- Passes `n` bytes over. -/
def skip (n : Nat) : Reader Unit := fun bytes =>
  if bytes.length < n then none else some ((), bytes.drop n)

/-- Fails unless `n` more bytes are there, and takes none. -/
def need (n : Nat) : Reader Unit := fun bytes =>
  if bytes.length < n then none else some ((), bytes)

/-- The same reading `n` times. -/
def times (read : Reader α) : Nat → Reader (List α)
  | 0 => pure []
  | n + 1 => do
    let first ← read
    let others ← times read n
    return first :: others

/-- The same passing over `n` times. -/
def skipTimes (skip : Reader Unit) : Nat → Reader Unit
  | 0 => pure ()
  | n + 1 => do
    skip
    skipTimes skip n

/-- Fails unless all data has been read. -/
def done : Reader Unit
  | [] => some ((), [])
  | _ :: _ => none

end Reader
end MemberAudit.ClassFile
