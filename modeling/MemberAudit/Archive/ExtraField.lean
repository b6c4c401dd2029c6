/-
The extra fields of an entry. Its header in the directory holds them in a row,
each a kind, a length and the field itself. Some mend the header: they give sizes
and an offset that are too wide for it, names and comments in Unicode, or the
compression method behind an encryption. The others are passed over, but those of
a known kind have to be well formed.
-/
import MemberAudit.Archive.Checksum
import MemberAudit.Archive.CodePage
import MemberAudit.Archive.Reader
import MemberAudit.Text.Utf8

namespace MemberAudit.Archive

/-- What the directory says of an entry. The data takes `packedSize` bytes, and its
own header stands at `offset`. -/
structure Header where
  encrypted : Bool
  /-- Whether the entry is encrypted in the way that an extra field describes. -/
  isSealed : Bool
  method : Nat
  checksum : Nat
  packedSize : Nat
  size : Nat
  offset : Nat
  rawName : Bytes
  name : String
  comment : String
  deriving DecidableEq, Repr

namespace ExtraField

/-- A number of four bytes at its limit, in whose place a wider one stands. -/
def limit : Nat := 0xFFFFFFFF

/-- A number of eight bytes in place of one that is at its limit, and the bytes
that were read for it. A field that is `full` has one for every number. -/
def widened (full : Bool) (narrow : Nat) : Reader (Nat × Nat) := do
  if full || narrow = limit then return (← unsigned 8, 8) else return (narrow, 0)

/-- The field of wider numbers. -/
def zip64 (length : Nat) (header : Header) : Reader Header := do
  let full := 24 ≤ length
  let (size, read1) ← widened full header.size
  let (packedSize, read2) ← widened full header.packedSize
  let (offset, read3) ← widened full header.offset
  let used := read1 + read2 + read3
  if length < used then failure
  skip (length - used)
  return { header with size, packedSize, offset }

/-- The field of fine times, of which there is one kind. -/
def fineTimes (length : Nat) : Reader Unit := do
  if length ≠ 32 then failure
  skip 4
  if (← unsigned 2) ≠ 1 then failure
  if (← unsigned 2) ≠ 24 then failure
  skip 24

/-- The field of times in seconds: flags, and a time for each flag, or one only. -/
def times (length : Nat) : Reader Unit := do
  let flags ← unsigned 1
  let count := (List.range 8).countP flags.testBit
  if length ≠ 5 ∧ length ≠ 1 + 4 * count then failure
  skip (length - 1)

/-- The vendor that a sealing field names. -/
def sealVendor : Nat := 0x4541

/-- The field of an encrypted entry, with the method by which it was packed. -/
def sealing (length : Nat) (header : Header) : Reader Header := do
  if length ≠ 7 then failure
  let version ← unsigned 2
  let vendor ← unsigned 2
  let strength ← unsigned 1
  let method ← unsigned 2
  if vendor ≠ sealVendor then failure
  if version ≠ 1 ∧ version ≠ 2 then failure
  if strength < 1 ∨ 3 < strength then failure
  return { header with isSealed := true, method }

/-- The field of a text in Unicode, which counts for a text that has the checksum
it gives. -/
def unicode (length : Nat) (replaced : Bytes) : Reader (Bytes × String) := do
  skip 1
  let sum ← unsigned 4
  if length < 5 then failure
  let bytes ← chunk (length - 5)
  if (checksum replaced).toNat ≠ sum then failure
  match String.fromUTF8? ⟨bytes.toArray⟩ with
  | some text => return (bytes, text)
  | none => failure

/-- The header mended by one field. -/
def mend (kind length : Nat) (header : Header) : Reader Header := do
  match kind with
  | 0x0001 => zip64 length header
  | 0x000A => fineTimes length; return header
  | 0x5455 => times length; return header
  | 0x6375 =>
    let (_, comment) ← unicode length header.comment.toUTF8.toList
    return { header with comment }
  | 0x7075 =>
    let (rawName, name) ← unicode length header.rawName
    return { header with rawName, name }
  | 0x9901 => sealing length header
  | _ => skip length; return header

/-- The header mended by a row of fields, in which a last byte by itself does not
count. Each field takes a byte at least, which bounds the number of steps. -/
def mendAll : Nat → Header → Bytes → Option Header
  | _, header, [] | _, header, [_] => some header
  | 0, _, _ => none
  | steps + 1, header, bytes => do
    let (kind, bytes) ← unsigned 2 bytes
    let (length, bytes) ← unsigned 2 bytes
    let (header, bytes) ← mend kind length header bytes
    mendAll steps header bytes

end ExtraField

/-- The header mended by its extra fields. -/
def Header.mended? (header : Header) (extra : Bytes) : Option Header :=
  ExtraField.mendAll extra.length header extra

end MemberAudit.Archive
