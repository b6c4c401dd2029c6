/-
The directory of an archive: a header for each entry, with its name, its extra
fields and its comment.
-/
import MemberAudit.Archive.EndRecord
import MemberAudit.Archive.ExtraField

namespace MemberAudit.Archive

/-- A text in UTF-8, as far as it is, or in the code page of archives. -/
def textOf (isUtf8 : Bool) (bytes : Bytes) : String :=
  if isUtf8 then String.ofList (Text.lossy bytes) else codePageText bytes

/-- The compression method of sealed entries, which hides the real one. -/
def sealedMethod : Nat := 99

/-- Reads a header. A sealed entry has to have a sealing field. -/
def Header.read : Reader Header := do
  expect directorySignature
  skip 4
  let flags ← unsigned 2
  let method ← unsigned 2
  skip 4
  let checksum ← unsigned 4
  let packedSize ← unsigned 4
  let size ← unsigned 4
  let nameLength ← unsigned 2
  let extraLength ← unsigned 2
  let commentLength ← unsigned 2
  skip 8
  let offset ← unsigned 4
  let rawName ← chunk nameLength
  let extra ← chunk extraLength
  let rawComment ← chunk commentLength
  let isUtf8 := flags.testBit 11
  let header : Header :=
    { encrypted := flags.testBit 0
      isSealed := false
      method, checksum, packedSize, size, offset, rawName
      name := textOf isUtf8 rawName
      comment := textOf isUtf8 rawComment }
  match header.mended? extra with
  | none => failure
  | some header =>
    if header.method = sealedMethod ∧ !header.isSealed then failure
    return header

/-- The bound of positions in a file. -/
def positionBound : Nat := 0x10000000000000000

/-- A header whose offset counts from the beginning of the file. -/
def Header.placed? (base : Nat) (header : Header) : Option Header :=
  if base + header.offset < positionBound then some { header with offset := base + header.offset }
  else none

/-- Reads `n` headers, whose offsets count from `base`. -/
def readHeaders (base : Nat) : Nat → Reader (List Header)
  | 0 => return []
  | n + 1 => do
    let first ← (← Header.read).placed? base
    let others ← readHeaders base n
    return first :: others

/-- The headers of the directory at a place. -/
def directory? (bytes : Bytes) (place : DirectoryPlace) : Option (List Header) :=
  inFront? (readHeaders place.base place.count) (bytes.drop place.start)

end MemberAudit.Archive
