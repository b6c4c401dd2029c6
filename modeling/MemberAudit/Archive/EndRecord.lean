/-
How an archive ends. The end record stands last but for a comment, and anything
may follow it; it says how many entries the directory has and at which offset it
begins. Where its fields are too narrow, a zip64 end record has wider ones, and a
locator between the two says where that one is.

Something may stand in front of an archive, and then its offsets count from a
later place than the beginning of the file, its base. An end record gives the base
by the directory's first header, which is the first one from the offset on; a
locator gives it by the zip64 end record. (`DirectoryPlace.before?`)
-/
import MemberAudit.Archive.Reader

namespace MemberAudit.Archive

def endSignature : Bytes := [0x50, 0x4B, 0x05, 0x06]

def locatorSignature : Bytes := [0x50, 0x4B, 0x06, 0x07]

def zip64Signature : Bytes := [0x50, 0x4B, 0x06, 0x06]

def directorySignature : Bytes := [0x50, 0x4B, 0x01, 0x02]

/-! ## The records -/

/-- The end record. An archive may be cut over several disks: `countHere` is the
number of entries on the last one. -/
structure EndRecord where
  disk : Nat
  directoryDisk : Nat
  countHere : Nat
  count : Nat
  offset : Nat
  deriving DecidableEq, Repr

/-- Reads an end record with its comment. -/
def EndRecord.read : Reader EndRecord := do
  expect endSignature
  let disk ← unsigned 2
  let directoryDisk ← unsigned 2
  let countHere ← unsigned 2
  let count ← unsigned 2
  skip 4
  let offset ← unsigned 4
  skip (← unsigned 2)
  return ⟨disk, directoryDisk, countHere, count, offset⟩

/-- Whether a field is at its limit, so that a wider record may take its place. -/
def EndRecord.isFull (record : EndRecord) : Bool :=
  record.count = 0xFFFF || record.offset = 0xFFFFFFFF

/-- The zip64 end record, with its own size and the versions of the format that
wrote it and that are needed. -/
structure Zip64EndRecord where
  size : Nat
  madeBy : Nat
  needed : Nat
  disk : Nat
  directoryDisk : Nat
  countHere : Nat
  count : Nat
  offset : Nat
  deriving DecidableEq, Repr

def Zip64EndRecord.read : Reader Zip64EndRecord := do
  expect zip64Signature
  let size ← unsigned 8
  let madeBy ← unsigned 2
  let needed ← unsigned 2
  let disk ← unsigned 4
  let directoryDisk ← unsigned 4
  let countHere ← unsigned 8
  let count ← unsigned 8
  skip 8
  let offset ← unsigned 8
  return ⟨size, madeBy, needed, disk, directoryDisk, countHere, count, offset⟩

/-- The locator: the offset of the zip64 end record and the number of disks. -/
structure Locator where
  directoryDisk : Nat
  offset : Nat
  disks : Nat
  deriving DecidableEq, Repr

def Locator.read : Reader Locator := do
  expect locatorSignature
  let directoryDisk ← unsigned 4
  let offset ← unsigned 8
  let disks ← unsigned 4
  return ⟨directoryDisk, offset, disks⟩

def Locator.length : Nat := 20

/-- The locator right before a position. -/
def Locator.before? (bytes : Bytes) (position : Nat) : Option Locator :=
  if position < Locator.length then none
  else inFront? Locator.read (bytes.drop (position - Locator.length))

/-! ## The directory -/

/-- Where the directory is: the number of its entries, the position of the first
one, and the base that offsets count from. -/
structure DirectoryPlace where
  count : Nat
  start : Nat
  base : Nat
  deriving DecidableEq, Repr

/-- The length of an entry's header in the directory. -/
def directoryHeaderLength : Nat := 46

/-- The base by an end record at `position`. It does not matter to an archive
without entries. -/
def EndRecord.base? (bytes : Bytes) (position : Nat) (record : EndRecord) : Option Nat :=
  if record.count = 0 then some (position - record.offset)
  else
    let first? := (places directorySignature bytes).find? fun place =>
      record.offset ≤ place && place + directorySignature.length ≤ position
    first?.map (· - record.offset)

/-- The directory by an end record at `position`. -/
def EndRecord.place? (bytes : Bytes) (position : Nat) (record : EndRecord) :
    Option DirectoryPlace := do
  let base ← record.base? bytes position
  if record.disk ≠ record.directoryDisk then none
  return ⟨record.countHere, base + record.offset, base⟩

/-- Whether a zip64 end record at `place` fits a locator at `position`: it fills
what is between them, and there is room for the directory before it. -/
def Locator.fits (locator : Locator) (position place : Nat) (record : Zip64EndRecord) : Bool :=
  44 ≤ record.size && place + record.size + 12 = position
    && record.directoryDisk = locator.directoryDisk
    && record.count * directoryHeaderLength + record.offset ≤ place

/-- The first zip64 end record that fits a locator at `position`, and its place. -/
def Locator.record? (bytes : Bytes) (position : Nat) (locator : Locator) :
    Option (Nat × Zip64EndRecord) :=
  (places zip64Signature bytes).findSome? fun place => do
    let record ← inFront? Zip64EndRecord.read (bytes.drop place)
    if locator.offset ≤ place && locator.fits position place record then some (place, record)
    else none

/-- The directory by a locator at `position`. -/
def Locator.place? (bytes : Bytes) (position : Nat) (locator : Locator) :
    Option DirectoryPlace := do
  if 1 < locator.disks then none
  let (place, record) ← locator.record? bytes position
  if record.count < record.countHere ∨ record.madeBy < record.needed
      ∨ record.disk ≠ record.directoryDisk then none
  let base := place - locator.offset
  return ⟨record.count, base + record.offset, base⟩

/-- The directory by the end record at a position, and by the zip64 end record if
there is need and a locator. -/
def DirectoryPlace.before? (bytes : Bytes) (position : Nat) : Option DirectoryPlace := do
  let record ← inFront? EndRecord.read (bytes.drop position)
  match if record.isFull then Locator.before? bytes position else none with
  | some locator => locator.place? bytes (position - Locator.length)
  | none => record.place? bytes position

end MemberAudit.Archive
