/-
Zip archives, read through their central directory: the end of the archive says
where the directory is, and the directory says where each entry is.

Opening an archive (`Archive.open?`) reads the directory only. An entry by itself
may still not open, or its data turn out damaged (`Entry.content`).

Of the format, the end records with zip64, the directory with the extra fields that
bear on an entry, and the stored and deflated entries are here. The six other
methods by which an entry may be packed are known by number only. An entry packed by
one of them opens, and is then taken as damaged, so that an archive of such entries
cannot be read here even if nothing is wrong with it. Passwords are left out, and so
are the dates and the attributes of the entries, which nothing asks for.
-/
import MemberAudit.Archive.Directory
import MemberAudit.Archive.Inflate

namespace MemberAudit.Archive

/-- An entry as the directory and its own header give it. The data is there
unless that header is not where the directory says. -/
structure Entry where
  name : String
  /-- Whether it takes a password to open the entry. -/
  locked : Bool
  method : Nat
  checksum : Nat
  data? : Option Bytes
  deriving DecidableEq, Repr

/-- What reading an entry gives. -/
inductive Content where
  /-- The entry does not open. -/
  | closed
  /-- The entry opens, but its data does not give what was packed. -/
  | damaged
  | intact (bytes : Bytes)
  deriving DecidableEq, Repr

/-- The methods by which an entry may be packed to open: stored and deflated, and
then deflate64, bzip2, LZMA, Zstandard, XZ and PPMd. How the last six unpack is left
out (`Entry.unpacked?`). -/
def knownMethods : List Nat := [0, 8, 9, 12, 14, 93, 95, 98]

/-- Whether the entry opens. -/
def Entry.opens (entry : Entry) : Bool :=
  entry.data?.isSome && !entry.locked && knownMethods.contains entry.method

/-- The data of an entry as it was packed, without a check. It is told for stored and
deflated entries; nothing is known of what the others hold, be it intact or not. -/
def Entry.unpacked? (entry : Entry) : Option Bytes :=
  match entry.method with
  | 0 => entry.data?
  | 8 => entry.data?.bind inflate?
  | _ => none

/-- The content of an entry. -/
def Entry.content (entry : Entry) : Content :=
  if !entry.opens then .closed
  else
    match entry.unpacked? with
    | none => .damaged
    | some bytes =>
      if (Archive.checksum bytes).toNat = entry.checksum then .intact bytes else .damaged

def entrySignature : Bytes := [0x50, 0x4B, 0x03, 0x04]

/-- Reads an entry's own header, but for its name and its extra fields, and gives
their length. -/
def entryHeader : Reader Nat := do
  expect entrySignature
  skip 22
  let nameLength ← unsigned 2
  let extraLength ← unsigned 2
  return nameLength + extraLength

/-- The data of an entry whose own header stands at `position`, or as much of it as
there is. -/
def dataAt? (bytes : Bytes) (position size : Nat) : Option Bytes := do
  let (between, rest) ← entryHeader (bytes.drop position)
  return (rest.drop between).take size

def Entry.ofHeader (bytes : Bytes) (header : Header) : Entry :=
  { name := header.name
    locked := header.encrypted || header.isSealed
    method := header.method
    checksum := header.checksum
    data? := dataAt? bytes header.offset header.packedSize }

/-- An entry put after those before it, or in place of the one of its name. -/
def addEntry (entry : Entry) : List Entry → List Entry
  | [] => [entry]
  | other :: rest =>
    if other.name = entry.name then entry :: rest else other :: addEntry entry rest

/-- The entries of the directory that the end record at a position leads to, each
name once. -/
def entriesBefore? (bytes : Bytes) (position : Nat) : Option (List Entry) := do
  let place ← DirectoryPlace.before? bytes position
  let headers ← directory? bytes place
  return headers.foldl (fun found header => addEntry (.ofHeader bytes header) found) []

/-- The entries of an archive. Of several end records the last that leads to a
directory counts. -/
def open? (bytes : Bytes) : Option (List Entry) :=
  (placesFromEnd endSignature bytes).findSome? (entriesBefore? bytes)

end MemberAudit.Archive
