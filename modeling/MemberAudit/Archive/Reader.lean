/-
Reading the records of an archive from the front: runs of bytes, unsigned numbers
of a given width, the low byte first, and the signatures that records begin with.
-/
namespace MemberAudit.Archive

abbrev Bytes := List UInt8

/-- Takes bytes from the front. -/
abbrev Reader := StateT Bytes Option

/-- The next `n` bytes. -/
def chunk (n : Nat) : Reader Bytes := fun bytes =>
  let first := bytes.take n
  if first.length = n then some (first, bytes.drop n) else none

/-- The number that bytes make, the low byte first. -/
def unsignedOf : Bytes → Nat
  | [] => 0
  | b :: rest => b.toNat + 256 * unsignedOf rest

/-- An unsigned number of `width` bytes. -/
def unsigned (width : Nat) : Reader Nat := do
  return unsignedOf (← chunk width)

/-- Passes over `n` bytes. -/
def skip (n : Nat) : Reader Unit := do
  let _ ← chunk n

/-- Passes over a signature that has to be there. -/
def expect (signature : Bytes) : Reader Unit := do
  if (← chunk signature.length) ≠ signature then failure

/-- The value in front of bytes, whatever follows it. -/
def inFront? {α : Type} (reader : Reader α) (bytes : Bytes) : Option α :=
  (reader bytes).map (·.1)

/-- Where a signature stands in `bytes`, which begin at `position`: the last place
first, and then those `found` before. -/
def placesFrom (signature : Bytes) (position : Nat) (found : List Nat) : Bytes → List Nat
  | [] => found
  | b :: rest =>
    let found := if signature.isPrefixOf (b :: rest) then position :: found else found
    placesFrom signature (position + 1) found rest

/-- The places of a signature, the last one first. -/
def placesFromEnd (signature bytes : Bytes) : List Nat :=
  placesFrom signature 0 [] bytes

/-- The places of a signature, the first one first. -/
def places (signature bytes : Bytes) : List Nat :=
  (placesFromEnd signature bytes).reverse

end MemberAudit.Archive
