/-
Inflating: the data of a deflated entry is a row of bits, read from the low end
of each byte, that holds blocks of literal bytes and of copies from what has been
written. A block is stored as it is, or coded by Huffman codes that are fixed or
come with it.
-/
namespace MemberAudit.Archive.Inflate

abbrev Bits := List Bool

/-- The bits that are left and the bytes that have been written. -/
structure State where
  bits : Bits
  written : Array UInt8

/-- Takes bits from the front and writes bytes. -/
abbrev Inflater := StateT State Option

def byteBits (b : UInt8) : Bits :=
  [0, 1, 2, 3, 4, 5, 6, 7].map fun i => b.toNat.testBit i

def bitsOf (bytes : List UInt8) : Bits :=
  bytes.flatMap byteBits

def bit : Inflater Bool := do
  match (← get).bits with
  | [] => failure
  | b :: rest =>
    modify fun state => { state with bits := rest }
    return b

def write (b : UInt8) : Inflater Unit :=
  modify fun state => { state with written := state.written.push b }

/-- A number of `n` bits, the low end first. -/
def number : Nat → Inflater Nat
  | 0 => pure 0
  | n + 1 => do
    let low ← bit
    let high ← number n
    return low.toNat + 2 * high

/-! ## Huffman codes -/

/-- A code: for each length up to the longest, from one bit on, how many symbols
have it, and the symbols by length and then by number. -/
structure Code where
  counts : List Nat
  symbols : Array Nat

/-- The code whose symbols have the given lengths; a symbol of length zero has
no code word. -/
def Code.ofLengths (lengths : List Nat) : Code :=
  let longest := lengths.foldl max 1
  let byLength := (List.range longest).map fun n =>
    lengths.zipIdx.filterMap fun (length, symbol) => if length = n + 1 then some symbol else none
  ⟨byLength.map List.length, byLength.flatten.toArray⟩

/-- The part of the code space that the code words leave, in code words of the
longest length, or none if they do not fit. -/
def Code.space? (code : Code) : Option Nat :=
  code.counts.foldl (fun left? count => left?.bind fun left =>
    if 2 * left < count then none else some (2 * left - count)) (some 1)

/-- Whether the code words fill the code space. -/
def Code.isComplete (code : Code) : Bool :=
  code.space? = some 0

/-- Whether there is no code word. -/
def Code.isEmpty (code : Code) : Bool :=
  code.symbols.isEmpty

/-- Whether there is one code word, of one bit. -/
def Code.isSingle (code : Code) : Bool :=
  code.counts = [1]

/-- Reads a code word bit by bit: `first` is the first code word of this length,
`index` its symbol's place, and `word` the bits so far. -/
def symbolFrom (code : Code) : List Nat → Nat → Nat → Nat → Inflater Nat
  | [], _, _, _ => failure
  | count :: counts, word, first, index => do
    let word := 2 * word + (← bit).toNat
    if word - first < count then
      match code.symbols[index + (word - first)]? with
      | some symbol => return symbol
      | none => failure
    else symbolFrom code counts word (2 * (first + count)) (index + count)

def Code.symbol (code : Code) : Inflater Nat :=
  symbolFrom code code.counts 0 0 0

/-! ## Blocks -/

/-- The first length and the extra bits of each length symbol from 257 on. -/
def lengthRows : Array (Nat × Nat) :=
  #[(3, 0), (4, 0), (5, 0), (6, 0), (7, 0), (8, 0), (9, 0), (10, 0), (11, 1), (13, 1), (15, 1),
    (17, 1), (19, 2), (23, 2), (27, 2), (31, 2), (35, 3), (43, 3), (51, 3), (59, 3), (67, 4),
    (83, 4), (99, 4), (115, 4), (131, 5), (163, 5), (195, 5), (227, 5), (258, 0)]

/-- The first distance and the extra bits of each distance symbol. -/
def distanceRows : Array (Nat × Nat) :=
  #[(1, 0), (2, 0), (3, 0), (4, 0), (5, 1), (7, 1), (9, 2), (13, 2), (17, 3), (25, 3), (33, 4),
    (49, 4), (65, 5), (97, 5), (129, 6), (193, 6), (257, 7), (385, 7), (513, 8), (769, 8),
    (1025, 9), (1537, 9), (2049, 10), (3073, 10), (4097, 11), (6145, 11), (8193, 12), (12289, 12),
    (16385, 13), (24577, 13)]

/-- The number that a row's symbol and its extra bits stand for. -/
def rowNumber (rows : Array (Nat × Nat)) (symbol : Nat) : Inflater Nat :=
  match rows[symbol]? with
  | none => failure
  | some (first, extra) => do return first + (← number extra)

/-- What has been written with `length` bytes copied from `distance` back, byte
by byte, so that a copy may overlap itself. -/
def copied (written : Array UInt8) (distance : Nat) : Nat → Array UInt8
  | 0 => written
  | length + 1 => copied (written.push (written.getD (written.size - distance) 0)) distance length

/-- Copies from what has been written, if it reaches back that far. -/
def copy (length distance : Nat) : Inflater Unit := do
  if (← get).written.size < distance then failure
  modify fun state => { state with written := copied state.written distance length }

/-- The symbol that ends a block. -/
def endOfBlock : Nat := 256

/-- A coded block. Each symbol takes a bit at least, so the number of bits bounds
the number of symbols. -/
def coded (literals distances : Code) : Nat → Inflater Unit
  | 0 => failure
  | steps + 1 => do
    let symbol ← literals.symbol
    if symbol < endOfBlock then
      write symbol.toUInt8
      coded literals distances steps
    else if symbol ≠ endOfBlock then
      let length ← rowNumber lengthRows (symbol - endOfBlock - 1)
      let distance ← rowNumber distanceRows (← distances.symbol)
      copy length distance
      coded literals distances steps

/-- The code of literals and lengths of a block that brings none. -/
def fixedLiterals : Code :=
  .ofLengths (List.replicate 144 8 ++ List.replicate 112 9 ++ List.replicate 24 7
    ++ List.replicate 8 8)

/-- The code of distances of such a block. -/
def fixedDistances : Code :=
  .ofLengths (List.replicate 30 5)

/-- The order in which the lengths of the code for lengths come. -/
def lengthOrder : List Nat :=
  [16, 17, 18, 0, 8, 7, 9, 6, 10, 5, 11, 4, 12, 3, 13, 2, 14, 1, 15]

/-- `n` code lengths, coded with repeats; `read` holds them last first. -/
def codeLengths (code : Code) (n : Nat) : Nat → List Nat → Inflater (List Nat)
  | 0, _ => failure
  | steps + 1, read =>
    if read.length = n then return read.reverse
    else if n < read.length then failure
    else do
      match ← code.symbol with
      | 16 =>
        match read with
        | [] => failure
        | last :: _ => do
          codeLengths code n steps (List.replicate (3 + (← number 2)) last ++ read)
      | 17 => do codeLengths code n steps (List.replicate (3 + (← number 3)) 0 ++ read)
      | 18 => do codeLengths code n steps (List.replicate (11 + (← number 7)) 0 ++ read)
      | length => codeLengths code n steps (length :: read)

/-- `n` numbers of three bits. -/
def shortNumbers : Nat → Inflater (List Nat)
  | 0 => return []
  | n + 1 => do
    let first ← number 3
    let others ← shortNumbers n
    return first :: others

/-- Whether literals or distances may be coded so: a code that is not complete has
one code word of one bit or none. -/
def Code.isUsable (code : Code) : Bool :=
  code.isComplete || code.isSingle || code.isEmpty

/-- The codes of literals and of distances that come with a block. -/
def dynamicCodes : Inflater (Code × Code) := do
  let literals := (← number 5) + 257
  let distances := (← number 5) + 1
  let given ← shortNumbers ((← number 4) + 4)
  if literals > 286 ∨ distances > 30 then failure
  let code := Code.ofLengths ((List.range 19).map fun symbol =>
    ((lengthOrder.zip given).lookup symbol).getD 0)
  if !code.isComplete then failure
  let all ← codeLengths code (literals + distances) (literals + distances + 1) []
  let literalCode := Code.ofLengths (all.take literals)
  let distanceCode := Code.ofLengths (all.drop literals)
  if !literalCode.isUsable || !distanceCode.isUsable then failure
  return (literalCode, distanceCode)

/-- The next `n` bytes as they are. -/
def storedBytes : Nat → Inflater Unit
  | 0 => return
  | n + 1 => do
    write (← number 8).toUInt8
    storedBytes n

/-- A stored block, which begins at the next whole byte. -/
def stored : Inflater Unit := do
  let _ ← number ((← get).bits.length % 8)
  let length ← number 16
  let complement ← number 16
  if length + complement ≠ 0xFFFF then failure
  storedBytes length

/-- All blocks up to the last one. -/
def blocks : Nat → Inflater Unit
  | 0 => failure
  | steps + 1 => do
    let last ← bit
    match ← number 2 with
    | 0 => stored
    | 1 => do coded fixedLiterals fixedDistances ((← get).bits.length + 1)
    | 2 => do
      let (literals, distances) ← dynamicCodes
      coded literals distances ((← get).bits.length + 1)
    | _ => failure
    if !last then blocks steps

end Inflate

/-- The bytes that were deflated, if the data is whole. What follows the last block
is passed over. -/
def inflate? (bytes : List UInt8) : Option (List UInt8) :=
  let bits := Inflate.bitsOf bytes
  (Inflate.blocks (bits.length + 1) ⟨bits, #[]⟩).map (·.2.written.toList)

end MemberAudit.Archive
