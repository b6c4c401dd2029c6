/-
The 32-bit cyclic redundancy check of archives: the remainder by the polynomial
0xEDB88320, bits reflected, over complemented registers.
-/
namespace MemberAudit.Archive

/-- The register after one bit. -/
def shiftBit (register : UInt32) : UInt32 :=
  if register &&& 1 = 1 then (register >>> 1) ^^^ 0xEDB88320 else register >>> 1

/-- The register after eight bits. -/
def shiftByte (register : UInt32) : UInt32 :=
  shiftBit (shiftBit (shiftBit (shiftBit (shiftBit (shiftBit (shiftBit (shiftBit register)))))))

def checksum (bytes : List UInt8) : UInt32 :=
  ~~~(bytes.foldl (fun register b => shiftByte (register ^^^ b.toUInt32)) 0xFFFFFFFF)

end MemberAudit.Archive
