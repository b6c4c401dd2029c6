/-
UTF-8: which bytes make up a character, and the text of bytes that may not be in
UTF-8 (`lossy`), where the replacement character stands for each part that is not:
for as many bytes as could begin a character, or else for one byte.
-/
namespace MemberAudit.Text

/-- Whether a byte continues a character. -/
def isContinuation (b : UInt8) : Bool :=
  0x80 ≤ b && b ≤ 0xBF

/-- The low six bits of a byte. -/
def low6 (b : UInt8) : Nat :=
  b.toNat % 64

/-- Whether `a` is the first byte of a character of two bytes, which is not
overlong. -/
def isTwoByteLead (a : UInt8) : Bool :=
  0xC2 ≤ a && a ≤ 0xDF

/-- Whether the second byte `b` may follow the first byte `a` of a character of
three bytes that is neither overlong nor a surrogate. -/
def isThreeByteStart (a b : UInt8) : Bool :=
  isContinuation b &&
    if a = 0xE0 then 0xA0 ≤ b
    else if a = 0xED then b ≤ 0x9F
    else 0xE1 ≤ a && a ≤ 0xEF

/-- Whether the second byte `b` may follow the first byte `a` of a character of
four bytes that is neither overlong nor beyond the last character. -/
def isFourByteStart (a b : UInt8) : Bool :=
  isContinuation b &&
    if a = 0xF0 then 0x90 ≤ b
    else if a = 0xF4 then b ≤ 0x8F
    else 0xF1 ≤ a && a ≤ 0xF3

def twoByteChar (a b : UInt8) : Char :=
  .ofNat (a.toNat % 32 * 0x40 + low6 b)

def threeByteChar (a b c : UInt8) : Char :=
  .ofNat (a.toNat % 16 * 0x1000 + low6 b * 0x40 + low6 c)

def fourByteChar (a b c d : UInt8) : Char :=
  .ofNat (a.toNat % 8 * 0x40000 + low6 b * 0x1000 + low6 c * 0x40 + low6 d)

def replacement : Char := '\ufffd'

/-- The text of bytes, whether they are in UTF-8 or not. -/
def lossy : List UInt8 → List Char
  | [] => []
  | a :: afterFirst =>
    if a < 0x80 then Char.ofNat a.toNat :: lossy afterFirst
    else
      match afterFirst with
      | [] => [replacement]
      | b :: afterSecond =>
        if isTwoByteLead a && isContinuation b then twoByteChar a b :: lossy afterSecond
        else if isThreeByteStart a b then
          match afterSecond with
          | [] => [replacement]
          | c :: afterThird =>
            if isContinuation c then threeByteChar a b c :: lossy afterThird
            else replacement :: lossy (c :: afterThird)
        else if isFourByteStart a b then
          match afterSecond with
          | [] => [replacement]
          | c :: afterThird =>
            if isContinuation c then
              match afterThird with
              | [] => [replacement]
              | d :: afterFourth =>
                if isContinuation d then fourByteChar a b c d :: lossy afterFourth
                else replacement :: lossy (d :: afterFourth)
            else replacement :: lossy (c :: afterThird)
        else replacement :: lossy (b :: afterSecond)

/-- A text is read from its own bytes. -/
theorem fromUTF8?_toUTF8 (text : String) : String.fromUTF8? text.toUTF8 = some text :=
  dif_pos text.isValidUTF8

end MemberAudit.Text
