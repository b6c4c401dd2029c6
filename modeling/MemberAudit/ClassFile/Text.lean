/-
The texts of a class file. They should be in modified UTF-8, which writes U+0000
in two bytes and a character outside the basic plane as two surrogates of three
bytes each; bytes that are plain UTF-8 are taken as such.
-/
import MemberAudit.ClassFile.Reader
import MemberAudit.Text.Utf8

namespace MemberAudit.ClassFile

open Text

/-- The text of bytes in modified UTF-8. -/
def modifiedUtf8 : Bytes → Option (List Char)
  | [] => some []
  | 0xC0 :: 0x80 :: rest => (modifiedUtf8 rest).map ('\x00' :: ·)
  | 0xED :: b :: c :: rest =>
    if isThreeByteStart 0xED b && isContinuation c then
      (modifiedUtf8 rest).map (threeByteChar 0xED b c :: ·)
    else
      match rest with
      | 0xED :: e :: f :: rest =>
        if 0xA0 ≤ b && b ≤ 0xAF && isContinuation c && 0xB0 ≤ e && e ≤ 0xBF && isContinuation f then
          (modifiedUtf8 rest).map
            (Char.ofNat (0x10000 + (low6 b % 16) * 0x10000 + low6 c * 0x400
              + (low6 e % 16) * 64 + low6 f) :: ·)
        else none
      | _ => none
  | a :: rest =>
    if a = 0 then none
    else if a < 0x80 then (modifiedUtf8 rest).map (Char.ofNat a.toNat :: ·)
    else
      match rest with
      | [] => none
      | b :: rest =>
        if isTwoByteLead a && isContinuation b then
          (modifiedUtf8 rest).map (twoByteChar a b :: ·)
        else
          match rest with
          | [] => none
          | c :: rest =>
            if isThreeByteStart a b && isContinuation c then
              (modifiedUtf8 rest).map (threeByteChar a b c :: ·)
            else none

/-- The text of bytes in UTF-8, or else in modified UTF-8. -/
def textOf (bytes : Bytes) : Option String :=
  match String.fromUTF8? ⟨bytes.toArray⟩ with
  | some s => some s
  | none => (modifiedUtf8 bytes).map String.ofList

end MemberAudit.ClassFile
