import Stackwork.Text.Numeral

/-!
# Bytes as hexadecimal text

Two digits a byte, written in lower case and read in either. Reading tells a
character that is no digit apart from an odd number of digits; the first of these
wins when both are wrong.
-/
namespace Stackwork.Text

/-- Why a text is not a row of bytes. -/
inductive HexError where
  /-- Some character is not a hexadecimal digit. -/
  | notADigit
  /-- Every character is a digit, but the last byte has only one. -/
  | oddLength
deriving DecidableEq

/-- The wording of a failure to read bytes. -/
def HexError.message : HexError → String
  | .notADigit => "encoding/hex: invalid byte"
  | .oddLength => "encoding/hex: odd length hex string"

/-- The value of a hexadecimal digit of either case. -/
def hexValue? (c : Char) : Option Nat :=
  if '0' ≤ c ∧ c ≤ '9' then some (c.toNat - '0'.toNat)
  else if 'a' ≤ c ∧ c ≤ 'f' then some (c.toNat - 'a'.toNat + 10)
  else if 'A' ≤ c ∧ c ≤ 'F' then some (c.toNat - 'A'.toNat + 10)
  else none

/-- Join digit values to bytes, two by two. -/
def pairBytes : List Nat → Except HexError (List UInt8)
  | [] => .ok []
  | [_] => .error .oddLength
  | hi :: lo :: rest => (pairBytes rest).map (UInt8.ofNat (hi * 16 + lo) :: ·)

/-- Read bytes written as hexadecimal text. -/
def parseHex (s : String) : Except HexError (List UInt8) :=
  match s.toList.mapM hexValue? with
  | none => .error .notADigit
  | some digits => pairBytes digits

/-- The two lower-case digits of a byte. -/
def hexByte (b : UInt8) : String := padLeft 2 '0' (hex b.toNat)

/-- Bytes as hexadecimal text. -/
def renderHex (bytes : List UInt8) : String := String.join (bytes.map hexByte)

end Stackwork.Text
