/-!
# Numerals

Numbers as text: decimal with a minimum width, hexadecimal in either case, and
text brought to a width with blanks. Every width is a minimum, so nothing is ever
cut; a sign takes part in the width of a padded number.
-/
namespace Stackwork.Text

/-- The hexadecimal digits of `n`, most significant first, in lower case. -/
def hex (n : Nat) : String := String.ofList (Nat.toDigits 16 n)

/-- The hexadecimal digits of `n` in upper case. -/
def hexUpper (n : Nat) : String := (hex n).toUpper

/-- Put copies of `c` in front of `s` until it has `width` characters. -/
def padLeft (width : Nat) (c : Char) (s : String) : String :=
  String.ofList (List.replicate (width - s.length) c) ++ s

/-- Put blanks after `s` until it has `width` characters. -/
def padRight (width : Nat) (s : String) : String :=
  s ++ String.ofList (List.replicate (width - s.length) ' ')

/-- `n` in decimal, with zeros after the sign until it has `width` characters. -/
def decimal (width : Nat) (n : Int) : String :=
  if n < 0 then "-" ++ padLeft (width - 1) '0' (toString n.natAbs)
  else padLeft width '0' (toString n.natAbs)

/-- The sixteen hexadecimal digits of a 64-bit word. -/
def hex16 (u : UInt64) : String := padLeft 16 '0' (hex u.toNat)

end Stackwork.Text
