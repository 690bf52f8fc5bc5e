import Stackwork.Decimal.Shortest
import Stackwork.Text.Numeral

/-!
# Layouts of decimals

How a double is written once its digits are known: which decimal exponents are
written out in places and which with a power of ten, and how wide the exponent is.
-/
namespace Stackwork.Decimal

/-- The choices that turn digits into text. -/
structure Layout where
  /-- The least exponent of the leading digit that is written out in places. -/
  placesFrom : Int
  /-- The least exponent above those. -/
  placesBelow : Int
  /-- The least number of digits of a written exponent. -/
  exponentDigits : Nat

/-- Digits in places, without a power of ten; `lead` is the exponent of the first. -/
def inPlaces (digits : List Char) (lead : Int) : String :=
  if lead < 0 then
    "0." ++ String.ofList (List.replicate (-lead - 1).toNat '0' ++ digits)
  else
    let whole := lead.toNat + 1
    if digits.length ≤ whole then
      String.ofList (digits ++ List.replicate (whole - digits.length) '0')
    else
      String.ofList (digits.take whole) ++ "." ++ String.ofList (digits.drop whole)

/-- One digit, the rest behind the point, and a signed power of ten. -/
def withPower (exponentDigits : Nat) (digits : List Char) (lead : Int) : String :=
  let mantissa :=
    match digits with
    | [] => "0"
    | [d] => d.toString
    | d :: rest => d.toString ++ "." ++ String.ofList rest
  mantissa ++ "e" ++ (if lead < 0 then "-" else "+") ++
    Text.padLeft exponentDigits '0' (toString lead.natAbs)

/-- A finite magnitude in the given layout. -/
def Layout.magnitude (l : Layout) (b : Binary) : String :=
  if b.m = 0 then "0"
  else
    let d := b.shortest
    let digits := Nat.toDigits 10 d.digits
    let lead := d.exponent + digits.length - 1
    if l.placesFrom ≤ lead ∧ lead < l.placesBelow then inPlaces digits lead
    else withPower l.exponentDigits digits lead

/-- The double with the given bits as text. The sign of a NaN is not shown, the sign
of an infinity always is. -/
def Layout.render (l : Layout) (bits : UInt64) : String :=
  let magnitude := bits &&& 0x7fffffffffffffff
  let negative := bits >>> 63 != 0
  if magnitude > 0x7ff0000000000000 then "NaN"
  else if magnitude = 0x7ff0000000000000 then if negative then "-Inf" else "+Inf"
  else (if negative then "-" else "") ++ l.magnitude (Binary.ofBits magnitude)

end Stackwork.Decimal
