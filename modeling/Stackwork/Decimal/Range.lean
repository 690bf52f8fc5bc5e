/-!
# The range of doubles

Which decimal numbers are too large for a double. The bound is the middle between the
largest double and the next power of two; from there on rounding gives infinity.
-/
namespace Stackwork.Decimal

/-- The least integer that is rounded to infinity. -/
def overflowBound : Nat := Nat.pow 2 1024 - Nat.pow 2 970

/-- Whether `m · 10 ^ e` is too large. Numbers far from the bound are told by their count
of digits. -/
def overflows (m : Nat) (e : Int) : Bool :=
  let magnitude := ((Nat.toDigits 10 m).length : Int) + e
  if m = 0 then false
  else if magnitude ≠ 309 then magnitude > 309
  else m * Nat.pow 10 e.toNat ≥ overflowBound * Nat.pow 10 (-e).toNat

end Stackwork.Decimal
