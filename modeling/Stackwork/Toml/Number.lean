import Stackwork.Decimal.Range
import Stackwork.Text.Bytes
import Stackwork.Toml.Value

/-!
# Numbers of a TOML document

Integers have a sign in front or a base, and single underscores between digits. A decimal
integer or the front of a float has no leading zeros. Integers have 64 bits, and a float
has to lie in the range of doubles.
-/
namespace Stackwork.Toml

/-- The digits of a number in a base. Underscores stand between two digits only. -/
def digits? (base : Nat) : List Char → Option (List Nat)
  | [] => none
  | [c] => (digit c).map ([·])
  | c :: '_' :: rest => do return (← digit c) :: (← digits? base rest)
  | c :: rest => do return (← digit c) :: (← digits? base rest)
where
  digit (c : Char) : Option Nat := (Text.hexValue? c).filter (· < base)

/-- The number that digits make. -/
def ofDigits (base : Nat) (ds : List Nat) : Nat := ds.foldl (fun n d => base * n + d) 0

/-- Decimal digits without a leading zero. -/
def plainDigits? (cs : List Char) : Option (List Nat) :=
  match cs with
  | '0' :: _ :: _ => none
  | _ => digits? 10 cs

/-- Whether a number fits in 64 bits with a sign. -/
def fits (n : Int) : Bool := -(Nat.pow 2 63 : Int) ≤ n && n < Nat.pow 2 63

/-- A sign and what follows it. -/
def signed : List Char → Bool × List Char
  | '-' :: rest => (true, rest)
  | '+' :: rest => (false, rest)
  | cs => (false, cs)

def integer? (cs : List Char) : Option Int := do
  let n : Int ←
    match cs with
    | '0' :: 'x' :: rest => (digits? 16 rest).map fun ds => ofDigits 16 ds
    | '0' :: 'o' :: rest => (digits? 8 rest).map fun ds => ofDigits 8 ds
    | '0' :: 'b' :: rest => (digits? 2 rest).map fun ds => ofDigits 2 ds
    | _ =>
      let (negative, rest) := signed cs
      (plainDigits? rest).map fun ds => if negative then -ofDigits 10 ds else ofDigits 10 ds
  if fits n then return n else none

/-- The digits behind a point, if there is one. -/
def fraction? : List Char → Option (List Nat)
  | [] => some []
  | '.' :: rest => digits? 10 rest
  | _ => none

/-- The exponent behind its mark, if there is one. -/
def exponent? : List Char → Option Int
  | [] => some 0
  | _ :: rest =>
    let (negative, rest) := signed rest
    (digits? 10 rest).map fun ds => if negative then -ofDigits 10 ds else ofDigits 10 ds

def isExponentMark (c : Char) : Bool := c = 'e' || c = 'E'

/-- Whether a text is a float. -/
def isFloat (cs : List Char) : Bool :=
  let cs := (signed cs).2
  let mantissa := cs.takeWhile (!isExponentMark ·)
  cs = "inf".toList || cs = "nan".toList ||
    match plainDigits? (mantissa.takeWhile (· ≠ '.')), fraction? (mantissa.dropWhile (· ≠ '.')),
      exponent? (cs.dropWhile (!isExponentMark ·)) with
    | some whole, some part, some e => !Decimal.overflows (ofDigits 10 (whole ++ part)) (e - part.length)
    | _, _, _ => false

end Stackwork.Toml
