import Stackwork.Decimal.Range
import Stackwork.Text.Bytes

/-!
# Nodes of a YAML document

Scalars, sequences and mappings. What a scalar without quotes means depends on its
spelling: nothing, a truth value, a number, or just the text.
-/
namespace Stackwork.Yaml

/-- A node of a document. -/
inductive Node where
  | scalar (plain : Bool) (text : String)
  | sequence (items : List Node)
  | mapping (fields : List (Node × Node))
deriving Inhabited

/-- A place where a node could be, and is not. -/
def Node.empty : Node := .scalar true ""

/-- What a scalar means. -/
inductive Meaning where
  | nothing
  | boolean (b : Bool)
  | integer (n : Int)
  | float (x : Float)
  | text

/-- The number that digits make in a base. -/
def number? (base : Nat) (cs : List Char) : Option Nat := do
  if cs.isEmpty then none
  let ds ← cs.mapM fun c => (Text.hexValue? c).filter (· < base)
  return ds.foldl (fun n d => base * n + d) 0

/-- A number with a base in front; a zero in front stands for base eight. -/
def natural? : List Char → Option Nat
  | '0' :: c :: rest =>
    if c = 'x' || c = 'X' then number? 16 rest
    else if c = 'o' || c = 'O' then number? 8 rest
    else if c = 'b' || c = 'B' then number? 2 rest
    else number? 8 (c :: rest)
  | cs => number? 10 cs

def isSign (c : Char) : Bool := c = '-' || c = '+'

/-- A sign and what follows it. -/
def signed (cs : List Char) : Bool × List Char :=
  match cs with
  | c :: rest => if isSign c then (c = '-', rest) else (false, cs)
  | [] => (false, [])

/-- An integer of 64 bits, with a sign or without. -/
def integer? (cs : List Char) : Option Int := do
  let (negative, rest) := signed cs
  let n ← natural? rest
  if negative then
    if n ≤ Nat.pow 2 63 then return -n else none
  else if n < Nat.pow 2 63 then return n
  else if n < Nat.pow 2 64 && cs.head?.all (!isSign ·) then return n
  else none

def isExponentMark (c : Char) : Bool := c = 'e' || c = 'E'

/-- A decimal number as a double, if it lies in range. -/
def float? (cs : List Char) : Option Float := do
  let (negative, cs) := signed cs
  let mantissa := cs.takeWhile (!isExponentMark ·)
  let whole := mantissa.takeWhile (· ≠ '.')
  let part := (mantissa.dropWhile (· ≠ '.')).tail
  let e : Int ←
    match cs.dropWhile (!isExponentMark ·) with
    | [] => some 0
    | _ :: rest =>
      let (down, rest) := signed rest
      (number? 10 rest).map fun e => if down then -e else e
  let m ← number? 10 (whole ++ part)
  let e := e - part.length
  if Decimal.overflows m e then none
  -- Far below the least double only zero is left.
  let e := max e (-1000 - (Nat.toDigits 10 m).length)
  let x := if m = 0 then 0.0 else Float.ofScientific m (e < 0) e.natAbs
  return if negative then -x else x

/-- What the text of a scalar without quotes means. -/
def meaning (s : String) : Meaning :=
  if s ∈ ["", "~", "null", "Null", "NULL"] then .nothing
  else if s ∈ ["true", "True", "TRUE"] then .boolean true
  else if s ∈ ["false", "False", "FALSE"] then .boolean false
  else if s ∈ [".nan", ".NaN", ".NAN"] then .float (0.0 / 0.0)
  else if s ∈ [".inf", ".Inf", ".INF", "+.inf", "+.Inf", "+.INF"] then .float (1.0 / 0.0)
  else if s ∈ ["-.inf", "-.Inf", "-.INF"] then .float (-1.0 / 0.0)
  else
    let start := s.toList.head?
    if start = some '.' then
      match float? s.toList with
      | some x => .float x
      | none => .text
    else if start.any fun c => c.isDigit || isSign c then
      let cs := s.toList.filter (· ≠ '_')
      match integer? cs with
      | some n => .integer n
      | none =>
        match float? cs with
        | some x => .float x
        | none => .text
    else .text

/-- What a node means as a scalar; a quoted one is always text. -/
def Node.meaning? : Node → Option Meaning
  | .scalar true s => some (meaning s)
  | .scalar false _ => some .text
  | _ => none

end Stackwork.Yaml
