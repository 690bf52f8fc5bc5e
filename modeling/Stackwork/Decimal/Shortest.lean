/-!
# Shortest decimals

The fewest decimal digits that read back as a given binary fraction. A finite
double is `m * 2 ^ q`; the reals that round to it form an interval, whose ends
belong to it when `m` is even. For one digit, two digits and so on, the two
neighbours of the value on that decimal grid are tried in exact arithmetic. The
first grid with a hit decides; of two hits the nearer one wins, and the even one
when both are equally near.
-/
namespace Stackwork.Decimal

/-- The number `digits * 10 ^ exponent`. -/
structure Scaled where
  digits : Nat
  exponent : Int
deriving DecidableEq

/-- A positive binary fraction `m * 2 ^ q`. -/
structure Binary where
  m : Nat
  q : Int
deriving DecidableEq

/-- The magnitude held in the low 63 bits of a finite double. -/
def Binary.ofBits (bits : UInt64) : Binary :=
  let fraction : Nat := bits.toNat % Nat.pow 2 52
  let field : Nat := bits.toNat / Nat.pow 2 52 % Nat.pow 2 11
  if field = 0 then ⟨fraction, -1074⟩ else ⟨fraction + Nat.pow 2 52, (field : Int) - 1075⟩

/-- A nonnegative fraction of naturals. -/
structure Ratio where
  num : Nat
  den : Nat

/-- `m * 2 ^ q` as a fraction. -/
def Ratio.scaled (m : Nat) (q : Int) : Ratio :=
  if 0 ≤ q then ⟨m * Nat.pow 2 q.toNat, 1⟩ else ⟨m, Nat.pow 2 (-q).toNat⟩

/-- `n * 10 ^ e` as a fraction. -/
def Ratio.ofDecimal (n : Nat) (e : Int) : Ratio :=
  if 0 ≤ e then ⟨n * Nat.pow 10 e.toNat, 1⟩ else ⟨n, Nat.pow 10 (-e).toNat⟩

def Ratio.lt (a b : Ratio) : Bool := a.num * b.den < b.num * a.den

def Ratio.le (a b : Ratio) : Bool := a.num * b.den ≤ b.num * a.den

/-- The distance between two fractions. -/
def Ratio.dist (a b : Ratio) : Ratio :=
  let x := a.num * b.den
  let y := b.num * a.den
  ⟨(x - y) + (y - x), a.den * b.den⟩

/-- The reals that round to a binary fraction. -/
structure Interval where
  low : Ratio
  high : Ratio
  closed : Bool

/-- The rounding interval. Below a power of two the doubles lie twice as dense, so
the lower half-gap is half as wide there. -/
def Binary.interval (b : Binary) : Interval :=
  { low := if b.m = Nat.pow 2 52 ∧ -1074 < b.q then .scaled (4 * b.m - 1) (b.q - 2)
           else .scaled (2 * b.m - 1) (b.q - 1)
    high := .scaled (2 * b.m + 1) (b.q - 1)
    closed := b.m % 2 = 0 }

def Interval.contains (i : Interval) (r : Ratio) : Bool :=
  if i.closed then i.low.le r && r.le i.high else i.low.lt r && r.lt i.high

/-- Count down from exponent `e` to the one of the leading digit of `r`. -/
def leadingFrom (r : Ratio) : Nat → Int → Int
  | 0, e => e
  | fuel + 1, e => if (Ratio.ofDecimal 1 e).le r then e else leadingFrom r fuel (e - 1)

/-- The decimal exponent of the leading digit of a positive double. -/
def Binary.leading (b : Binary) : Int := leadingFrom (.scaled b.m b.q) 640 309

/-- The better neighbour of the value among the multiples of `10 ^ e`, if one of them
reads back. -/
def Binary.onGrid? (b : Binary) (e : Int) : Option Nat :=
  let v := Ratio.scaled b.m b.q
  let unit := Ratio.ofDecimal 1 e
  let below := v.num * unit.den / (v.den * unit.num)
  let above := below + 1
  let range := b.interval
  let lo := Ratio.ofDecimal below e
  let hi := Ratio.ofDecimal above e
  match range.contains lo, range.contains hi with
  | false, false => none
  | true, false => some below
  | false, true => some above
  | true, true =>
    let down := v.dist lo
    let up := v.dist hi
    if down.lt up then some below
    else if up.lt down then some above
    else if below % 2 = 0 then some below else some above

/-- Try `n`, `n + 1`, … digits; seventeen always suffice. -/
def Binary.search (b : Binary) (leading : Int) : Nat → Nat → Scaled
  | 0, _ => ⟨0, 0⟩
  | fuel + 1, n =>
    let e := leading - n + 1
    match b.onGrid? e with
    | some d => ⟨d, e⟩
    | none => b.search leading fuel (n + 1)

/-- Drop the zeros at the end of a decimal. -/
def Scaled.normalize : Nat → Scaled → Scaled
  | 0, d => d
  | fuel + 1, d =>
    if d.digits ≠ 0 ∧ d.digits % 10 = 0 then
      normalize fuel ⟨d.digits / 10, d.exponent + 1⟩
    else d

/-- The shortest decimal that reads back as the positive double `b`. -/
def Binary.shortest (b : Binary) : Scaled :=
  (b.search b.leading 18 1).normalize 18

end Stackwork.Decimal
