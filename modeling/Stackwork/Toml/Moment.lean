/-!
# Points in time

Dates, times of day, and dates with a time and perhaps an offset. Seconds may be left
out.
-/
namespace Stackwork.Toml

/-- A number of exactly two digits, below a bound, and what follows it. -/
def twoDigits? (bound : Nat) : List Char → Option (Nat × List Char)
  | a :: b :: rest =>
    let n := 10 * (a.toNat - '0'.toNat) + (b.toNat - '0'.toNat)
    if a.isDigit && b.isDigit && n < bound then some (n, rest) else none
  | _ => none

def isLeapYear (y : Nat) : Bool := y % 4 = 0 && (y % 100 ≠ 0 || y % 400 = 0)

def daysInMonth (year month : Nat) : Nat :=
  if month = 2 then (if isLeapYear year then 29 else 28)
  else if month = 4 ∨ month = 6 ∨ month = 9 ∨ month = 11 then 30 else 31

/-- Read a date; gives what follows it. -/
def date? (cs : List Char) : Option (List Char) := do
  let (century, cs) ← twoDigits? 100 cs
  let (year, cs) ← twoDigits? 100 cs
  let '-' :: cs := cs | none
  let (month, cs) ← twoDigits? 13 cs
  let '-' :: cs := cs | none
  let (day, cs) ← twoDigits? 32 cs
  if month ≠ 0 ∧ day ≠ 0 ∧ day ≤ daysInMonth (100 * century + year) month then return cs else none

/-- Read a time of day; gives what follows it. -/
def time? (cs : List Char) : Option (List Char) := do
  let (_, cs) ← twoDigits? 24 cs
  let ':' :: cs := cs | none
  let (_, cs) ← twoDigits? 60 cs
  let ':' :: cs := cs | return cs
  let (_, cs) ← twoDigits? 60 cs
  let '.' :: rest := cs | return cs
  if (rest.takeWhile Char.isDigit).isEmpty then none else return rest.dropWhile Char.isDigit

/-- Whether a text is nothing or an offset from universal time. -/
def isOffset : List Char → Bool
  | [] | ['Z'] | ['z'] => true
  | sign :: cs => (sign = '+' || sign = '-') &&
    match twoDigits? 25 cs with
    | some (_, ':' :: cs) => (twoDigits? 61 cs).any (·.2.isEmpty)
    | _ => false

def isDate (cs : List Char) : Bool := date? cs = some []

/-- Whether a text is a time of day with perhaps an offset. -/
def isOffsetTime (cs : List Char) : Bool := (time? cs).any isOffset

/-- Whether a text without blanks is a point in time. -/
def isMoment (cs : List Char) : Bool :=
  time? cs = some [] ||
    match date? cs with
    | some [] => true
    | some ('T' :: rest) | some ('t' :: rest) => isOffsetTime rest
    | _ => false

end Stackwork.Toml
