/-!
# Scanning text

A scanner takes characters from the front of a text and fails for good when it meets one
it cannot use.
-/
namespace Stackwork.Text

/-- A reading of the front of a text. -/
abbrev Scan := StateT (List Char) Option

namespace Scan

/-- The next character, left where it is. -/
def peek : Scan (Option Char) := return (← get).head?

/-- Take the next character. -/
def next : Scan Char := do
  match ← get with
  | c :: rest =>
    set rest
    return c
  | [] => failure

/-- Take characters as long as they have a property. -/
def run (p : Char → Bool) : Scan (List Char) := do
  let cs ← get
  set (cs.dropWhile p)
  return cs.takeWhile p

/-- Drop characters as long as they have a property. -/
def skip (p : Char → Bool) : Scan Unit := modify (·.dropWhile p)

/-- Take a text if it comes next, and say whether it did. -/
def accept (s : String) : Scan Bool := do
  match s.toList.isPrefixOf? (← get) with
  | some rest =>
    set rest
    return true
  | none => return false

/-- Take a text that has to come next. -/
def expect (s : String) : Scan Unit := do
  if !(← accept s) then failure

/-- Give an outcome that may be missing. -/
def ofOption {α : Type} (o : Option α) : Scan α := fun cs => o.map (·, cs)

end Scan
end Stackwork.Text
