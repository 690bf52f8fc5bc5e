import Stackwork.Text.Scan
import Stackwork.Yaml.Node
import Stackwork.Yaml.Quoted

/-!
# Scalars without quotes, and nodes in brackets

A scalar without quotes ends where a mark begins that cannot be part of it: a colon or a
comment sign next to blank space, and inside brackets also a comma or a bracket. It may
go on in the next line if that line is indented far enough. Inside brackets line breaks
and indentation mean nothing.
-/
namespace Stackwork.Yaml

open Text (Scan)
open Text.Scan

/-- Whether blank space or the end comes next. -/
def atBlank : List Char → Bool
  | [] => true
  | c :: _ => isBlank c || c = '\n'

/-- A character that ends scalars inside brackets. -/
def isFlowMark (c : Char) : Bool :=
  c = ',' || c = '?' || c = '[' || c = ']' || c = '\x7b' || c = '\x7d'

/-- A character that no scalar without quotes begins with, or only when more follows. -/
def isIndicator (c : Char) : Bool :=
  "-?:,[]\x7b\x7d#&*!|>'\"%@`".toList.contains c

/-- Whether a scalar without quotes can begin here. -/
def startsPlain (flow : Bool) : List Char → Bool
  | [] => false
  | c :: rest =>
    !(isIndicator c || atBlank [c]) || (c = '-' && !atBlank rest) ||
      (!flow && (c = '?' || c = ':') && !atBlank rest)

/-- Whether the part of a scalar in one line ends here. -/
def endsPlain (flow : Bool) : List Char → Bool
  | [] => true
  | c :: rest => c = '\n' || (c = ':' && atBlank rest) || (flow && isFlowMark c)

/-- The part of a scalar in one line, without blanks at its end. -/
def plainLine (flow : Bool) : List Char → List Char × List Char
  | [] => ([], [])
  | c :: rest =>
    if endsPlain flow (c :: rest) then ([], c :: rest)
    else
      let behind := rest.dropWhile isBlank
      if isBlank c && (behind.head? = some '#' || endsPlain flow behind) then ([], behind)
      else
        let (line, rest) := plainLine flow rest
        (c :: line, rest)

/-- Pass line breaks and indentation: how many breaks, the column reached, and what comes
there. A tab is no indentation. -/
def nextLine (floor breaks column : Nat) : List Char → Option (Nat × Nat × List Char)
  | [] => some (breaks, column, [])
  | c :: rest =>
    if c = '\n' then nextLine floor (breaks + 1) 0 rest
    else if c = ' ' || (c = '\t' && floor ≤ column) then nextLine floor breaks (column + 1) rest
    else if c = '\t' then none
    else some (breaks, column, c :: rest)

/-- A scalar without quotes. Outside brackets the lines that go on with it start at
column `floor` or behind. -/
def plain (flow : Bool) (floor : Nat) : Nat → List Char → Option (List Char × List Char)
  | 0, _ => none
  | fuel + 1, cs => do
    let (line, rest) := plainLine flow cs
    if rest.head? ≠ some '\n' then return (line, rest)
    let (breaks, column, next) ← nextLine floor 0 0 rest
    if next.isEmpty || next.head? = some '#' || (!flow && column < floor) then return (line, rest)
    let (more, after) ← plain flow floor fuel next
    if more.isEmpty then return (line, rest)
    return (line ++ (Gap.breaks breaks).text ++ more, after)

/-- Take a scalar. -/
def taking (isPlain : Bool) (f : List Char → Option (List Char × List Char)) : Scan Node := do
  let (cs, rest) ← ofOption (f (← get))
  set rest
  return .scalar isPlain (String.ofList cs)

/-- A scalar in one of its three forms. -/
def scalar (flow : Bool) (floor : Nat) : Scan Node := do
  if ← accept "\"" then taking false (double .none)
  else if ← accept "'" then taking false (single .none)
  else
    let cs ← get
    if startsPlain flow cs then taking true (plain flow floor (cs.length + 1)) else failure

/-- Drop blank space, line breaks and comments. -/
def dropGap (comment : Bool) : List Char → List Char
  | [] => []
  | c :: rest =>
    if comment then dropGap (c ≠ '\n') rest
    else if c = '#' then dropGap true rest
    else if isBlank c || c = '\n' then dropGap false rest
    else c :: rest

def skipGap : Scan Unit := modify (dropGap false)

mutual

/-- A node inside brackets, or in brackets itself. -/
def flowNode (floor : Nat) : Nat → Scan Node
  | 0 => failure
  | fuel + 1 => do
    if ← accept "[" then return .sequence (← flowItems floor fuel)
    if ← accept "\x7b" then return .mapping (← flowFields floor fuel)
    scalar true floor

/-- A node that may be missing before a mark, and perhaps a second one behind a colon. -/
def flowEntry (floor : Nat) : Nat → Scan (Node × Option Node)
  | 0 => failure
  | fuel + 1 => do
    let left ← if (← peek) = some ':' then pure .empty else flowNode floor fuel
    skipGap
    if !(← accept ":") then return (left, none)
    skipGap
    if (← peek).any isFlowMark && !(← peek).any (fun c => c = '[' || c = '\x7b') then
      return (left, some .empty)
    return (left, some (← flowNode floor fuel))

/-- The items of a sequence, up to its closing bracket. -/
def flowItems (floor : Nat) : Nat → Scan (List Node)
  | 0 => failure
  | fuel + 1 => do
    skipGap
    if ← accept "]" then return []
    let (left, right) ← flowEntry floor fuel
    let item := match right with
      | none => left
      | some right => .mapping [(left, right)]
    skipGap
    if ← accept "," then return item :: (← flowItems floor fuel)
    expect "]"
    return [item]

/-- The entries of a mapping, up to its closing brace. -/
def flowFields (floor : Nat) : Nat → Scan (List (Node × Node))
  | 0 => failure
  | fuel + 1 => do
    skipGap
    if ← accept "\x7d" then return []
    let (key, value) ← flowEntry floor fuel
    let field := (key, value.getD .empty)
    skipGap
    if ← accept "," then return field :: (← flowFields floor fuel)
    expect "\x7d"
    return [field]

end

/-- A scalar or a node in brackets that stands outside all brackets. -/
def inlineNode (floor : Nat) : Scan Node := do
  match ← peek with
  | some '[' | some '\x7b' => flowNode floor (2 * (← get).length + 2)
  | _ => scalar false floor

end Stackwork.Yaml
