import Stackwork.Text.Scan
import Stackwork.Toml.Moment
import Stackwork.Toml.Number

/-!
# Reading TOML documents

A document is a row of lines: headers, definitions of keys, comments and blank lines.
Recursion is bounded by the number of characters, of which every step takes at least one.
-/
namespace Stackwork.Toml

open Text (Scan)
open Text.Scan

def isBlank (c : Char) : Bool := c = ' ' || c = '\t'

def isBreak (c : Char) : Bool := c = '\n' || c = '\r'

def isBareKeyChar (c : Char) : Bool := c.isAlphanum || c = '_' || c = '-'

/-- A character of a number, a point in time or a word. -/
def isWordChar (c : Char) : Bool := isBareKeyChar c || c = '.' || c = '+' || c = ':'

/-- The character with a code written in hexadecimal digits. -/
def codePoint? (ds : List Char) : Option Char := do
  let n := ofDigits 16 (← ds.mapM Text.hexValue?)
  if n.isValidChar then return Char.ofNat n else none

/-- The character behind a backslash that stands for one. -/
def escaped? : Char → Option Char
  | 'b' => some '\x08'
  | 't' => some '\t'
  | 'n' => some '\n'
  | 'f' => some '\x0c'
  | 'r' => some '\r'
  | 'e' => some '\x1b'
  | '"' => some '"'
  | '\\' => some '\\'
  | _ => none

/-- Take one text up to its closing quote. In a text of several lines one or two quotes
are part of it, and a backslash at the end of a line takes all blank space behind it
away, which `gap` says is under way. -/
def basic (lines gap : Bool) : List Char → Option (List Char × List Char)
  | [] => none
  | '\\' :: 'x' :: a :: b :: rest => do
    let c ← codePoint? [a, b]
    let (cs, rest) ← basic lines false rest
    return (c :: cs, rest)
  | '\\' :: 'u' :: a :: b :: c :: d :: rest => do
    let c ← codePoint? [a, b, c, d]
    let (cs, rest) ← basic lines false rest
    return (c :: cs, rest)
  | '\\' :: 'U' :: a :: b :: c :: d :: e :: f :: g :: h :: rest => do
    let c ← codePoint? [a, b, c, d, e, f, g, h]
    let (cs, rest) ← basic lines false rest
    return (c :: cs, rest)
  | '\\' :: c :: rest => do
    if lines && (isBlank c || isBreak c) then
      if ((c :: rest).dropWhile isBlank).head?.any isBreak then basic lines true rest else none
    else
      let e ← escaped? c
      let (cs, rest) ← basic lines false rest
      return (e :: cs, rest)
  | '"' :: rest =>
    if !lines then some ([], rest)
    else
      match rest with
      | '"' :: '"' :: '"' :: '"' :: '"' :: _ => none
      | '"' :: '"' :: '"' :: '"' :: rest => some (['"', '"'], rest)
      | '"' :: '"' :: '"' :: rest => some (['"'], rest)
      | '"' :: '"' :: rest => some ([], rest)
      | _ => do
        let (cs, rest) ← basic lines false rest
        return ('"' :: cs, rest)
  | c :: rest =>
    if gap && (isBlank c || isBreak c) then basic lines true rest
    else if !lines && isBreak c then none
    else do
      let (cs, rest) ← basic lines false rest
      return (c :: cs, rest)

/-- Take a literal text of several lines up to its closing quotes. -/
def literalLines : List Char → Option (List Char × List Char)
  | [] => none
  | '\'' :: '\'' :: '\'' :: '\'' :: '\'' :: '\'' :: _ => none
  | '\'' :: '\'' :: '\'' :: '\'' :: '\'' :: rest => some (['\'', '\''], rest)
  | '\'' :: '\'' :: '\'' :: '\'' :: rest => some (['\''], rest)
  | '\'' :: '\'' :: '\'' :: rest => some ([], rest)
  | c :: rest => do
    let (cs, rest) ← literalLines rest
    return (c :: cs, rest)

/-- Take a text as it is written in one way or another. -/
def taking (f : List Char → Option (List Char × List Char)) : Scan String := do
  let (cs, rest) ← ofOption (f (← get))
  set rest
  return String.ofList cs

/-- A text on one line, if a quote comes next. -/
def quoted? : Scan (Option String) := do
  if ← accept "\"" then return some (← taking (basic false false))
  else if ← accept "'" then
    let cs ← run fun c => c ≠ '\'' && !isBreak c
    expect "'"
    return some (String.ofList cs)
  else return none

/-- Drop the line break that may follow the opening quotes of several lines. -/
def skipBreak : Scan Unit := do
  discard (accept "\r")
  discard (accept "\n")

/-- A text, if a quote comes next. -/
def text? : Scan (Option String) := do
  if ← accept "\"\"\"" then
    skipBreak
    return some (← taking (basic true false))
  else if ← accept "'''" then
    skipBreak
    return some (← taking literalLines)
  else quoted?

/-- A part of a key without quotes. -/
def bareKey : Scan String := do
  let cs ← run isBareKeyChar
  if cs.isEmpty then failure
  return String.ofList cs

/-- The parts of a key between its dots. -/
def key : Nat → Scan (List String)
  | 0 => failure
  | fuel + 1 => do
    skip isBlank
    let part ←
      match ← quoted? with
      | some s => pure s
      | none => bareKey
    skip isBlank
    if ← accept "." then return part :: (← key fuel) else return [part]

/-- Everything that is not a text, a list or a table. -/
def word : Scan Value := do
  let cs ← run isWordChar
  if cs = "true".toList then return .boolean true
  else if cs = "false".toList then return .boolean false
  else if isMoment cs then
    match ← get with
    | ' ' :: c :: rest =>
      if isDate cs && c.isDigit then
        if isOffsetTime ((c :: rest).takeWhile isWordChar) then
          set (rest.dropWhile isWordChar)
        else failure
    | _ => pure ()
    return .moment
  else
    match integer? cs with
    | some n => return .integer n
    | none => if isFloat cs then return .float else failure

/-- Drop blank space, line breaks and comments. -/
def dropGap (comment : Bool) : List Char → List Char
  | [] => []
  | c :: rest =>
    if comment then dropGap (!isBreak c) rest
    else if c = '#' then dropGap true rest
    else if isBlank c || isBreak c then dropGap false rest
    else c :: rest

def skipGap : Scan Unit := modify (dropGap false)

mutual

/-- A value. -/
def value : Nat → Scan Value
  | 0 => failure
  | fuel + 1 => do
    skip isBlank
    if let some s ← text? then return .text s
    if ← accept "[" then return .array (← items fuel)
    if ← accept "\x7b" then return .table false (← braced fuel [])
    word

/-- The items of a list, up to its closing bracket. -/
def items : Nat → Scan (List Value)
  | 0 => failure
  | fuel + 1 => do
    skipGap
    if ← accept "]" then return []
    let v ← value fuel
    skipGap
    if ← accept "," then return v :: (← items fuel)
    expect "]"
    return [v]

/-- The definitions of a table in braces, added to those before. -/
def braced : Nat → Fields → Scan Fields
  | 0, _ => failure
  | fuel + 1, fields => do
    skipGap
    if ← accept "\x7d" then return fields
    let path ← key fuel
    expect "="
    let fields ← ofOption (fields.assign path (← value fuel))
    skipGap
    if ← accept "," then braced fuel fields
    else
      expect "\x7d"
      return fields

end

/-- The end of a line, with perhaps a comment before it. -/
def endLine : Scan Unit := do
  skip isBlank
  if ← accept "#" then skip (!isBreak ·)
  if !(← peek).all isBreak then failure

/-- The rest of a document. Definitions belong to the table of the last header. -/
def lines : Nat → List String → Fields → Scan Fields
  | 0, _, _ => failure
  | fuel + 1, context, fields => do
    skipGap
    if (← get).isEmpty then return fields
    if ← accept "[[" then
      let path ← key fuel
      expect "]]"
      endLine
      lines fuel path (← ofOption (fields.openNext path))
    else if ← accept "[" then
      let path ← key fuel
      expect "]"
      endLine
      lines fuel path (← ofOption (fields.openTable path))
    else
      let path ← key fuel
      expect "="
      let v ← value fuel
      endLine
      lines fuel context (← ofOption (fields.within false (·.assign path v) context))

/-- Whether a text holds no control characters other than tabs and line breaks. A
carriage return has a line feed behind it. -/
def isClean : List Char → Bool
  | [] => true
  | '\r' :: '\n' :: rest => isClean rest
  | c :: rest => (c = '\t' || c = '\n' || (c.toNat ≥ 0x20 && c.toNat ≠ 0x7f)) && isClean rest

/-- Read a document. A mark of the byte order in front is ignored. -/
def parse? (s : String) : Option Fields :=
  let cs := s.toList
  let cs := if cs.head? = some '\uFEFF' then cs.tail else cs
  if isClean cs then (lines (cs.length + 2) [] [] cs).map (·.1) else none

end Stackwork.Toml
