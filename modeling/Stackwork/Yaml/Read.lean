import Stackwork.Yaml.Flow

/-!
# Reading YAML documents

Outside brackets nesting shows in the indentation: the entries of a mapping and the items
of a sequence start at one column. Read are mappings, sequences and scalars, and of
several documents the first; anchors, tags, block scalars and keys behind a question mark
are not known. Recursion is bounded by the number of characters.
-/
namespace Stackwork.Yaml

open Text (Scan)

/-- What is still to be read, and the column it starts at. -/
structure Cursor where
  rest : List Char
  column : Nat

/-- A reading that keeps track of columns. -/
abbrev Read := StateT Cursor Option

namespace Read

/-- The column behind some characters. -/
def columnAfter (column : Nat) (passed : List Char) : Nat :=
  passed.foldl (fun n c => if c = '\n' then 0 else n + 1) column

/-- Read without columns; says whether a line break was passed. -/
def scan {α : Type} (s : Scan α) : Read (α × Bool) := fun c => do
  let (a, rest) ← s c.rest
  let passed := c.rest.take (c.rest.length - rest.length)
  return ((a, passed.contains '\n'), ⟨rest, columnAfter c.column passed⟩)

/-- From the start of a line, the next place with something other than blanks and
comments. Tabs are no indentation. -/
def contentFrom (comment : Bool) (column : Nat) : List Char → Option Cursor
  | [] => some ⟨[], column⟩
  | c :: rest =>
    if c = '\n' then contentFrom false 0 rest
    else if comment then contentFrom true (column + 1) rest
    else if c = ' ' then contentFrom false (column + 1) rest
    else if c = '#' then contentFrom true (column + 1) rest
    else if c = '\t' then none
    else some ⟨c :: rest, column⟩

/-- Skip blanks inside a line. -/
def skipBlanks : Read Unit := discard (scan (Text.Scan.skip isBlank))

/-- Whether nothing but a comment is left of the line. -/
def atLineEnd : Read Bool := do
  match (← get).rest with
  | [] => return true
  | c :: _ => return c = '\n' || c = '#'

/-- Go on with the next line that has something in it; nothing but a comment may be left
of this one. -/
def endLine : Read Unit := do
  skipBlanks
  if !(← atLineEnd) then failure
  match contentFrom true (← get).column (← get).rest with
  | some c => set c
  | none => failure

/-- Whether a mark with blank space behind it comes next. -/
def atMark (mark : Char) : Read Bool := do
  match (← get).rest with
  | c :: rest => return c = mark && atBlank rest
  | [] => return false

/-- Pass one character. -/
def pass : Read Unit := discard (scan Text.Scan.next)

/-- A key in one line with its colon. -/
def key (floor : Nat) : Read Node := do
  let (k, lines) ← scan (inlineNode floor)
  skipBlanks
  if lines || !(← atMark ':') then failure
  pass
  return k

mutual

/-- A node whose lines start at column `floor` or behind. -/
def node (floor : Nat) : Nat → Read Node
  | 0 => failure
  | fuel + 1 => do
    let column := (← get).column
    if ← atMark '-' then return .sequence (← items false column fuel)
    let (n, lines) ← scan (inlineNode floor)
    skipBlanks
    if ← atMark ':' then
      if lines then failure
      pass
      return .mapping (← fields column n fuel)
    endLine
    return n
termination_by structural fuel => fuel

/-- The entries of a mapping at a column, behind the colon of the key given. -/
def fields (column : Nat) (k : Node) : Nat → Read (List (Node × Node))
  | 0 => failure
  | fuel + 1 => do
    let v ← value column fuel
    let c ← get
    if c.rest.isEmpty || c.column < column then return [(k, v)]
    if c.column > column || (← atMark '-') then failure
    return (k, v) :: (← fields column (← key (column + 1)) fuel)
termination_by structural fuel => fuel

/-- What follows the colon of a key at a column: something in the same line, or a node
further in, or a sequence at the column of the key. -/
def value (column : Nat) : Nat → Read Node
  | 0 => failure
  | fuel + 1 => do
    skipBlanks
    if ← atLineEnd then
      endLine
      let c ← get
      if c.rest.isEmpty then return .empty
      if c.column > column then return ← node (column + 1) fuel
      if c.column = column && (← atMark '-') then return .sequence (← items true column fuel)
      return .empty
    if ← atMark '-' then failure
    let (n, _) ← scan (inlineNode (column + 1))
    endLine
    return n
termination_by structural fuel => fuel

/-- The items of a sequence at a column. Under a key at the same column the sequence may
be followed by the next key. -/
def items (underKey : Bool) (column : Nat) : Nat → Read (List Node)
  | 0 => failure
  | fuel + 1 => do
    pass
    discard (scan (Text.Scan.skip (· = ' ')))
    let n ← do
      if ← atLineEnd then
        endLine
        let c ← get
        if c.rest.isEmpty || c.column ≤ column then pure .empty else node (column + 1) fuel
      else node (column + 1) fuel
    let c ← get
    if c.rest.isEmpty || c.column < column then return [n]
    if c.column = column && (← atMark '-') then return n :: (← items underKey column fuel)
    if underKey && c.column = column then return [n]
    failure
termination_by structural fuel => fuel

end

end Read

/-- Whether a line begins or ends a document. -/
def isMarker (mark : String) (line : List Char) : Bool :=
  match mark.toList.isPrefixOf? line with
  | some rest => atBlank rest
  | none => false

/-- Whether a line holds no content. -/
def isEmptyLine (line : List Char) : Bool :=
  ((line.dropWhile (· = ' ')).head?).all (· = '#')

/-- The lines of the first document, without the mark in front of it. -/
def firstDocument (lines : List (List Char)) : List (List Char) :=
  let body :=
    match lines.dropWhile isEmptyLine with
    | line :: rest => if isMarker "---" line then line.drop 3 :: rest else line :: rest
    | [] => []
  body.takeWhile fun line => !(isMarker "---" line || isMarker "..." line)

/-- All line breaks in one form. -/
def unifyBreaks : List Char → List Char
  | [] => []
  | '\r' :: '\n' :: rest => '\n' :: unifyBreaks rest
  | c :: rest => (if c = '\r' || c = '\u0085' then '\n' else c) :: unifyBreaks rest

/-- Whether a character may occur in a document. -/
def isAllowed (c : Char) : Bool :=
  let n := c.toNat
  c = '\t' || c = '\n' || c = '\r' || (0x20 ≤ n && n ≤ 0x7e) || n = 0x85 ||
    (0xa0 ≤ n && n ≤ 0xfffd) || 0x10000 ≤ n

/-- Split a text at its line breaks. -/
def splitLines : List Char → List (List Char)
  | [] => [[]]
  | c :: rest =>
    if c = '\n' then [] :: splitLines rest
    else
      match splitLines rest with
      | line :: more => (c :: line) :: more
      | [] => [[c]]

/-- Read the first document of a text; one without content is an empty node. -/
def parse? (s : String) : Option Node := do
  let cs := s.toList
  let cs := if cs.head? = some '\uFEFF' then cs.tail else cs
  if !cs.all isAllowed then none
  let cs := ['\n'].intercalate (firstDocument (splitLines (unifyBreaks cs)))
  let start ← Read.contentFrom false 0 cs
  if start.rest.isEmpty then return .empty
  let (n, _) ← Read.node 0 (4 * cs.length + 4) start
  return n

end Stackwork.Yaml
