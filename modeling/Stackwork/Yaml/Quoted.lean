import Stackwork.Text.Bytes

/-!
# Quoted scalars

A quoted scalar may go over several lines. Blank space around a line break is dropped; a
single break stands for a space, and of several all but the first are kept.
-/
namespace Stackwork.Yaml

def isBlank (c : Char) : Bool := c = ' ' || c = '\t'

/-- Blank space that has been passed and not yet written. -/
inductive Gap where
  /-- Blanks inside a line, last first. -/
  | blanks (cs : List Char)
  /-- Line breaks. -/
  | breaks (n : Nat)
  /-- Line breaks behind one that a backslash took away. -/
  | joined (n : Nat)

namespace Gap

def none : Gap := .blanks []

/-- Pass a blank. -/
def blank (g : Gap) (c : Char) : Gap :=
  match g with
  | .blanks cs => .blanks (c :: cs)
  | g => g

/-- Pass a line break. -/
def newline : Gap → Gap
  | .blanks _ => .breaks 1
  | .breaks n => .breaks (n + 1)
  | .joined n => .joined (n + 1)

/-- What is left of the blank space. -/
def text : Gap → List Char
  | .blanks cs => cs.reverse
  | .breaks 1 => [' ']
  | .breaks n => List.replicate (n - 1) '\n'
  | .joined n => List.replicate n '\n'

end Gap

/-- The text of a scalar in single quotes, up to the closing one, which is written twice
where it is part of the text. -/
def single (gap : Gap) : List Char → Option (List Char × List Char)
  | [] => none
  | '\'' :: '\'' :: rest => do
    let (cs, rest) ← single .none rest
    return (gap.text ++ '\'' :: cs, rest)
  | '\'' :: rest => some (gap.text, rest)
  | c :: rest =>
    if c = '\n' then single gap.newline rest
    else if isBlank c then single (gap.blank c) rest
    else do
      let (cs, rest) ← single .none rest
      return (gap.text ++ c :: cs, rest)

/-- The character behind a backslash that stands for one. -/
def escaped? (c : Char) : Option Char :=
  [('0', '\x00'), ('a', '\x07'), ('b', '\x08'), ('t', '\t'), ('\t', '\t'), ('n', '\n'), ('v', '\x0b'),
    ('f', '\x0c'), ('r', '\r'), ('e', '\x1b'), (' ', ' '), ('"', '"'), ('\'', '\''), ('/', '/'),
    ('\\', '\\'), ('N', '\u0085'), ('_', '\u00A0'), ('L', '\u2028'), ('P', '\u2029')].lookup c

/-- The character with a code written in hexadecimal digits. -/
def codePoint? (ds : List Char) : Option Char := do
  let n := (← ds.mapM Text.hexValue?).foldl (fun n d => 16 * n + d) 0
  if n.isValidChar then return Char.ofNat n else none

/-- The text of a scalar in double quotes, up to the closing one. -/
def double (gap : Gap) : List Char → Option (List Char × List Char)
  | [] => none
  | '"' :: rest => some (gap.text, rest)
  | '\\' :: '\n' :: rest => do
    let (cs, rest) ← double (.joined 0) rest
    return (gap.text ++ cs, rest)
  | '\\' :: 'x' :: a :: b :: rest => do
    let c ← codePoint? [a, b]
    let (cs, rest) ← double .none rest
    return (gap.text ++ c :: cs, rest)
  | '\\' :: 'u' :: a :: b :: c :: d :: rest => do
    let c ← codePoint? [a, b, c, d]
    let (cs, rest) ← double .none rest
    return (gap.text ++ c :: cs, rest)
  | '\\' :: 'U' :: a :: b :: c :: d :: e :: f :: g :: h :: rest => do
    let c ← codePoint? [a, b, c, d, e, f, g, h]
    let (cs, rest) ← double .none rest
    return (gap.text ++ c :: cs, rest)
  | '\\' :: c :: rest => do
    let e ← escaped? c
    let (cs, rest) ← double .none rest
    return (gap.text ++ e :: cs, rest)
  | c :: rest =>
    if c = '\n' then double gap.newline rest
    else if isBlank c then double (gap.blank c) rest
    else do
      let (cs, rest) ← double .none rest
      return (gap.text ++ c :: cs, rest)

end Stackwork.Yaml
