import Stackwork.Code.Instr
import Stackwork.Slot

/-!
# Code

A finished row of words. Reading takes a position, which may lie outside the code on
either side; there is no word there. Constants of two words have the low half first.
-/
namespace Stackwork

/-- A finished row of code words. -/
structure Code where
  words : Array UInt32
deriving DecidableEq, Inhabited

namespace Code

def empty : Code := ⟨#[]⟩

def ofList (ws : List UInt32) : Code := ⟨ws.toArray⟩

def toList (c : Code) : List UInt32 := c.words.toList

def size (c : Code) : Nat := c.words.size

/-- The word at a position, if it lies inside the code. -/
def word? (c : Code) (pos : Int) : Option UInt32 :=
  if 0 ≤ pos then c.words[pos.toNat]? else none

/-- Two words joined, the first being the low half. -/
def joinWords (low high : UInt32) : UInt64 := low.toUInt64 ||| (high.toUInt64 <<< 32)

/-- The constant of two words that starts at a position. -/
def double? (c : Code) (pos : Int) : Option UInt64 :=
  match c.word? pos, c.word? (pos + 1) with
  | some low, some high => some (joinWords low high)
  | _, _ => none

/-- The word at a position as an instruction. -/
def instr? (c : Code) (pos : Int) : Option Instr := (c.word? pos).map Instr.mk

/-- The word at a position as a signed number. -/
def int? (c : Code) (pos : Int) : Option Int32 := (c.word? pos).map UInt32.toInt32

end Code
end Stackwork
