import Stackwork.Code.Opcode
import Stackwork.Text.Numeral

/-!
# Instruction words

An instruction is one 32-bit word: the opcode in the low byte, the kind in the next.
Any word can be looked at as an instruction; it is valid when the opcode exists, is
defined for the kind, and the upper half is clear.
-/
namespace Stackwork

/-- A word looked at as an instruction. -/
structure Instr where
  word : UInt32
deriving DecidableEq, Inhabited

namespace Instr

/-- The instruction with the given opcode byte and kind. -/
def ofBytes (op : UInt8) (k : Kind) : Instr :=
  ⟨op.toUInt32 ||| (k.code.toUInt32 <<< 8)⟩

def make (op : Opcode) (k : Kind) : Instr := ofBytes op.code k

def opByte (i : Instr) : UInt8 := i.word.toUInt8

/-- The opcode, if the low byte is one. -/
def op? (i : Instr) : Option Opcode := Opcode.ofCode? i.opByte

def kind (i : Instr) : Kind := ⟨(i.word >>> 8).toUInt8⟩

/-- Whether the opcode exists and is defined for the kind. -/
def valid (i : Instr) : Bool :=
  i.word >>> 16 == 0 &&
    match i.op? with
    | some op => op.kinds.contains i.kind
    | none => false

/-- How many operand words follow; none after an unknown opcode. -/
def operandWords (i : Instr) : Nat :=
  match i.op? with
  | none => 0
  | some op =>
    match op.operand with
    | .none => 0
    | .word => 1
    | .immediate => i.kind.words

/-- Drop an underscore at the end. -/
def trimUnderscore (s : String) : String :=
  match s.toList.reverse with
  | '_' :: rest => String.ofList rest.reverse
  | _ => s

/-- The mnemonic. An instruction of no kind leaves the kind out. -/
def render (i : Instr) : String :=
  match i.op? with
  | none => "UNKNOWN_" ++ Text.padLeft 4 '0' (Text.hexUpper i.word.toNat)
  | some op =>
    match op.mnemonic with
    | .fixed text => text
    | .around before after =>
      if i.kind = .none then trimUnderscore (before ++ after)
      else before ++ i.kind.name ++ after

end Instr
end Stackwork
